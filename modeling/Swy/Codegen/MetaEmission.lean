import Swy.Codegen.Expansion
import Swy.Codegen.ControlFlow

/-!
# What the generated code of a meta function does

Executing a meta function performs the callbacks of the structural interpreter, in order and on the
path that is taken (`codegenMeta_compiles`), and the jump pad calls the meta function with the
arguments of the instantiation. The cursor is back where it was behind every node, so the depth a
callback is given is that of the node's place in the contribution.
-/

namespace Swy

open Library

variable {rt : Runtime} {arguments : List Word} {cursor : ASTCursor}

/-! ## The control flow always goes on -/

/-- There is always a block that continues. -/
def AlwaysContinues (c : BlockId → CodegenM (Option BlockId)) : Prop :=
  ∀ ⦃block s r s'⦄, c block s = .ok (r, s') → r.isSome = true

theorem codegenBranch_isSome {c : BlockId → CodegenM (Option BlockId)} {s s' : CodegenState}
    {cont cont' : Option BlockId} {block : BlockId}
    (h : FunctionCodegen.codegenBranch cont c s = .ok ((block, cont'), s'))
    (hc : cont.isSome = true ∨ AlwaysContinues c) : cont'.isSome = true := by
  obtain ⟨-, r, s₁, h₁, ⟨rfl, rfl, -⟩ | ⟨b, c', s₂, rfl, -, rfl, -⟩⟩ := codegenBranch_inv h
  · rcases hc with hcont | hc
    · exact hcont
    · cases hc h₁
  · rfl

theorem codegenFalseBranch_isSome {c : Option (BlockId → CodegenM (Option BlockId))}
    {s s' : CodegenState} {cont cont' : Option BlockId} {block : BlockId}
    (h : FunctionCodegen.codegenFalseBranch cont c s = .ok ((block, cont'), s'))
    (hcont : cont.isSome = true) : cont'.isSome = true := by
  cases c with
  | some d => exact codegenBranch_isSome h (.inl hcont)
  | none =>
    obtain ⟨b, s₁, -, h⟩ := CodegenM.bind_ok.1 h
    obtain ⟨heq, -⟩ := CodegenM.pure_ok.1 h
    cases heq
    rfl

theorem codegenIfStructure_continues {ctx : IRContext} {condition : AST}
    {c : BlockId → CodegenM (Option BlockId)} {d : Option (BlockId → CodegenM (Option BlockId))}
    (hc : AlwaysContinues c) :
    AlwaysContinues fun block => FunctionCodegen.codegenIfStructure ctx block condition c d := by
  intro block s r s' h
  obtain ⟨trueBlock, falseBlock, cont, s₁, s₂, p, s₃, h₁, h₂, -⟩ := codegenIfStructure_inv h
  exact codegenFalseBranch_isSome h₂ (codegenBranch_isSome h₁ (.inr hc))

/-- In sequence, where the first part always continues. -/
theorem Compiles.seq_continues {c : BlockId → CodegenM (Option BlockId)}
    {d : Option BlockId → CodegenM (Option BlockId)} {e f : Exec Flow}
    (hc : Compiles rt arguments cursor c e) (hsome : AlwaysContinues c)
    (hd : Compiles rt arguments cursor (fun block => d (some block)) f) :
    Compiles rt arguments cursor (fun block => do d (← c block)) (Interpreter.andThen e f) := by
  have hseq := hc.seq (d := continueWith fun block => d (some block)) hd continueWith_none
  intro s r s' hs hcursor h
  obtain ⟨r₁, s₁, h₁, h₂⟩ := CodegenM.bind_ok.1 h
  obtain ⟨block, rfl⟩ := Option.isSome_iff_exists.1 (hsome h₁)
  exact hseq hs hcursor (CodegenM.bind_ok.2 ⟨some block, s₁, h₁, h₂⟩)

/-- Only what is generated at the given depth counts. -/
theorem Compiles.congr {c c' : BlockId → CodegenM (Option BlockId)} {e : Exec Flow}
    (hc : Compiles rt arguments cursor c' e)
    (h : ∀ s, s.cursor = cursor → c s.insertPoint s = c' s.insertPoint s) :
    Compiles rt arguments cursor c e := by
  intro s r s' hs hcursor hok
  rw [h s hcursor] at hok
  exact hc hs hcursor hok

/-! ## Depth and regions -/

/-- Below a node the depth is that of its children; behind it, it is the one in front of it. -/
theorem Compiles.descended {kind : ASTKind} {c : BlockId → CodegenM (Option BlockId)}
    {e : Exec Flow} (hc : ∀ cursor', cursor.descend kind = some cursor' →
      Compiles rt arguments cursor' c e) :
    Compiles rt arguments cursor
      (fun block => do
        MetaCodegen.descend kind
        let current ← c block
        MetaCodegen.ascend kind
        return current) e := by
  intro s r s' hs hcursor h
  obtain ⟨_, s₁, h₁, h⟩ := CodegenM.bind_ok.1 h
  obtain ⟨r₁, s₂, h₂, h⟩ := CodegenM.bind_ok.1 h
  obtain ⟨_, s₃, h₃, h⟩ := CodegenM.bind_ok.1 h
  obtain ⟨rfl, rfl⟩ := CodegenM.pure_ok.1 h
  cases hdescend : cursor.descend kind with
  | none =>
    rw [MetaCodegen.descend, hcursor, hdescend] at h₁
    cases h₁
  | some cursor' =>
    rw [MetaCodegen.descend, hcursor, hdescend] at h₁
    cases h₁
    have hs' : CodegenState.Positioned { s with cursor := cursor' } := hs
    obtain ⟨hlater, hblock, hrun⟩ := hc cursor' hdescend hs' rfl h₂
    have hcursor₂ : s₂.cursor = cursor' := hlater.cursor
    rw [MetaCodegen.ascend, hcursor₂, ASTCursor.ascend_descend hdescend] at h₃
    cases h₃
    exact ⟨⟨hlater.blocks, hlater.insertPoint, hlater.positioned, hlater.nextRegister,
      hcursor.symm⟩, hblock, hrun⟩

/-- The builder is positioned at a block that was just created and that the current block jumps
to. -/
def CodegenState.enterRegion (s : CodegenState) : CodegenState :=
  { s with
    blocks := s.blocks.create.append s.insertPoint (.terminator (.br s.blocks.length))
    insertPoint := s.blocks.length }

theorem createRegionAfter_eq (block : BlockId) (s : CodegenState) :
    FunctionCodegen.createRegionAfter block s = .ok (s.blocks.length, s.enterRegion) := rfl

section EnterRegion

variable {s : CodegenState}

theorem length_enterRegion : s.enterRegion.blocks.length = s.blocks.length + 1 := by
  rw [CodegenState.enterRegion, Blocks.length_append, Blocks.length_create]

theorem positioned_enterRegion : s.enterRegion.Positioned :=
  Nat.lt_of_lt_of_eq (Nat.lt_succ_self _) length_enterRegion.symm

theorem grows_enterRegion : s.blocks.Grows s.insertPoint s.enterRegion.blocks :=
  Blocks.grows_create.trans Blocks.grows_append (.inl rfl)

/-- The created block is empty. -/
theorem here_enterRegion (hs : s.Positioned) : s.enterRegion.here = ⟨s.blocks.length, 0⟩ := by
  have hnil : s.enterRegion.blocks.code s.blocks.length = [] := by
    rw [CodegenState.enterRegion, Blocks.code_append_of_ne (Nat.ne_of_gt hs), Blocks.code_create]
    exact Blocks.code_of_length_le (Nat.le_refl _)
  exact congrArg (Point.mk s.blocks.length) (congrArg List.length hnil)

/-- The code goes on in the region. -/
theorem reaches_enterRegion (hs : s.Positioned) {code : Blocks Instruction}
    (hcode : s.enterRegion.blocks.Extends code) (m : Machine) :
    Reaches (step rt arguments code) (s.here, m) (s.enterRegion.here, m) := by
  have hpos : CodegenState.Positioned { s with blocks := s.blocks.create } :=
    Nat.lt_of_lt_of_le hs (Blocks.grows_create (b := 0)).length
  have hhere : CodegenState.here { s with blocks := s.blocks.create } = s.here :=
    congrArg (Point.mk s.insertPoint) (congrArg List.length Blocks.code_create)
  have hstep : step rt arguments code _ = _ := step_terminated hpos hcode m
  rw [hhere] at hstep
  rw [here_enterRegion hs]
  exact .single hstep

end EnterRegion

/-- A region of its own: the current block jumps to it. -/
theorem Compiles.region {c : BlockId → CodegenM (Option BlockId)} {e : Exec Flow}
    (hc : Compiles rt arguments cursor c e) :
    Compiles rt arguments cursor
      (fun block => do c (← FunctionCodegen.createRegionAfter block)) e := by
  intro s r s' hs hcursor h
  obtain ⟨created, s₁, h₁, h₂⟩ := CodegenM.bind_ok.1 h
  cases (createRegionAfter_eq _ s).symm.trans h₁
  obtain ⟨hlater, hblock, hrun⟩ := hc positioned_enterRegion hcursor h₂
  have hle : s.blocks.length ≤ s.enterRegion.blocks.length := grows_enterRegion.length
  refine ⟨⟨grows_enterRegion.trans hlater.blocks (.inr (Nat.le_refl _)), .inr ?_,
    hlater.positioned, hlater.nextRegister, hlater.cursor⟩, hblock, fun code hcode m => ?_⟩
  · rcases hlater.insertPoint with heq | hle'
    · exact Nat.le_of_eq heq.symm
    · exact Nat.le_trans hle hle'
  · obtain ⟨m', hafter, hcompl⟩ := hrun code hcode m
    exact ⟨m', hafter,
      hcompl.of_reaches (reaches_enterRegion hs (hlater.blocks.toExtends.trans hcode) m)⟩

/-! ## The callbacks -/

/-- Introduces a declaration at a depth that is given. -/
def MetaCodegen.introduceAt (level : DepthLevel) (decl : Node) (value : Operand) :
    CodegenM Unit :=
  match decl.name?, value with
  | some _, .alloca storage => FunctionCodegen.emit (.introduce decl storage level)
  | _, _ => throw .castFailed

theorem createIntroduceNode_eq (decl : Node) (value : Operand) (s : CodegenState) :
    MetaCodegen.createIntroduceNode decl value s =
      MetaCodegen.introduceAt s.cursor.depth decl value s := by
  unfold MetaCodegen.createIntroduceNode MetaCodegen.introduceAt
  cases decl.name? with
  | none => rfl
  | some name => cases value <;> rfl

theorem introduceAt_emits (level : DepthLevel) (decl : Node) :
    Emits rt arguments .trivial
      (FunctionCodegen.lookupLocal decl.id >>= MetaCodegen.introduceAt level decl)
      (do
        let value ← Exec.load decl.id
        Exec.emit (.introduce decl value level)) (fun _ _ => .trivial) := by
  refine .after lookupLocal_emits fun o => ?_
  unfold MetaCodegen.introduceAt
  split
  · refine .emit fun n m h => ?_
    cases h.2.2
    rfl
  · exact .throw

/-- The declarations are introduced with the values of their variables, at the current depth. -/
theorem introduceDecls_compiles (decls : List Node) :
    Compiles rt arguments cursor
      (fun block => do
        MetaCodegen.introduceDecls decls
        return some block)
      (do
        Interpreter.introduceDecls cursor.depth decls
        return .next) := by
  induction decls with
  | nil => exact Compiles.skip
  | cons decl decls ih =>
    have hafter : Compiles rt arguments cursor _ _ :=
      Compiles.after (introduceAt_emits cursor.depth decl) ih
    simp only [bind_assoc] at hafter
    simp only [Interpreter.introduceDecls, bind_assoc]
    refine hafter.congr fun s hs => ?_
    simp only [MetaCodegen.introduceDecls, bind_assoc]
    refine CodegenM.bind_congr fun o s₁ hlookup => ?_
    obtain ⟨-, rfl, -⟩ := lookupLocal_ok hlookup
    simp only [Bind.bind, StateT.bind, createIntroduceNode_eq, hs]

/-- The code of a contributed node. -/
theorem codegenContributed_compiles {node : Node} {c : BlockId → CodegenM (Option BlockId)}
    {e : Exec Flow} (hc : ∀ cursor', cursor.descend node.kind = some cursor' →
      Compiles rt arguments cursor' c e) (hsome : AlwaysContinues c) :
    Compiles rt arguments cursor (fun block => MetaCodegen.codegenContributed node block c)
      (Interpreter.execContributed node e) := by
  have hbody (cursor' : ASTCursor) (hcursor' : cursor.descend node.kind = some cursor') :
      Compiles rt arguments cursor'
        (fun block => do
          MetaCodegen.createContributeNode node
          let current ← c block
          if node.isNodeRequiringReduceMarker then MetaCodegen.createReduceNode
          return current)
        (Interpreter.execContributed node e) := by
    have hcontribute : Emits rt arguments .trivial (MetaCodegen.createContributeNode node)
        (Exec.emit (.contribute node)) fun _ _ => .trivial := .emit fun _ _ _ => rfl
    have hreduce : Compiles rt arguments cursor'
        (fun block => do
          if node.isNodeRequiringReduceMarker then MetaCodegen.createReduceNode
          return some block)
        (do
          if node.isNodeRequiringReduceMarker then Exec.emit .reduce
          return .next) := by
      by_cases hmarker : node.isNodeRequiringReduceMarker = true
      · simp only [hmarker, if_true]
        have hemits : Emits rt arguments .trivial MetaCodegen.createReduceNode
            (Exec.emit .reduce) fun _ _ => .trivial := .emit fun _ _ _ => rfl
        exact .of_emits hemits
      · simp only [hmarker]
        exact .skip
    exact .after hcontribute (hc cursor' hcursor' |>.seq_continues
      (d := fun current => do
        if node.isNodeRequiringReduceMarker then MetaCodegen.createReduceNode
        return current) hsome hreduce)
  have hdescended : Compiles rt arguments cursor _ _ := Compiles.descended hbody
  simp only [bind_assoc] at hdescended
  refine hdescended.congr fun s _ => ?_
  unfold MetaCodegen.codegenContributed
  split <;> simp only [bind_assoc, pure_bind]

/-! ## Meta code -/

section

variable (ctx : IRContext)

theorem codegenMetaCalculation_continues {decls : List Node}
    {c : BlockId → CodegenM (Option BlockId)} :
    AlwaysContinues fun block => MetaCodegen.codegenMetaCalculation decls block c := by
  intro block s r s' h
  obtain ⟨created, s₁, -, h⟩ := CodegenM.bind_ok.1 h
  obtain ⟨current, s₂, -, h⟩ := CodegenM.bind_ok.1 h
  cases current with
  | none => exact (CodegenM.throw_ok.1 h).elim
  | some current =>
    obtain ⟨_, s₃, -, h⟩ := CodegenM.bind_ok.1 h
    obtain ⟨rfl, -⟩ := CodegenM.pure_ok.1 h
    rfl

theorem codegenContributed_continues {node : Node} {c : BlockId → CodegenM (Option BlockId)}
    (hc : AlwaysContinues c) :
    AlwaysContinues fun block => MetaCodegen.codegenContributed node block c := by
  intro block s r s' h
  unfold MetaCodegen.codegenContributed at h
  obtain ⟨_, s₁, -, h⟩ := CodegenM.bind_ok.1 h
  obtain ⟨_, s₂, -, h⟩ := CodegenM.bind_ok.1 h
  obtain ⟨current, s₃, h₃, h⟩ := CodegenM.bind_ok.1 h
  have hend {s₄ : CodegenState} (h : (do
      MetaCodegen.ascend node.kind
      return current : CodegenM (Option BlockId)) s₄ = .ok (r, s')) : r.isSome = true := by
    obtain ⟨_, s₅, -, h⟩ := CodegenM.bind_ok.1 h
    obtain ⟨rfl, -⟩ := CodegenM.pure_ok.1 h
    exact hc h₃
  split at h
  · obtain ⟨_, s₄, -, h⟩ := CodegenM.bind_ok.1 h
    exact hend h
  · exact hend h

theorem codegenChildrenContribution_continues {cs : List AST}
    (h : ∀ c ∈ cs, AlwaysContinues fun block => MetaCodegen.codegenMeta ctx block c) :
    AlwaysContinues fun block => MetaCodegen.codegenChildrenContribution ctx (some block) cs := by
  induction cs with
  | nil =>
    intro block s r s' hok
    obtain ⟨rfl, -⟩ := CodegenM.pure_ok.1 hok
    rfl
  | cons c cs ih =>
    intro block s r s' hok
    obtain ⟨_, s₁, hblock, hok⟩ := CodegenM.bind_ok.1 hok
    obtain ⟨rfl, rfl⟩ := CodegenM.pure_ok.1 hblock
    obtain ⟨current, s₂, hc, hok⟩ := CodegenM.bind_ok.1 hok
    obtain ⟨b, rfl⟩ := Option.isSome_iff_exists.1 (h c List.mem_cons_self hc)
    exact ih (fun x hx => h x (List.mem_cons_of_mem _ hx)) hok

/-- Behind meta code the control flow goes on. -/
theorem codegenMeta_continues (a : AST) :
    AlwaysContinues fun block => MetaCodegen.codegenMeta ctx block a := by
  induction a using Rose.ind with
  | h n cs ih =>
    obtain ⟨⟨id, data⟩, decl, exportedDecls⟩ := n
    have hfault (fault : CodegenFault) : AlwaysContinues fun _ => throw fault :=
      fun _ _ _ _ h => (CodegenM.throw_ok.1 h).elim
    cases data with
    | metaDecl name => exact hfault _
    | metaUnit inst => exact hfault _
    | metaContribution => exact codegenChildrenContribution_continues ctx ih
    | metaIfStmt =>
      rcases cs with _ | ⟨condition, _ | ⟨trueBranch, _ | ⟨falseBranch, _ | ⟨c, cs⟩⟩⟩⟩
      · exact hfault _
      · exact hfault _
      · exact codegenIfStructure_continues (ih trueBranch (by simp))
      · exact codegenIfStructure_continues (ih trueBranch (by simp))
      · exact hfault _
    | metaCalculationStmt =>
      rcases cs with _ | ⟨stmt, _ | ⟨c, cs⟩⟩
      · exact hfault _
      · exact codegenMetaCalculation_continues
      · exact hfault _
    | _ =>
      exact codegenContributed_continues (codegenChildrenContribution_continues ctx ih)

theorem codegenMetaCalculation_compiles {decls : List Node}
    {c : BlockId → CodegenM (Option BlockId)} {e : Exec Flow}
    (hc : Compiles rt arguments cursor c e) :
    Compiles rt arguments cursor
      (fun block => MetaCodegen.codegenMetaCalculation decls block c)
      (Interpreter.andThen e do
        Interpreter.introduceDecls cursor.depth decls
        return .next) := by
  have hregion : Compiles rt arguments cursor _ _ := hc.region
  intro s r s' hs hcursor h
  unfold MetaCodegen.codegenMetaCalculation at h
  have hseq := hregion.seq
    (d := continueWith fun block => do
      MetaCodegen.introduceDecls decls
      return some block)
    (introduceDecls_compiles decls) continueWith_none
  refine hseq hs hcursor ?_
  obtain ⟨created, s₁, h₁, h⟩ := CodegenM.bind_ok.1 h
  obtain ⟨current, s₂, h₂, h⟩ := CodegenM.bind_ok.1 h
  cases current with
  | none => exact (CodegenM.throw_ok.1 h).elim
  | some current =>
    exact CodegenM.bind_ok.2 ⟨_, s₂, CodegenM.bind_ok.2 ⟨created, s₁, h₁, h₂⟩, h⟩

theorem codegenChildrenContribution_compiles {cs : List AST}
    (h : ∀ c ∈ cs, Compiles rt arguments cursor (fun block => MetaCodegen.codegenMeta ctx block c)
      (Interpreter.execMeta ctx rt cursor.depth c)) :
    Compiles rt arguments cursor
      (fun block => MetaCodegen.codegenChildrenContribution ctx (some block) cs)
      (Interpreter.execMetas ctx rt cursor.depth cs) := by
  induction cs with
  | nil => exact .skip
  | cons c cs ih =>
    exact (h c List.mem_cons_self).seq_continues
      (d := fun current => MetaCodegen.codegenChildrenContribution ctx current cs)
      (codegenMeta_continues ctx c) (ih fun x hx => h x (List.mem_cons_of_mem _ hx))

/-- The code of a node performs the callbacks of the interpreter at the depth of the node. -/
theorem codegenMeta_compiles (a : AST) (cursor : ASTCursor) :
    Compiles rt arguments cursor (fun block => MetaCodegen.codegenMeta ctx block a)
      (Interpreter.execMeta ctx rt cursor.depth a) := by
  induction a using Rose.ind generalizing cursor with
  | h n cs ih =>
    obtain ⟨⟨id, data⟩, decl, exportedDecls⟩ := n
    have hfault (fault : CodegenFault) (e : Exec Flow) :
        Compiles rt arguments cursor (fun _ => throw fault) e :=
      fun _ _ _ _ _ h => (CodegenM.throw_ok.1 h).elim
    have hcontributed : Compiles rt arguments cursor
        (fun block => MetaCodegen.codegenContributed ⟨id, data⟩ block fun block =>
          MetaCodegen.codegenChildrenContribution ctx (some block) cs)
        (Interpreter.execContributed ⟨id, data⟩
          (Interpreter.execMetas ctx rt (.below data.kind cursor.depth) cs)) := by
      refine codegenContributed_compiles (fun cursor' hcursor' => ?_)
        (codegenChildrenContribution_continues ctx fun c _ => codegenMeta_continues ctx c)
      have hdepth : cursor'.depth = .below data.kind cursor.depth :=
        ASTCursor.depth_descend hcursor'
      rw [← hdepth]
      exact codegenChildrenContribution_compiles ctx fun c hc => ih c hc cursor'
    cases data with
    | metaDecl name => exact hfault _ _
    | metaUnit inst => exact hfault _ _
    | metaContribution => exact codegenChildrenContribution_compiles ctx fun c hc => ih c hc cursor
    | metaIfStmt =>
      rcases cs with _ | ⟨condition, _ | ⟨trueBranch, _ | ⟨falseBranch, _ | ⟨c, cs⟩⟩⟩⟩
      · exact hfault _ _
      · exact hfault _ _
      · exact codegenIfStructure_compiles ctx condition (ih trueBranch (by simp) cursor)
          (fun _ h => (Option.some_ne_none _ h.symm).elim) (fun _ => rfl)
      · refine codegenIfStructure_compiles ctx condition (ih trueBranch (by simp) cursor)
          (fun d h => ?_) (fun h => (Option.some_ne_none _ h).elim)
        cases h
        exact ih falseBranch (by simp) cursor
      · exact hfault _ _
    | metaCalculationStmt =>
      rcases cs with _ | ⟨stmt, _ | ⟨c, cs⟩⟩
      · exact hfault _ _
      · exact codegenMetaCalculation_compiles (codegenStmt_compiles ctx stmt)
      · exact hfault _ _
    | _ => exact hcontributed

end

end Swy
