import Swy.Codegen.Evaluation
import Swy.Codegen.FunctionBody
import Swy.Codegen.MetaEmission

/-!
# Where an if goes

The conditional branch of an if structure tests what `codegenExpr` returns for the condition. For an
expression that stands for a variable this is the address of the variable, which is not null, so the
true branch is taken whatever the value of the variable is
(`codegenIfStructure_branches`).
-/

namespace Swy

open Library

variable {rt : Runtime} {arguments : List Word} {cursor : ASTCursor}

/-- The branches of an if statement and of a meta if. -/
inductive IsBranchCodegen (ctx : IRContext) : (BlockId → CodegenM (Option BlockId)) → Prop
  | codegenStmt (a : AST) :
    IsBranchCodegen ctx fun current => FunctionCodegen.codegenStmt ctx current a
  | codegenMeta (a : AST) :
    IsBranchCodegen ctx fun current => MetaCodegen.codegenMeta ctx current a

theorem IsBranchCodegen.compiles {ctx : IRContext} {c : BlockId → CodegenM (Option BlockId)}
    (h : IsBranchCodegen ctx c) (rt : Runtime) (arguments : List Word) (cursor : ASTCursor) :
    ∃ e, Compiles rt arguments cursor c e := by
  cases h with
  | codegenStmt a => exact ⟨_, codegenStmt_compiles ctx a⟩
  | codegenMeta a => exact ⟨_, codegenMeta_compiles ctx a cursor⟩

/-- Both branches of an if structure are told apart. -/
theorem branches_ne {c : BlockId → CodegenM (Option BlockId)}
    {d : Option (BlockId → CodegenM (Option BlockId))} {e : Exec Flow}
    (hc : Compiles rt arguments cursor c e) {s s₁ s₂ : CodegenState}
    {trueBlock falseBlock : BlockId} {cont cont' : Option BlockId} (hcursor : s.cursor = cursor)
    (h : FunctionCodegen.codegenBranch none c s = .ok ((trueBlock, cont), s₁))
    (h' : FunctionCodegen.codegenFalseBranch cont d s₁ = .ok ((falseBlock, cont'), s₂)) :
    trueBlock ≠ falseBlock := by
  obtain ⟨rfl, r, s₃, h₃, hcont⟩ := codegenBranch_inv h
  have hlength : s.blocks.length < s₃.blocks.length := by
    have hgrows := (hc positioned_enterBlock hcursor h₃).1.blocks.length
    rw [CodegenState.enterBlock, Blocks.length_create] at hgrows
    omega
  -- the blocks that are created later
  have hlater : ∀ b, s₁.blocks.length ≤ b ∨ cont = some b → s.blocks.length < b := by
    rcases hcont with ⟨rfl, rfl, rfl⟩ | ⟨b, c', s₄, rfl, h₄, rfl, rfl⟩
    · rintro b (hb | hb)
      · omega
      · cases hb
    · cases h₄
      rintro b (hb | hb)
      · rw [Blocks.length_append, Blocks.length_create] at hb
        omega
      · cases hb
        exact hlength
  cases d with
  | some d =>
    obtain ⟨rfl, -⟩ := codegenBranch_inv h'
    exact Nat.ne_of_lt (hlater _ (.inl (Nat.le_refl _)))
  | none =>
    obtain ⟨b, s₅, h₅, h'⟩ := CodegenM.bind_ok.1 h'
    obtain ⟨heq, -⟩ := CodegenM.pure_ok.1 h'
    cases heq
    cases cont with
    | some b' =>
      obtain ⟨rfl, -⟩ := CodegenM.pure_ok.1 h₅
      exact Nat.ne_of_lt (hlater _ (.inr rfl))
    | none =>
      cases h₅
      exact Nat.ne_of_lt (hlater _ (.inl (Nat.le_refl _)))

/-- The integer value of a condition: what is loaded from it. -/
def conditionValue (ctx : IRContext) (rt : Runtime) (condition : AST) (μ : Memory) : Value :=
  ((Interpreter.evalExpr ctx rt condition >>= Interpreter.loadMemory) μ).value

/-- The next step goes to the start of the block. -/
def GoesTo (rt : Runtime) (arguments : List Word) (code : Blocks Instruction) (p : Point)
    (m : Machine) (block : BlockId) : Prop :=
  ∃ m', step rt arguments code (p, m) = .running (⟨block, 0⟩, m')

/-- What is compared with null is the address of the variable the condition stands for. -/
theorem isNotNull_eq_zero_iff (ctx : IRContext) (rt : Runtime) (condition : AST) (μ : Memory) :
    (Interpreter.evalExpr ctx rt condition μ).value.isNotNull = 0 ↔
      condition.address? = none ∧ conditionValue ctx rt condition μ = .int 0 := by
  have haddress (decl : NodeId) :
      (Interpreter.evalExpr ctx rt condition μ).value = .address decl ↔
        condition.address? = some decl := evalExpr_value_address condition μ decl
  have hloaded : conditionValue ctx rt condition μ =
      (Interpreter.evalExpr ctx rt condition μ).value.loaded
        (Interpreter.evalExpr ctx rt condition μ).memory.slots := loadMemory_value _ _
  rw [hloaded]
  cases hv : (Interpreter.evalExpr ctx rt condition μ).value with
  | int w =>
    rw [hv] at haddress
    have hnone : condition.address? = none :=
      Option.eq_none_iff_forall_ne_some.2 fun decl h => by cases (haddress decl).2 h
    rw [hnone]
    by_cases hw : w = 0
    · subst hw
      exact ⟨fun _ => ⟨rfl, rfl⟩, fun _ => rfl⟩
    · have hne : Value.isNotNull (.int w) ≠ 0 := by
        rw [Value.isNotNull, if_neg hw]
        decide
      exact ⟨fun h => absurd h hne, fun h => absurd (Value.int.inj h.2) hw⟩
  | address decl =>
    rw [(haddress decl).1 hv]
    exact ⟨nofun, fun h => nomatch h.1⟩
  | function | void => exact ⟨nofun, fun h => nomatch h.2⟩

/-- A branch of an if has an effect, a missing one has none. -/
theorem falseBranch_compiles {ctx : IRContext} {d : Option (BlockId → CodegenM (Option BlockId))}
    (hd : ∀ d', d = some d' → IsBranchCodegen ctx d') (rt : Runtime) (arguments : List Word)
    (cursor : ASTCursor) :
    ∃ f, (∀ d', d = some d' → Compiles rt arguments cursor d' f) ∧
      (d = none → f = return .next) := by
  cases d with
  | none => exact ⟨return .next, nofun, fun _ => rfl⟩
  | some d =>
    obtain ⟨f, hf⟩ := (hd d rfl).compiles rt arguments cursor
    refine ⟨f, fun d' h => ?_, nofun⟩
    cases h
    exact hf

/-- An if goes to its true branch exactly if its condition is not 0, unless the condition stands for
a variable: then only if the variable is not 0. -/
theorem codegenIfStructure_branches (hrt : rt.branchesOnCondition) {ctx : IRContext}
    {condition : AST} {c : BlockId → CodegenM (Option BlockId)}
    {d : Option (BlockId → CodegenM (Option BlockId))} (hc : IsBranchCodegen ctx c)
    (hd : ∀ d', d = some d' → IsBranchCodegen ctx d') {s s' : CodegenState} {r : Option BlockId}
    (hs : s.Positioned)
    (h : FunctionCodegen.codegenIfStructure ctx s.insertPoint condition c d s = .ok (r, s')) :
    ∃ trueBlock falseBlock cont s₁ s₂ predicate p,
      FunctionCodegen.codegenBranch none c s = .ok ((trueBlock, cont), s₁) ∧
      FunctionCodegen.codegenFalseBranch cont d s₁ = .ok ((falseBlock, r), s₂) ∧
      trueBlock ≠ falseBlock ∧
      ∀ code, s'.blocks.Extends code →
        code.fetch p = some (.terminator (.condBr predicate trueBlock falseBlock)) ∧
        ∀ m, ∃ m₁, Reaches (step rt arguments code) (s.here, m) (p, m₁) ∧
          ((∀ w, conditionValue ctx rt condition m.memory = .int w →
              (GoesTo rt arguments code p m₁ trueBlock ↔ w ≠ 0)) ↔
            (condition.address?.isSome →
              conditionValue ctx rt condition m.memory ≠ .int 0)) := by
  obtain ⟨trueBlock, falseBlock, cont, s₁, s₂, predicate, s₃, h₁, h₂, h₃, hblocks, -⟩ :=
    codegenIfStructure_inv h
  obtain ⟨e, he⟩ := hc.compiles rt arguments s.cursor
  obtain ⟨f, hf, hnone⟩ := falseBranch_compiles hd rt arguments s.cursor
  have hne := branches_ne he rfl h₁ h₂
  -- the branches leave the current block alone
  have htrue := codegenBranch_ok he rfl (Nat.le_refl _)
    (fun _ h => (Option.some_ne_none _ h.symm).elim) h₁
  have hfalse := codegenFalseBranch_ok hf hnone htrue.cursor htrue.grows.length
    htrue.continueBlock h₂
  have hbranches : s.blocks.Grows s.blocks.length s₂.blocks :=
    htrue.grows.trans hfalse.grows (.inr htrue.grows.length)
  have hpos₂ : CodegenState.Positioned { s₂ with insertPoint := s.insertPoint } :=
    Nat.lt_of_lt_of_le hs hbranches.length
  have hhere₂ : CodegenState.here { s₂ with insertPoint := s.insertPoint } = s.here :=
    congrArg (Point.mk s.insertPoint)
      (congrArg List.length (hbranches.frame _ hs (Nat.ne_of_lt hs)))
  have hcondition : Emits rt arguments _ _ _ _ := condition_emits ctx condition
  obtain ⟨hst, hrun⟩ := hcondition hpos₂ h₃
  refine ⟨trueBlock, falseBlock, cont, s₁, s₂, predicate, s₃.here, h₁, h₂, hne,
    fun code hcode => ?_⟩
  rw [hblocks] at hcode
  refine ⟨Blocks.fetch_extends hcode (Blocks.fetch_append hst.positioned), fun m => ?_⟩
  obtain ⟨m₁, hp, hval⟩ := hrun code (Blocks.grows_append.toExtends.trans hcode) m True.intro
  have hreaches := hp.reaches
  rw [hhere₂] at hreaches
  refine ⟨m₁, hreaches, ?_⟩
  have hgoes : GoesTo rt arguments code s₃.here m₁ trueBlock ↔
      (Interpreter.evalExpr ctx rt condition m.memory).value.isNotNull ≠ 0 := by
    have hstep : step rt arguments code (s₃.here, m₁) = _ := step_terminated hst.positioned hcode m₁
    have hchoose : (Exec.branch rt (m₁.wordOf arguments predicate) m₁.memory).value =
        ((Interpreter.evalExpr ctx rt condition m.memory).value.isNotNull != 0) := by
      rw [wordOf_eq hval]
      exact hrt _ _
    rw [GoesTo, hstep, Terminator.exec]
    simp only [hchoose]
    by_cases hnull : (Interpreter.evalExpr ctx rt condition m.memory).value.isNotNull = 0
    · rw [hnull]
      refine ⟨fun htaken => ?_, fun h => absurd rfl h⟩
      obtain ⟨m', h⟩ := htaken
      have hblock := congrArg (fun x => x.1.block) (Outcome.running.inj h)
      exact absurd hblock.symm hne
    · rw [bne_iff_ne.2 hnull]
      exact ⟨fun _ => hnull, fun _ => ⟨_, rfl⟩⟩
  simp only [hgoes, Ne, isNotNull_eq_zero_iff]
  constructor
  · intro htaken haddress hzero
    refine (htaken 0 hzero).1 (fun hnot => ?_) rfl
    rw [hnot.1] at haddress
    cases haddress
  · intro hvariable w hw
    constructor
    · rintro hnot rfl
      exact hnot ⟨Option.not_isSome_iff_eq_none.1 fun hsome => hvariable hsome hw, hw⟩
    · rintro hw₀ ⟨-, hzero⟩
      exact hw₀ (Value.int.inj (hw.symm.trans hzero))

/-- `if x { return 1; }` with 2 in `x` goes to its true branch. -/
theorem codegenIfStructure_branches_variable :
    let x : AST := .node ⟨⟨5, .declRefExpr "x"⟩, some ⟨3, .namedArgumentDecl "x"⟩, []⟩ []
    let returnOne : AST := .node ⟨⟨6, .returnStmt⟩, none, []⟩
      [.node ⟨⟨7, .integerLiteralExpr 1⟩, none, []⟩ []]
    let ctx : IRContext := ⟨fun _ => none, fun _ => none⟩
    let rt : Runtime := ⟨fun _ _ => 0, fun _ condition => condition != 0, fun _ => 2⟩
    let s : CodegenState := ⟨[[]], 0, 0, [[3]], ⟨.topLevel, .outside⟩⟩
    ∃ r s' p trueBlock m,
      FunctionCodegen.codegenIfStructure ctx 0 x
        (fun current => FunctionCodegen.codegenStmt ctx current returnOne) none s = .ok (r, s') ∧
      Reaches (step rt [] s'.blocks) (s.here, .start rt.memory) (p, m) ∧
      GoesTo rt [] s'.blocks p m trueBlock ∧ trueBlock = 1 := by
  intro x returnOne ctx rt s
  obtain ⟨r, s', h⟩ : ∃ r s', FunctionCodegen.codegenIfStructure ctx 0 x
    (fun current => FunctionCodegen.codegenStmt ctx current returnOne) none s = .ok (r, s') :=
    ⟨_, _, rfl⟩
  have hpos : s.Positioned := Nat.zero_lt_one
  have hrt : rt.branchesOnCondition := fun _ _ => rfl
  obtain ⟨trueBlock, falseBlock, cont, s₁, s₂, predicate, p, htrue, -, -, hruns⟩ :=
    codegenIfStructure_branches hrt (.codegenStmt returnOne)
      (fun _ h => (Option.some_ne_none _ h.symm).elim) hpos h
  obtain ⟨-, hrun⟩ := hruns s'.blocks .refl
  obtain ⟨m, hreaches, hiff⟩ := hrun (.start rt.memory)
  have htaken := hiff.2 (fun _ => by decide) 2 rfl
  obtain rfl : 1 = trueBlock := (codegenBranch_inv htrue).1.symm
  exact ⟨r, s', p, 1, m, h, hreaches, htaken.2 (by decide), rfl⟩

/-- `f(int x) int -> { if x { return 1; } return 0; }` returns 1 for 0. -/
theorem codegenIfStructure_not_branches :
    let ctx : IRContext := ⟨fun _ => none, fun _ => none⟩
    let rt : Runtime := ⟨fun _ _ => 0, fun _ condition => condition != 0, fun _ => 0⟩
    let literal (id : NodeId) (w : Word) : AST := .node ⟨⟨id, .integerLiteralExpr w⟩, none, []⟩ []
    let x : AST := .node ⟨⟨5, .declRefExpr "x"⟩, some ⟨3, .namedArgumentDecl "x"⟩, []⟩ []
    let args : AST := .node ⟨⟨2, .argumentDeclList⟩, none, []⟩
      [.node ⟨⟨3, .namedArgumentDecl "x"⟩, none, []⟩ []]
    let returnDecl : AST := .node ⟨⟨12, .anonymousArgumentDecl⟩, none, []⟩ []
    let body : AST := .node ⟨⟨4, .compoundStmt⟩, none, []⟩
      [.node ⟨⟨6, .ifStmt⟩, none, []⟩ [x, .node ⟨⟨7, .returnStmt⟩, none, []⟩ [literal 8 1]],
        .node ⟨⟨9, .returnStmt⟩, none, []⟩ [literal 10 0]]
    rt.branchesOnCondition ∧
    ∃ s, FunctionCodegen.codegen ctx
        (.node ⟨⟨1, .functionDecl "f"⟩, none, []⟩ [args, returnDecl, body])
        (.initial ⟨.topLevel, .outside⟩) = .ok ((), s) ∧
      ∃ m, Halts (step rt [0] s.blocks) (entry rt) m ∧
        m.trace = [.alloca 3, .store 3 0, .reference 5 3, .branch true,
          .ret (some (.int 1))] := by
  intro ctx rt literal x args returnDecl body
  refine ⟨fun _ _ => rfl, ?_⟩
  obtain ⟨s, hs⟩ : ∃ s, FunctionCodegen.codegenBody ctx args body
      (.initial ⟨.topLevel, .outside⟩) = .ok ((), s) := by
    obtain ⟨_, s, hs⟩ := ((codegenBody_abstracts ctx args body (by decide)).ok_iff
      (.initial ⟨.topLevel, .outside⟩)).2 (by decide)
    exact ⟨s, hs⟩
  obtain ⟨m, hhalts, htrace⟩ : ∃ m, Halts (step rt [0] s.blocks) (entry rt) m ∧ _ :=
    codegenBody_halts ctx hs
  exact ⟨s, hs, m, hhalts, htrace.trans (by decide +kernel)⟩

end Swy
