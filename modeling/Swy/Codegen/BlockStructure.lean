import Swy.Codegen.ControlFlow

/-!
# The blocks of the generated code

Code generation that starts in an open block leaves every block it appended to closed, with one
terminator at its end, except for the block it returns, which is open; and it creates no block that
is not reached from the one it started in (`codegenStmt_shaped`).
-/

namespace Swy

open Library

/-- The blocks an instruction jumps to. -/
def Instruction.targets : Instruction → List BlockId
  | terminator (.br target) => [target]
  | terminator (.condBr _ trueBlock falseBlock) => [trueBlock, falseBlock]
  | _ => []

/-- The block has no terminator yet. -/
def IsOpen (bs : Blocks Instruction) (b : BlockId) : Prop :=
  ∃ os : List Operation, bs.code b = os.map .operation

/-- The block ends with its only terminator. -/
def IsClosed (bs : Blocks Instruction) (b : BlockId) : Prop :=
  ∃ (os : List Operation) (t : Terminator), bs.code b = os.map .operation ++ [.terminator t]

section Blocks

variable {bs bs' : Blocks Instruction} {b : BlockId}

theorem isOpen_of_nil (h : bs.code b = []) : IsOpen bs b := ⟨[], h⟩

theorem IsOpen.congr (h : IsOpen bs b) (hc : bs'.code b = bs.code b) : IsOpen bs' b := by
  obtain ⟨os, hos⟩ := h
  exact ⟨os, hc.trans hos⟩

theorem IsClosed.congr (h : IsClosed bs b) (hc : bs'.code b = bs.code b) : IsClosed bs' b := by
  obtain ⟨os, t, hos⟩ := h
  exact ⟨os, t, hc.trans hos⟩

theorem IsOpen.terminate (h : IsOpen bs b) (hb : b < bs.length) (t : Terminator) :
    IsClosed (bs.append b (.terminator t)) b := by
  obtain ⟨os, hos⟩ := h
  exact ⟨os, t, by rw [Blocks.code_append_self hb, hos]⟩

end Blocks

theorem CodegenState.Straight.isOpen {s s' : CodegenState} (h : s.Straight s')
    (ho : IsOpen s.blocks s.insertPoint) : IsOpen s'.blocks s.insertPoint := by
  obtain ⟨os, hos⟩ := ho
  obtain ⟨os', hos'⟩ := h.operations
  exact ⟨os ++ os', by rw [hos', hos, List.map_append]⟩

/-- What a piece of code generation that returns the given block leaves behind. -/
structure Shapes (s s' : CodegenState) (r : Option BlockId) : Prop where
  closed : ∀ c, c < s'.blocks.length → c = s.insertPoint ∨ s.blocks.length ≤ c → r ≠ some c →
    IsClosed s'.blocks c
  opened : ∀ c, r = some c → IsOpen s'.blocks c
  reached : ∀ c, s.blocks.length ≤ c → c < s'.blocks.length →
    s'.blocks.Leads Instruction.targets s.insertPoint c

/-- Starting in an open block at the given depth. -/
def Shaped (cursor : ASTCursor) (c : BlockId → CodegenM (Option BlockId)) : Prop :=
  ∀ ⦃s r s'⦄, s.Positioned → s.cursor = cursor → IsOpen s.blocks s.insertPoint →
    c s.insertPoint s = .ok (r, s') → Shapes s s' r

variable {rt : Runtime} {arguments : List Word} {cursor : ASTCursor}

/-- Straight code leaves its block open. -/
theorem Shaped.of_emits {α β : Type} {c : CodegenM α} {e : Exec β} {post : α → β → Assertion}
    (h : Emits rt arguments .trivial c e post) :
    Shaped cursor (fun block => do let _ ← c; return some block) := by
  intro s r s' hs _ hopen hc
  obtain ⟨a, s₁, hemit, hr⟩ := CodegenM.bind_ok.1 hc
  obtain ⟨rfl, rfl⟩ := CodegenM.pure_ok.1 hr
  obtain ⟨hst, -⟩ := h hs hemit
  refine ⟨fun c hlt hc hr => ?_, fun c hr => ?_, fun c hle hlt => ?_⟩
  · rcases hc with rfl | hle
    · exact (hr rfl).elim
    · exact (Nat.not_lt_of_le hle (hst.length ▸ hlt)).elim
  · cases hr
    exact hst.isOpen hopen
  · exact (Nat.not_lt_of_le hle (hst.length ▸ hlt)).elim

theorem Shaped.skip : Shaped cursor (fun block => return some block) := by
  intro s r s' hs _ hopen h
  obtain ⟨rfl, rfl⟩ := CodegenM.pure_ok.1 h
  refine ⟨fun c hlt hc hr => ?_, fun c hr => ?_, fun c hle hlt => ?_⟩
  · rcases hc with rfl | hle
    · exact (hr rfl).elim
    · exact (Nat.not_lt_of_le hle hlt).elim
  · cases hr
    exact hopen
  · exact (Nat.not_lt_of_le hle hlt).elim

/-- A return closes its block. -/
theorem Shaped.returns {α β : Type} {c : CodegenM α} {e : Exec β} {post : α → β → Assertion}
    {t : α → Terminator} (h : Emits rt arguments .trivial c e post) :
    Shaped cursor
      (fun _ => do
        let a ← c
        FunctionCodegen.terminate (t a)
        return none) := by
  intro s r s' hs _ hopen hc
  obtain ⟨a, s₁, hemit, hr⟩ := CodegenM.bind_ok.1 hc
  obtain ⟨_, s₂, hterm, hr⟩ := CodegenM.bind_ok.1 hr
  obtain ⟨rfl, rfl⟩ := CodegenM.pure_ok.1 hr
  cases hterm
  obtain ⟨hst, -⟩ := h hs hemit
  refine ⟨fun c hlt hc _ => ?_, fun c hr => (Option.some_ne_none c hr.symm).elim,
    fun c hle hlt => ?_⟩
  · rw [Blocks.length_append, hst.length] at hlt
    rcases hc with rfl | hle
    · rw [← hst.insertPoint]
      exact (hst.insertPoint ▸ hst.isOpen hopen).terminate hst.positioned _
    · exact (Nat.not_lt_of_le hle hlt).elim
  · rw [Blocks.length_append, hst.length] at hlt
    exact (Nat.not_lt_of_le hle hlt).elim

theorem Shaped.seq {c : BlockId → CodegenM (Option BlockId)}
    {d : Option BlockId → CodegenM (Option BlockId)} {e f : Exec Flow} (hc' : Shaped cursor c)
    (hc : Compiles rt arguments cursor c e)
    (hd : Compiles rt arguments cursor (fun block => d (some block)) f)
    (hd' : Shaped cursor (fun block => d (some block)))
    (hnone : ∀ ⦃s r s'⦄, d none s = .ok (r, s') → r = none ∧ s' = s) :
    Shaped cursor (fun block => do d (← c block)) := by
  intro s r s' hs hcursor hopen h
  obtain ⟨r₁, s₁, h₁, h₂⟩ := CodegenM.bind_ok.1 h
  obtain ⟨hlater, hblock, -⟩ := hc hs hcursor h₁
  have hshape := hc' hs hcursor hopen h₁
  cases r₁ with
  | none =>
    obtain ⟨rfl, rfl⟩ := hnone h₂
    exact hshape
  | some block =>
    have hpos : s₁.insertPoint = block := hblock block rfl
    rw [← hpos] at h₂
    have hcursor₁ := hlater.cursor.trans hcursor
    obtain ⟨hlater', hblock', -⟩ := hd hlater.positioned hcursor₁ h₂
    have hshape' := hd' hlater.positioned hcursor₁ (hpos ▸ hshape.opened block rfl) h₂
    have hreach : s'.blocks.Leads Instruction.targets s.insertPoint s₁.insertPoint := by
      rcases hlater.insertPoint with heq | hle
      · rw [heq]
        exact .refl
      · exact (hshape.reached _ hle hlater.positioned).extends hlater'.blocks.toExtends
    refine ⟨fun x hlt hx hr => ?_, hshape'.opened, fun x hle hlt => ?_⟩
    · rcases Nat.lt_or_ge x s₁.blocks.length with hx₁ | hx₁
      · by_cases hxp : x = s₁.insertPoint
        · exact hshape'.closed x hlt (.inl hxp) hr
        · have hne : some block ≠ some x := fun h => hxp (Option.some.inj h ▸ hpos.symm)
          exact (hshape.closed x hx₁ hx hne).congr (hlater'.blocks.frame x hx₁ hxp)
      · exact hshape'.closed x hlt (.inr hx₁) hr
    · rcases Nat.lt_or_ge x s₁.blocks.length with hx₁ | hx₁
      · exact (hshape.reached x hle hx₁).extends hlater'.blocks.toExtends
      · exact hreach.trans (hshape'.reached x hx₁ hlt)

/-- Straight code in front. -/
theorem Shaped.after {α β : Type} {c : CodegenM α} {e : Exec β} {post : α → β → Assertion}
    {d : BlockId → CodegenM (Option BlockId)} {f : Exec Flow}
    (h : Emits rt arguments .trivial c e post) (hd : Compiles rt arguments cursor d f)
    (hd' : Shaped cursor d) : Shaped cursor (fun block => do let _ ← c; d block) := by
  have hseq := (Shaped.of_emits h).seq (.of_emits h) (d := continueWith d) hd hd' continueWith_none
  simp only [bind_assoc, pure_bind] at hseq
  exact hseq

/-- The known values have no effect on the blocks. -/
theorem Shaped.withValueScope {c : BlockId → CodegenM (Option BlockId)} (hc : Shaped cursor c) :
    Shaped cursor (fun block => FunctionCodegen.withValueScope (c block)) := by
  intro s r s' hs hcursor hopen h
  obtain ⟨_, s₁, h₁, h⟩ := CodegenM.bind_ok.1 h
  obtain ⟨r₁, s₂, h₂, h⟩ := CodegenM.bind_ok.1 h
  obtain ⟨_, s₃, h₃, h⟩ := CodegenM.bind_ok.1 h
  obtain ⟨rfl, rfl⟩ := CodegenM.pure_ok.1 h
  cases h₁
  cases h₃
  have hs' : CodegenState.Positioned { s with values := [] :: s.values } := hs
  obtain ⟨hclosed, hopened, hreached⟩ := hc hs' hcursor hopen h₂
  exact ⟨hclosed, hopened, hreached⟩

/-! ## If structures -/

/-- The blocks a branch of an if structure created. -/
structure BranchShapes (s s' : CodegenState) (cont' : Option BlockId) (block : BlockId) :
    Prop where
  closed : ∀ c, s.blocks.length ≤ c → c < s'.blocks.length → cont' ≠ some c →
    IsClosed s'.blocks c
  reached : ∀ c, s.blocks.length ≤ c → c < s'.blocks.length →
    s'.blocks.Leads Instruction.targets block c

theorem codegenBranch_shapes {c : BlockId → CodegenM (Option BlockId)} {e : Exec Flow}
    (hc : Compiles rt arguments cursor c e) (hc' : Shaped cursor c) {s s' : CodegenState}
    {cont cont' : Option BlockId} {block : BlockId} {n : Nat} (hcursor : s.cursor = cursor)
    (hn : n ≤ s.blocks.length) (hcont : IsContinueBlock n s cont)
    (h : FunctionCodegen.codegenBranch cont c s = .ok ((block, cont'), s')) :
    BranchShapes s s' cont' block := by
  obtain ⟨rfl, r, s₃, h₃, h⟩ := codegenBranch_inv h
  obtain ⟨hlater, hblock, -⟩ := hc positioned_enterBlock hcursor h₃
  have hshape := hc' positioned_enterBlock hcursor (isOpen_of_nil code_enterBlock) h₃
  have hlength : s.enterBlock.blocks.length = s.blocks.length + 1 := Blocks.length_create
  have hfrom {x : BlockId} (hx : s.blocks.length ≤ x) :
      x = s.enterBlock.insertPoint ∨ s.enterBlock.blocks.length ≤ x := by
    rw [hlength]
    exact (Nat.eq_or_lt_of_le hx).imp_left Eq.symm
  have hreach₃ {x : BlockId} (hx : s.blocks.length ≤ x) (hlt : x < s₃.blocks.length) :
      s₃.blocks.Leads Instruction.targets s.blocks.length x := by
    rcases hfrom hx with rfl | hx
    · exact .refl
    · exact hshape.reached x hx hlt
  rcases h with ⟨rfl, rfl, rfl⟩ | ⟨b, c', s₄, rfl, h₄, rfl, rfl⟩
  · exact ⟨fun x hx hlt _ => hshape.closed x hlt (hfrom hx) (Option.some_ne_none x).symm,
      fun x hx hlt => hreach₃ hx hlt⟩
  · -- the end of the branch is closed by a jump to the continue block
    have hcont₃ : IsContinueBlock n s₃ cont :=
      hcont.grows (b := s.blocks.length) (Blocks.grows_create.trans hlater.blocks (.inl rfl))
        fun c hc => Nat.ne_of_lt (hcont c hc).2.1
    have hn₃ : n ≤ s₃.blocks.length :=
      Nat.le_trans hn (Nat.le_trans (Blocks.grows_create (b := 0)).length hlater.blocks.length)
    obtain ⟨-, hsome, hgrows₄, hpoint₄, -⟩ := lazyGetContinueBlock_ok hn₃ hcont₃ h₄
    have hpos₄ : s₃.insertPoint < s₄.blocks.length :=
      Nat.lt_of_lt_of_le hlater.positioned hgrows₄.length
    have hframe {x : BlockId} (hx : x < s₃.blocks.length) : s₄.blocks.code x = s₃.blocks.code x :=
      hgrows₄.frame x hx (Nat.ne_of_lt hx)
    have hcreated {x : BlockId} (hx : s₃.blocks.length ≤ x) (hlt : x < s₄.blocks.length) :
        c' = x := by
      rcases hsome with ⟨-, heq⟩ | ⟨-, rfl, heq⟩ <;> rw [heq] at hlt
      · exact (Nat.not_lt_of_le hx hlt).elim
      · rw [Blocks.length_create] at hlt
        exact Nat.le_antisymm hx (Nat.le_of_lt_succ hlt)
    have hb : s₃.insertPoint = b := hblock b rfl
    have hstart : s.blocks.length ≤ s₃.insertPoint := by
      rcases hlater.insertPoint with heq | hle
      · exact Nat.le_of_eq heq.symm
      · exact Nat.le_trans (Blocks.grows_create (b := 0)).length hle
    rw [hpoint₄]
    refine ⟨fun x hx hlt hne => ?_, fun x hx hlt => ?_⟩ <;> rw [Blocks.length_append] at hlt
    · rcases Nat.lt_or_ge x s₃.blocks.length with hx₃ | hx₃
      · by_cases hxp : x = s₃.insertPoint
        · subst hxp
          exact ((hb ▸ hshape.opened b rfl).congr (hframe hx₃)).terminate hpos₄ _
        · have hxb : some b ≠ some x := fun h => hxp (Option.some.inj h ▸ hb.symm)
          exact (hshape.closed x hx₃ (hfrom hx) hxb).congr
            ((Blocks.code_append_of_ne hxp).trans (hframe hx₃))
      · exact (hne (congrArg some (hcreated hx₃ hlt))).elim
    · have hextends : s₃.blocks.Extends
          (s₄.blocks.append s₃.insertPoint (.terminator (.br c'))) :=
        hgrows₄.toExtends.trans Blocks.grows_append.toExtends
      rcases Nat.lt_or_ge x s₃.blocks.length with hx₃ | hx₃
      · exact (hreach₃ hx hx₃).extends hextends
      · obtain rfl := hcreated hx₃ hlt
        refine ((hreach₃ hstart hlater.positioned).extends hextends).trans
          (.single (i := .terminator (.br c')) ?_ List.mem_cons_self)
        rw [Blocks.code_append_self hpos₄]
        exact List.mem_append_right _ List.mem_cons_self

/-- The false branch: without one the continue block itself is the target. -/
theorem codegenFalseBranch_shapes {c : Option (BlockId → CodegenM (Option BlockId))}
    {e : Exec Flow} (hc : ∀ d, c = some d → Compiles rt arguments cursor d e)
    (hc' : ∀ d, c = some d → Shaped cursor d) {s s' : CodegenState}
    {cont cont' : Option BlockId} {block : BlockId} {n : Nat} (hcursor : s.cursor = cursor)
    (hn : n ≤ s.blocks.length) (hcont : IsContinueBlock n s cont)
    (h : FunctionCodegen.codegenFalseBranch cont c s = .ok ((block, cont'), s')) :
    BranchShapes s s' cont' block := by
  cases c with
  | some d => exact codegenBranch_shapes (hc d rfl) (hc' d rfl) hcursor hn hcont h
  | none =>
    obtain ⟨b, s₁, h₁, h⟩ := CodegenM.bind_ok.1 h
    obtain ⟨heq, rfl⟩ := CodegenM.pure_ok.1 h
    cases heq
    have hcreated {x : BlockId} (hx : s.blocks.length ≤ x) (hlt : x < s₁.blocks.length) :
        block = x := by
      obtain ⟨-, ⟨-, heq⟩ | ⟨-, rfl, heq⟩, -⟩ := lazyGetContinueBlock_ok hn hcont h₁ <;>
        rw [heq] at hlt
      · exact (Nat.not_lt_of_le hx hlt).elim
      · rw [Blocks.length_create] at hlt
        exact Nat.le_antisymm hx (Nat.le_of_lt_succ hlt)
    refine ⟨fun x hx hlt hne => (hne (congrArg some (hcreated hx hlt))).elim, fun x hx hlt => ?_⟩
    obtain rfl := hcreated hx hlt
    exact .refl

theorem codegenIfStructure_shaped (ctx : IRContext) (condition : AST)
    {c : BlockId → CodegenM (Option BlockId)}
    {d : Option (BlockId → CodegenM (Option BlockId))} {e f : Exec Flow}
    (hc : Compiles rt arguments cursor c e) (hc' : Shaped cursor c)
    (hd : ∀ d', d = some d' → Compiles rt arguments cursor d' f)
    (hd' : ∀ d', d = some d' → Shaped cursor d') (hnone : d = none → f = return .next) :
    Shaped cursor (fun block => FunctionCodegen.codegenIfStructure ctx block condition c d) := by
  intro s r s' hs hcursor hopen h
  obtain ⟨trueBlock, falseBlock, cont₁, s₁, s₂, p, s₃, h₁, h₂, h₃, hblocks, -⟩ :=
    codegenIfStructure_inv h
  have hnil : IsContinueBlock s.blocks.length s none :=
    fun _ h => (Option.some_ne_none _ h.symm).elim
  have htrue := codegenBranch_ok hc hcursor (Nat.le_refl _) hnil h₁
  have htrue' := codegenBranch_shapes hc hc' hcursor (Nat.le_refl _) hnil h₁
  have hcursor₁ := htrue.cursor.trans hcursor
  have hfalse := codegenFalseBranch_ok hd hnone hcursor₁ htrue.grows.length htrue.continueBlock h₂
  have hfalse' :=
    codegenFalseBranch_shapes hd hd' hcursor₁ htrue.grows.length htrue.continueBlock h₂
  have hbranches : s.blocks.Grows s.blocks.length s₂.blocks :=
    htrue.grows.trans hfalse.grows (.inr htrue.grows.length)
  have hpos₂ : CodegenState.Positioned { s₂ with insertPoint := s.insertPoint } :=
    Nat.lt_of_lt_of_le hs hbranches.length
  have hcondition : Emits rt arguments _ _ _ _ := condition_emits ctx condition
  obtain ⟨hst, -⟩ := hcondition hpos₂ h₃
  have hpoint₃ : s₃.insertPoint = s.insertPoint := hst.insertPoint
  have hlength₃ : s₃.blocks.length = s₂.blocks.length := hst.length
  rw [hpoint₃] at hblocks
  have hpos₃ : s.insertPoint < s₃.blocks.length := hpoint₃ ▸ hst.positioned
  have hgrows : s₂.blocks.Grows s.insertPoint s'.blocks := by
    rw [hblocks]
    exact hst.blocks.trans Blocks.grows_append (.inl rfl)
  have hframe {x : BlockId} (hx : s.blocks.length ≤ x) (hlt : x < s₂.blocks.length) :
      s'.blocks.code x = s₂.blocks.code x :=
    hgrows.frame x hlt (Nat.ne_of_gt (Nat.lt_of_lt_of_le hs hx))
  have hlength : s'.blocks.length = s₂.blocks.length := by
    rw [hblocks, Blocks.length_append, hlength₃]
  have hedge {x : BlockId} (hx : x = trueBlock ∨ x = falseBlock) :
      s'.blocks.Leads Instruction.targets s.insertPoint x := by
    refine .single (i := .terminator (.condBr p trueBlock falseBlock)) ?_ ?_
    · rw [hblocks, Blocks.code_append_self hpos₃]
      exact List.mem_append_right _ List.mem_cons_self
    · rcases hx with rfl | rfl
      · exact List.mem_cons_self
      · exact List.mem_cons_of_mem _ List.mem_cons_self
  refine ⟨fun x hlt hx hr => ?_, fun x hr => ?_, fun x hx hlt => ?_⟩
  · rw [hlength] at hlt
    rcases hx with rfl | hx
    · rw [hblocks]
      refine IsOpen.terminate ?_ hpos₃ _
      exact hst.isOpen (hopen.congr (hbranches.frame _ hs (Nat.ne_of_lt hs)))
    · rcases Nat.lt_or_ge x s₁.blocks.length with hx₁ | hx₁
      · have hx₂ : s₂.blocks.code x = s₁.blocks.code x :=
          hfalse.grows.frame x hx₁ (Nat.ne_of_lt hx₁)
        exact (htrue'.closed x hx hx₁ fun h => hr (hfalse.keeps x h)).congr
          ((hframe hx hlt).trans hx₂)
      · exact (hfalse'.closed x hx₁ hlt hr).congr (hframe hx hlt)
  · obtain ⟨hle, hlt, hcode⟩ := hfalse.continueBlock x hr
    exact isOpen_of_nil ((hframe hle hlt).trans hcode)
  · rw [hlength] at hlt
    rcases Nat.lt_or_ge x s₁.blocks.length with hx₁ | hx₁
    · exact (hedge (.inl rfl)).trans ((htrue'.reached x hx hx₁).extends
        (hfalse.grows.toExtends.trans hgrows.toExtends))
    · exact (hedge (.inr rfl)).trans ((hfalse'.reached x hx₁ hlt).extends hgrows.toExtends)

/-! ## Statements -/

variable (ctx : IRContext)

theorem codegenStmts_shaped {cs : List AST}
    (h : ∀ c ∈ cs, Shaped cursor (fun block => FunctionCodegen.codegenStmt ctx block c)) :
    Shaped cursor (fun block => FunctionCodegen.codegenStmts ctx (some block) cs) := by
  induction cs with
  | nil => exact .skip
  | cons c cs ih =>
    have hc : Compiles default [] cursor _ _ := codegenStmt_compiles ctx c
    exact (h c List.mem_cons_self).seq
      (d := fun current => FunctionCodegen.codegenStmts ctx current cs) hc
        (codegenStmts_compiles ctx fun x _ => codegenStmt_compiles ctx x)
      (ih fun x hx => h x (List.mem_cons_of_mem _ hx)) fun _ _ _ => codegenStmts_none ctx

theorem declStmt_shaped (decl : NodeId) (expr : AST) :
    Shaped cursor (fun block => do
      let value ← FunctionCodegen.codegenExpr ctx expr
      FunctionCodegen.emit (.alloca decl)
      let value ← FunctionCodegen.loadMemory value
      FunctionCodegen.createStore value (.alloca decl)
      FunctionCodegen.introduce decl
      return some block) := by
  have hemits : Emits default [] _ _ _ _ := declStmt_emits ctx decl expr
  have h : Shaped cursor _ := Shaped.of_emits hemits
  simp only [bind_assoc] at h
  exact h

theorem exprStmt_shaped (stmt : NodeId) (expr : AST) :
    Shaped cursor (fun block => do
      let _ ← FunctionCodegen.codegenExpr ctx expr
      FunctionCodegen.emit (.statement stmt)
      return some block) := by
  have hemits : Emits default [] _ _ _ _ := exprStmt_emits ctx stmt expr
  have h : Shaped cursor _ := Shaped.of_emits hemits
  simp only [bind_assoc] at h
  exact h

theorem returnExpr_shaped (expr : AST) :
    Shaped cursor (fun _ => do
      let value ← FunctionCodegen.codegenExpr ctx expr
      let value ← FunctionCodegen.loadMemory value
      FunctionCodegen.terminate (.ret value)
      return none) := by
  have hemits : Emits default [] _ _ _ _ := returnExpr_emits ctx expr
  have h : Shaped cursor _ := Shaped.returns (t := .ret) hemits
  simp only [bind_assoc] at h
  exact h

/-- The code of a statement leaves all blocks closed and reached but the one it returns. -/
theorem codegenStmt_shaped (a : AST) :
    Shaped cursor (fun block => FunctionCodegen.codegenStmt ctx block a) := by
  induction a using Rose.ind with
  | h n cs ih =>
    obtain ⟨⟨id, data⟩, decl, exportedDecls⟩ := n
    have hfault (fault : CodegenFault) : Shaped cursor (fun _ => throw fault) :=
      fun _ _ _ _ _ _ h => (CodegenM.throw_ok.1 h).elim
    have hcompiles (c : AST) : Compiles default [] cursor
        (fun block => FunctionCodegen.codegenStmt ctx block c) _ := codegenStmt_compiles ctx c
    cases data with
    | compoundStmt => exact (codegenStmts_shaped ctx ih).withValueScope
    | unscopedCompoundStmt => exact codegenStmts_shaped ctx ih
    | returnStmt =>
      rcases cs with _ | ⟨expr, _ | ⟨c, cs⟩⟩
      · have hnothing : Emits default [] .trivial (pure ()) (pure ()) fun _ _ => .trivial :=
          .pure .refl
        exact Shaped.returns (t := fun _ => .retVoid) hnothing
      · exact returnExpr_shaped ctx expr
      · exact hfault _
    | expressionStmt =>
      rcases cs with _ | ⟨expr, _ | ⟨c, cs⟩⟩
      · exact hfault _
      · exact exprStmt_shaped ctx id expr
      · exact hfault _
    | declStmt name =>
      rcases cs with _ | ⟨expr, _ | ⟨c, cs⟩⟩
      · exact hfault _
      · exact declStmt_shaped ctx id expr
      · exact hfault _
    | ifStmt =>
      rcases cs with _ | ⟨condition, _ | ⟨trueBranch, _ | ⟨falseBranch, _ | ⟨c, cs⟩⟩⟩⟩
      · exact hfault _
      · exact hfault _
      · exact codegenIfStructure_shaped ctx condition (hcompiles trueBranch)
          (ih trueBranch (by simp)) (fun _ h => (Option.some_ne_none _ h.symm).elim)
          (fun _ h => (Option.some_ne_none _ h.symm).elim) (fun _ => rfl)
      · refine codegenIfStructure_shaped (f := Interpreter.execStmt ctx default falseBranch) ctx
          condition (hcompiles trueBranch) (ih trueBranch (by simp)) (fun d h => ?_)
          (fun d h => ?_) (fun h => (Option.some_ne_none _ h).elim)
        · cases h
          exact hcompiles falseBranch
        · cases h
          exact ih falseBranch (by simp)
      · exact hfault _
    | _ => exact hfault _

end Swy
