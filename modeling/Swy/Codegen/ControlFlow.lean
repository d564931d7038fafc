import Swy.Codegen.Emission

/-!
# What the generated code of a statement does

Executing the code of a statement does what the structural interpreter does: it reaches the block
the code generation returned if the control flow goes on behind the statement, and ends the function
otherwise (`codegenStmt_compiles`). The branches of an if structure are generated before its
condition and share a continue block that is created when it is first needed
(`codegenIfStructure_compiles`).
-/

namespace Swy

open Library

variable {rt : Runtime} {arguments : List Word} {cursor : ASTCursor}

/-! ## Completion -/

section

variable (rt arguments)

/-- From the position the code continues in the given block, or ends the function. -/
def Completes (code : Blocks Instruction) (p : Point) (q : Option Point) (m m' : Machine) :
    Flow → Prop
  | .next => ∃ p', q = some p' ∧ Reaches (step rt arguments code) (p, m) (p', m')
  | .returned => Halts (step rt arguments code) (p, m) m'

/-- Generating from the current block on, at the given depth, yields code with the effect `e`. -/
def Compiles (cursor : ASTCursor) (c : BlockId → CodegenM (Option BlockId)) (e : Exec Flow) :
    Prop :=
  ∀ ⦃s r s'⦄, s.Positioned → s.cursor = cursor → c s.insertPoint s = .ok (r, s') →
    s.Later s' ∧ (∀ b, r = some b → s'.insertPoint = b) ∧
    ∀ code, s'.blocks.Extends code → ∀ m, ∃ m', m.After (e m.memory) m' ∧
      Completes rt arguments code s.here (r.map s'.blocks.endOf) m m' (e m.memory).value

end

theorem Completes.of_reaches {code : Blocks Instruction} {p p₁ : Point} {q : Option Point}
    {m m₁ m' : Machine} {flow : Flow} (h : Reaches (step rt arguments code) (p, m) (p₁, m₁))
    (h' : Completes rt arguments code p₁ q m₁ m' flow) :
    Completes rt arguments code p q m m' flow := by
  cases flow with
  | next =>
    obtain ⟨p', hq, hp'⟩ := h'
    exact ⟨p', hq, h.trans hp'⟩
  | returned => exact Halts.of_reaches h h'

/-- Straight code goes on in the block it was appended to. -/
theorem Compiles.of_emits {α β : Type} {c : CodegenM α} {e : Exec β} {post : α → β → Assertion}
    (h : Emits rt arguments .trivial c e post) :
    Compiles rt arguments cursor (fun block => do let _ ← c; return some block)
      (do let _ ← e; return .next) := by
  intro s r s' hs hcursor hc
  obtain ⟨a, s₁, hemit, hr⟩ := CodegenM.bind_ok.1 hc
  obtain ⟨rfl, rfl⟩ := CodegenM.pure_ok.1 hr
  obtain ⟨hst, hrun⟩ := h hs hemit
  refine ⟨hst.later, fun b hb => ?_, fun code hcode m => ?_⟩
  · rw [hst.insertPoint]
    exact Option.some.inj hb
  · obtain ⟨m', hp, -⟩ := hrun code hcode m True.intro
    refine ⟨m', hp.after.returning fun _ => Flow.next, s₁.here, ?_, hp.reaches⟩
    rw [← hst.insertPoint]
    rfl

section Sequence

variable {e f : Exec Flow} {m m₁ m' : Machine}

theorem andThen_value (h : m.After (e m.memory) m₁) (hv : (e m.memory).value = .next) :
    (Interpreter.andThen e f m.memory).value = (f m₁.memory).value := by
  rw [Interpreter.andThen, Exec.bind_apply, hv, h.memory]

theorem andThen_value_returned (hv : (e m.memory).value = .returned) :
    (Interpreter.andThen e f m.memory).value = .returned := by
  rw [Interpreter.andThen, Exec.bind_apply, hv]
  rfl

theorem Machine.After.andThen (h : m.After (e m.memory) m₁) (hv : (e m.memory).value = .next)
    (h' : m₁.After (f m₁.memory) m') : m.After (Interpreter.andThen e f m.memory) m' := by
  refine h.bind ?_
  rw [hv]
  exact h'

theorem Machine.After.andThen_returned (h : m.After (e m.memory) m')
    (hv : (e m.memory).value = .returned) : m.After (Interpreter.andThen e f m.memory) m' := by
  refine h.bind ?_
  rw [hv]
  exact .refl

end Sequence

/-- A second piece of code behind the first, which is left out if the first has no end. -/
theorem Compiles.seq {c : BlockId → CodegenM (Option BlockId)}
    {d : Option BlockId → CodegenM (Option BlockId)} {e f : Exec Flow}
    (hc : Compiles rt arguments cursor c e)
    (hd : Compiles rt arguments cursor (fun block => d (some block)) f)
    (hnone : ∀ ⦃s r s'⦄, d none s = .ok (r, s') → r = none ∧ s' = s) :
    Compiles rt arguments cursor (fun block => do d (← c block)) (Interpreter.andThen e f) := by
  intro s r s' hs hcursor h
  obtain ⟨r₁, s₁, h₁, h₂⟩ := CodegenM.bind_ok.1 h
  obtain ⟨hlater, hblock, hrun⟩ := hc hs hcursor h₁
  cases r₁ with
  | none =>
    obtain ⟨rfl, rfl⟩ := hnone h₂
    refine ⟨hlater, fun b hb => (Option.some_ne_none b hb.symm).elim, fun code hcode m => ?_⟩
    obtain ⟨m', hafter, hcompl⟩ := hrun code hcode m
    cases hv : (e m.memory).value with
    | next =>
      rw [hv] at hcompl
      obtain ⟨p', hp', -⟩ := hcompl
      cases hp'
    | returned =>
      rw [hv] at hcompl
      refine ⟨m', hafter.andThen_returned hv, ?_⟩
      rw [andThen_value_returned hv]
      exact hcompl
  | some block =>
    have hpos : s₁.insertPoint = block := hblock block rfl
    rw [← hpos] at h₂ hrun
    obtain ⟨hlater', hblock', hrun'⟩ := hd hlater.positioned (hlater.cursor.trans hcursor) h₂
    refine ⟨hlater.trans hlater', hblock', fun code hcode m => ?_⟩
    obtain ⟨m₁, hafter, hcompl⟩ := hrun code (hlater'.blocks.toExtends.trans hcode) m
    cases hv : (e m.memory).value with
    | next =>
      rw [hv] at hcompl
      obtain ⟨p₁, hp₁, hreach⟩ := hcompl
      cases hp₁
      obtain ⟨m', hafter', hcompl'⟩ := hrun' code hcode m₁
      refine ⟨m', hafter.andThen hv hafter', ?_⟩
      rw [andThen_value hafter hv]
      exact hcompl'.of_reaches hreach
    | returned =>
      rw [hv] at hcompl
      refine ⟨m₁, hafter.andThen_returned hv, ?_⟩
      rw [andThen_value_returned hv]
      exact hcompl

/-- Nothing is generated and nothing is done. -/
theorem Compiles.skip :
    Compiles rt arguments cursor (fun block => return some block) (return .next) := by
  intro s r s' hs hcursor h
  obtain ⟨rfl, rfl⟩ := CodegenM.pure_ok.1 h
  refine ⟨.refl hs, fun b hb => Option.some.inj hb, fun code _ m => ⟨m, .refl, ?_⟩⟩
  exact ⟨s.here, rfl, .refl⟩

/-- What is generated at the block that continues, if there is one. -/
def continueWith (d : BlockId → CodegenM (Option BlockId)) :
    Option BlockId → CodegenM (Option BlockId)
  | some block => d block
  | none => return none

theorem continueWith_none {d : BlockId → CodegenM (Option BlockId)} ⦃s : CodegenState⦄
    ⦃r : Option BlockId⦄ ⦃s' : CodegenState⦄ (h : continueWith d none s = .ok (r, s')) :
    r = none ∧ s' = s := by
  obtain ⟨rfl, rfl⟩ := CodegenM.pure_ok.1 h
  exact ⟨rfl, rfl⟩

/-- Straight code in front. -/
theorem Compiles.after {α β : Type} {c : CodegenM α} {e : Exec β} {post : α → β → Assertion}
    {d : BlockId → CodegenM (Option BlockId)} {f : Exec Flow}
    (h : Emits rt arguments .trivial c e post) (hd : Compiles rt arguments cursor d f) :
    Compiles rt arguments cursor (fun block => do let _ ← c; d block) (do let _ ← e; f) := by
  have hfirst : Compiles rt arguments cursor _ _ := Compiles.of_emits h
  have hseq := hfirst.seq (d := continueWith d) hd continueWith_none
  simp only [bind_assoc, pure_bind, Interpreter.andThen] at hseq
  exact hseq

/-! ## Known values -/

/-- The known values have no effect on the code. -/
theorem Compiles.withValueScope {c : BlockId → CodegenM (Option BlockId)} {e : Exec Flow}
    (hc : Compiles rt arguments cursor c e) :
    Compiles rt arguments cursor (fun block => FunctionCodegen.withValueScope (c block)) e := by
  intro s r s' hs hcursor h
  obtain ⟨_, s₁, h₁, h⟩ := CodegenM.bind_ok.1 h
  obtain ⟨r₁, s₂, h₂, h⟩ := CodegenM.bind_ok.1 h
  obtain ⟨_, s₃, h₃, h⟩ := CodegenM.bind_ok.1 h
  obtain ⟨rfl, rfl⟩ := CodegenM.pure_ok.1 h
  cases h₁
  cases h₃
  have hs' : CodegenState.Positioned { s with values := [] :: s.values } := hs
  obtain ⟨hlater, hblock, hrun⟩ := hc hs' hcursor h₂
  exact ⟨⟨hlater.blocks, hlater.insertPoint, hlater.positioned, hlater.nextRegister,
    hlater.cursor⟩, hblock, hrun⟩

/-! ## If structures -/

/-- The block, if there is one, was created after `n` others and is still empty. -/
def IsContinueBlock (n : Nat) (s : CodegenState) (block : Option BlockId) : Prop :=
  ∀ c, block = some c → n ≤ c ∧ c < s.blocks.length ∧ s.blocks.code c = []

theorem IsContinueBlock.grows {n b : Nat} {s s' : CodegenState} {block : Option BlockId}
    (h : IsContinueBlock n s block) (hg : s.blocks.Grows b s'.blocks)
    (hb : ∀ c, block = some c → c ≠ b) : IsContinueBlock n s' block := by
  intro c hc
  obtain ⟨hn, hlt, hnil⟩ := h c hc
  exact ⟨hn, Nat.lt_of_lt_of_le hlt hg.length, (hg.frame c hlt (hb c hc)).trans hnil⟩

theorem lazyGetContinueBlock_ok {s s' : CodegenState} {block : Option BlockId} {c : BlockId}
    {n : Nat} (hn : n ≤ s.blocks.length) (hb : IsContinueBlock n s block)
    (h : FunctionCodegen.lazyGetContinueBlock block s = .ok (c, s')) :
    IsContinueBlock n s' (some c) ∧
      (block = some c ∧ s'.blocks = s.blocks ∨
        block = none ∧ c = s.blocks.length ∧ s'.blocks = s.blocks.create) ∧
      s.blocks.Grows s.blocks.length s'.blocks ∧ s'.insertPoint = s.insertPoint ∧
      s'.nextRegister = s.nextRegister ∧ s'.cursor = s.cursor := by
  cases block with
  | some b =>
    obtain ⟨rfl, rfl⟩ := CodegenM.pure_ok.1 h
    exact ⟨hb, .inl ⟨rfl, rfl⟩, .refl, rfl, rfl, rfl⟩
  | none =>
    cases h
    refine ⟨fun c hc => ?_, .inr ⟨rfl, rfl, rfl⟩, Blocks.grows_create, rfl, rfl, rfl⟩
    cases hc
    refine ⟨hn, ?_, ?_⟩
    · rw [Blocks.length_create]
      exact Nat.lt_succ_self _
    · rw [Blocks.code_create]
      exact Blocks.code_of_length_le (Nat.le_refl _)

/-- The terminator inserted last is executed where the block ended. -/
theorem step_terminated {s : CodegenState} (hs : s.Positioned) {t : Terminator}
    {code : Blocks Instruction}
    (hcode : (s.blocks.append s.insertPoint (.terminator t)).Extends code) (m : Machine) :
    step rt arguments code (s.here, m) = t.exec rt arguments m := by
  have hfetch : code.fetch s.here = some (.terminator t) :=
    Blocks.fetch_extends hcode (Blocks.fetch_append hs)
  rw [step, hfetch]

theorem Completes.none {code : Blocks Instruction} {p : Point} {q : Option Point} {m m' : Machine}
    {flow : Flow} (h : Completes rt arguments code p none m m' flow) :
    Completes rt arguments code p q m m' flow := by
  cases flow with
  | next =>
    obtain ⟨p', hp', -⟩ := h
    cases hp'
  | returned => exact h

/-- Where the code continued it now goes on to the target of a jump. -/
theorem Completes.jump {code : Blocks Instruction} {p p' q : Point} {m m' : Machine}
    {flow : Flow} (h : Completes rt arguments code p (some p') m m' flow)
    (hstep : ∀ m, step rt arguments code (p', m) = .running (q, m)) :
    Completes rt arguments code p (some q) m m' flow := by
  cases flow with
  | next =>
    obtain ⟨p₁, hp₁, hreach⟩ := h
    cases hp₁
    exact ⟨q, rfl, hreach.trans (.single (hstep m'))⟩
  | returned => exact h

/-- The builder is positioned at a block that was just created. -/
def CodegenState.enterBlock (s : CodegenState) : CodegenState :=
  { s with blocks := s.blocks.create, insertPoint := s.blocks.length }

section EnterBlock

variable {s s' : CodegenState}

theorem code_enterBlock : s.enterBlock.blocks.code s.blocks.length = [] :=
  Blocks.code_create.trans (Blocks.code_of_length_le (Nat.le_refl _))

theorem positioned_enterBlock : s.enterBlock.Positioned :=
  Nat.lt_of_lt_of_eq (Nat.lt_succ_self _) Blocks.length_create.symm

theorem here_enterBlock : s.enterBlock.here = ⟨s.blocks.length, 0⟩ :=
  congrArg (fun is => Point.mk s.blocks.length (List.length is)) code_enterBlock

/-- A branch is generated in a block of its own; if its end is reached, a jump to the continue block
is put there. -/
theorem codegenBranch_inv {c : BlockId → CodegenM (Option BlockId)} {cont cont' : Option BlockId}
    {block : BlockId}
    (h : FunctionCodegen.codegenBranch cont c s = .ok ((block, cont'), s')) :
    block = s.blocks.length ∧ ∃ r s₁, c s.enterBlock.insertPoint s.enterBlock = .ok (r, s₁) ∧
      (r = none ∧ cont' = cont ∧ s' = s₁ ∨
        ∃ b c' s₂, r = some b ∧ FunctionCodegen.lazyGetContinueBlock cont s₁ = .ok (c', s₂) ∧
          cont' = some c' ∧
          s' = { s₂ with blocks := s₂.blocks.append s₂.insertPoint (.terminator (.br c')) }) := by
  rw [FunctionCodegen.codegenBranch] at h
  obtain ⟨b, s₁, h₁, h⟩ := CodegenM.bind_ok.1 h
  obtain ⟨_, s₂, h₂, h⟩ := CodegenM.bind_ok.1 h
  obtain ⟨r, s₃, h₃, h⟩ := CodegenM.bind_ok.1 h
  cases h₁
  cases h₂
  cases r with
  | none =>
    obtain ⟨heq, rfl⟩ := CodegenM.pure_ok.1 h
    cases heq
    exact ⟨rfl, none, s₃, h₃, .inl ⟨rfl, rfl, rfl⟩⟩
  | some b =>
    obtain ⟨c', s₄, h₄, h⟩ := CodegenM.bind_ok.1 h
    obtain ⟨_, s₅, h₅, h⟩ := CodegenM.bind_ok.1 h
    obtain ⟨heq, rfl⟩ := CodegenM.pure_ok.1 h
    cases heq
    cases h₅
    exact ⟨rfl, some b, s₃, h₃, .inr ⟨b, c', s₄, rfl, h₄, rfl, rfl⟩⟩

end EnterBlock

variable (rt arguments) in
/-- What the generation of a branch yields: nothing is appended to the blocks there were, and the
end of the branch, if it has one, jumps to the start of the continue block. -/
structure IsBranch (n : Nat) (s s' : CodegenState) (cont cont' : Option BlockId) (block : BlockId)
    (e : Exec Flow) : Prop where
  grows : s.blocks.Grows s.blocks.length s'.blocks
  nextRegister : s.nextRegister ≤ s'.nextRegister
  cursor : s'.cursor = s.cursor
  continueBlock : IsContinueBlock n s' cont'
  keeps : ∀ b, cont = some b → cont' = some b
  runs : ∀ code, s'.blocks.Extends code → ∀ m, ∃ m', m.After (e m.memory) m' ∧
    Completes rt arguments code ⟨block, 0⟩ (cont'.map (⟨·, 0⟩)) m m' (e m.memory).value

theorem codegenBranch_ok {c : BlockId → CodegenM (Option BlockId)} {e : Exec Flow}
    (hc : Compiles rt arguments cursor c e) {s s' : CodegenState} {cont cont' : Option BlockId}
    {block : BlockId} {n : Nat} (hcursor : s.cursor = cursor) (hn : n ≤ s.blocks.length)
    (hcont : IsContinueBlock n s cont)
    (h : FunctionCodegen.codegenBranch cont c s = .ok ((block, cont'), s')) :
    IsBranch rt arguments n s s' cont cont' block e := by
  obtain ⟨rfl, r, s₃, h₃, h⟩ := codegenBranch_inv h
  obtain ⟨hlater, hblock, hrun⟩ := hc positioned_enterBlock hcursor h₃
  rw [here_enterBlock] at hrun
  have hgrows : s.blocks.Grows s.blocks.length s₃.blocks :=
    Blocks.grows_create.trans hlater.blocks (.inl rfl)
  have hcont₃ : IsContinueBlock n s₃ cont :=
    hcont.grows hgrows fun c hc => Nat.ne_of_lt (hcont c hc).2.1
  rcases h with ⟨rfl, rfl, rfl⟩ | ⟨b, c', s₄, rfl, h₄, rfl, rfl⟩
  · refine ⟨hgrows, hlater.nextRegister, hlater.cursor, hcont₃, fun _ h => h,
      fun code hcode m => ?_⟩
    obtain ⟨m', hafter, hcompl⟩ := hrun code hcode m
    exact ⟨m', hafter, hcompl.none⟩
  · -- the end of the branch jumps to the continue block, which is not the block it is in
    obtain ⟨hcont₄, hsome, hgrows₄, hpoint₄, hnext₄, hcursor₄⟩ :=
      lazyGetContinueBlock_ok (Nat.le_trans hn hgrows.length) hcont₃ h₄
    have hpoint₃ : s₃.insertPoint = s.blocks.length ∨ s.blocks.length ≤ s₃.insertPoint :=
      hlater.insertPoint.imp_right (Nat.le_trans (Blocks.grows_create (b := 0)).length)
    have hfree : c' ≠ s₄.insertPoint := by
      rw [hpoint₄]
      rcases hsome with ⟨hc', -⟩ | ⟨-, rfl, -⟩
      · have hle : s.blocks.length ≤ s₃.insertPoint :=
          hpoint₃.elim (fun h => Nat.le_of_eq h.symm) id
        exact Nat.ne_of_lt (Nat.lt_of_lt_of_le (hcont c' hc').2.1 hle)
      · exact Nat.ne_of_gt hlater.positioned
    have hpos₄ : s₄.Positioned := by
      rw [CodegenState.Positioned, hpoint₄]
      exact Nat.lt_of_lt_of_le hlater.positioned hgrows₄.length
    have hhere₄ : s₄.here = s₃.blocks.endOf s₃.insertPoint := by
      rw [CodegenState.here, Blocks.endOf, hpoint₄,
        hgrows₄.frame _ hlater.positioned (Nat.ne_of_lt hlater.positioned)]
      rfl
    have hgrows₅ : s₄.blocks.Grows s₄.insertPoint
        (s₄.blocks.append s₄.insertPoint (.terminator (.br c'))) := Blocks.grows_append
    refine ⟨?_, Nat.le_trans hlater.nextRegister (Nat.le_of_eq hnext₄.symm),
      hcursor₄.trans hlater.cursor, hcont₄.grows hgrows₅ fun c hc => by cases hc; exact hfree, ?_,
      fun code hcode m => ?_⟩
    · refine (hgrows.trans hgrows₄ (.inr hgrows.length)).trans hgrows₅ ?_
      rw [hpoint₄]
      exact hpoint₃
    · rintro b hb
      rcases hsome with ⟨hc', -⟩ | ⟨hnone, -⟩
      · rw [← hb, hc']
      · rw [hb] at hnone
        cases hnone
    · obtain ⟨m', hafter, hcompl⟩ :=
        hrun code ((hgrows₄.toExtends.trans hgrows₅.toExtends).trans hcode) m
      refine ⟨m', hafter, hcompl.jump fun m => ?_⟩
      rw [← hblock b rfl, ← hhere₄, step_terminated hpos₄ hcode]
      rfl

/-- The false branch: without one the condition jumps to the continue block itself. -/
theorem codegenFalseBranch_ok {c : Option (BlockId → CodegenM (Option BlockId))} {e : Exec Flow}
    (hc : ∀ d, c = some d → Compiles rt arguments cursor d e) (hnone : c = none → e = return .next)
    {s s' : CodegenState} {cont cont' : Option BlockId} {block : BlockId} {n : Nat}
    (hcursor : s.cursor = cursor) (hn : n ≤ s.blocks.length) (hcont : IsContinueBlock n s cont)
    (h : FunctionCodegen.codegenFalseBranch cont c s = .ok ((block, cont'), s')) :
    IsBranch rt arguments n s s' cont cont' block e := by
  cases c with
  | some d => exact codegenBranch_ok (hc d rfl) hcursor hn hcont h
  | none =>
    obtain ⟨b, s₁, h₁, h⟩ := CodegenM.bind_ok.1 h
    obtain ⟨heq, rfl⟩ := CodegenM.pure_ok.1 h
    cases heq
    obtain ⟨hcont₁, hsome, hgrows, -, hnext, hcursor₁⟩ := lazyGetContinueBlock_ok hn hcont h₁
    refine ⟨hgrows, Nat.le_of_eq hnext.symm, hcursor₁, hcont₁, fun b hb => ?_, fun code _ m => ?_⟩
    · rcases hsome with ⟨h, -⟩ | ⟨h, -⟩ <;> rw [hb] at h
      · exact h.symm
      · cases h
    · rw [hnone rfl]
      exact ⟨m, .refl, _, rfl, .refl⟩

/-- The condition and its comparison with null. -/
theorem condition_emits (ctx : IRContext) (condition : AST) :
    Emits rt arguments .trivial
      (do
        let conditionResult ← FunctionCodegen.codegenExpr ctx condition
        FunctionCodegen.createIsNotNull conditionResult)
      (do
        let v ← Interpreter.evalExpr ctx rt condition
        return .int v.isNotNull)
      (.value arguments) :=
  .bind (codegenExpr_emits ctx condition _) fun _ _ =>
    createIsNotNull_emits Assertion.entails_right

/-- Where the branch that is taken continues, the if structure does. -/
theorem IsBranch.runs_to {n : Nat} {s s' : CodegenState} {cont cont' : Option BlockId}
    {block : BlockId} {e : Exec Flow} (h : IsBranch rt arguments n s s' cont cont' block e)
    {cont'' : Option BlockId} (hkeep : ∀ b, cont' = some b → cont'' = some b)
    {code : Blocks Instruction} (hcode : s'.blocks.Extends code) (m : Machine) :
    ∃ m', m.After (e m.memory) m' ∧
      Completes rt arguments code ⟨block, 0⟩ (cont''.map (⟨·, 0⟩)) m m' (e m.memory).value := by
  obtain ⟨m', hafter, hcompl⟩ := h.runs code hcode m
  refine ⟨m', hafter, ?_⟩
  cases cont' with
  | none => exact hcompl.none
  | some b =>
    rw [hkeep b rfl]
    exact hcompl

/-- The effect of an if: its condition, the outcome of the branch, and the branch taken. -/
theorem evalIf_eq (condition : Exec Value) (e f : Exec Flow) :
    Interpreter.evalIf rt condition e f =
      (do
        let v ← condition
        return Value.int v.isNotNull) >>= fun p =>
      Exec.branch rt p.word >>= fun outcome => if outcome then e else f := by
  rw [bind_assoc]
  rfl

/-- A conditional branch to one of two pieces of code that continue at the same place. -/
theorem Completes.branch {code : Blocks Instruction} {x : Exec Value} {e f : Exec Flow}
    {p : Point} {q : Option Point} {m m₁ : Machine} {trueBlock falseBlock : BlockId}
    (hafter : m.After (x m.memory) m₁)
    (hreach : Reaches (step rt arguments code) (p, m)
      (⟨if (Exec.branch rt (x m.memory).value.word m₁.memory).value then trueBlock else falseBlock,
        0⟩, m₁.perform (Exec.branch rt (x m.memory).value.word)))
    (htrue : ∀ m, ∃ m', m.After (e m.memory) m' ∧
      Completes rt arguments code ⟨trueBlock, 0⟩ q m m' (e m.memory).value)
    (hfalse : ∀ m, ∃ m', m.After (f m.memory) m' ∧
      Completes rt arguments code ⟨falseBlock, 0⟩ q m m' (f m.memory).value) :
    ∃ m', m.After ((x >>= fun v => Exec.branch rt v.word >>= fun outcome =>
        if outcome then e else f) m.memory) m' ∧
      Completes rt arguments code p q m m' ((x >>= fun v => Exec.branch rt v.word >>= fun outcome =>
        if outcome then e else f) m.memory).value := by
  have hbranch : m₁.After (Exec.branch rt (x m.memory).value.word m₁.memory)
      (m₁.perform (Exec.branch rt (x m.memory).value.word)) := ⟨rfl, rfl⟩
  cases houtcome : (Exec.branch rt (x m.memory).value.word m₁.memory).value with
  | true =>
    rw [houtcome] at hreach
    obtain ⟨m', htaken, hcompl⟩ := htrue (m₁.perform (Exec.branch rt (x m.memory).value.word))
    refine ⟨m', hafter.bind (hbranch.bind ?_), ?_⟩
    · rw [houtcome]
      exact htaken
    · rw [Exec.bind_apply, ← hafter.memory, Exec.bind_apply, houtcome]
      exact hcompl.of_reaches hreach
  | false =>
    rw [houtcome] at hreach
    obtain ⟨m', htaken, hcompl⟩ := hfalse (m₁.perform (Exec.branch rt (x m.memory).value.word))
    refine ⟨m', hafter.bind (hbranch.bind ?_), ?_⟩
    · rw [houtcome]
      exact htaken
    · rw [Exec.bind_apply, ← hafter.memory, Exec.bind_apply, houtcome]
      exact hcompl.of_reaches hreach

theorem continueAt_ok {cont r : Option BlockId} {s s' : CodegenState}
    (h : FunctionCodegen.continueAt cont s = .ok (r, s')) :
    r = cont ∧ s'.blocks = s.blocks ∧ s'.nextRegister = s.nextRegister ∧
      s'.cursor = s.cursor ∧
        (cont = none ∧ s'.insertPoint = s.insertPoint ∨ cont = some s'.insertPoint) := by
  cases cont with
  | none =>
    obtain ⟨rfl, rfl⟩ := CodegenM.pure_ok.1 h
    exact ⟨rfl, rfl, rfl, rfl, .inl ⟨rfl, rfl⟩⟩
  | some c =>
    cases h
    exact ⟨rfl, rfl, rfl, rfl, .inr rfl⟩

/-- An empty block ends where it starts. -/
theorem IsContinueBlock.map_endOf {n : Nat} {s : CodegenState} {block : Option BlockId}
    (h : IsContinueBlock n s block) : block.map s.blocks.endOf = block.map (⟨·, 0⟩) := by
  cases block with
  | none => rfl
  | some c =>
    rw [Option.map_some, Option.map_some, Blocks.endOf, (h c rfl).2.2]
    rfl

/-- An if structure: the branches, then in the current block the condition and the conditional
branch, then the continue block, if there is one. -/
theorem codegenIfStructure_inv {ctx : IRContext} {block : BlockId} {condition : AST}
    {c : BlockId → CodegenM (Option BlockId)} {d : Option (BlockId → CodegenM (Option BlockId))}
    {s s' : CodegenState} {r : Option BlockId}
    (h : FunctionCodegen.codegenIfStructure ctx block condition c d s = .ok (r, s')) :
    ∃ trueBlock falseBlock cont s₁ s₂ p s₃,
      FunctionCodegen.codegenBranch none c s = .ok ((trueBlock, cont), s₁) ∧
      FunctionCodegen.codegenFalseBranch cont d s₁ = .ok ((falseBlock, r), s₂) ∧
      (FunctionCodegen.codegenExpr ctx condition >>= FunctionCodegen.createIsNotNull)
        { s₂ with insertPoint := block } = .ok (p, s₃) ∧
      s'.blocks =
        s₃.blocks.append s₃.insertPoint (.terminator (.condBr p trueBlock falseBlock)) ∧
      s'.nextRegister = s₃.nextRegister ∧ s'.cursor = s₃.cursor ∧
      (r = none ∧ s'.insertPoint = s₃.insertPoint ∨ r = some s'.insertPoint) := by
  rw [FunctionCodegen.codegenIfStructure] at h
  obtain ⟨⟨trueBlock, cont₁⟩, s₁, h₁, h⟩ := CodegenM.bind_ok.1 h
  obtain ⟨⟨falseBlock, cont₂⟩, s₂, h₂, h⟩ := CodegenM.bind_ok.1 h
  obtain ⟨_, s₃, h₃, h⟩ := CodegenM.bind_ok.1 h
  obtain ⟨o, s₄, h₄, h⟩ := CodegenM.bind_ok.1 h
  obtain ⟨p, s₅, h₅, h⟩ := CodegenM.bind_ok.1 h
  obtain ⟨_, s₆, h₆, h⟩ := CodegenM.bind_ok.1 h
  cases h₃
  cases h₆
  obtain ⟨rfl, hblocks, hnext, hcursor, hpoint⟩ := continueAt_ok h
  exact ⟨trueBlock, falseBlock, cont₁, s₁, s₂, p, s₅, h₁, h₂,
    CodegenM.bind_ok.2 ⟨o, s₄, h₄, h₅⟩, hblocks, hnext, hcursor, hpoint⟩

theorem codegenIfStructure_compiles (ctx : IRContext) (condition : AST)
    {c : BlockId → CodegenM (Option BlockId)}
    {d : Option (BlockId → CodegenM (Option BlockId))} {e f : Exec Flow}
    (hc : Compiles rt arguments cursor c e)
    (hd : ∀ d', d = some d' → Compiles rt arguments cursor d' f)
    (hnone : d = none → f = return .next) :
    Compiles rt arguments cursor
      (fun block => FunctionCodegen.codegenIfStructure ctx block condition c d)
      (Interpreter.evalIf rt (Interpreter.evalExpr ctx rt condition) e f) := by
  intro s r s' hs hcursor h
  obtain ⟨trueBlock, falseBlock, cont₁, s₁, s₂, p, s₃, h₁, h₂, h₃, hblocks, hnext, hcursor',
    hpoint⟩ := codegenIfStructure_inv h
  -- the branches, which leave the current block alone
  have htrue := codegenBranch_ok hc hcursor (Nat.le_refl _)
    (fun _ h => (Option.some_ne_none _ h.symm).elim) h₁
  have hfalse := codegenFalseBranch_ok hd hnone (htrue.cursor.trans hcursor) htrue.grows.length
    htrue.continueBlock h₂
  have hbranches : s.blocks.Grows s.blocks.length s₂.blocks :=
    htrue.grows.trans hfalse.grows (.inr htrue.grows.length)
  have hgrows₂ : s.blocks.Grows s.insertPoint s₂.blocks := hbranches.of_length_le (Nat.le_refl _)
  -- the condition, back in the current block
  have hpos₂ : CodegenState.Positioned { s₂ with insertPoint := s.insertPoint } :=
    Nat.lt_of_lt_of_le hs hgrows₂.length
  have hhere₂ : CodegenState.here { s₂ with insertPoint := s.insertPoint } = s.here :=
    congrArg (Point.mk s.insertPoint)
      (congrArg List.length (hbranches.frame _ hs (Nat.ne_of_lt hs)))
  have hcondition : Emits rt arguments _ _ _ _ := condition_emits ctx condition
  obtain ⟨hst, hrun⟩ := hcondition hpos₂ h₃
  have hpoint₃ : s₃.insertPoint = s.insertPoint := hst.insertPoint
  have hgrows₃ : s₂.blocks.Grows s.insertPoint s'.blocks := by
    rw [hblocks]
    exact hst.blocks.trans Blocks.grows_append (.inl hst.insertPoint)
  have hcont : IsContinueBlock s.blocks.length s' r :=
    hfalse.continueBlock.grows hgrows₃ fun c hc =>
      Nat.ne_of_gt (Nat.lt_of_lt_of_le hs (hfalse.continueBlock c hc).1)
  refine ⟨⟨hgrows₂.trans hgrows₃ (.inl rfl), ?_, ?_, ?_, ?_⟩, ?_, fun code hcode m => ?_⟩
  · rcases hpoint with ⟨-, hpoint⟩ | hpoint
    · exact .inl (hpoint.trans hpoint₃)
    · exact .inr (hcont _ hpoint).1
  · rcases hpoint with ⟨-, hpoint⟩ | hpoint
    · rw [CodegenState.Positioned, hpoint, hblocks, Blocks.length_append]
      exact hst.positioned
    · exact (hcont _ hpoint).2.1
  · rw [hnext]
    exact Nat.le_trans (Nat.le_trans htrue.nextRegister hfalse.nextRegister) hst.nextRegister
  · rw [hcursor', ← htrue.cursor, ← hfalse.cursor]
    exact hst.cursor
  · rintro b hb
    rcases hpoint with ⟨hnil, -⟩ | hpoint
    · rw [hb] at hnil
      cases hnil
    · exact Option.some.inj (hpoint.symm.trans hb)
  · have hcode₃ := hcode
    rw [hblocks] at hcode₃
    obtain ⟨m₁, hp, hval⟩ := hrun code (Blocks.grows_append.toExtends.trans hcode₃) m True.intro
    have hstep : step rt arguments code _ = _ := step_terminated hst.positioned hcode₃ m₁
    have hbranch := hp.reaches.trans (.single hstep)
    rw [hhere₂, wordOf_eq hval] at hbranch
    rw [evalIf_eq, hcont.map_endOf]
    have hextends : s₂.blocks.Extends code := hgrows₃.toExtends.trans hcode
    exact Completes.branch hp.after hbranch
      (htrue.runs_to hfalse.keeps (hfalse.grows.toExtends.trans hextends))
      (hfalse.runs_to (fun _ h => h) hextends)

/-! ## Statements -/

/-- The function ends with a return. -/
theorem Compiles.returns {α β : Type} {c : CodegenM α} {e : Exec β} {post : α → β → Assertion}
    {t : α → Terminator} {v : β → Option Value} (h : Emits rt arguments .trivial c e post)
    (ht : ∀ a b n m, (post a b).holds n m.registers →
      (t a).exec rt arguments m = .halted (m.perform (Exec.emit (.ret (v b))))) :
    Compiles rt arguments cursor
      (fun _ => do
        let a ← c
        FunctionCodegen.terminate (t a)
        return none)
      (do
        let b ← e
        Exec.emit (.ret (v b))
        return .returned) := by
  intro s r s' hs hcursor hc
  obtain ⟨a, s₁, hemit, hr⟩ := CodegenM.bind_ok.1 hc
  obtain ⟨_, s₂, hterm, hr⟩ := CodegenM.bind_ok.1 hr
  obtain ⟨rfl, rfl⟩ := CodegenM.pure_ok.1 hr
  cases hterm
  obtain ⟨hst, hrun⟩ := h hs hemit
  refine ⟨⟨hst.blocks.trans Blocks.grows_append (.inl hst.insertPoint), .inl hst.insertPoint, ?_,
    hst.nextRegister, hst.cursor⟩, fun b hb => (Option.some_ne_none b hb.symm).elim,
      fun code hcode m => ?_⟩
  · rw [CodegenState.Positioned, Blocks.length_append]
    exact hst.positioned
  · obtain ⟨m₁, hp, hpost⟩ :=
      hrun code (Blocks.grows_append.toExtends.trans hcode) m True.intro
    have hstep := (step_terminated hst.positioned hcode m₁).trans (ht _ _ _ _ hpost)
    have hret : m₁.After (Exec.emit (.ret (v (e m.memory).value)) m₁.memory)
        (m₁.perform (Exec.emit (.ret (v (e m.memory).value)))) := ⟨rfl, rfl⟩
    exact ⟨_, hp.after.bind (hret.returning fun _ => Flow.returned),
      Halts.of_reaches hp.reaches (.single hstep)⟩

variable (ctx : IRContext)

theorem codegenStmts_none {cs : List AST} {s s' : CodegenState} {r : Option BlockId}
    (h : FunctionCodegen.codegenStmts ctx none cs s = .ok (r, s')) : r = none ∧ s' = s := by
  cases cs with
  | nil =>
    obtain ⟨rfl, rfl⟩ := CodegenM.pure_ok.1 h
    exact ⟨rfl, rfl⟩
  | cons c cs =>
    obtain ⟨b, s₁, h₁, -⟩ := CodegenM.bind_ok.1 h
    exact (CodegenM.throw_ok.1 h₁).elim

theorem codegenStmts_compiles {cs : List AST}
    (h : ∀ c ∈ cs, Compiles rt arguments cursor
      (fun block => FunctionCodegen.codegenStmt ctx block c) (Interpreter.execStmt ctx rt c)) :
    Compiles rt arguments cursor (fun block => FunctionCodegen.codegenStmts ctx (some block) cs)
      (Interpreter.execStmts ctx rt cs) := by
  induction cs with
  | nil => exact .skip
  | cons c cs ih =>
    exact Compiles.seq (d := fun current => FunctionCodegen.codegenStmts ctx current cs)
      (h c List.mem_cons_self) (ih fun x hx => h x (List.mem_cons_of_mem _ hx))
      fun _ _ _ => codegenStmts_none ctx

/-- A declaration: the expression, then the storage, then its initial value. -/
theorem declStmt_emits (decl : NodeId) (expr : AST) :
    Emits rt arguments .trivial
      (do
        let value ← FunctionCodegen.codegenExpr ctx expr
        FunctionCodegen.emit (.alloca decl)
        let value ← FunctionCodegen.loadMemory value
        FunctionCodegen.createStore value (.alloca decl)
        FunctionCodegen.introduce decl)
      (do
        let value ← Interpreter.evalExpr ctx rt expr
        Exec.emit (.alloca decl)
        let value ← Interpreter.loadMemory value
        Interpreter.store value (.address decl))
      (fun _ _ => .trivial) := by
  refine .bind (codegenExpr_emits ctx expr _) fun o v => .bind (.emit fun _ _ _ => rfl) fun _ _ =>
    .bind (loadMemory_emits Assertion.entails_right.left) fun p w => ?_
  refine .congr (?_ : Emits _ _ _ _ (Interpreter.store w (.address decl) >>= fun _ =>
    Pure.pure ()) _) fun _ _ _ => bind_pure _
  exact .bind (createStore_emits (fun _ _ _ => ⟨Nat.zero_le _, rfl⟩) Assertion.entails_right)
    fun _ _ => .introduce

theorem declStmt_compiles (decl : NodeId) (expr : AST) :
    Compiles rt arguments cursor
      (fun block => do
        let value ← FunctionCodegen.codegenExpr ctx expr
        FunctionCodegen.emit (.alloca decl)
        let value ← FunctionCodegen.loadMemory value
        FunctionCodegen.createStore value (.alloca decl)
        FunctionCodegen.introduce decl
        return some block)
      (do
        let value ← Interpreter.evalExpr ctx rt expr
        Exec.emit (.alloca decl)
        let value ← Interpreter.loadMemory value
        Interpreter.store value (.address decl)
        return .next) := by
  have hemits : Emits rt arguments _ _ _ _ := declStmt_emits ctx decl expr
  have h : Compiles rt arguments cursor _ _ := Compiles.of_emits hemits
  simp only [bind_assoc] at h
  exact h

/-- An expression statement: the expression, then the mark. -/
theorem exprStmt_emits (stmt : NodeId) (expr : AST) :
    Emits rt arguments .trivial
      (FunctionCodegen.codegenExpr ctx expr >>= fun _ => FunctionCodegen.emit (.statement stmt))
      (Interpreter.evalExpr ctx rt expr >>= fun _ => Exec.emit (.statement stmt))
      (fun _ _ => .trivial) :=
  .bind (codegenExpr_emits ctx expr _) fun _ _ => .emit fun _ _ _ => rfl

theorem exprStmt_compiles (stmt : NodeId) (expr : AST) :
    Compiles rt arguments cursor
      (fun block => do
        let _ ← FunctionCodegen.codegenExpr ctx expr
        FunctionCodegen.emit (.statement stmt)
        return some block)
      (do
        let _ ← Interpreter.evalExpr ctx rt expr
        Exec.emit (.statement stmt)
        return .next) := by
  have hemits : Emits rt arguments _ _ _ _ := exprStmt_emits ctx stmt expr
  have h : Compiles rt arguments cursor _ _ := Compiles.of_emits hemits
  simp only [bind_assoc] at h
  exact h

/-- The value of a return: the expression, then what it refers to. -/
theorem returnExpr_emits (expr : AST) :
    Emits rt arguments .trivial
      (FunctionCodegen.codegenExpr ctx expr >>= FunctionCodegen.loadMemory)
      (Interpreter.evalExpr ctx rt expr >>= Interpreter.loadMemory) (.value arguments) :=
  .bind (codegenExpr_emits ctx expr _) fun _ _ => loadMemory_emits Assertion.entails_right

theorem returnExpr_compiles (expr : AST) :
    Compiles rt arguments cursor
      (fun _ => do
        let value ← FunctionCodegen.codegenExpr ctx expr
        let value ← FunctionCodegen.loadMemory value
        FunctionCodegen.terminate (.ret value)
        return none)
      (do
        let value ← Interpreter.evalExpr ctx rt expr
        let value ← Interpreter.loadMemory value
        Exec.emit (.ret (some value))
        return .returned) := by
  have hemits : Emits rt arguments _ _ _ _ := returnExpr_emits ctx expr
  have h : Compiles rt arguments cursor _ _ :=
    Compiles.returns (t := .ret) (v := some) hemits fun o v n m h => by
      rw [Terminator.exec, h.2]
  simp only [bind_assoc] at h
  exact h

/-- The code of a statement does what the statement does. -/
theorem codegenStmt_compiles (a : AST) :
    Compiles rt arguments cursor (fun block => FunctionCodegen.codegenStmt ctx block a)
      (Interpreter.execStmt ctx rt a) := by
  induction a using Rose.ind with
  | h n cs ih =>
    obtain ⟨⟨id, data⟩, decl, exportedDecls⟩ := n
    have hfault (fault : CodegenFault) (e : Exec Flow) :
        Compiles rt arguments cursor (fun _ => throw fault) e :=
      fun _ _ _ _ _ h => (CodegenM.throw_ok.1 h).elim
    cases data with
    | compoundStmt => exact (codegenStmts_compiles ctx ih).withValueScope
    | unscopedCompoundStmt => exact codegenStmts_compiles ctx ih
    | returnStmt =>
      rcases cs with _ | ⟨expr, _ | ⟨c, cs⟩⟩
      · have hnothing : Emits rt arguments .trivial (pure ()) (pure ()) fun _ _ => .trivial :=
          .pure .refl
        exact Compiles.returns (t := fun _ => .retVoid) (v := fun _ => none) hnothing
          fun _ _ _ _ _ => rfl
      · exact returnExpr_compiles ctx expr
      · exact hfault _ _
    | expressionStmt =>
      rcases cs with _ | ⟨expr, _ | ⟨c, cs⟩⟩
      · exact hfault _ _
      · exact exprStmt_compiles ctx id expr
      · exact hfault _ _
    | declStmt name =>
      rcases cs with _ | ⟨expr, _ | ⟨c, cs⟩⟩
      · exact hfault _ _
      · exact declStmt_compiles ctx id expr
      · exact hfault _ _
    | ifStmt =>
      rcases cs with _ | ⟨condition, _ | ⟨trueBranch, _ | ⟨falseBranch, _ | ⟨c, cs⟩⟩⟩⟩
      · exact hfault _ _
      · exact hfault _ _
      · exact codegenIfStructure_compiles ctx condition (ih trueBranch (by simp))
          (fun _ h => (Option.some_ne_none _ h.symm).elim) (fun _ => rfl)
      · refine codegenIfStructure_compiles ctx condition (ih trueBranch (by simp))
          (fun d h => ?_) (fun h => (Option.some_ne_none _ h).elim)
        cases h
        exact ih falseBranch (by simp)
      · exact hfault _ _
    | _ => exact hfault _ _

end Swy
