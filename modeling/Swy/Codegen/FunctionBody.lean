import Swy.Codegen.BlockStructure
import Swy.Codegen.OperandKinds

/-!
# Function bodies

The code of a whole function: the parameters, the body and the return at its end. The function is
generated exactly if its body passes the check; all its blocks are closed and reached from the
entry, and executing it does what the structural interpreter does
(`codegen_preserves_control_flow`).
-/

namespace Swy

open Library

variable {rt : Runtime} {arguments : List Word} {cursor : ASTCursor}

/-- The parameters with a name get their storage and their value. -/
theorem storeArguments_emits {pre : Assertion} (args : List AST) (index : Nat) :
    Emits rt arguments pre (FunctionCodegen.storeArguments index args)
      (Interpreter.bindArguments arguments index args) (fun _ _ => .trivial) := by
  induction args generalizing index pre with
  | nil => exact .pure fun _ _ _ => True.intro
  | cons c cs ih =>
    obtain ⟨n, cs'⟩ := c
    rw [FunctionCodegen.storeArguments, Interpreter.bindArguments]
    by_cases h : n.node.kind = .namedArgumentDecl
    · have hargument : Emits rt arguments pre
          (do
            FunctionCodegen.emit (.alloca n.node.id)
            FunctionCodegen.emit (.store (.argument index) n.node.id)
            FunctionCodegen.introduce n.node.id
            FunctionCodegen.storeArguments (index + 1) cs)
          (do
            Exec.emit (.alloca n.node.id)
            Exec.store n.node.id (arguments.getD index 0)
            Interpreter.bindArguments arguments (index + 1) cs) (fun _ _ => .trivial) :=
        .bind (.emit fun _ _ _ => rfl) fun _ _ => .bind (.emit fun _ _ _ => rfl) fun _ _ =>
          .after .introduce fun _ => ih (index + 1)
      simp only [h, if_true]
      exact hargument
    · simp only [h, if_false]
      exact ih (index + 1)

namespace FunctionCodegen

variable (ctx : IRContext)

/-- The return at the end of a body that is left. -/
def finish : Option BlockId → CodegenM (Option BlockId)
  | some _ => do
    terminate .retVoid
    return none
  | none => return none

/-- The code of a function in its entry block. -/
def codegenFrom (args body : AST) (block : BlockId) : CodegenM (Option BlockId) := do
  storeArguments 0 args.children
  finish (← codegenStmt ctx block body)

/-- The function after its entry block was created. -/
def entered (cursor : ASTCursor) : CodegenState where
  blocks := [[]]
  insertPoint := 0
  nextRegister := 0
  values := [[]]
  cursor := cursor

end FunctionCodegen

/-- A function that was generated from its entry block on and ended does what it was generated
for. -/
theorem Compiles.halts {c : BlockId → CodegenM (Option BlockId)} {e : Exec Flow}
    (hc : Compiles rt arguments cursor c e) {s : CodegenState}
    (h : c 0 (FunctionCodegen.entered cursor) = .ok (none, s)) :
    ∃ m, Halts (step rt arguments s.blocks) (entry rt) m ∧ m.trace = (e rt.memory).events := by
  have hpos : (FunctionCodegen.entered cursor).Positioned := Nat.zero_lt_one
  obtain ⟨-, -, hrun⟩ := hc hpos rfl h
  obtain ⟨m, hafter, hcompl⟩ := hrun s.blocks .refl (.start rt.memory)
  refine ⟨m, ?_, hafter.trace⟩
  have hcompl : Completes rt arguments s.blocks ⟨0, 0⟩ none (.start rt.memory) m
    (e rt.memory).value := hcompl
  cases hv : (e rt.memory).value with
  | next =>
    rw [hv] at hcompl
    obtain ⟨p, hp, -⟩ := hcompl
    cases hp
  | returned =>
    rw [hv] at hcompl
    exact hcompl

section

variable (ctx : IRContext)

/-- A body is generated in its entry block. -/
theorem codegenBody_ok {args body : AST} {s : CodegenState}
    (h : FunctionCodegen.codegenBody ctx args body (.initial cursor) = .ok ((), s)) :
    ∃ s', FunctionCodegen.codegenFrom ctx args body 0 (FunctionCodegen.entered cursor) =
      .ok (none, s') ∧ s'.blocks = s.blocks := by
  obtain ⟨_, s₁, h₁, h⟩ := CodegenM.bind_ok.1 h
  obtain ⟨_, s₂, h₂, h⟩ := CodegenM.bind_ok.1 h
  obtain ⟨_, s₃, h₃, h⟩ := CodegenM.bind_ok.1 h
  obtain ⟨-, rfl⟩ := CodegenM.pure_ok.1 h
  cases h₁
  cases h₃
  refine ⟨s₂, ?_, rfl⟩
  obtain ⟨block, s₄, h₄, h₂⟩ := CodegenM.bind_ok.1 h₂
  obtain ⟨entry, s₅, h₅, h₄⟩ := CodegenM.bind_ok.1 h₄
  obtain ⟨_, s₆, h₆, h₄⟩ := CodegenM.bind_ok.1 h₄
  obtain ⟨rfl, rfl⟩ := CodegenM.pure_ok.1 h₄
  cases h₅
  obtain ⟨r, s₇, h₇, h₂⟩ := CodegenM.bind_ok.1 h₂
  refine CodegenM.bind_ok.2 ⟨_, s₆, h₆, CodegenM.bind_ok.2 ⟨r, s₇, h₇, ?_⟩⟩
  cases r with
  | none =>
    obtain ⟨-, rfl⟩ := CodegenM.pure_ok.1 h₂
    rfl
  | some b =>
    cases h₂
    rfl

theorem finish_emits : Emits rt arguments .trivial (Pure.pure ()) (Pure.pure ())
    fun _ _ => .trivial := .pure fun _ _ _ => True.intro

theorem finish_compiles :
    Compiles rt arguments cursor (fun block => FunctionCodegen.finish (some block))
      (do
        Exec.emit (.ret none)
        return .returned) :=
  Compiles.returns (t := fun _ => .retVoid) (v := fun _ => none) finish_emits fun _ _ _ _ _ => rfl

theorem finish_shaped :
    Shaped cursor (fun block => FunctionCodegen.finish (some block)) := by
  have hnothing : Emits default [] _ _ _ _ := finish_emits
  exact Shaped.returns (t := fun _ => .retVoid) hnothing

theorem finish_none ⦃s : CodegenState⦄ ⦃r : Option BlockId⦄ ⦃s' : CodegenState⦄
    (h : FunctionCodegen.finish none s = .ok (r, s')) : r = none ∧ s' = s := by
  obtain ⟨rfl, rfl⟩ := CodegenM.pure_ok.1 h
  exact ⟨rfl, rfl⟩

theorem codegenFrom_compiles (args body : AST) :
    Compiles rt arguments cursor (FunctionCodegen.codegenFrom ctx args body)
      (Interpreter.execBody ctx rt arguments args body) :=
  .after (storeArguments_emits args.children 0) <|
    (codegenStmt_compiles ctx body).seq (d := FunctionCodegen.finish) finish_compiles finish_none

theorem codegenFrom_shaped (args body : AST) :
    Shaped cursor (FunctionCodegen.codegenFrom ctx args body) := by
  have hargs : Emits default [] .trivial _ _ fun _ _ => .trivial :=
    storeArguments_emits args.children 0
  have hbody : Compiles default [] cursor _ _ := codegenStmt_compiles ctx body
  exact .after hargs (hbody.seq (d := FunctionCodegen.finish) finish_compiles finish_none) <|
    (codegenStmt_shaped ctx body).seq (d := FunctionCodegen.finish) hbody finish_compiles
      finish_shaped finish_none

/-- The blocks of a function: each ends with its only terminator and is reached from the entry. -/
theorem codegenBody_blocks {args body : AST} {s : CodegenState}
    (h : FunctionCodegen.codegenBody ctx args body (.initial cursor) = .ok ((), s)) {b : BlockId}
    (hb : b < s.blocks.length) :
    IsClosed s.blocks b ∧ s.blocks.Leads Instruction.targets 0 b := by
  obtain ⟨s', hs', hblocks⟩ := codegenBody_ok ctx h
  have hpos : (FunctionCodegen.entered cursor).Positioned := Nat.zero_lt_one
  obtain ⟨hclosed, -, hreached⟩ :=
    codegenFrom_shaped ctx args body hpos rfl (isOpen_of_nil rfl) hs'
  rw [← hblocks] at hb ⊢
  rcases Nat.eq_zero_or_pos b with rfl | hpositive
  · exact ⟨hclosed 0 hb (.inl rfl) nofun, .refl⟩
  · exact ⟨hclosed b hb (.inr hpositive) nofun, hreached b hpositive hb⟩

/-- Executing a function does what its body does. -/
theorem codegenBody_halts {args body : AST} {s : CodegenState}
    (h : FunctionCodegen.codegenBody ctx args body (.initial cursor) = .ok ((), s)) :
    ∃ m, Halts (step rt arguments s.blocks) (entry rt) m ∧
      m.trace = (Interpreter.execBody ctx rt arguments args body rt.memory).events := by
  obtain ⟨s', hs', hblocks⟩ := codegenBody_ok ctx h
  rw [← hblocks]
  exact (codegenFrom_compiles ctx args body).halts hs'

/-- The block that is returned is the current one, and none is exactly if the statement is not left
for any outcome of its conditions. -/
theorem codegenStmt_continues {a : AST} (ha : AST.nothingFollows a) {s s' : CodegenState}
    {r : Option BlockId} (hs : s.Positioned)
    (h : FunctionCodegen.codegenStmt ctx s.insertPoint a s = .ok (r, s')) :
    (r = none ↔ ∀ rt, (Interpreter.execStmt ctx rt a rt.memory).value = .returned) ∧
      ∀ b, r = some b → s'.insertPoint = b := by
  have hcompiles : Compiles default [] s.cursor _ _ := codegenStmt_compiles ctx a
  obtain ⟨-, hblock, -⟩ := hcompiles hs rfl h
  refine ⟨?_, hblock⟩
  obtain ⟨_, -, hcontinues⟩ := (codegenStmt_abstracts ctx a ha s.insertPoint).of_ok h
  rw [← terminates_iff, ← Option.isNone_iff_eq_none, hcontinues]

/-- For every function in whose body nothing follows what terminates: the code generation never
stops at an absent block, and it yields a function exactly if the operands of the body have the
kinds they need; all blocks of the function are closed and reached; the block returned for a
statement says where and whether the control flow goes on; and executing the function does what the
body does, for all outcomes of the conditions. -/
theorem codegen_preserves_control_flow (cursor : ASTCursor) (n : ASTNode) (args body : AST)
    (returnDecl : Option AST) (hbody : AST.nothingFollows body) :
    let generated := FunctionCodegen.codegen ctx (.node n (args :: (returnDecl.toList ++ [body])))
      (.initial cursor)
    generated ≠ .error .nullDereference ∧
    ((∃ s, generated = .ok ((), s)) ↔ (Check.codegenBody ctx args body []).isSome) ∧
    (∀ s, generated = .ok ((), s) →
      (∀ b, b < s.blocks.length → IsClosed s.blocks b ∧ s.blocks.Leads Instruction.targets 0 b) ∧
      ∀ rt arguments, ∃ m, Halts (step rt arguments s.blocks) (entry rt) m ∧
        m.trace = (Interpreter.execBody ctx rt arguments args body rt.memory).events) ∧
    ∀ a s r s', AST.nothingFollows a → s.Positioned →
      FunctionCodegen.codegenStmt ctx s.insertPoint a s = .ok (r, s') →
      (r = none ↔ ∀ rt, (Interpreter.execStmt ctx rt a rt.memory).value = .returned) ∧
        ∀ b, r = some b → s'.insertPoint = b := by
  have hgenerated : FunctionCodegen.codegen ctx (.node n (args :: (returnDecl.toList ++ [body]))) =
      FunctionCodegen.codegenBody ctx args body := by
    cases returnDecl <;> rfl
  simp only [hgenerated]
  have hcheck := codegenBody_abstracts ctx args body hbody
  have hok := hcheck.ok_iff (.initial cursor)
  exact ⟨hcheck.ne_nullDereference _, ⟨fun ⟨s, h⟩ => hok.1 ⟨_, s, h⟩,
      fun h => (hok.2 h).elim fun _ h => h⟩,
    fun s h => ⟨fun b => codegenBody_blocks ctx h, fun rt arguments => codegenBody_halts ctx h⟩,
    fun a s r s' ha hs h => codegenStmt_continues ctx ha hs h⟩

/-- A function that returns in both branches of an if: no block is left to continue in. -/
theorem codegen_preserves_control_flow_if :
    let ctx : IRContext := ⟨fun _ => none, fun _ => none⟩
    let literal (id : NodeId) : AST := .node ⟨⟨id, .integerLiteralExpr 7⟩, none, []⟩ []
    let returnStmt (id : NodeId) : AST := .node ⟨⟨id, .returnStmt⟩, none, []⟩ [literal (id + 1)]
    let ref : AST := .node ⟨⟨5, .declRefExpr "x"⟩, some ⟨3, .namedArgumentDecl "x"⟩, []⟩ []
    let args : AST := .node ⟨⟨2, .argumentDeclList⟩, none, []⟩
      [.node ⟨⟨3, .namedArgumentDecl "x"⟩, none, []⟩ []]
    let body : AST := .node ⟨⟨4, .ifStmt⟩, none, []⟩ [ref, returnStmt 6, returnStmt 8]
    ∃ s, FunctionCodegen.codegen ctx (.node ⟨⟨1, .functionDecl "f"⟩, none, []⟩ [args, body])
        (.initial ⟨.topLevel, .outside⟩) = .ok ((), s) ∧
      ∀ rt arguments, ∃ m, Halts (step rt arguments s.blocks) (entry rt) m ∧
        m.trace = (Interpreter.execBody ctx rt arguments args body rt.memory).events := by
  intro ctx literal returnStmt ref args body
  obtain ⟨-, hok, hrun, -⟩ := codegen_preserves_control_flow ctx
    ⟨.topLevel, .outside⟩ ⟨⟨1, .functionDecl "f"⟩, none, []⟩ args body none (by decide)
  obtain ⟨s, hs⟩ := hok.2 (by decide)
  exact ⟨s, hs, (hrun s hs).2⟩

end

end Swy
