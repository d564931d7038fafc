import Swy.Codegen.ExportedConstants
import Swy.Codegen.FunctionBody
import Swy.Library.Calls
import Swy.Sema.DependencyAnalysis

/-!
# Linked functions

The functions of a module call each other. `linkedFunctions` executes their code with a stack of
activations, of which each has its own variables, and `Means` says what a call of a function means
to the structural interpreter alone: the body is interpreted with an answer that is right about the
calls on the way. Both return the same results (`linked_returns_iff_means`), through every nesting
and recursion of the calls, so that a function of the module returns exactly if interpreting it
does.
-/

namespace Swy

open Library

/-! ## The code of the functions -/

/-- The parameters and the body of a function. -/
def AST.functionParts? : AST → Option (AST × AST)
  | .node _ [args, body] => some (args, body)
  | .node _ [args, _, body] => some (args, body)
  | _ => none

/-- The code of a function, if it is generated without a fault. -/
def IRContext.generated (ctx : IRContext) (function : NodeId) : Option (Blocks Instruction) := do
  let a ← ctx.declaringNode function
  match FunctionCodegen.codegen ctx a (.initial ⟨.topLevel, .outside⟩) with
  | .ok (_, s) => some s.blocks
  | .error _ => none

theorem FunctionCodegen.codegen_ok {ctx : IRContext} {a : AST} {s s' : CodegenState}
    (h : FunctionCodegen.codegen ctx a s = .ok ((), s')) :
    ∃ args body, a.functionParts? = some (args, body) ∧
      FunctionCodegen.codegenBody ctx args body s = .ok ((), s') := by
  unfold FunctionCodegen.codegen at h
  split at h
  · exact ⟨_, _, rfl, h⟩
  · exact ⟨_, _, rfl, h⟩
  · cases h

theorem IRContext.generated_eq_some {ctx : IRContext} {function : NodeId}
    {code : Blocks Instruction} (h : ctx.generated function = some code) :
    ∃ a args body s, ctx.declaringNode function = some a ∧ a.functionParts? = some (args, body) ∧
      FunctionCodegen.codegenBody ctx args body (.initial ⟨.topLevel, .outside⟩) = .ok ((), s) ∧
      s.blocks = code := by
  obtain ⟨a, ha, h⟩ := Option.bind_eq_some_iff.1 h
  split at h
  next u s hs =>
    cases h
    obtain ⟨args, body, hparts, hbody⟩ := FunctionCodegen.codegen_ok hs
    exact ⟨a, args, body, s, ha, hparts, hbody, rfl⟩
  next => cases h

/-! ## Activations -/

/-- The runtime in which calls return what the answer says and conditions are followed. What returns
nothing leaves a word that no code reads. -/
def Runtime.answering (uninitialized : NodeId → Word)
    (answer : NodeId → List Word → Option Word) : Runtime where
  calls function arguments := (answer function arguments).getD 0
  choose _ condition := condition != 0
  uninitialized := uninitialized

/-- An activation of a function. -/
structure Activation where
  code : Blocks Instruction
  arguments : List Word
  point : Point
  machine : Machine

namespace Activation

/-- Behind an instruction. -/
def next (s : Activation) (m : Machine) : Activation :=
  { s with point := ⟨s.point.block, s.point.index + 1⟩, machine := m }

/-- At the start of a block. -/
def jump (s : Activation) (block : BlockId) : Activation := { s with point := ⟨block, 0⟩ }

/-- A step: a call waits for what the callee returns, and writes it into its register. -/
def step (uninitialized : NodeId → Word) (s : Activation) :
    Action Activation NodeId (List Word) (Option Word) :=
  let rt := Runtime.answering uninitialized fun _ _ => none
  match s.code.fetch s.point with
  | none => .stuck
  | some (.operation (.call target callee args)) =>
    let words := args.map (s.machine.wordOf s.arguments)
    .call callee words fun result =>
      s.next ((s.machine.perform (Exec.emit (.call callee words))).set target (result.getD 0))
  | some (.operation o) => .running (s.next (o.exec rt s.arguments s.machine))
  | some (.terminator (.br target)) => .running (s.jump target)
  | some (.terminator (.condBr condition trueBlock falseBlock)) =>
    let word := s.machine.wordOf s.arguments condition
    let s := { s with machine := s.machine.perform (Exec.branch rt word) }
    .running (s.jump (if word != 0 then trueBlock else falseBlock))
  | some (.terminator (.ret value)) => .returned (some (s.machine.wordOf s.arguments value))
  | some (.terminator .retVoid) => .returned none

end Activation

section

variable (ctx : IRContext) (hasBody : NodeId → Bool) (uninitialized : NodeId → Word)

/-- The functions of a module that have a body. -/
def linkedFunctions : Procedures Activation NodeId (List Word) (Option Word) where
  enter function arguments :=
    if hasBody function then
      (ctx.generated function).map fun code =>
        ⟨code, arguments, ⟨0, 0⟩, .start ⟨uninitialized, 0⟩⟩
    else none
  step := Activation.step uninitialized

/-- What a function means to the interpreter, which loads variables and takes addresses as
conditions like the generated code: its body is interpreted under an answer that is right about its
calls, and it returns what the body returns last. -/
inductive Means : NodeId → List Word → Option Word → Prop
  | intro {answer : NodeId → List Word → Option Word} {function : NodeId} {arguments : List Word}
    {a args body : AST} {events : List Event} {value : Option Value} :
    hasBody function = true → ctx.declaringNode function = some a →
    a.functionParts? = some (args, body) →
    (Interpreter.execBody ctx (.answering uninitialized answer) arguments args body
      ⟨uninitialized, 0⟩).events = events →
    events.getLast? = some (.ret value) →
    (∀ callee words, .call callee words ∈ events → Means callee words (answer callee words)) →
    Means function arguments (value.map Value.word)

end

/-! ## One activation -/

/-- What a machine that halted returned. -/
def Machine.returned (m : Machine) : Option Word :=
  match m.trace.getLast? with
  | some (.ret value) => value.map Value.word
  | _ => none

section Activation

variable {uninitialized : NodeId → Word} {answer : NodeId → List Word → Option Word}
  {ctx : IRContext} {hasBody : NodeId → Bool} {arguments : List Word} {code : Blocks Instruction}

/-- The activation at a point of the code. -/
def Activation.ofPoint (code : Blocks Instruction) (arguments : List Word) (x : Point × Machine) :
    Activation := ⟨code, arguments, x.1, x.2⟩

theorem fetch_ofPoint (x : Point × Machine) :
    (Activation.ofPoint code arguments x).code.fetch (Activation.ofPoint code arguments x).point =
      code.fetch x.1 := rfl

/-- Apart from calls nothing depends on the answer. -/
theorem exec_answering {o : Operation} (ho : ∀ target callee args, o ≠ .call target callee args)
    (answer' : NodeId → List Word → Option Word) (m : Machine) :
    o.exec (.answering uninitialized answer) arguments m =
      o.exec (.answering uninitialized answer') arguments m := by
  cases o with
  | call target callee args => exact absurd rfl (ho target callee args)
  | _ => rfl

/-- An activation whose calls are answered is a run of its function. -/
theorem answered_activation (x : Point × Machine) :
    (linkedFunctions ctx hasBody uninitialized).answered answer (.ofPoint code arguments x) =
      (step (.answering uninitialized answer) arguments code x).map (.ofPoint code arguments)
        Machine.returned := by
  obtain ⟨p, m⟩ := x
  unfold Procedures.answered linkedFunctions Activation.step step
  simp only [fetch_ofPoint]
  cases hp : code.fetch p with
  | none => rfl
  | some i =>
    cases i with
    | operation o =>
      by_cases ho : ∃ target callee args, o = .call target callee args
      · obtain ⟨target, callee, args, rfl⟩ := ho
        rfl
      · have hne : ∀ target callee args, o ≠ .call target callee args :=
          fun target callee args h => ho ⟨target, callee, args, h⟩
        have hexec : o.exec (.answering uninitialized answer) arguments m =
            o.exec (.answering uninitialized fun _ _ => none) arguments m :=
          exec_answering hne _ m
        simp only [hexec]
        cases o with
        | call target callee args => exact absurd rfl (hne target callee args)
        | _ => rfl
    | terminator t =>
      cases t with
      | br target => rfl
      | condBr condition trueBlock falseBlock => rfl
      | ret value =>
        simp [Terminator.exec, Outcome.map, Machine.returned, Machine.perform, Exec.emit,
          Machine.wordOf, Activation.ofPoint]
      | retVoid => simp [Terminator.exec, Outcome.map, Machine.returned, Machine.perform, Exec.emit]

variable (ctx hasBody uninitialized arguments) in
/-- A call instruction waits for its callee. -/
theorem step_of_call {x : Point × Machine} {target : Register} {callee : NodeId}
    {args : List Operand}
    (hfetch : code.fetch x.1 = some (.operation (.call target callee args))) :
    ∃ resume, (linkedFunctions ctx hasBody uninitialized).step (.ofPoint code arguments x) =
      .call callee (args.map (x.2.wordOf arguments)) resume := by
  unfold linkedFunctions Activation.step
  simp only [fetch_ofPoint, hfetch]
  exact ⟨_, rfl⟩

/-- An activation waits for a callee at a call instruction. -/
theorem fetch_of_call {x : Point × Machine} {callee : NodeId} {words : List Word}
    {resume : Option Word → Activation}
    (h : (linkedFunctions ctx hasBody uninitialized).step (.ofPoint code arguments x) =
      .call callee words resume) :
    ∃ target args, code.fetch x.1 = some (.operation (.call target callee args)) ∧
      args.map (x.2.wordOf arguments) = words := by
  unfold linkedFunctions Activation.step at h
  simp only [fetch_ofPoint] at h
  split at h <;> cases h
  next hfetch => exact ⟨_, _, hfetch, rfl⟩

/-- An instruction records no call but its own. -/
theorem exec_call {rt : Runtime} {o : Operation} {m : Machine} {callee : NodeId}
    {words : List Word} (h : .call callee words ∈ (o.exec rt arguments m).trace) :
    .call callee words ∈ m.trace ∨
      ∃ target args, o = .call target callee args ∧ args.map (m.wordOf arguments) = words := by
  cases o with
  | call target callee' args =>
    rcases List.mem_append.1 h with h | h
    · exact .inl h
    · cases List.mem_singleton.1 h
      exact .inr ⟨target, args, rfl, rfl⟩
  | load target decl =>
    rcases List.mem_append.1 h with h | h
    · exact .inl h
    · cases h
  | binary | icmp | zext | isNotNull => exact .inl h
  | _ =>
    rcases List.mem_append.1 h with h | h
    · exact .inl h
    · cases List.mem_singleton.1 h

/-- A call in the trace of a run was made in the run, unless it was there before. -/
theorem reaches_call {rt : Runtime} {x : Point × Machine} {m : Machine}
    (h : Halts (step rt arguments code) x m) {callee : NodeId} {words : List Word}
    (hcall : .call callee words ∈ m.trace) :
    .call callee words ∈ x.2.trace ∨ ∃ y target args, Reaches (step rt arguments code) x y ∧
      code.fetch y.1 = some (.operation (.call target callee args)) ∧
      args.map (y.2.wordOf arguments) = words := by
  refine h.related (R := fun x m => .call callee words ∈ m.trace → .call callee words ∈ x.2.trace ∨
    ∃ y target args, Reaches (step rt arguments code) x y ∧
      code.fetch y.1 = some (.operation (.call target callee args)) ∧
      args.map (y.2.wordOf arguments) = words) ?_ ?_ hcall
  · rintro ⟨p, m⟩ r hstep hcall
    rw [step] at hstep
    split at hstep
    · cases hstep
    · cases hstep
    next t _ =>
      cases t <;> cases hstep
      all_goals
        rcases List.mem_append.1 hcall with hcall | hcall
        · exact .inl hcall
        · cases List.mem_singleton.1 hcall
  · rintro ⟨p, m⟩ ⟨p', m'⟩ r hstep ih hcall
    rcases ih hcall with hcall | ⟨y, target, args, hreach, hy⟩
    · have hrunning := hstep
      rw [step] at hstep
      split at hstep
      · cases hstep
      next o hfetch =>
        cases hstep
        rcases exec_call hcall with hcall | ⟨target, args, rfl, hwords⟩
        · exact .inl hcall
        · exact .inr ⟨(p, m), target, args, .refl, hfetch, hwords⟩
      next t _ =>
        cases t <;> cases hstep
        · exact .inl hcall
        · rcases List.mem_append.1 hcall with hcall | hcall
          · exact .inl hcall
          · cases List.mem_singleton.1 hcall
    · exact .inr ⟨y, target, args, .head hstep hreach, hy⟩

/-- What calls in a run is recorded at the end of the run. -/
theorem mem_trace_of_call {rt : Runtime} {x y : Point × Machine} {m : Machine}
    (h : Halts (step rt arguments code) x m) (hreach : Reaches (step rt arguments code) x y)
    {target : Register} {callee : NodeId} {args : List Operand}
    (hfetch : code.fetch y.1 = some (.operation (.call target callee args))) :
    .call callee (args.map (y.2.wordOf arguments)) ∈ m.trace := by
  obtain ⟨p, m₁⟩ := y
  have hstep : step rt arguments code (p, m₁) = .running (⟨p.block, p.index + 1⟩,
      (Operation.call target callee args).exec rt arguments m₁) := by
    have hfetch : code.fetch p = some (.operation (.call target callee args)) := hfetch
    simp only [step, hfetch]
  have hhalts := h.of_reached (hreach.trans (.single hstep))
  refine (trace_prefix_of_halts hhalts).subset ?_
  exact List.mem_append_right _ (List.mem_singleton.2 rfl)

/-- A run ends with what is returned. -/
theorem getLast?_trace {rt : Runtime} {x : Point × Machine} {m : Machine}
    (h : Halts (step rt arguments code) x m) : ∃ value, m.trace.getLast? = some (.ret value) := by
  refine h.related (R := fun _ m => ∃ value, m.trace.getLast? = some (.ret value)) ?_ ?_
  case refine_2 =>
    intro _ _ _ _ hr
    exact hr
  rintro ⟨p, m⟩ r hstep
  rw [step] at hstep
  split at hstep
  · cases hstep
  · cases hstep
  next t _ =>
    cases t <;> cases hstep
    · exact ⟨_, List.getLast?_concat⟩
    · exact ⟨_, List.getLast?_concat⟩

/-- What a machine returned is the last event of its trace. -/
theorem Machine.returned_eq {m : Machine} {value : Option Value}
    (h : m.trace.getLast? = some (.ret value)) : m.returned = value.map Value.word := by
  simp only [Machine.returned, h]

end Activation

/-! ## All functions -/

section Linked

variable {ctx : IRContext} {hasBody : NodeId → Bool} {uninitialized : NodeId → Word}

/-- The activation a function is entered with. -/
theorem enter_eq_some {function : NodeId} {arguments : List Word} {s : Activation} :
    (linkedFunctions ctx hasBody uninitialized).enter function arguments = some s ↔
      hasBody function = true ∧ ∃ code, ctx.generated function = some code ∧
        s = .ofPoint code arguments (⟨0, 0⟩, .start ⟨uninitialized, 0⟩) := by
  unfold linkedFunctions
  by_cases h : hasBody function = true
  · simp only [h, if_true, true_and, Option.map_eq_some_iff]
    constructor
    · rintro ⟨code, hcode, rfl⟩
      exact ⟨code, hcode, rfl⟩
    · rintro ⟨code, hcode, rfl⟩
      exact ⟨code, hcode, rfl⟩
  · simp [h]

variable (uninitialized) in
/-- The run of a generated function under an answer does what its body does. -/
theorem generated_halts {function : NodeId} {code : Blocks Instruction}
    (h : ctx.generated function = some code) (answer : NodeId → List Word → Option Word)
    (arguments : List Word) :
    ∃ a args body m, ctx.declaringNode function = some a ∧ a.functionParts? = some (args, body) ∧
      Halts (step (.answering uninitialized answer) arguments code)
        (⟨0, 0⟩, .start ⟨uninitialized, 0⟩) m ∧
      m.trace = (Interpreter.execBody ctx (.answering uninitialized answer) arguments args body
        ⟨uninitialized, 0⟩).events := by
  obtain ⟨a, args, body, s, ha, hparts, hbody, rfl⟩ := IRContext.generated_eq_some h
  obtain ⟨m, hrun⟩ : ∃ m, Halts (step (.answering uninitialized answer) arguments s.blocks)
      (⟨0, 0⟩, .start ⟨uninitialized, 0⟩) m ∧ m.trace =
        (Interpreter.execBody ctx (.answering uninitialized answer) arguments args body
          ⟨uninitialized, 0⟩).events := codegenBody_halts ctx hbody
  exact ⟨a, args, body, m, ha, hparts, hrun⟩

/-- What the functions of a module return if their calls are answered is what they mean. -/
theorem returns_iff_means (hgenerated : ∀ f, hasBody f = true → (ctx.generated f).isSome = true)
    {function : NodeId} {arguments : List Word} {result : Option Word} :
    (linkedFunctions ctx hasBody uninitialized).Returns function arguments result ↔
      Means ctx hasBody uninitialized function arguments result := by
  constructor
  · intro h
    induction h with
    | @intro answer function arguments s result henter hhalts hcalls ih =>
      obtain ⟨hbody, code, hcode, rfl⟩ := enter_eq_some.1 henter
      obtain ⟨a, args, body, m, ha, hparts, hrun, htrace⟩ :=
        generated_halts uninitialized hcode answer arguments
      have hresult : result = m.returned :=
        hhalts.result_unique (hrun.map fun x => answered_activation x)
      obtain ⟨value, hvalue⟩ := getLast?_trace hrun
      rw [hresult, Machine.returned_eq hvalue]
      refine .intro hbody ha hparts htrace.symm hvalue fun callee words hcall => ?_
      rcases reaches_call hrun hcall with hnone | ⟨y, target, args, hreach, hfetch, rfl⟩
      · cases hnone
      · obtain ⟨resume, hstep⟩ := step_of_call uninitialized ctx hasBody arguments hfetch
        exact ih _ callee _ resume (hreach.map fun x => answered_activation x) hstep
  · intro h
    induction h with
    | @intro answer function arguments a args body events value hbody ha hparts hevents hvalue
        hcalls ih =>
      obtain ⟨code, hcode⟩ := Option.isSome_iff_exists.1 (hgenerated function hbody)
      obtain ⟨a', args', body', m, ha', hparts', hrun, htrace⟩ :=
        generated_halts uninitialized hcode answer arguments
      obtain rfl : a = a' := Option.some.inj (ha.symm.trans ha')
      obtain ⟨rfl, rfl⟩ := Prod.mk.inj (Option.some.inj (hparts.symm.trans hparts'))
      rw [hevents] at htrace
      subst htrace
      rw [← Machine.returned_eq hvalue]
      refine .intro (enter_eq_some.2 ⟨hbody, code, hcode, rfl⟩)
        (hrun.map fun x => answered_activation x) fun s callee words resume hreach hstep => ?_
      obtain ⟨y, hrunning, rfl⟩ := Reaches.of_map (fun x => answered_activation x) hreach
      obtain ⟨target, args, hfetch, rfl⟩ := fetch_of_call hstep
      exact ih callee _ (mem_trace_of_call hrun hrunning hfetch)

/-- Executing the linked functions returns what the functions mean to the interpreter: a call
returns exactly if interpreting it does, with the same result, however deep the calls are nested. -/
theorem linked_returns_iff_means
    (hgenerated : ∀ f, hasBody f = true → (ctx.generated f).isSome = true) {function : NodeId}
    {arguments : List Word} {result : Option Word} :
    (linkedFunctions ctx hasBody uninitialized).LinkedReturns function arguments result ↔
      Means ctx hasBody uninitialized function arguments result :=
  Procedures.returns_iff_linked.symm.trans (returns_iff_means hgenerated)

/-- `f(int n) int -> { if n != 0 { return n + f(n - 1); } return 0; }`, where `f(3)` is `6`. -/
theorem linked_returns_iff_means_sum :
    let n (id : NodeId) : AST :=
      .node ⟨⟨id, .declRefExpr "n"⟩, some ⟨3, .namedArgumentDecl "n"⟩, []⟩ []
    let literal (id : NodeId) (value : Word) : AST :=
      .node ⟨⟨id, .integerLiteralExpr value⟩, none, []⟩ []
    let call : AST := .node ⟨⟨10, .callOperatorExpr⟩, none, []⟩
      [.node ⟨⟨11, .declRefExpr "f"⟩, some ⟨1, .functionDecl "f"⟩, []⟩ [],
        .node ⟨⟨12, .binaryOperatorExpr .minus⟩, none, []⟩ [n 13, literal 14 1]]
    let a : AST := .node ⟨⟨1, .functionDecl "f"⟩, none, []⟩
      [.node ⟨⟨2, .argumentDeclList⟩, none, []⟩ [.node ⟨⟨3, .namedArgumentDecl "n"⟩, none, []⟩ []],
        .node ⟨⟨4, .anonymousArgumentDecl⟩, none, []⟩ [],
        .node ⟨⟨5, .compoundStmt⟩, none, []⟩
          [.node ⟨⟨6, .ifStmt⟩, none, []⟩
              [.node ⟨⟨18, .binaryOperatorExpr .notEqual⟩, none, []⟩ [n 7, literal 19 0],
                .node ⟨⟨20, .compoundStmt⟩, none, []⟩ [.node ⟨⟨8, .returnStmt⟩, none, []⟩
                  [.node ⟨⟨9, .binaryOperatorExpr .plus⟩, none, []⟩ [n 15, call]]]],
            .node ⟨⟨16, .returnStmt⟩, none, []⟩ [literal 17 0]]]
    let ctx : IRContext := ⟨fun decl => if decl = 1 then some a else none, fun _ => none⟩
    Means ctx (· = 1) (fun _ => 0) 1 [3] (some 6) := by
  intro n literal call a ctx
  refine (linked_returns_iff_means fun f hf => ?_).1 ?_
  · obtain rfl : f = 1 := by simpa using hf
    decide +kernel
  · exact Procedures.linkedReturns_iff_execute.2 ⟨200, by decide +kernel⟩

end Linked

/-! ## Which functions are called -/

/-- A function that is a value is one of the set. -/
def Value.CalleeIn (S : NodeId → Prop) : Value → Prop
  | function decl _ => S decl
  | _ => True

namespace Exec

variable {α β : Type} {S : NodeId → Prop} {Q : α → Prop} {R : β → Prop}

/-- The effect calls functions of the set only, and its value has the property. -/
def CallsOnly (S : NodeId → Prop) (Q : α → Prop) (e : Exec α) : Prop :=
  ∀ μ, Q (e μ).value ∧ ∀ callee words, .call callee words ∈ (e μ).events → S callee

theorem CallsOnly.pure {a : α} (h : Q a) : CallsOnly S Q (Pure.pure a) :=
  fun _ => ⟨h, fun _ _ hcall => absurd hcall List.not_mem_nil⟩

theorem CallsOnly.bind {e : Exec α} {f : α → Exec β} (he : CallsOnly S Q e)
    (hf : ∀ a, Q a → CallsOnly S R (f a)) : CallsOnly S R (e >>= f) := by
  intro μ
  obtain ⟨hvalue, hcalls⟩ := he μ
  obtain ⟨hvalue', hcalls'⟩ := hf _ hvalue (e μ).memory
  refine ⟨hvalue', fun callee words hcall => ?_⟩
  rcases List.mem_append.1 hcall with hcall | hcall
  · exact hcalls callee words hcall
  · exact hcalls' callee words hcall

theorem CallsOnly.emit {e : Event} (he : ∀ callee words, e ≠ .call callee words) :
    CallsOnly S (fun _ => True) (Exec.emit e) := by
  intro μ
  refine ⟨True.intro, fun callee words hcall => ?_⟩
  exact absurd (List.mem_singleton.1 hcall).symm (he callee words)

theorem CallsOnly.load (decl : NodeId) : CallsOnly S (fun _ => True) (Exec.load decl) :=
  fun _ => ⟨True.intro, fun _ _ hcall => absurd hcall List.not_mem_nil⟩

theorem CallsOnly.store (decl : NodeId) (value : Word) :
    CallsOnly S (fun _ => True) (Exec.store decl value) := by
  intro μ
  refine ⟨True.intro, fun callee words hcall => ?_⟩
  cases List.mem_singleton.1 hcall

theorem CallsOnly.branch (rt : Runtime) (condition : Word) :
    CallsOnly S (fun _ => True) (Exec.branch rt condition) := by
  intro μ
  refine ⟨True.intro, fun callee words hcall => ?_⟩
  cases List.mem_singleton.1 hcall

theorem CallsOnly.call {rt : Runtime} {callee : NodeId} (h : S callee) (words : List Word) :
    CallsOnly S (fun _ => True) (Exec.call rt callee words) := by
  intro μ
  refine ⟨True.intro, fun callee' words' hcall => ?_⟩
  cases List.mem_singleton.1 hcall
  exact h

end Exec

/-- What the references are looked up to are functions of the set. -/
def IRContext.LooksUpIn (ctx : IRContext) (S : NodeId → Prop) (refs : List Reference) : Prop :=
  ∀ ref ∈ refs, ∀ function type, ctx.lookup ref = some (function, type) → S function

namespace IRContext.LooksUpIn

variable {ctx : IRContext} {S : NodeId → Prop}

theorem child {cs : List AST} (h : ctx.LooksUpIn S (AST.allReferences cs)) {c : AST}
    (hc : c ∈ cs) : ctx.LooksUpIn S c.references :=
  fun ref href => h ref (AST.mem_allReferences.2 ⟨c, hc, href⟩)

theorem ifStmt {n : ASTNode} {condition : AST} {branches : List AST}
    (hdata : n.node.data = .ifStmt)
    (h : ctx.LooksUpIn S (AST.references (.node n (condition :: branches)))) :
    ctx.LooksUpIn S condition.references ∧ ctx.LooksUpIn S (AST.allReferences branches) := by
  have hrefs : AST.references (.node n (condition :: branches)) =
      AST.allReferences branches ++ AST.references condition := by
    obtain ⟨⟨id, data⟩, decl, exportedDecls⟩ := n
    obtain rfl : data = .ifStmt := hdata
    rfl
  rw [hrefs] at h
  exact ⟨fun ref href => h ref (List.mem_append_right _ href),
    fun ref href => h ref (List.mem_append_left _ href)⟩

end IRContext.LooksUpIn

namespace Interpreter

variable {ctx : IRContext} {rt : Runtime} {S : NodeId → Prop}

open Exec (CallsOnly)

theorem callsOnly_loadMemory {v : Value} (h : v.CalleeIn S) :
    CallsOnly S (Value.CalleeIn S) (loadMemory v) := by
  cases v with
  | address decl => exact (CallsOnly.load decl).bind fun _ _ => .pure True.intro
  | int | function | void => exact .pure h

theorem callsOnly_store (v p : Value) : CallsOnly S (fun _ => True) (store v p) := by
  cases p with
  | address decl => exact .store decl _
  | int | function | void => exact .pure True.intro

theorem callsOnly_evalDeclRefExpr {n : ASTNode} {cs : List AST} {name : Identifier}
    (hdata : n.node.data = .declRefExpr name)
    (h : ctx.LooksUpIn S (AST.references (.node n cs))) :
    CallsOnly S (Value.CalleeIn S) (evalDeclRefExpr ctx n) := by
  unfold evalDeclRefExpr
  cases hdecl : n.decl with
  | none => exact .pure True.intro
  | some decl =>
    have hrefs : AST.references (.node n cs) =
        if decl.kind = .functionDecl then [.function decl.id] else [] := by
      unfold AST.references
      rw [hdata]
      simp only [hdecl]
    rw [hrefs] at h
    have hreference (ref d : NodeId) : CallsOnly S (Value.CalleeIn S) (do
        Exec.emit (.reference ref d)
        return .address d) :=
      (CallsOnly.emit (fun _ _ he => by cases he)).bind fun _ _ => .pure True.intro
    simp only
    split
    · rename_i hk
      rw [if_pos hk] at h
      split
      · rename_i type htype
        refine .pure (h _ List.mem_cons_self decl.id type ?_)
        rw [IRContext.lookup, htype]
        rfl
      · exact .pure True.intro
    · exact hreference _ _
    · exact hreference _ _
    · split
      · exact .pure True.intro
      · exact .pure True.intro
    · exact .pure True.intro

theorem callsOnly_evalMetaInstantiationExpr {n : ASTNode} {cs : List AST}
    (hdata : n.node.data = .metaInstantiationExpr)
    (h : ctx.LooksUpIn S (AST.references (.node n cs))) :
    CallsOnly S (Value.CalleeIn S) (evalMetaInstantiationExpr ctx n.node.id) := by
  have hrefs : AST.references (.node n cs) = [.instantiation (.node n cs)] := by
    obtain ⟨⟨id, data⟩, decl, exportedDecls⟩ := n
    obtain rfl : data = .metaInstantiationExpr := hdata
    rfl
  rw [hrefs] at h
  unfold evalMetaInstantiationExpr
  split
  · rename_i function type hlookup
    exact .pure (h _ List.mem_cons_self function type hlookup)
  · exact .pure True.intro

theorem callsOnly_evalBinaryOperatorExpr {op : ExprBinaryOperator} {l r : Exec Value}
    (hl : CallsOnly S (Value.CalleeIn S) l) (hr : CallsOnly S (Value.CalleeIn S) r) :
    CallsOnly S (Value.CalleeIn S) (evalBinaryOperatorExpr op l r) := by
  unfold evalBinaryOperatorExpr
  refine hl.bind fun v hv => hr.bind fun w hw => ?_
  split
  · exact (callsOnly_loadMemory hw).bind fun x _ => (callsOnly_store x v).bind fun _ _ => .pure hw
  · exact (callsOnly_loadMemory hv).bind fun x _ => (callsOnly_loadMemory hw).bind fun y _ =>
      .pure True.intro

theorem callsOnly_evalCall {callee : Value} (h : callee.CalleeIn S) (values : List Value) :
    CallsOnly S (Value.CalleeIn S) (evalCall rt callee values) := by
  cases callee with
  | function decl type =>
    refine (CallsOnly.call h _).bind fun result _ => .pure ?_
    split
    · exact True.intro
    · exact True.intro
  | int | address | void => exact .pure True.intro

theorem callsOnly_evalArguments {cs : List AST}
    (hcs : ∀ c ∈ cs, CallsOnly S (Value.CalleeIn S) (evalExpr ctx rt c)) :
    CallsOnly S (fun _ => True) (evalArguments ctx rt cs) := by
  induction cs with
  | nil => exact .pure True.intro
  | cons c cs ih =>
    exact (hcs c List.mem_cons_self).bind fun v hv => (callsOnly_loadMemory hv).bind fun _ _ =>
      (ih fun x hx => hcs x (List.mem_cons_of_mem _ hx)).bind fun _ _ => .pure True.intro

/-- An expression calls what its references are looked up to. -/
theorem callsOnly_evalExpr (a : AST) (h : ctx.LooksUpIn S a.references) :
    CallsOnly S (Value.CalleeIn S) (evalExpr ctx rt a) := by
  induction a using Rose.ind with
  | h n cs ih =>
    have hchildren (hrefs : AST.references (.node n cs) = AST.allReferences cs) (c : AST)
        (hc : c ∈ cs) : CallsOnly S (Value.CalleeIn S) (evalExpr ctx rt c) := by
      rw [hrefs] at h
      exact ih c hc (h.child hc)
    obtain ⟨⟨id, data⟩, decl, exportedDecls⟩ := n
    cases data with
    | declRefExpr name => exact callsOnly_evalDeclRefExpr rfl h
    | metaInstantiationExpr => exact callsOnly_evalMetaInstantiationExpr rfl h
    | binaryOperatorExpr op =>
      rcases cs with _ | ⟨left, _ | ⟨right, _ | ⟨c, cs⟩⟩⟩
      case cons.cons.nil =>
        exact callsOnly_evalBinaryOperatorExpr (hchildren rfl left (by simp))
          (hchildren rfl right (by simp))
      all_goals exact .pure True.intro
    | callOperatorExpr =>
      cases cs with
      | nil => exact .pure True.intro
      | cons callee args =>
        exact (hchildren rfl callee List.mem_cons_self).bind fun v hv =>
          (callsOnly_evalArguments fun c hc =>
            hchildren rfl c (List.mem_cons_of_mem _ hc)).bind fun vs _ => callsOnly_evalCall hv vs
    | _ => exact .pure True.intro

theorem callsOnly_andThen {e f : Exec Flow} (he : CallsOnly S (fun _ => True) e)
    (hf : CallsOnly S (fun _ => True) f) : CallsOnly S (fun _ => True) (andThen e f) := by
  unfold andThen
  refine he.bind fun flow _ => ?_
  cases flow with
  | next => exact hf
  | returned => exact .pure True.intro

theorem callsOnly_evalIf {x : Exec Value} {e f : Exec Flow} {Q : Value → Prop}
    (hx : CallsOnly S Q x) (he : CallsOnly S (fun _ => True) e)
    (hf : CallsOnly S (fun _ => True) f) : CallsOnly S (fun _ => True) (evalIf rt x e f) := by
  unfold evalIf
  refine hx.bind fun v _ => (CallsOnly.branch rt _).bind fun outcome _ => ?_
  cases outcome with
  | true => exact he
  | false => exact hf

theorem callsOnly_execStmts {cs : List AST}
    (hcs : ∀ c ∈ cs, CallsOnly S (fun _ => True) (execStmt ctx rt c)) :
    CallsOnly S (fun _ => True) (execStmts ctx rt cs) := by
  induction cs with
  | nil => exact .pure True.intro
  | cons c cs ih =>
    exact callsOnly_andThen (hcs c List.mem_cons_self)
      (ih fun x hx => hcs x (List.mem_cons_of_mem _ hx))

/-- A statement calls what its references are looked up to. -/
theorem callsOnly_execStmt (a : AST) (h : ctx.LooksUpIn S a.references) :
    CallsOnly S (fun _ => True) (execStmt ctx rt a) := by
  induction a using Rose.ind with
  | h n cs ih =>
    have hchild (hrefs : AST.references (.node n cs) = AST.allReferences cs) (c : AST)
        (hc : c ∈ cs) : ctx.LooksUpIn S c.references := by
      rw [hrefs] at h
      exact h.child hc
    obtain ⟨⟨id, data⟩, decl, exportedDecls⟩ := n
    have hevent {e : Event} (he : ∀ callee words, e ≠ .call callee words) (flow : Flow) :
        CallsOnly S (fun _ => True) (do
          Exec.emit e
          return flow) := (CallsOnly.emit he).bind fun _ _ => .pure True.intro
    cases data with
    | compoundStmt => exact callsOnly_execStmts fun c hc => ih c hc (hchild rfl c hc)
    | unscopedCompoundStmt => exact callsOnly_execStmts fun c hc => ih c hc (hchild rfl c hc)
    | returnStmt =>
      rcases cs with _ | ⟨expr, _ | ⟨c, cs⟩⟩
      · exact hevent (fun _ _ he => by cases he) .returned
      · exact (callsOnly_evalExpr expr (hchild rfl expr List.mem_cons_self)).bind fun v hv =>
          (callsOnly_loadMemory hv).bind fun _ _ => hevent (fun _ _ he => by cases he) .returned
      · exact .pure True.intro
    | expressionStmt =>
      rcases cs with _ | ⟨expr, _ | ⟨c, cs⟩⟩
      · exact .pure True.intro
      · exact (callsOnly_evalExpr expr (hchild rfl expr List.mem_cons_self)).bind fun _ _ =>
          hevent (fun _ _ he => by cases he) .next
      · exact .pure True.intro
    | declStmt name =>
      rcases cs with _ | ⟨expr, _ | ⟨c, cs⟩⟩
      · exact .pure True.intro
      · exact (callsOnly_evalExpr expr (hchild rfl expr List.mem_cons_self)).bind fun v hv =>
          (CallsOnly.emit fun _ _ he => by cases he).bind fun _ _ =>
            (callsOnly_loadMemory hv).bind fun w _ =>
              (callsOnly_store w _).bind fun _ _ => .pure True.intro
      · exact .pure True.intro
    | ifStmt =>
      rcases cs with _ | ⟨condition, branches⟩
      · exact .pure True.intro
      obtain ⟨hcondition, hbranches⟩ := IRContext.LooksUpIn.ifStmt rfl h
      have hbranch (c : AST) (hc : c ∈ branches) :
          CallsOnly S (fun _ => True) (execStmt ctx rt c) :=
        ih c (List.mem_cons_of_mem _ hc) (hbranches.child hc)
      rcases branches with _ | ⟨trueBranch, _ | ⟨falseBranch, _ | ⟨c, cs⟩⟩⟩
      · exact .pure True.intro
      · exact callsOnly_evalIf (callsOnly_evalExpr condition hcondition)
          (hbranch trueBranch (by simp)) (.pure True.intro)
      · exact callsOnly_evalIf (callsOnly_evalExpr condition hcondition)
          (hbranch trueBranch (by simp)) (hbranch falseBranch (by simp))
      · exact .pure True.intro
    | _ => exact .pure True.intro

theorem callsOnly_bindArguments (arguments : List Word) (args : List AST) (index : Nat) :
    CallsOnly S (fun _ => True) (bindArguments arguments index args) := by
  induction args generalizing index with
  | nil => exact .pure True.intro
  | cons arg args ih =>
    obtain ⟨n, cs⟩ := arg
    unfold bindArguments
    split
    · exact (CallsOnly.emit fun _ _ he => by cases he).bind fun _ _ =>
        (CallsOnly.store _ _).bind fun _ _ => ih _
    · exact ih _

/-- A function calls what the references of its body are looked up to. -/
theorem callsOnly_execBody {a args body : AST} (hparts : a.functionParts? = some (args, body))
    (h : ctx.LooksUpIn S a.functionReferences) (arguments : List Word) :
    CallsOnly S (fun _ => True) (execBody ctx rt arguments args body) := by
  have hrefs : a.functionReferences = body.references := by
    unfold AST.functionParts? at hparts
    split at hparts <;> cases hparts <;> rfl
  rw [hrefs] at h
  unfold execBody
  refine (callsOnly_bindArguments arguments args.children 0).bind fun _ _ =>
    callsOnly_andThen (callsOnly_execStmt body h) ?_
  exact (CallsOnly.emit fun _ _ he => by cases he).bind fun _ _ => .pure True.intro

end Interpreter

/-! ## Getting stuck -/

section NeverStuck

variable {ctx : IRContext} {hasBody : NodeId → Bool} {uninitialized : NodeId → Word}

/-- An activation under an answer is at an instruction, up to where it returns. -/
theorem step_activation_ne_stuck {answer : NodeId → List Word → Option Word} {function : NodeId}
    {arguments : List Word} {s₀ s : Activation}
    (henter : (linkedFunctions ctx hasBody uninitialized).enter function arguments = some s₀)
    (hreach : Reaches ((linkedFunctions ctx hasBody uninitialized).answered answer) s₀ s) :
    (linkedFunctions ctx hasBody uninitialized).step s ≠ .stuck := by
  intro hstuck
  obtain ⟨-, code, hcode, rfl⟩ := enter_eq_some.1 henter
  obtain ⟨a, args, body, m, -, -, hrun, -⟩ := generated_halts uninitialized hcode answer arguments
  obtain ⟨y, hrunning, rfl⟩ := Reaches.of_map (fun x => answered_activation x) hreach
  have hanswered : (linkedFunctions ctx hasBody uninitialized).answered answer
      (.ofPoint code arguments y) = (step (.answering uninitialized answer) arguments code y).map
        (.ofPoint code arguments) Machine.returned := answered_activation y
  rw [Procedures.answered_of_stuck hstuck] at hanswered
  cases hstep : step (.answering uninitialized answer) arguments code y with
  | running x =>
    rw [hstep] at hanswered
    cases hanswered
  | halted r =>
    rw [hstep] at hanswered
    cases hanswered
  | stuck => exact (hrun.of_reached hrunning).ne_stuck hstep

/-- An activation calls functions with a body, if the references of its body are looked up to such
functions. -/
theorem hasBody_of_step {answer : NodeId → List Word → Option Word} {function callee : NodeId}
    {arguments words : List Word} {s₀ s : Activation} {resume : Option Word → Activation}
    (hrefs : ∀ a, ctx.declaringNode function = some a →
      ctx.LooksUpIn (hasBody · = true) a.functionReferences)
    (henter : (linkedFunctions ctx hasBody uninitialized).enter function arguments = some s₀)
    (hreach : Reaches ((linkedFunctions ctx hasBody uninitialized).answered answer) s₀ s)
    (hstep : (linkedFunctions ctx hasBody uninitialized).step s = .call callee words resume) :
    hasBody callee = true := by
  obtain ⟨-, code, hcode, rfl⟩ := enter_eq_some.1 henter
  obtain ⟨a, args, body, m, ha, hparts, hrun, htrace⟩ :=
    generated_halts uninitialized hcode answer arguments
  obtain ⟨y, hrunning, rfl⟩ := Reaches.of_map (fun x => answered_activation x) hreach
  obtain ⟨target, operands, hfetch, rfl⟩ := fetch_of_call hstep
  have hcall := mem_trace_of_call hrun hrunning hfetch
  rw [htrace] at hcall
  exact (Interpreter.callsOnly_execBody hparts (hrefs a ha) arguments _).2 _ _ hcall

/-- The linked functions are at an instruction, up to where they return, if every function with a
body is generated and what it refers to has a body. -/
theorem linkedFunctions_ne_stuck
    (hgenerated : ∀ f, hasBody f = true → (ctx.generated f).isSome = true)
    (hrefs : ∀ f a, hasBody f = true → ctx.declaringNode f = some a →
      ctx.LooksUpIn (hasBody · = true) a.functionReferences)
    {function : NodeId} {arguments : List Word} {s : Activation}
    (henter : (linkedFunctions ctx hasBody uninitialized).enter function arguments = some s)
    {c : Activation × List (Option Word → Activation)}
    (hreach : Reaches (linkedFunctions ctx hasBody uninitialized).linked (s, []) c) :
    (linkedFunctions ctx hasBody uninitialized).linked c ≠ .stuck := by
  refine Procedures.linked_ne_stuck henter ?_ ?_ hreach
  · intro answer f arguments s₀ s henter hreach
    exact step_activation_ne_stuck henter hreach
  · intro answer f arguments s₀ s callee words resume henter hreach hstep
    obtain ⟨hbody, -⟩ := enter_eq_some.1 henter
    have hcallee := hasBody_of_step (fun a ha => hrefs f a hbody ha) henter hreach hstep
    obtain ⟨code, hcode⟩ := Option.isSome_iff_exists.1 (hgenerated callee hcallee)
    rw [enter_eq_some.2 ⟨hcallee, code, hcode, rfl⟩]
    rfl

end NeverStuck

end Swy
