import Swy.Codegen.Instantiation

/-!
# Exported constants

An exported variable lives twice: as a variable of the meta function and as the literal that is
written when it is exported. The literal is the value the variable has at that point of the run, and
it stays the value of the variable up to the next store to it (`exported_constant_eq`). A later
calculation that assigns to the variable changes the variable only (`exported_constant_ne`).
-/

namespace Swy

open Library

/-- The variables behind the events. -/
def replay (slots : NodeId → Word) : List Event → NodeId → Word
  | [] => slots
  | .store decl value :: es => replay (fun d => if d = decl then value else slots d) es
  | _ :: es => replay slots es

theorem replay_append (es es' : List Event) (slots : NodeId → Word) :
    replay slots (es ++ es') = replay (replay slots es) es' := by
  induction es generalizing slots with
  | nil => rfl
  | cons e es ih => cases e <;> exact ih _

/-- The value of a variable only depends on its own. -/
theorem replay_congr {slots slots' : NodeId → Word} {decl : NodeId}
    (h : slots decl = slots' decl) (es : List Event) :
    replay slots es decl = replay slots' es decl := by
  induction es generalizing slots slots' with
  | nil => exact h
  | cons e es ih =>
    cases e with
    | store d value =>
      refine ih ?_
      split
      · rfl
      · exact h
    | _ => exact ih h

/-- A variable nothing is stored to keeps its value. -/
theorem replay_of_notStored {es : List Event} {decl : NodeId} (slots : NodeId → Word)
    (h : ∀ value, .store decl value ∉ es) : replay slots es decl = slots decl := by
  induction es generalizing slots with
  | nil => rfl
  | cons e es ih =>
    have ih (slots : NodeId → Word) :=
      ih slots fun value hvalue => h value (List.mem_cons_of_mem _ hvalue)
    cases e with
    | store d value =>
      have hne : decl ≠ d := fun heq => h value (heq ▸ List.mem_cons_self)
      exact (ih _).trans (if_neg hne)
    | _ => exact ih _

/-- The exported values in the events are those of the variables. -/
def ExportsCurrent (slots : NodeId → Word) (es : List Event) : Prop :=
  ∀ p decl value level q, es = p ++ .introduce decl value level :: q →
    value = replay slots p decl.id

theorem ExportsCurrent.append {slots : NodeId → Word} {es es' : List Event}
    (h : ExportsCurrent slots es) (h' : ExportsCurrent (replay slots es) es') :
    ExportsCurrent slots (es ++ es') := by
  intro p decl value level q heq
  rcases List.append_eq_append_iff.1 heq with ⟨t, rfl, ht⟩ | ⟨t, rfl, ht⟩
  · rw [replay_append]
    exact h' t decl value level q ht
  · cases t with
    | nil =>
      rw [List.append_nil] at h'
      exact h' [] decl value level q ht.symm
    | cons e t =>
      obtain ⟨rfl, -⟩ := List.cons.inj ht
      exact h p decl value level t rfl

/-- The effect on the variables is that of its events, and what it exports is current. -/
def Exec.Recorded {α : Type} (e : Exec α) : Prop :=
  ∀ μ, (e μ).memory.slots = replay μ.slots (e μ).events ∧ ExportsCurrent μ.slots (e μ).events

theorem exportsCurrent_single {slots : NodeId → Word} {e : Event}
    (h : ∀ decl value level, e = .introduce decl value level → value = slots decl.id) :
    ExportsCurrent slots [e] := by
  intro p decl value level q heq
  rcases p with _ | ⟨e', p⟩
  · exact h decl value level (List.cons.inj heq).1
  · have hlength := congrArg List.length heq
    simp at hlength

theorem recorded_isStmtEffect : IsStmtEffect @Exec.Recorded where
  pure _ _ := ⟨rfl, fun p _ _ _ _ h => by cases p <;> cases h⟩
  bind h h' μ := by
    obtain ⟨hslots, hexports⟩ := h μ
    obtain ⟨hslots', hexports'⟩ := h' _ _
    refine ⟨?_, ?_⟩
    · rw [Exec.bind_apply, replay_append, ← hslots]
      exact hslots'
    · rw [hslots] at hexports'
      exact hexports.append hexports'
  reference _ _ _ := ⟨rfl, exportsCurrent_single nofun⟩
  load _ _ := ⟨rfl, fun p _ _ _ _ h => by cases p <;> cases h⟩
  store _ _ _ := ⟨rfl, exportsCurrent_single nofun⟩
  call _ _ _ _ := ⟨rfl, exportsCurrent_single nofun⟩
  alloca _ _ := ⟨rfl, exportsCurrent_single nofun⟩
  statement _ _ := ⟨rfl, exportsCurrent_single nofun⟩
  ret _ _ := ⟨rfl, exportsCurrent_single nofun⟩
  branch _ _ _ := ⟨rfl, exportsCurrent_single nofun⟩

theorem recorded_isMetaEffect : IsMetaEffect @Exec.Recorded where
  toIsStmtEffect := recorded_isStmtEffect
  contribute _ _ := ⟨rfl, exportsCurrent_single nofun⟩
  reduce _ := ⟨rfl, exportsCurrent_single nofun⟩
  introduce _ _ _ := ⟨rfl, exportsCurrent_single fun _ _ _ h => by cases h; rfl⟩

/-! ## Every state of a run -/

section Runs

variable {rt : Runtime} {arguments : List Word} {code : Blocks Instruction}

/-- The variables of the machine are those behind its events. -/
def Machine.Recorded (slots : NodeId → Word) (m : Machine) : Prop :=
  m.memory.slots = replay slots m.trace

theorem Machine.Recorded.perform {slots : NodeId → Word} {m : Machine} {α : Type} {e : Exec α}
    (h : m.Recorded slots)
    (he : (e m.memory).memory.slots = replay m.memory.slots (e m.memory).events) :
    (m.perform e).Recorded slots := by
  rw [Machine.Recorded, Machine.perform, replay_append, ← h]
  exact he

theorem exec_recorded {slots : NodeId → Word} {m : Machine} (h : m.Recorded slots)
    (o : Operation) : (o.exec rt arguments m).Recorded slots := by
  cases o with
  | binary | icmp | zext | isNotNull => exact h
  | load target decl | call target callee args => exact h.perform rfl
  | _ => exact h.perform rfl

theorem step_recorded {slots : NodeId → Word} {p p' : Point} {m m' : Machine}
    (hstep : step rt arguments code (p, m) = .running (p', m')) (h : m.Recorded slots) :
    m'.Recorded slots := by
  rw [step] at hstep
  split at hstep
  · cases hstep
  · cases hstep
    exact exec_recorded h _
  next t _ =>
    cases t <;> cases hstep
    · exact h
    · exact h.perform rfl

/-- Events are only appended. -/
theorem exec_trace (o : Operation) (m : Machine) : m.trace <+: (o.exec rt arguments m).trace := by
  cases o <;> first | exact List.prefix_append _ _ | exact List.prefix_rfl

theorem step_trace {p p' : Point} {m m' : Machine}
    (hstep : step rt arguments code (p, m) = .running (p', m')) : m.trace <+: m'.trace := by
  rw [step] at hstep
  split at hstep
  · cases hstep
  · cases hstep
    exact exec_trace _ _
  next t _ =>
    cases t <;> cases hstep
    · exact List.prefix_rfl
    · exact List.prefix_append _ _

theorem halted_trace {p : Point} {m m' : Machine}
    (hstep : step rt arguments code (p, m) = .halted m') : m.trace <+: m'.trace := by
  rw [step] at hstep
  split at hstep
  · cases hstep
  · cases hstep
  next t _ => cases t <;> cases hstep <;> exact List.prefix_append _ _

/-- The events up to a state are the first ones of the whole run. -/
theorem trace_prefix_of_halts {p : Point} {m m' : Machine}
    (h : Halts (step rt arguments code) (p, m) m') : m.trace <+: m'.trace :=
  h.related (R := fun s r => s.2.trace <+: r.trace) (fun _ _ hs => halted_trace hs)
    fun _ _ _ hs hr => (step_trace hs).trans hr

end Runs

/-- A run that gets to a state with the property. -/
theorem exists_reaches {rt : Runtime} {arguments : List Word} {code : Blocks Instruction}
    {s : Point × Machine} (n : Nat) {q : Machine → Bool}
    (h : (match run (step rt arguments code) n s with
      | .running s' => q s'.2
      | _ => false) = true) :
    ∃ s', Reaches (step rt arguments code) s s' ∧ q s'.2 = true := by
  split at h
  next s' hs => exact ⟨s', ⟨n, hs⟩, h⟩
  next => cases h

/-- In every state of a run of a meta function, whatever the outcomes of its conditions are: a
literal that was written for a variable is the value the variable had then, and the value of the
variable is the one that was stored last since then, the literal if none was. -/
theorem exported_constant_eq (ctx : IRContext) (n : ASTNode) (args contribution : AST)
    {s : CodegenState} (hmeta : MetaCodegen.codegen ctx (.node n [args, contribution])
      (.initial .insideMetaDecl) = .ok ((), s)) (rt : Runtime) (arguments : List Word)
    {p : Point} {m : Machine} (hreach : Reaches (step rt arguments s.blocks) (entry rt) (p, m))
    {es es' : List Event} {decl : Node} {value : Word} {level : DepthLevel}
    (htrace : m.trace = es ++ .introduce decl value level :: es') :
    value = replay rt.uninitialized es decl.id ∧
      m.memory.slots decl.id = replay (fun _ => value) es' decl.id ∧
      ((∀ w, .store decl.id w ∉ es') → m.memory.slots decl.id = value) := by
  obtain ⟨s', hs', hblocks⟩ := codegenMetaFunction_ok ctx hmeta
  have hcompiles : Compiles rt arguments .insideMetaDecl _ _ :=
    codegenFrom_metaCompiles ctx args contribution
  obtain ⟨m', hhalts, htrace'⟩ := hcompiles.halts hs'
  rw [hblocks] at hhalts
  obtain ⟨tail, htail⟩ := trace_prefix_of_halts (hhalts.of_reached hreach)
  have hrecorded :=
    recorded_isMetaEffect.execMetaFunction ctx rt arguments args contribution rt.memory
  have hslots : m.memory.slots = replay rt.uninitialized m.trace :=
    hreach.invariant (P := fun s => s.2.Recorded rt.uninitialized) rfl
      fun _ _ hstep h => step_recorded hstep h
  have hvalue : value = replay rt.uninitialized es decl.id := by
    refine hrecorded.2 es decl value level (es' ++ tail) ?_
    rw [← htrace', ← htail, htrace, List.append_assoc, List.cons_append]
  have hcurrent : m.memory.slots decl.id = replay (fun _ => value) es' decl.id := by
    rw [hslots, htrace, replay_append]
    exact replay_congr hvalue.symm es'
  refine ⟨hvalue, hcurrent, fun hnone => ?_⟩
  rw [hcurrent, replay_of_notStored _ hnone]

/-- `m<int n> -> { meta { n = 9; } }`, instantiated with 7: the parameter has the value of its
literal up to the calculation, and the one that is stored behind it. -/
theorem exported_constant_eq_parameter :
    let ctx : IRContext := ⟨fun _ => none, fun _ => none⟩
    let node (id : NodeId) (data : NodeData) (cs : List AST) : AST :=
      .node ⟨⟨id, data⟩, none, []⟩ cs
    let parameter : Node := ⟨2, .namedArgumentDecl "n"⟩
    let args : AST := node 1 .argumentDeclList [.node ⟨parameter, none, []⟩ []]
    let assign : AST := node 4 .metaCalculationStmt [node 5 .unscopedCompoundStmt
      [node 6 .expressionStmt [node 7 (.binaryOperatorExpr .assign)
        [.node ⟨⟨8, .declRefExpr "n"⟩, some parameter, []⟩ [], node 9 (.integerLiteralExpr 9) []]]]]
    let contribution : AST := node 3 .metaContribution [assign]
    ∃ s, MetaCodegen.codegen ctx (.node ⟨⟨0, .metaDecl "m"⟩, none, []⟩ [args, contribution])
        (.initial .insideMetaDecl) = .ok ((), s) ∧
      (∃ p m, Reaches (step default [7] s.blocks) (entry default) (p, m) ∧
        m.trace = [.alloca 2, .store 2 7, .introduce parameter 7 .topLevel, .reference 8 2] ∧
        m.memory.slots parameter.id = 7) ∧
      ∃ p m, Reaches (step default [7] s.blocks) (entry default) (p, m) ∧
        m.trace = [.alloca 2, .store 2 7, .introduce parameter 7 .topLevel, .reference 8 2,
          .store 2 9, .statement 6] ∧
        m.memory.slots parameter.id = 9 := by
  intro ctx node parameter args assign contribution
  let before : List Event :=
    [.alloca 2, .store 2 7, .introduce parameter 7 .topLevel, .reference 8 2]
  let after : List Event := before ++ [.store 2 9, .statement 6]
  have htrace : before =
      [.alloca 2, .store 2 7] ++ .introduce parameter 7 .topLevel :: [.reference 8 2] := rfl
  have htrace' : after = [.alloca 2, .store 2 7] ++
      .introduce parameter 7 .topLevel :: [.reference 8 2, .store 2 9, .statement 6] := rfl
  have hok : (match MetaCodegen.codegen ctx (.node ⟨⟨0, .metaDecl "m"⟩, none, []⟩
        [args, contribution]) (.initial .insideMetaDecl) with
      | .ok (_, s) =>
        (match run (step default [7] s.blocks) 5 (entry default) with
          | .running s' => decide (s'.2.trace = before)
          | _ => false) &&
        (match run (step default [7] s.blocks) 7 (entry default) with
          | .running s' => decide (s'.2.trace = after)
          | _ => false)
      | .error _ => false) = true := by decide +kernel
  split at hok
  next s hs =>
    obtain ⟨hok, hok'⟩ := Bool.and_eq_true_iff.1 hok
    obtain ⟨⟨p, m⟩, hreach, hm⟩ := exists_reaches 5 (q := fun m => decide (m.trace = before)) hok
    obtain ⟨⟨p', m'⟩, hreach', hm'⟩ :=
      exists_reaches 7 (q := fun m => decide (m.trace = after)) hok'
    have hbefore : m.trace = before := of_decide_eq_true hm
    have hafter : m'.trace = after := of_decide_eq_true hm'
    obtain ⟨-, -, hcurrent⟩ := exported_constant_eq ctx ⟨⟨0, .metaDecl "m"⟩, none, []⟩ args
      contribution hs default [7] hreach (hbefore.trans htrace)
    obtain ⟨-, hstored, -⟩ := exported_constant_eq ctx ⟨⟨0, .metaDecl "m"⟩, none, []⟩ args
      contribution hs default [7] hreach' (hafter.trans htrace')
    exact ⟨s, hs, ⟨p, m, hreach, hbefore, hcurrent (by simp)⟩, p', m', hreach', hafter, hstored⟩
  next => cases hok

/-- Two calculations, of which the first exports a variable and the second assigns to it, in front
of a function that returns the variable: the function returns the exported value, while the variable
has the other one. -/
theorem exported_constant_ne :
    let ctx : IRContext := ⟨fun _ => none, fun _ => none⟩
    let node (id : NodeId) (data : NodeData) (cs : List AST) : AST :=
      .node ⟨⟨id, data⟩, none, []⟩ cs
    let x : Node := ⟨6, .declStmt "x"⟩
    let ref (id : NodeId) : AST := .node ⟨⟨id, .declRefExpr "x"⟩, some x, []⟩ []
    let decl : AST := .node ⟨⟨4, .metaCalculationStmt⟩, none, [x]⟩
      [node 5 .unscopedCompoundStmt [node 6 x.data [node 7 (.integerLiteralExpr 1) []]]]
    let assign : AST := node 8 .metaCalculationStmt [node 9 .unscopedCompoundStmt
      [node 10 .expressionStmt
        [node 11 (.binaryOperatorExpr .assign) [ref 12, node 13 (.integerLiteralExpr 2) []]]]]
    let function : AST := node 14 (.functionDecl "m") [node 15 .argumentDeclList [],
      node 16 .anonymousArgumentDecl [], node 17 .returnStmt [ref 18]]
    ∃ s, MetaCodegen.codegen ctx (node 0 (.metaDecl "m") [node 1 .argumentDeclList [],
        node 2 .metaContribution [decl, assign, function]]) (.initial .insideMetaDecl) =
          .ok ((), s) ∧
      ∃ p m es es' level, Reaches (step default [] s.blocks) (entry default) (p, m) ∧
        m.trace = es ++ .introduce x 1 level :: es' ∧
        .contribute ⟨18, .declRefExpr "x"⟩ ∈ es' ∧ m.memory.slots x.id = 2 := by
  intro ctx node x ref decl assign function
  let trace : List Event := [.alloca 6, .store 6 1] ++ .introduce x 1 .topLevel ::
    [.reference 12 6, .store 6 2, .statement 10, .contribute ⟨14, .functionDecl "m"⟩,
      .contribute ⟨15, .argumentDeclList⟩, .reduce, .contribute ⟨16, .anonymousArgumentDecl⟩,
      .contribute ⟨17, .returnStmt⟩, .contribute ⟨18, .declRefExpr "x"⟩, .reduce, .reduce]
  have hok : (match MetaCodegen.codegen ctx (node 0 (.metaDecl "m") [node 1 .argumentDeclList [],
        node 2 .metaContribution [decl, assign, function]]) (.initial .insideMetaDecl) with
      | .ok (_, s) =>
        match run (step default [] s.blocks) 16 (entry default) with
        | .running s' => decide (s'.2.trace = trace ∧ s'.2.memory.slots x.id = 2)
        | _ => false
      | .error _ => false) = true := by decide +kernel
  split at hok
  next s hs =>
    obtain ⟨⟨p, m⟩, hreach, hm⟩ := exists_reaches 16
      (q := fun m => decide (m.trace = trace ∧ m.memory.slots x.id = 2)) hok
    obtain ⟨htrace, hslot⟩ := of_decide_eq_true hm
    exact ⟨s, hs, p, m, _, _, _, hreach, htrace, by decide, hslot⟩
  next => cases hok

end Swy
