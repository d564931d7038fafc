import Swy.Codegen.Shipments

/-!
# Pulling a function once

A function may be pending twice, as the declaration that a meta function looked up and as the
function that a pulled body refers to. `Pulled` is kept by a run as long as no function is pulled
while another dependency on it is pending; behind a pull that does so the run can go on to a failed
assertion (`setGlobalAsResolved_once`).
-/

namespace Swy

open Library

namespace CodegenInstance

/-- A function is pulled, and no other dependency on it is left. -/
def PullsLast (m : Config) : Prop :=
  ∀ function, m.control = .pull function →
    ∀ d ∈ m.state.unresolvedDependencies, d.function ≠ function

/-- Decides it. -/
def Config.pullsLast (m : Config) : Bool :=
  match m.control with
  | .pull function => m.state.unresolvedDependencies.all (·.function ≠ function)
  | _ => true

theorem pullsLast_iff {m : Config} : m.pullsLast = true ↔ PullsLast m := by
  obtain ⟨control, stack, s⟩ := m
  cases control with
  | pull function =>
    constructor
    · rintro h f hf d hd
      cases hf
      simpa using List.all_eq_true.1 h d hd
    · intro h
      exact List.all_eq_true.2 fun d hd => by simpa using h function rfl d hd
  | _ => exact ⟨(fun _ _ hf => by cases hf), fun _ => rfl⟩

/-- The step sets the symbol as resolved. -/
def SetsResolved (symbol : Symbol) (m m' : Config) : Prop :=
  (∃ function, m.control = .pull function ∧ symbol = .function function) ∨
    ∃ decl refs, m.control = .consumeMetaDecl decl [] ∧ m'.control = .generateMetaDecl decl refs ∧
      symbol = .metaFunction decl

/-! ## The invariant -/

/-- What a run keeps while every function is pulled last. -/
structure Pulled (m : Config) : Prop where
  sourced : m.state.Sourced
  /-- The source of a function that is pending as such is known. -/
  source : ∀ f, .llvmFunction f ∈ m.state.unresolvedDependencies → f ∈ m.state.prototypes
  bodies : ∀ f, m.state.isGlobalResolved (.function f) = true → m.state.isDeclaration f = false
  pending : ∀ d ∈ m.state.unresolvedDependencies,
    m.state.isGlobalResolved (.function d.function) = false
  pulling : ∀ f ∈ m.pulling, m.state.isGlobalResolved (.function f) = false
  defined : ∀ f, m.state.Defines (.function f) → m.state.isGlobalResolved (.function f) = true

namespace Pulled

variable {m m' : Config}

/-- No function becomes available, and what is new is pending or pulled for a reason. -/
theorem of_same (h : Pulled m) (hsourced : m.state.Sourced → m'.state.Sourced)
    (hprototypes : m.state.prototypes ⊆ m'.state.prototypes)
    (havailable : ∀ f, m'.state.isGlobalResolved (.function f) =
      m.state.isGlobalResolved (.function f))
    (hbodies : ∀ f, m.state.isDeclaration f = false → m'.state.isDeclaration f = false)
    (hpending : ∀ d ∈ m'.state.unresolvedDependencies, d ∈ m.state.unresolvedDependencies ∨
      m.state.isGlobalResolved (.function d.function) = false ∧
        ∀ f, d = .llvmFunction f → f ∈ m.state.prototypes)
    (hpulling : ∀ f ∈ m'.pulling, f ∈ m.pulling ∨ m.state.isDeclaration f = true ∨
      ∃ d ∈ m.state.unresolvedDependencies, d.function = f)
    (hdefined : ∀ f, m'.state.Defines (.function f) → m.state.Defines (.function f)) :
    Pulled m' where
  sourced := hsourced h.sourced
  source f hf := by
    rcases hpending _ hf with hf | ⟨-, hsource⟩
    · exact hprototypes (h.source f hf)
    · exact hprototypes (hsource f rfl)
  bodies f hf := hbodies f (h.bodies f (havailable f ▸ hf))
  pending d hd := by
    rw [havailable]
    rcases hpending d hd with hd | ⟨hd, -⟩
    · exact h.pending d hd
    · exact hd
  pulling f hf := by
    rw [havailable]
    rcases hpulling f hf with hf | hf | ⟨d, hd, rfl⟩
    · exact h.pulling f hf
    · by_contra hresolved
      rw [h.bodies f (by simpa using hresolved)] at hf
      cases hf
    · exact h.pending d hd
  defined f hf := by
    rw [havailable]
    exact h.defined f (hdefined f hf)

/-- A function is pulled that is pending nowhere else. -/
theorem pull {function : NodeId} {body : FunctionBody} {stack : List Frame} {s : State}
    (h : Pulled ⟨.pull function, stack, s⟩) (hamalgamated : Amalgamated (.pull function) s)
    (hq : Quiet stack) (hlast : PullsLast ⟨.pull function, stack, s⟩)
    (hbody : s.bodies function = some body) :
    Pulled ⟨.resolveDependencies, stack, s.pull function body.callees⟩ := by
  have hkeeps := s.sameFunctions_pull function body.callees
  have havailable (f : NodeId) :
      (s.pull function body.callees).isGlobalResolved (.function f) = true ↔
        f = function ∨ s.isGlobalResolved (.function f) = true := by
    simp [State.isGlobalResolved]
  have hresolved {f : NodeId} (hne : f ≠ function)
      (hf : s.isGlobalResolved (.function f) = false) :
      (s.pull function body.callees).isGlobalResolved (.function f) = false := by
    by_contra htrue
    rcases (havailable f).1 (by simpa using htrue) with rfl | htrue
    · exact hne rfl
    · rw [htrue] at hf
      cases hf
  refine ⟨?_, fun f hf => ?_, fun f hf => ?_, fun d hd => ?_, fun f hf => ?_, fun f hf => ?_⟩
  · intro f hf
    change f ∈ (s.pull function body.callees).functionSource
    rw [State.pull_functionSource]
    exact h.sourced f (hkeeps.prototypes ▸ hf)
  · change f ∈ (s.pull function body.callees).prototypes
    rw [hkeeps.prototypes]
    rcases State.mem_pull.1 hf with hf | ⟨callee, hcallee, hf, -⟩
    · exact h.source f hf
    · cases hf
      exact hamalgamated.callees function body hbody f hcallee
  · change (s.pull function body.callees).isDeclaration f = false
    unfold State.isDeclaration
    rw [hkeeps.bodies]
    rcases (havailable f).1 hf with rfl | hf
    · rw [hbody]
      rfl
    · exact h.bodies f hf
  · rcases State.mem_pull.1 hd with hd | ⟨callee, -, rfl, hne, hcallee⟩
    · exact hresolved (hlast function rfl d hd) (h.pending d hd)
    · exact hresolved hne hcallee
  · -- No body is generated when a function is pulled.
    obtain ⟨frame, hframe, hf⟩ := List.mem_flatMap.1 (show f ∈ stack.flatMap Frame.pulled from hf)
    have hquiet := hq frame hframe
    cases frame with
    | generateFunctionDecl => exact Bool.noConfusion hquiet
    | _ => exact absurd hf List.not_mem_nil
  · have hf : f = function ∨ s.Defines (.function f) := by
      have hf : .function f ∈ (s.pull function body.callees).definitions.map Definition.symbol := hf
      simpa [State.Defines, or_comm] using hf
    exact (havailable f).2 (hf.imp_right fun hf => h.defined f hf)

/-- A step keeps the invariant, unless it stops the run. -/
theorem step (h : Pulled m) (hamalgamated : Amalgamated m.control m.state)
    (hsound : Inv m.control m.stack m.state) (hlast : PullsLast m) {choice : Choice}
    (hm : CodegenInstance.step choice m = some m') : m'.Stopped ∨ Pulled m' := by
  have hbodies := fun f => (step_change hm).isDeclaration (f := f)
  cases step_ships hm with
  | keep _ hsame hfollows =>
    refine .inr (h.of_same hsame.sourced hsame.prototypes (fun f => ?_) hbodies
      (fun d hd => .inl ?_) (fun f hf => ?_) fun f hf => ?_)
    · unfold State.isGlobalResolved
      rw [hsame.availableSymbols]
    · rwa [← hsame.unresolvedDependencies]
    · exact (hfollows.pulling f hf).imp_right .inl
    · unfold State.Defines at hf ⊢
      rwa [← hsame.definitions]
  | stop _ hstopped => exact .inl hstopped
  | @take dependency stack s hd =>
    refine .inr (h.of_same id (fun _ => id) (fun _ => rfl) hbodies
      (fun d hd => .inl (List.mem_of_mem_erase hd)) (fun f hf => ?_) fun _ => id)
    rcases List.mem_cons.1 hf with rfl | hf
    · exact .inr (.inr ⟨dependency, hd, rfl⟩)
    · exact .inl hf
  | @refer control control' callee dependency stack stack' s hdependency _ hfollows =>
    have hsource : s.Sourced → (lookupFromExecutor s callee dependency).Sourced := by
      unfold lookupFromExecutor State.requireGlobal
      split
      · exact id
      · exact id
    refine .inr (h.of_same hsource (fun f hf => ?_) (fun f => ?_) hbodies (fun d hd => ?_)
      (fun f hf => (hfollows.pulling f hf).imp_right .inl)
      fun f hf => State.defines_lookupFromExecutor.1 hf)
    · exact (s.sameFunctions_lookupFromExecutor callee dependency).prototypes ▸ hf
    · simp [State.isGlobalResolved]
    · rcases State.mem_lookupFromExecutor.1 hd with hd | ⟨rfl, hcallee⟩
      · exact .inl hd
      · refine .inr ?_
        rcases hdependency with rfl | ⟨rfl, rfl⟩
        · exact ⟨hcallee, fun f hf => by cases hf⟩
        · refine ⟨hcallee, fun f hf => ?_⟩
          cases hf
          exact hamalgamated.found callee rfl
  | @enterMeta decl refs stack s =>
    refine .inr (h.of_same id (fun _ => id) (fun f => ?_) hbodies (fun _ => .inl) (fun _ => .inl)
      fun f hf => ?_)
    · simp [State.isGlobalResolved, State.enterMetaFunction, State.define]
    · simpa [State.Defines] using hf
  | createJumpPadTo =>
    refine .inr (h.of_same id (fun _ => id) (fun _ => rfl) hbodies (fun _ => .inl) (fun _ => .inl)
      fun f hf => ?_)
    simpa [State.Defines] using hf
  | pull hbody => exact .inr (h.pull hamalgamated (hsound.disciplined.quiet_of rfl) hlast hbody)
  | drained =>
    exact .inr (h.of_same id (fun _ => id) (fun _ => rfl) hbodies (fun _ => .inl) (fun _ => .inl)
      fun _ => id)
  | ship hshipment =>
    refine .inr (h.of_same id (fun _ => id) (fun _ => rfl) hbodies (fun _ => .inl) (fun _ => .inl)
      fun f hf => ?_)
    simpa [State.Defines, State.definitions, hshipment] using hf

end Pulled

/-! ## Runs -/

/-- A step of a run in which every function is pulled last. -/
def StepsLast (reads : Reads) (m m' : Config) : Prop := PullsLast m ∧ Step reads m m'

theorem reachable_of_stepsLast {reads : Reads} {a : AST} {m : Config}
    (h : Relation.ReflTransGen (StepsLast reads) (start a) m) : Reachable reads a m :=
  Relation.ReflTransGen.mono (fun _ _ => And.right) _ _ h

/-- What was not stopped keeps the invariant. -/
theorem pulled_of_stepsLast {reads : Reads} {a : AST} {m : Config}
    (h : Relation.ReflTransGen (StepsLast reads) (start a) m) : m.Stopped ∨ Pulled m := by
  induction h with
  | refl =>
    refine .inr ⟨fun f hf => absurd hf List.not_mem_nil, fun f hf => absurd hf List.not_mem_nil,
      fun f hf => ?_, fun d hd => absurd hd List.not_mem_nil,
      fun f hf => absurd hf List.not_mem_nil, fun f hf => absurd hf List.not_mem_nil⟩
    cases hf
  | @tail m m' h hstep ih =>
    obtain ⟨hlast, choice, -, hm⟩ := hstep
    have hreachable := reachable_of_stepsLast h
    rcases ih with hstopped | hpulled
    · exact .inl (hstopped.step hm)
    rcases hreachable.sound with hfailed | hsound
    · exact .inl (Config.Stopped.step (.inl hfailed) hm)
    · exact hpulled.step hreachable.amalgamated hsound hlast hm

/-- What is available stays available. -/
theorem Ships.available {m m' : Config} (h : Ships m m') {symbol : Symbol}
    (hsymbol : m.state.isGlobalResolved symbol = true) :
    m'.Stopped ∨ m'.state.isGlobalResolved symbol = true := by
  rw [State.mem_isGlobalResolved] at hsymbol ⊢
  cases h with
  | keep _ hsame => exact .inr (hsame.availableSymbols ▸ hsymbol)
  | stop _ hstopped => exact .inl hstopped
  | refer => exact .inr (by simpa using hsymbol)
  | pull => exact .inr (by simp [hsymbol])
  | enterMeta => exact .inr (List.mem_insert_of_mem hsymbol)
  | _ => exact .inr hsymbol

theorem available_of_steps {reads : Reads} {m m' : Config}
    (h : Relation.ReflTransGen (Step reads) m m') {symbol : Symbol}
    (hsymbol : m.Stopped ∨ m.state.isGlobalResolved symbol = true) :
    m'.Stopped ∨ m'.state.isGlobalResolved symbol = true := by
  induction h with
  | refl => exact hsymbol
  | tail _ hstep ih =>
    obtain ⟨choice, -, hm⟩ := hstep
    rcases ih with hstopped | havailable
    · exact .inl (hstopped.step hm)
    · exact (step_ships hm).available havailable

/-- Every step is possible that does not invoke a jump pad. -/
theorem Step.of_step {reads : Reads} {m m' : Config} {choice : Choice}
    (hinvoke : m.control.isInvoke = false) (hm : step choice m = some m') : Step reads m m' := by
  refine ⟨choice, fun inst hinst => ?_, hm⟩
  rw [hinst] at hinvoke
  cases hinvoke

/-- A pending function that was pulled already is pulled again. -/
theorem pulls_again (reads : Reads) (stack : List Frame) {s : State} {d : Dependency}
    {body : FunctionBody} (hd : d ∈ s.unresolvedDependencies)
    (hbody : s.bodies d.function = some body)
    (havailable : s.isGlobalResolved (.function d.function) = true)
    (hsource : ∀ f, d = .llvmFunction f → f ∈ s.functionSource) :
    ∃ m, Relation.ReflTransGen (Step reads) ⟨.resolveDependencies, stack, s⟩ m ∧
      m.control = .failed .symbolAvailable := by
  obtain ⟨index, hindex⟩ := List.getElem?_of_mem hd
  let s₁ : State := { s with unresolvedDependencies := s.unresolvedDependencies.erase d }
  let s₂ : State := s₁.lookupGlobal d.function
  have hresolve : step { index := index } ⟨.resolveDependencies, stack, s⟩ =
      some ⟨.codegenFunctionDecl d.function, .resolveDependencies :: stack, s₁⟩ := by
    rw [step, resolveDependencies]
    split
    · rename_i hnil
      rw [hnil] at hd
      exact absurd hd List.not_mem_nil
    · cases d with
      | llvmFunction f =>
        have hcontains : s₁.functionSource.contains f = true := by simpa using hsource f rfl
        simp only [hindex, Option.bind_eq_bind, Option.bind_some]
        exact if_pos hcontains
      | functionDecl f => simp only [hindex, Option.bind_eq_bind, Option.bind_some]; rfl
  have hgenerated : step {} ⟨.codegenFunctionDecl d.function, .resolveDependencies :: stack, s₁⟩ =
      some ⟨.functionResult (some d.function), .resolveDependencies :: stack, s₂⟩ := by
    have hdeclaration : s₂.isDeclaration d.function = false := by
      change (s.bodies d.function).isNone = false
      rw [hbody]
      rfl
    rw [step, codegenFunctionDecl]
    exact congrArg some (if_neg (Bool.eq_false_iff.1 hdeclaration))
  have hreturned : step {} ⟨.functionResult (some d.function), .resolveDependencies :: stack, s₂⟩ =
      some ⟨.pull d.function, stack, s₂⟩ := rfl
  have hfails : step {} ⟨.pull d.function, stack, s₂⟩ =
      some ⟨.failed .symbolAvailable, stack, s₂⟩ := by
    have hbody₂ : s₂.bodies d.function = some body := hbody
    have havailable₂ : s₂.isGlobalResolved (.function d.function) = true := havailable
    cases body with
    | entered callees => simp only [step, pull, hbody₂, havailable₂, if_true]
    | finished callees => simp only [step, pull, hbody₂, havailable₂, if_true]
  have hsteps : Relation.ReflTransGen (Step reads) ⟨.resolveDependencies, stack, s⟩
      ⟨.failed .symbolAvailable, stack, s₂⟩ :=
    .head (.of_step rfl hresolve) (.head (.of_step rfl hgenerated)
      (.head (.of_step rfl hreturned) (.single (.of_step rfl hfails))))
  exact ⟨_, hsteps, rfl⟩

/-- The steps with the given choices, in which every function is pulled last. -/
def runLast : List Choice → Config → Option Config
  | [], m => some m
  | choice :: choices, m =>
    if m.control.isInvoke || !m.pullsLast then none else (step choice m).bind (runLast choices)

/-- What is run so from the start is reached by steps in which every function is pulled last. -/
theorem stepsLast_of_runLast {reads : Reads} {choices : List Choice} {m m' : Config}
    (hrun : runLast choices m = some m') : Relation.ReflTransGen (StepsLast reads) m m' := by
  induction choices generalizing m with
  | nil =>
    cases hrun
    exact .refl
  | cons choice choices ih =>
    rw [runLast] at hrun
    split at hrun
    · cases hrun
    · rename_i hguard
      rw [Bool.or_eq_true, Bool.not_eq_true', not_or, Bool.not_eq_false] at hguard
      obtain ⟨m₁, hstep, hrun⟩ := Option.bind_eq_some_iff.1 hrun
      refine (ih hrun).head ⟨pullsLast_iff.1 hguard.2, choice, fun inst hinst => ?_, hstep⟩
      rw [hinst] at hguard
      exact absurd rfl hguard.1

/-- A function that is neither available nor in the shipment is pulled. -/
theorem pull_eq {stack : List Frame} {s : State} {function : NodeId} {body : FunctionBody}
    (hbody : s.bodies function = some body)
    (havailable : s.isGlobalResolved (.function function) = false)
    (hshipment : (s.shipment.getD []).any (·.symbol = .function function) = false) :
    pull stack s function = ⟨.resolveDependencies, stack, s.pull function body.callees⟩ := by
  cases body with
  | entered callees => simp only [pull, hbody, havailable, hshipment]; rfl
  | finished callees => simp only [pull, hbody, havailable, hshipment]; rfl

/-- A meta function is entered when it is not available. -/
theorem not_available_of_enterMetaDecl {stack : List Frame} {s : State} {decl : NodeId}
    {refs : List Reference} (h : (enterMetaDecl stack s decl).control =
      .generateMetaDecl decl refs) :
    s.isGlobalResolved (.metaFunction decl) = false := by
  unfold enterMetaDecl at h
  split at h
  · cases h
  split at h
  · cases h
  · rename_i havailable
    exact Bool.eq_false_iff.2 havailable

/-- What a run that pulls every function last knows about the next one. -/
theorem pulls_of_stepsLast {reads : Reads} {a : AST} {m : Config}
    (h : Relation.ReflTransGen (StepsLast reads) (start a) m) {function : NodeId}
    (hcontrol : m.control = .pull function) :
    Pulled m ∧ m.state.isGlobalResolved (.function function) = false ∧
      (m.state.shipment.getD []).any (·.symbol = .function function) = false ∧
      ∃ body, m.state.bodies function = some body := by
  have hreachable := reachable_of_stepsLast h
  have hnot : ¬m.Stopped := hreachable.not_stopped (by rw [hcontrol]; rfl)
  have hpulled : Pulled m := (pulled_of_stepsLast h).resolve_left hnot
  have havailable : m.state.isGlobalResolved (.function function) = false := by
    refine hpulled.pulling function ?_
    unfold Config.pulling
    rw [hcontrol]
    exact List.mem_cons_self
  refine ⟨hpulled, havailable, ?_, ?_⟩
  · rw [List.any_eq_false]
    intro d hd hsymbol
    have hdefined : m.state.Defines (.function function) :=
      List.mem_map.2 ⟨d, List.mem_append_right _ hd, by simpa using hsymbol⟩
    rw [hpulled.defined function hdefined] at havailable
    cases havailable
  · have hsound : Inv m.control m.stack m.state :=
      hreachable.sound.resolve_left fun hfailed => hnot (.inl hfailed)
    have hdeclaration : m.state.isDeclaration function = false := by
      have hsound := hsound.sound
      rw [hcontrol] at hsound
      exact hsound
    exact Option.isSome_iff_exists.1 (by simpa [State.isDeclaration] using hdeclaration)

/-- The step that pulls it. -/
theorem step_pull_of_stepsLast {reads : Reads} {a : AST} {m : Config}
    (h : Relation.ReflTransGen (StepsLast reads) (start a) m) {function : NodeId}
    (hcontrol : m.control = .pull function) :
    ∃ body, m.state.bodies function = some body ∧ ∀ choice, step choice m =
      some ⟨.resolveDependencies, m.stack, m.state.pull function body.callees⟩ := by
  obtain ⟨-, havailable, hshipment, body, hbody⟩ := pulls_of_stepsLast h hcontrol
  obtain ⟨control, stack, s⟩ := m
  obtain rfl : control = .pull function := hcontrol
  exact ⟨body, hbody, fun _ => congrArg some (pull_eq hbody havailable hshipment)⟩

/-- In a run in which no function was pulled while another dependency on it was pending, a symbol is
set as resolved that is not available, a body is cloned for a function that has none in the
shipment, and no function is pulled twice. Where such a run pulls a function that is pending as
well, it can go on to pull the function again, which is available then. -/
theorem setGlobalAsResolved_once {reads : Reads} {a : AST} {m : Config}
    (h : Relation.ReflTransGen (StepsLast reads) (start a) m) :
    (∀ m' symbol, Step reads m m' → SetsResolved symbol m m' →
      m.state.isGlobalResolved symbol = false) ∧
    (∀ function, m.control = .pull function →
      (m.state.shipment.getD []).any (·.symbol = .function function) = false) ∧
    (∀ function m₁ m₂, m.control = .pull function → StepsLast reads m m₁ →
      Relation.ReflTransGen (StepsLast reads) m₁ m₂ → m₂.control ≠ .pull function) ∧
    (¬PullsLast m → ∃ m', Relation.ReflTransGen (Step reads) m m' ∧
      m'.control = .failed .symbolAvailable) := by
  refine ⟨?_, ?_, ?_, ?_⟩
  · rintro m' symbol ⟨choice, -, hm⟩
      (⟨function, hcontrol, rfl⟩ | ⟨decl, refs, hcontrol, hcontrol', rfl⟩)
    · exact (pulls_of_stepsLast h hcontrol).2.1
    · obtain ⟨control, stack, s⟩ := m
      obtain rfl : control = .consumeMetaDecl decl [] := hcontrol
      cases hm
      exact not_available_of_enterMetaDecl hcontrol'
  · intro function hcontrol
    exact (pulls_of_stepsLast h hcontrol).2.2.1
  · rintro function m₁ m₂ hcontrol hstep hsteps hcontrol'
    have h₂ : Relation.ReflTransGen (StepsLast reads) (start a) m₂ := (h.tail hstep).trans hsteps
    have hnot : ¬m₂.Stopped := (reachable_of_stepsLast h₂).not_stopped (by rw [hcontrol']; rfl)
    have hfirst : m₁.state.isGlobalResolved (.function function) = true := by
      obtain ⟨body, -, hpull⟩ := step_pull_of_stepsLast h hcontrol
      obtain ⟨-, choice, -, hm⟩ := hstep
      cases (hpull choice).symm.trans hm
      simp [State.isGlobalResolved]
    have hsteps : Relation.ReflTransGen (Step reads) m₁ m₂ :=
      Relation.ReflTransGen.mono (fun _ _ => And.right) _ _ hsteps
    have havailable := (available_of_steps hsteps (.inr hfirst)).resolve_left hnot
    rw [(pulls_of_stepsLast h₂ hcontrol').2.1] at havailable
    cases havailable
  · intro hlast
    obtain ⟨function, hcontrol, d, hd, rfl⟩ :
        ∃ function, m.control = .pull function ∧
          ∃ d ∈ m.state.unresolvedDependencies, d.function = function := by
      simpa [PullsLast] using hlast
    obtain ⟨body, hbody, hpull⟩ := step_pull_of_stepsLast h hcontrol
    have hpulled := (pulls_of_stepsLast h hcontrol).1
    let s : State := m.state.pull d.function body.callees
    have hbody' : s.bodies d.function = some body := by
      rw [(m.state.sameFunctions_pull d.function body.callees).bodies, hbody]
    have hd' : d ∈ s.unresolvedDependencies := State.mem_pull.2 (.inl hd)
    have havailable : s.isGlobalResolved (.function d.function) = true := by
      simp [s, State.isGlobalResolved]
    have hsource (f : NodeId) (hf : d = .llvmFunction f) : f ∈ s.functionSource := by
      subst hf
      rw [State.pull_functionSource]
      exact hpulled.sourced f (hpulled.source f hd)
    obtain ⟨m', hsteps, hfailed⟩ := pulls_again reads m.stack hd' hbody' havailable hsource
    have hstep : Step reads m ⟨.resolveDependencies, m.stack, s⟩ :=
      .of_step (by rw [hcontrol]; rfl) (hpull {})
    exact ⟨m', hsteps.head hstep, hfailed⟩

namespace PendingTwice

/-- `h() -> { g(); }`. -/
def h : AST :=
  .node { node := ⟨1, .functionDecl "h"⟩ }
    [.node { node := ⟨2, .argumentDeclList⟩ } [],
      .node { node := ⟨3, .compoundStmt⟩ }
        [.node { node := ⟨4, .expressionStmt⟩ }
          [.node { node := ⟨5, .callOperatorExpr⟩ }
            [.node { node := ⟨6, .declRefExpr "g"⟩, decl := some ⟨7, .functionDecl "g"⟩ } []]]]]

/-- `g() -> {}`. -/
def g : AST :=
  .node { node := ⟨7, .functionDecl "g"⟩ }
    [.node { node := ⟨8, .argumentDeclList⟩ } [], .node { node := ⟨9, .compoundStmt⟩ } []]

/-- `m<> -> { meta { h(); g(); } m() -> {} }`. -/
def m : AST :=
  .node { node := ⟨10, .metaDecl "m"⟩ }
    [.node { node := ⟨11, .argumentDeclList⟩ } [],
      .node { node := ⟨12, .metaContribution⟩ }
        [.node { node := ⟨13, .metaCalculationStmt⟩ }
            [.node { node := ⟨14, .unscopedCompoundStmt⟩ }
              [.node { node := ⟨15, .expressionStmt⟩ }
                  [.node { node := ⟨16, .callOperatorExpr⟩ }
                    [.node { node := ⟨17, .declRefExpr "h"⟩,
                             decl := some ⟨1, .functionDecl "h"⟩ } []]],
                .node { node := ⟨18, .expressionStmt⟩ }
                  [.node { node := ⟨19, .callOperatorExpr⟩ }
                    [.node { node := ⟨20, .declRefExpr "g"⟩,
                             decl := some ⟨7, .functionDecl "g"⟩ } []]]]],
          .node { node := ⟨21, .functionDecl "m"⟩ }
            [.node { node := ⟨22, .argumentDeclList⟩ } [],
              .node { node := ⟨23, .compoundStmt⟩ } []]]]

/-- `f() -> { m<>(); }`. -/
def f : AST :=
  .node { node := ⟨24, .functionDecl "f"⟩ }
    [.node { node := ⟨25, .argumentDeclList⟩ } [],
      .node { node := ⟨26, .compoundStmt⟩ }
        [.node { node := ⟨27, .expressionStmt⟩ }
          [.node { node := ⟨28, .callOperatorExpr⟩ }
            [.node { node := ⟨29, .metaInstantiationExpr⟩ }
              [.node { node := ⟨30, .declRefExpr "m"⟩, decl := some ⟨10, .metaDecl "m"⟩ } []]]]]]

/-- The program. -/
def program : AST := .node { node := ⟨0, .compilationUnit⟩ } [h, g, m, f]

end PendingTwice

/-- `h` is pulled first for the meta function of `m`, when `g` is still pending. -/
theorem setGlobalAsResolved_once_first :
    ∃ m : Config,
      Relation.ReflTransGen (StepsLast fun _ _ _ => True) (start PendingTwice.program) m ∧
      m.control = .pull 1 ∧ m.state.unresolvedDependencies = [.functionDecl 7] ∧
      (m.state.shipment.getD []).any (·.symbol = .function 1) = false := by
  let choice : Choice := {}
  let choices : List Choice :=
    { index := 3 } :: (List.replicate 11 choice ++ { index := 1 } :: List.replicate 5 choice)
  let m : Config := (runLast choices (start PendingTwice.program)).getD (start PendingTwice.program)
  have hrun : runLast choices (start PendingTwice.program) = some m := by rfl
  have h : Relation.ReflTransGen (StepsLast fun _ _ _ => True) (start PendingTwice.program) m :=
    stepsLast_of_runLast hrun
  have hcontrol : m.control = .pull 1 := by rfl
  exact ⟨m, h, hcontrol, rfl, (setGlobalAsResolved_once h).2.1 1 hcontrol⟩

/-- `h() -> { g(); } g() -> {} m<> -> { meta { h(); g(); } m() -> {} } f() -> { m<>(); }`, where `g`
is pending as the declaration that the meta function of `m` looks up, and as the function that `h`
calls when `h` is pulled before. It is pulled for both. -/
theorem pulls_twice :
    ∃ m m' : Config, Reachable (fun _ _ _ => True) PendingTwice.program m ∧
      m.control = .pull 7 ∧ m.state.isGlobalResolved (.function 7) = true ∧
      (∃ choice, step choice m = some m') ∧ m'.control = .failed .symbolAvailable := by
  let choice : Choice := {}
  let choices : List Choice :=
    { index := 3 } :: (List.replicate 11 choice ++ { index := 1 } :: List.replicate 15 choice)
  let m : Config := (run choices (start PendingTwice.program)).getD (start PendingTwice.program)
  have hrun : run choices (start PendingTwice.program) = some m := by rfl
  let m' : Config := (step choice m).getD m
  have hstep : step choice m = some m' := by rfl
  exact ⟨m, m', Reachable.run .refl hrun, rfl, rfl, ⟨choice, hstep⟩, rfl⟩

end CodegenInstance

end Swy
