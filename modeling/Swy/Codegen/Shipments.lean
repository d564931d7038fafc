import Swy.Codegen.CompleteModule
import Mathlib.Data.List.ModifyLast

/-!
# Shipments

What a step does to the executor (`Ships`). A function that is taken from the unresolved
dependencies is resolved by a call that may instantiate before it is pulled: `resolving` are the
functions that were taken and not pulled, whatever calls are nested in between. Behind an error the
calls only return (`Reachable.unwinds`).
-/

namespace Swy

open Library

namespace CodegenInstance

/-- The function that is pulled when the dependency is resolved. -/
def Dependency.function : Dependency → NodeId
  | llvmFunction function => function
  | functionDecl decl => decl

namespace State

/-- The functions in the executor and the ones that are shipped next. -/
def definitions (s : State) : List Definition := s.executor ++ s.shipment.getD []

/-- A function has a body in the executor or in the shipment. -/
def Defines (s : State) (symbol : Symbol) : Prop := symbol ∈ s.definitions.map Definition.symbol

/-- A body in the executor or in the shipment refers to the function. -/
def Refers (s : State) (symbol : Symbol) : Prop := ∃ d ∈ s.definitions, symbol ∈ d.callees

/-- The source of every prototype is known. -/
def Sourced (s : State) : Prop := ∀ function ∈ s.prototypes, function ∈ s.functionSource

/-- The executor is not touched. -/
structure SameShipments (s s' : State) : Prop where
  hasErrors : s'.hasErrors = s.hasErrors
  sourced : s.Sourced → s'.Sourced
  prototypes : s.prototypes ⊆ s'.prototypes
  availableSymbols : s'.availableSymbols = s.availableSymbols
  unresolvedDependencies : s'.unresolvedDependencies = s.unresolvedDependencies
  definitions : s'.definitions = s.definitions

theorem SameShipments.refl (s : State) : s.SameShipments s := ⟨rfl, id, fun _ => id, rfl, rfl, rfl⟩

theorem Sourced.lookupGlobal {s : State} (h : s.Sourced) (function : NodeId) :
    (s.lookupGlobal function).Sourced := by
  intro f hf
  rcases List.mem_insert_iff.1 hf with rfl | hf
  · exact List.mem_insert_self
  · exact List.mem_insert_of_mem (h f hf)

theorem sameShipments_lookupGlobal (s : State) (function : NodeId) :
    s.SameShipments (s.lookupGlobal function) :=
  ⟨rfl, fun h => h.lookupGlobal function, fun _ => List.mem_insert_of_mem, rfl, rfl, rfl⟩

theorem sameShipments_openShipment (s : State) : s.SameShipments s.openShipment :=
  ⟨rfl, id, fun _ => id, rfl, rfl, rfl⟩

theorem mem_isGlobalResolved {s : State} {symbol : Symbol} :
    s.isGlobalResolved symbol = true ↔ symbol ∈ s.availableSymbols := by
  simp [isGlobalResolved]

end State

/-! ## The functions that the calls are about -/

/-- The function that the current call generates. -/
def Control.function : Control → Option NodeId
  | codegenFunctionDecl decl | consumeFunctionDecl decl _ | generateFunctionDecl decl _ => some decl
  | functionResult function => function
  | _ => none

/-- The function that the call of a frame generates. -/
def Frame.function : Frame → Option NodeId
  | consumeFunctionDecl decl _ | generateFunctionDecl decl _ => some decl
  | _ => none

/-- The functions that the calls on the stack wait for to pull them, where `above` is generated by
the call above the stack. -/
def taken : Option NodeId → List Frame → List NodeId
  | _, [] => []
  | above, .resolveDependencies :: stack => above.toList ++ taken none stack
  | _, frame :: stack => taken frame.function stack

/-- The functions that were taken from the unresolved dependencies and not pulled yet. -/
def Config.resolving (m : Config) : List NodeId :=
  match m.control with
  | .pull function => function :: taken none m.stack
  | control => taken control.function m.stack

/-- The function whose result is returned next. -/
def Control.requested : Control → Option NodeId
  | codegenFunctionDecl decl => some decl
  | functionResult function => function
  | _ => none

/-- The function that the current call pulls, or whose body it generates. -/
def Control.pulled : Control → List NodeId
  | generateFunctionDecl decl _ | pull decl => [decl]
  | _ => []

/-- The function whose body is generated by the call of a frame. -/
def Frame.pulled : Frame → List NodeId
  | generateFunctionDecl decl _ => [decl]
  | _ => []

/-- A function is pulled if its result is returned to `resolveDependencies`. -/
def pulledBy : Option NodeId → List Frame → List NodeId
  | none, _ => []
  | some function, .resolveDependencies :: _ => [function]
  | some _, _ => []

/-- The functions that are pulled next or generated. What is consumed in front of a body may pull
the function as well. -/
def Config.pulling (m : Config) : List NodeId :=
  m.control.pulled ++ pulledBy m.control.requested m.stack ++ m.stack.flatMap Frame.pulled

/-- The symbol that the current call relies on. -/
def Control.needs : Control → List Symbol
  | generateMetaDecl decl _ | metaFunctionResult (some decl) => [.metaFunction decl]
  | generateJumpPad inst _ | invoke inst => [.jumpPad inst.label.node.id]
  | _ => []

/-- The symbol that the call of a frame relies on. -/
def Frame.needs : Frame → List Symbol
  | generateMetaDecl decl _ => [.metaFunction decl]
  | generateJumpPad inst _ | shipToJIT inst => [.jumpPad inst.label.node.id]
  | _ => []

/-- The meta functions and jump pads that were created for the calls. -/
def Config.needs (m : Config) : List Symbol := m.control.needs ++ m.stack.flatMap Frame.needs

theorem mem_pulledBy {function : Option NodeId} {stack : List Frame} {g : NodeId}
    (hg : g ∈ pulledBy function stack) : function = some g := by
  unfold pulledBy at hg
  split at hg
  · exact absurd hg List.not_mem_nil
  · rw [List.mem_singleton.1 hg]
  · exact absurd hg List.not_mem_nil

/-- The calls of a configuration are about the same functions as those of the one before. -/
structure Follows (m m' : Config) : Prop where
  resolving : ∀ g ∈ m.resolving, g ∈ m'.resolving
  pulling : ∀ g ∈ m'.pulling, g ∈ m.pulling ∨ m.state.isDeclaration g = true
  needs : ∀ symbol ∈ m'.needs, symbol ∈ m.needs ∨ m.state.isGlobalResolved symbol = true

/-! ## What a step does to the executor -/

/-- Every dependency was resolved. -/
def Control.isDrained : Control → Bool
  | resolved true | invoke _ => true
  | _ => false

/-- An absent result is returned, or the run was ended. -/
def Control.unwinds : Control → Bool
  | functionResult none | lookupResult none | unitResult none | consumeFunctionDecl _ []
  | consumeMetaDecl _ [] | metaFunctionResult none | resolved false | finished false
  | failed _ => true
  | _ => false

/-- The configuration was stopped by a fault or by an error. -/
def Config.Stopped (m : Config) : Prop :=
  (∃ fault, m.control = .failed fault) ∨ m.state.hasErrors = true

/-- The function is available, and its body and its dependencies are in the shipment. -/
def State.pull (function : NodeId) (callees : List NodeId) (s : State) : State :=
  (callees.foldl (fun (s : State) callee => s.requireGlobal callee (.llvmFunction callee))
    { s with availableSymbols := s.availableSymbols.insert (.function function) }).define
    ⟨.function function, callees.map .function⟩

/-- The meta function is available, and its body is entered in the shipment. -/
def State.enterMetaFunction (decl : NodeId) (s : State) : State :=
  { s with availableSymbols := s.availableSymbols.insert (.metaFunction decl) }.define
    ⟨.metaFunction decl, []⟩

/-- What a step does to the executor. -/
inductive Ships : Config → Config → Prop
  | keep {control control' : Control} {stack stack' : List Frame} {s s' : State} :
    control'.isDrained = false → s.SameShipments s' →
    Follows ⟨control, stack, s⟩ ⟨control', stack', s'⟩ →
    Ships ⟨control, stack, s⟩ ⟨control', stack', s'⟩
  | stop {m m' : Config} : m'.control.unwinds = true → m'.Stopped → Ships m m'
  | take {dependency : Dependency} {stack : List Frame} {s : State} :
    dependency ∈ s.unresolvedDependencies →
    Ships ⟨.resolveDependencies, stack, s⟩
      ⟨.codegenFunctionDecl dependency.function, .resolveDependencies :: stack,
        { s with unresolvedDependencies := s.unresolvedDependencies.erase dependency }⟩
  | refer {control control' : Control} {callee : NodeId} {dependency : Dependency}
    {stack stack' : List Frame} {s : State} :
    dependency = .functionDecl callee ∨
      dependency = .llvmFunction callee ∧ control = .lookupResult (some callee) →
    control'.isDrained = false →
    Follows ⟨control, stack, s⟩ ⟨control', stack', lookupFromExecutor s callee dependency⟩ →
    Ships ⟨control, stack, s⟩ ⟨control', stack', lookupFromExecutor s callee dependency⟩
  | enterMeta {decl : NodeId} {refs : List Reference} {stack : List Frame} {s : State} :
    s.isGlobalResolved (.metaFunction decl) = false →
    Ships ⟨.consumeMetaDecl decl [], stack, s⟩
      ⟨.generateMetaDecl decl refs, stack, s.enterMetaFunction decl⟩
  | createJumpPadTo {decl : NodeId} {inst : AST} {refs : List Reference} {stack : List Frame}
    {s : State} :
    Ships ⟨.metaFunctionResult (some decl), .instantiate inst :: stack, s⟩
      ⟨.generateJumpPad inst refs, stack,
        s.define ⟨.jumpPad inst.label.node.id, [.metaFunction decl]⟩⟩
  | pull {function : NodeId} {body : FunctionBody} {stack : List Frame} {s : State} :
    s.bodies function = some body → s.isGlobalResolved (.function function) = false →
    Ships ⟨.pull function, stack, s⟩ ⟨.resolveDependencies, stack, s.pull function body.callees⟩
  | drained {stack : List Frame} {s : State} :
    s.unresolvedDependencies = [] →
    Ships ⟨.resolveDependencies, stack, s⟩ ⟨.resolved true, stack, s⟩
  | ship {definitions : List Definition} {inst : AST} {stack : List Frame} {s : State} :
    s.shipment = some definitions →
    Ships ⟨.resolved true, .shipToJIT inst :: stack, s⟩
      ⟨.invoke inst, stack, { s with shipment := none, executor := s.executor ++ definitions }⟩

section Steps

variable {control control' : Control} {stack stack' : List Frame} {s s' : State} {m : Config}

/-- The same functions are resolved and pulled, and the same symbols are needed. -/
theorem Follows.same {m m' : Config} (hresolving : m'.resolving = m.resolving)
    (hpulling : m'.pulling = m.pulling) (hneeds : m'.needs = m.needs) : Follows m m' :=
  ⟨fun _ hg => hresolving ▸ hg, fun _ hg => .inl (hpulling ▸ hg), fun _ hg => .inl (hneeds ▸ hg)⟩

/-- A call or a return that does not touch the executor. -/
theorem Ships.same (hdrained : control'.isDrained = false) (hsame : s.SameShipments s')
    (hresolving : Config.resolving ⟨control', stack', s'⟩ = Config.resolving ⟨control, stack, s⟩)
    (hpulling : Config.pulling ⟨control', stack', s'⟩ = Config.pulling ⟨control, stack, s⟩)
    (hneeds : Config.needs ⟨control', stack', s'⟩ = Config.needs ⟨control, stack, s⟩) :
    Ships ⟨control, stack, s⟩ ⟨control', stack', s'⟩ :=
  .keep hdrained hsame (.same hresolving hpulling hneeds)

theorem Ships.failed {m : Config} {fault : Fault} {stack : List Frame} {s : State} :
    Ships m ⟨.failed fault, stack, s⟩ := .stop rfl (.inl ⟨fault, rfl⟩)

theorem ships_codegen {index : Nat} (hm : codegen stack s index = some m) :
    Ships ⟨.codegen, stack, s⟩ m := by
  unfold codegen at hm
  split at hm
  · cases hm
    exact .same rfl (.refl s) rfl rfl rfl
  · obtain ⟨dependency, -, hm⟩ := Option.bind_eq_some_iff.1 hm
    dsimp only at hm
    split at hm
    · cases hm
      exact .same rfl ⟨rfl, id, fun _ => id, rfl, rfl, rfl⟩ rfl rfl rfl
    · cases hm
      exact .same rfl ⟨rfl, id, fun _ => id, rfl, rfl, rfl⟩ rfl rfl rfl

theorem ships_codegenFunctionDecl {decl : NodeId} :
    Ships ⟨.codegenFunctionDecl decl, stack, s⟩ (codegenFunctionDecl stack s decl) := by
  unfold codegenFunctionDecl
  dsimp only
  split
  · split
    · refine .keep rfl (s.sameShipments_lookupGlobal decl)
        ⟨fun _ => id, fun g hg => .inl ?_, fun _ => .inl⟩
      exact List.mem_append_right _ hg
    · exact .failed
  · exact .same rfl (s.sameShipments_lookupGlobal decl) rfl rfl rfl

theorem ships_consumeFunctionDecl {decl : NodeId} {insts : List AST} :
    Ships ⟨.consumeFunctionDecl decl insts, stack, s⟩ (consumeFunctionDecl stack s decl insts) := by
  cases insts with
  | cons inst insts => exact .same rfl (.refl s) rfl rfl rfl
  | nil =>
    rw [consumeFunctionDecl, enterFunctionDecl]
    split
    · rename_i hcontinue
      exact .stop rfl (.inr (by simpa [State.canContinue] using hcontinue))
    split
    · exact .failed
    split
    · exact .failed
    rename_i hdeclaration
    split
    · refine .keep rfl ⟨rfl, id, fun _ => id, rfl, rfl, rfl⟩
        ⟨fun _ => id, fun g hg => ?_, fun _ => .inl⟩
      -- Besides what is pulled before, the body of the function is generated.
      rcases List.mem_cons.1 hg with rfl | hg
      · exact .inr (by simpa using hdeclaration)
      · exact .inl hg
    · exact .failed

theorem ships_generateFunctionDecl {kept : NodeId → Bool} {decl : NodeId} {refs : List Reference} :
    Ships ⟨.generateFunctionDecl decl refs, stack, s⟩
      (generateFunctionDecl stack s kept decl refs) := by
  rcases refs with _ | ⟨ref, refs⟩
  · refine .keep rfl ⟨rfl, id, fun _ => id, rfl, rfl, rfl⟩
      ⟨fun _ => id, fun g hg => .inl ?_, fun _ => .inl⟩
    rcases List.mem_append.1 hg with hg | hg
    · obtain rfl : decl = g := Option.some.inj (mem_pulledBy hg)
      exact List.mem_cons_self
    · exact List.mem_cons_of_mem _ hg
  · cases ref with
    | function callee =>
      exact .same rfl ⟨rfl, fun h => h.lookupGlobal callee,
        fun _ => List.mem_insert_of_mem, rfl, rfl, rfl⟩ rfl rfl rfl
    | instantiation inst => exact .same rfl (.refl s) rfl rfl rfl

theorem ships_instantiate {inst : AST} {requiresCompleted : Bool} :
    Ships ⟨.instantiate inst requiresCompleted, stack, s⟩
      (instantiate stack s inst requiresCompleted) := by
  unfold instantiate
  split
  · exact .same rfl (.refl s) rfl rfl rfl
  split
  · exact .failed
  split
  · split
    · exact .same rfl (.refl s) rfl rfl rfl
    · exact .failed
  · exact .failed

/-- The prototype of a meta function that is available is returned. -/
theorem ships_available {decl : NodeId}
    (hresolving : Config.resolving ⟨control, stack, s⟩ = taken none stack)
    (hpulling : Config.pulling ⟨control, stack, s⟩ = stack.flatMap Frame.pulled)
    (havailable : s.isGlobalResolved (.metaFunction decl) = true) :
    Ships ⟨control, stack, s⟩ ⟨.metaFunctionResult (some decl), stack, s.openShipment⟩ := by
  refine .keep rfl s.sameShipments_openShipment
    ⟨fun g hg => ?_, fun g hg => .inl ?_, fun σ hσ => ?_⟩
  · rwa [hresolving] at hg
  · rwa [hpulling]
  · rcases List.mem_cons.1 hσ with rfl | hσ
    · exact .inr havailable
    · exact .inl (List.mem_append_right _ hσ)

theorem ships_codegenMetaDecl {decl : NodeId} :
    Ships ⟨.codegenMetaDecl decl, stack, s⟩ (codegenMetaDecl stack s decl) := by
  unfold codegenMetaDecl
  split
  · rename_i havailable
    exact ships_available rfl rfl havailable
  split
  · exact .same rfl (.refl s) rfl rfl rfl
  · exact .failed

theorem ships_consumeMetaDecl {decl : NodeId} {insts : List AST} :
    Ships ⟨.consumeMetaDecl decl insts, stack, s⟩ (consumeMetaDecl stack s decl insts) := by
  cases insts with
  | cons inst insts => exact .same rfl (.refl s) rfl rfl rfl
  | nil =>
    rw [consumeMetaDecl, enterMetaDecl]
    split
    · exact .same rfl (.refl s) rfl rfl rfl
    split
    · rename_i havailable
      exact ships_available rfl rfl havailable
    rename_i havailable
    split
    · exact .enterMeta (Bool.eq_false_iff.2 havailable)
    · exact .failed

theorem ships_generateMetaDecl {decl : NodeId} {refs : List Reference} :
    Ships ⟨.generateMetaDecl decl refs, stack, s⟩ (generateMetaDecl stack s decl refs) := by
  rcases refs with _ | ⟨ref, refs⟩
  · exact .same rfl (.refl s) rfl rfl rfl
  · cases ref with
    | function callee => exact .refer (.inl rfl) rfl (.same rfl rfl rfl)
    | instantiation inst => exact .same rfl (.refl s) rfl rfl rfl

theorem ships_generateJumpPad {inst : AST} {refs : List Reference} :
    Ships ⟨.generateJumpPad inst refs, stack, s⟩ (generateJumpPad stack s inst refs) := by
  rcases refs with _ | ⟨ref, refs⟩
  · rw [generateJumpPad]
    split
    · exact .same rfl (.refl s) rfl rfl rfl
    · exact .failed
  · cases ref with
    | function callee => exact .refer (.inl rfl) rfl (.same rfl rfl rfl)
    | instantiation arg => exact .same rfl (.refl s) rfl rfl rfl

theorem ships_resolveDependencies {index : Nat} (hm : resolveDependencies stack s index = some m) :
    Ships ⟨.resolveDependencies, stack, s⟩ m := by
  unfold resolveDependencies at hm
  split at hm
  · rename_i hdrained
    cases hm
    exact .drained hdrained
  · obtain ⟨dependency, hdependency, hm⟩ := Option.bind_eq_some_iff.1 hm
    have hmem := List.mem_of_getElem? hdependency
    dsimp only at hm
    split at hm
    · split at hm
      · cases hm
        exact .take hmem
      · cases hm
        exact .failed
    · cases hm
      exact .take hmem

theorem ships_pull {function : NodeId} :
    Ships ⟨.pull function, stack, s⟩ (pull stack s function) := by
  rcases hbody : s.bodies function with _ | ⟨callees⟩ | ⟨callees⟩ <;>
    rw [pull, hbody] <;> dsimp only
  · exact .failed
  all_goals
    split
    · exact .failed
    rename_i havailable
    split
    · exact .failed
    · exact .pull hbody (Bool.eq_false_iff.2 havailable)

theorem ships_invoke {unit : Option MetaUnit} {inst : AST} :
    Ships ⟨.invoke inst, stack, s⟩ (invoke stack s unit inst) := by
  -- The jump pad is not needed any longer.
  have hfollows {unit : Option MetaUnit} {s' : State} :
      Follows ⟨.invoke inst, stack, s⟩ ⟨.unitResult unit, stack, s'⟩ :=
    ⟨fun _ => id, fun _ => .inl, fun _ hσ => .inl (List.mem_cons_of_mem _ hσ)⟩
  unfold invoke
  split
  · exact .stop rfl (.inr rfl)
  split
  · exact .keep rfl (.refl s) hfollows
  split
  · exact .failed
  · exact .keep rfl ⟨rfl, id, fun _ => id, rfl, rfl, rfl⟩ hfollows

theorem ships_returnFunction {function : Option NodeId}
    (hm : returnFunction s function stack = some m) :
    Ships ⟨.functionResult function, stack, s⟩ m := by
  unfold returnFunction at hm
  split at hm
  · cases function with
    | some function =>
      cases hm
      exact .same rfl (.refl s) rfl rfl rfl
    | none =>
      cases hm
      exact .same rfl (.refl s) rfl rfl rfl
  · split at hm
    · cases hm
      exact .same rfl (.refl s) rfl rfl rfl
    · cases hm
      exact .same rfl (.refl s) rfl rfl rfl
  · cases hm

theorem ships_returnUnit {unit : Option MetaUnit} (hm : returnUnit s unit stack = some m) :
    Ships ⟨.unitResult unit, stack, s⟩ m := by
  unfold returnUnit at hm
  split at hm
  · cases hm
    unfold lookupExported
    split
    · exact .same rfl (.refl s) rfl rfl rfl
    split
    · exact .stop rfl (.inr rfl)
    split
    · exact .same rfl (s.sameShipments_lookupGlobal _) rfl rfl rfl
    · exact .failed
  · cases hm
    exact .same rfl (.refl s) rfl rfl rfl
  · cases hm

theorem ships_returnLookup {function : Option NodeId}
    (hm : returnLookup s function stack = some m) :
    Ships ⟨.lookupResult function, stack, s⟩ m := by
  unfold returnLookup at hm
  split at hm
  · cases hm
    exact .same rfl (.refl s) rfl rfl rfl
  · split at hm
    · cases hm
      exact .same rfl ⟨rfl, id, fun _ => id, rfl, rfl, rfl⟩ rfl rfl rfl
    · cases hm
      exact .failed
  · split at hm
    · cases hm
      exact .refer (.inr ⟨rfl, rfl⟩) rfl (.same rfl rfl rfl)
    · cases hm
      exact .failed
  · split at hm
    · cases hm
      exact .refer (.inr ⟨rfl, rfl⟩) rfl (.same rfl rfl rfl)
    · cases hm
      exact .failed
  · cases hm

theorem ships_returnMetaFunction {metaFunction : Option NodeId}
    (hm : returnMetaFunction s metaFunction stack = some m) :
    Ships ⟨.metaFunctionResult metaFunction, stack, s⟩ m := by
  unfold returnMetaFunction at hm
  split at hm
  · split at hm
    · cases hm
      exact .createJumpPadTo
    · cases hm
      exact .same rfl (.refl s) rfl rfl rfl
  · cases hm

theorem ships_returnResolved {success : Bool} (hm : returnResolved s success stack = some m) :
    Ships ⟨.resolved success, stack, s⟩ m := by
  unfold returnResolved at hm
  split at hm
  · cases success with
    | true =>
      simp only [if_true] at hm
      split at hm
      · rename_i hshipment
        cases hm
        exact .ship hshipment
      · cases hm
        exact .failed
    | false =>
      cases hm
      exact .keep rfl (.refl s)
        ⟨fun _ => id, fun _ => .inl, fun _ hσ => .inl (List.mem_cons_of_mem _ hσ)⟩
  · cases hm

/-- Every step ships in one of these ways. -/
theorem step_ships {choice : Choice} {m m' : Config} (hm : step choice m = some m') :
    Ships m m' := by
  obtain ⟨control, stack, s⟩ := m
  cases control with
  | codegen => exact ships_codegen hm
  | codegenFunctionDecl decl =>
    cases hm
    exact ships_codegenFunctionDecl
  | consumeFunctionDecl decl insts =>
    cases hm
    exact ships_consumeFunctionDecl
  | generateFunctionDecl decl refs =>
    cases hm
    exact ships_generateFunctionDecl
  | functionResult function => exact ships_returnFunction hm
  | lookupInstantiation inst requiresCompleted =>
    cases hm
    exact .same rfl (.refl s) rfl rfl rfl
  | lookupResult function => exact ships_returnLookup hm
  | instantiate inst requiresCompleted =>
    cases hm
    exact ships_instantiate
  | unitResult unit => exact ships_returnUnit hm
  | codegenMetaDecl decl =>
    cases hm
    exact ships_codegenMetaDecl
  | consumeMetaDecl decl insts =>
    cases hm
    exact ships_consumeMetaDecl
  | generateMetaDecl decl refs =>
    cases hm
    exact ships_generateMetaDecl
  | metaFunctionResult metaFunction => exact ships_returnMetaFunction hm
  | generateJumpPad inst refs =>
    cases hm
    exact ships_generateJumpPad
  | resolveDependencies => exact ships_resolveDependencies hm
  | pull function =>
    cases hm
    exact ships_pull
  | resolved success => exact ships_returnResolved hm
  | invoke inst =>
    cases hm
    exact ships_invoke
  | finished success => cases hm
  | failed fault => cases hm

/-- Behind an error only absent results are returned. -/
theorem step_unwinds {choice : Choice} (hcontrol : control.unwinds = true)
    (herrors : s.hasErrors = true) (hm : step choice ⟨control, stack, s⟩ = some m) :
    m.control.unwinds = true := by
  have hcontinue : s.canContinue = false := by simp [State.canContinue, herrors]
  cases control with
  | consumeFunctionDecl decl insts =>
    cases insts with
    | cons inst insts => exact Bool.noConfusion hcontrol
    | nil =>
      simp only [step, consumeFunctionDecl, enterFunctionDecl, hcontinue,
        Bool.not_false, if_true] at hm
      cases hm
      rfl
  | consumeMetaDecl decl insts =>
    cases insts with
    | cons inst insts => exact Bool.noConfusion hcontrol
    | nil =>
      simp only [step, consumeMetaDecl, enterMetaDecl, hcontinue, Bool.not_false, if_true] at hm
      cases hm
      rfl
  | functionResult function =>
    cases function with
    | some function => exact Bool.noConfusion hcontrol
    | none =>
      simp only [step, returnFunction] at hm
      split at hm <;> cases hm <;> rfl
  | lookupResult function =>
    cases function with
    | some function => exact Bool.noConfusion hcontrol
    | none =>
      simp only [step, returnLookup] at hm
      split at hm <;> cases hm <;> rfl
  | unitResult unit =>
    cases unit with
    | some unit => exact Bool.noConfusion hcontrol
    | none =>
      simp only [step, returnUnit] at hm
      split at hm <;> cases hm <;> rfl
  | metaFunctionResult metaFunction =>
    cases metaFunction with
    | some decl => exact Bool.noConfusion hcontrol
    | none =>
      simp only [step, returnMetaFunction] at hm
      split at hm <;> cases hm
      rfl
  | resolved success =>
    cases success with
    | true => exact Bool.noConfusion hcontrol
    | false =>
      simp only [step, returnResolved] at hm
      split at hm <;> cases hm
      rfl
  | finished success => cases hm
  | failed fault => cases hm
  | _ => exact Bool.noConfusion hcontrol

end Steps

namespace State

/-! ## The fields of the updates -/

variable {s : State}

/-- What requiring a function does not touch is kept when the callees of a body are required. -/
theorem foldl_requireGlobal {α : Type} (field : State → α)
    (h : ∀ (s : State) callee dependency, field (s.requireGlobal callee dependency) = field s)
    (callees : List NodeId) (s : State) :
    field (callees.foldl (fun s callee => s.requireGlobal callee (.llvmFunction callee)) s) =
      field s := by
  induction callees generalizing s with
  | nil => rfl
  | cons callee callees ih => exact (ih _).trans (h _ _ _)

@[simp] theorem requireGlobal_availableSymbols (callee : NodeId) (dependency : Dependency) :
    (s.requireGlobal callee dependency).availableSymbols = s.availableSymbols := by
  unfold requireGlobal
  split
  · rfl
  · rfl

@[simp] theorem requireGlobal_definitions (callee : NodeId) (dependency : Dependency) :
    (s.requireGlobal callee dependency).definitions = s.definitions := by
  unfold requireGlobal
  split
  · rfl
  · rfl

/-- What is unresolved was so before, or is the dependency of a function that is not available. -/
theorem mem_requireGlobal {callee : NodeId} {dependency d : Dependency} :
    d ∈ (s.requireGlobal callee dependency).unresolvedDependencies ↔
      d ∈ s.unresolvedDependencies ∨
        d = dependency ∧ s.isGlobalResolved (.function callee) = false := by
  unfold requireGlobal
  split
  · rename_i havailable
    simp [havailable]
  · rename_i havailable
    have havailable := Bool.eq_false_iff.2 havailable
    simp [setGlobalAsUnresolved, havailable, or_comm]

theorem mem_requireGlobals {callees : List NodeId} {d : Dependency} :
    d ∈ (callees.foldl (fun s callee => s.requireGlobal callee (.llvmFunction callee))
        s).unresolvedDependencies ↔
      d ∈ s.unresolvedDependencies ∨
        ∃ callee ∈ callees, d = .llvmFunction callee ∧
          s.isGlobalResolved (.function callee) = false := by
  induction callees generalizing s with
  | nil => simp
  | cons callee callees ih =>
    have havailable (g : NodeId) :
        (s.requireGlobal callee (.llvmFunction callee)).isGlobalResolved (.function g) =
          s.isGlobalResolved (.function g) := by
      simp [isGlobalResolved]
    rw [List.foldl_cons, ih, mem_requireGlobal]
    simp only [havailable, List.exists_mem_cons_iff, or_assoc]

@[simp] theorem define_definitions (d : Definition) :
    (s.define d).definitions = s.definitions ++ [d] := by
  simp [define, definitions]

@[simp] theorem pull_definitions (function : NodeId) (callees : List NodeId) :
    (s.pull function callees).definitions =
      s.definitions ++ [⟨.function function, callees.map .function⟩] := by
  rw [pull, define_definitions,
    foldl_requireGlobal definitions fun _ _ _ => requireGlobal_definitions _ _]
  rfl

@[simp] theorem pull_availableSymbols (function : NodeId) (callees : List NodeId) :
    (s.pull function callees).availableSymbols = s.availableSymbols.insert (.function function) :=
  foldl_requireGlobal availableSymbols (fun _ _ _ => requireGlobal_availableSymbols _ _) callees _

@[simp] theorem pull_functionSource (function : NodeId) (callees : List NodeId) :
    (s.pull function callees).functionSource = s.functionSource := by
  refine foldl_requireGlobal functionSource (fun s callee dependency => ?_) callees _
  unfold requireGlobal
  split
  · rfl
  · rfl

/-- The amalgamation is not touched when a function is pulled. -/
theorem sameFunctions_pull (s : State) (function : NodeId) (callees : List NodeId) :
    s.SameFunctions (s.pull function callees) := by
  have havailable : s.SameFunctions
    { s with availableSymbols := s.availableSymbols.insert (.function function) } :=
    ⟨rfl, rfl, rfl, rfl⟩
  exact havailable.trans ((sameFunctions_requireGlobals _ callees).trans ⟨rfl, rfl, rfl, rfl⟩)

theorem mem_pull {function : NodeId} {callees : List NodeId} {d : Dependency} :
    d ∈ (s.pull function callees).unresolvedDependencies ↔
      d ∈ s.unresolvedDependencies ∨
        ∃ callee ∈ callees, d = .llvmFunction callee ∧ callee ≠ function ∧
          s.isGlobalResolved (.function callee) = false := by
  refine mem_requireGlobals.trans ?_
  simp [isGlobalResolved]

@[simp] theorem enterMetaFunction_definitions (decl : NodeId) :
    (s.enterMetaFunction decl).definitions = s.definitions ++ [⟨.metaFunction decl, []⟩] :=
  define_definitions _

/-- The body that was defined last refers to one more function. -/
theorem lookupFromExecutor_definitions (callee : NodeId) (dependency : Dependency) :
    (lookupFromExecutor s callee dependency).definitions =
      s.executor ++ (s.shipment.getD []).modifyLast
        fun d => { d with callees := d.callees ++ [.function callee] } := by
  unfold lookupFromExecutor requireGlobal
  split
  · rfl
  · rfl

theorem defines_lookupFromExecutor {callee : NodeId} {dependency : Dependency} {symbol : Symbol} :
    (lookupFromExecutor s callee dependency).Defines symbol ↔ s.Defines symbol := by
  unfold Defines
  rw [lookupFromExecutor_definitions, definitions]
  rcases List.eq_nil_or_concat (s.shipment.getD []) with hnil | ⟨before, last, hlast⟩
  · rw [hnil]
    rfl
  · rw [hlast, List.concat_eq_append, List.modifyLast_concat]
    simp

theorem refers_lookupFromExecutor {callee : NodeId} {dependency : Dependency} {symbol : Symbol}
    (h : (lookupFromExecutor s callee dependency).Refers symbol) :
    s.Refers symbol ∨ symbol = .function callee := by
  obtain ⟨d, hd, hsymbol⟩ := h
  rw [lookupFromExecutor_definitions] at hd
  unfold Refers definitions
  rcases List.eq_nil_or_concat (s.shipment.getD []) with hnil | ⟨before, last, hlast⟩
  · rw [hnil] at hd ⊢
    exact .inl ⟨d, hd, hsymbol⟩
  · rw [hlast, List.concat_eq_append] at hd ⊢
    rw [List.modifyLast_concat, ← List.append_assoc] at hd
    rcases List.mem_append.1 hd with hd | hd
    · rw [← List.append_assoc]
      exact .inl ⟨d, List.mem_append_left _ hd, hsymbol⟩
    · rw [List.mem_singleton.1 hd] at hsymbol
      rcases List.mem_append.1 hsymbol with hsymbol | hsymbol
      · exact .inl ⟨last, by simp, hsymbol⟩
      · exact .inr (List.mem_singleton.1 hsymbol)

@[simp] theorem lookupFromExecutor_availableSymbols (callee : NodeId) (dependency : Dependency) :
    (lookupFromExecutor s callee dependency).availableSymbols = s.availableSymbols :=
  requireGlobal_availableSymbols callee dependency

theorem mem_lookupFromExecutor {callee : NodeId} {dependency d : Dependency} :
    d ∈ (lookupFromExecutor s callee dependency).unresolvedDependencies ↔
      d ∈ s.unresolvedDependencies ∨
        d = dependency ∧ s.isGlobalResolved (.function callee) = false :=
  mem_requireGlobal

end State

/-! ## Errors -/

/-- An error is only submitted by a step that returns an absent result. -/
theorem Ships.hasErrors {m m' : Config} (h : Ships m m') :
    m'.state.hasErrors = m.state.hasErrors ∨ m'.control.unwinds = true ∧ m'.Stopped := by
  cases h with
  | keep _ hsame => exact .inl hsame.hasErrors
  | stop hunwinds hstopped => exact .inr ⟨hunwinds, hstopped⟩
  | refer => exact .inl (State.keeps_lookupFromExecutor _ _ _).hasErrors
  | pull => exact .inl (State.foldl_requireGlobal State.hasErrors
      (fun s callee dependency => (s.keeps_requireGlobal callee dependency).hasErrors) _ _)
  | _ => exact .inl rfl

/-- What was stopped stays stopped. -/
theorem Config.Stopped.step {m m' : Config} (h : m.Stopped) {choice : Choice}
    (hm : CodegenInstance.step choice m = some m') : m'.Stopped := by
  rcases h with ⟨fault, hfault⟩ | herrors
  · obtain ⟨control, stack, s⟩ := m
    obtain rfl : control = .failed fault := hfault
    cases hm
  · rcases (step_ships hm).hasErrors with hsame | ⟨-, hstopped⟩
    · exact .inr (hsame.trans herrors)
    · exact hstopped

/-- Behind an error a run only unwinds. -/
theorem Reachable.unwinds {reads : Reads} {a : AST} {m : Config} (h : Reachable reads a m)
    (herrors : m.state.hasErrors = true) : m.control.unwinds = true := by
  induction h with
  | refl => cases herrors
  | tail _ hstep ih =>
    obtain ⟨choice, -, hstep⟩ := hstep
    rcases (step_ships hstep).hasErrors with hsame | ⟨hunwinds, -⟩
    · have herrors' := hsame.symm.trans herrors
      exact step_unwinds (ih herrors') herrors' hstep
    · exact hunwinds

/-- A run that does not unwind was not stopped. -/
theorem Reachable.not_stopped {reads : Reads} {a : AST} {m : Config} (h : Reachable reads a m)
    (hcontrol : m.control.unwinds = false) : ¬m.Stopped := by
  rintro (⟨fault, hfault⟩ | herrors)
  · rw [hfault] at hcontrol
    cases hcontrol
  · rw [h.unwinds herrors] at hcontrol
    cases hcontrol

end CodegenInstance

end Swy
