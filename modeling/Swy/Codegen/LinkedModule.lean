import Swy.Codegen.CompleteModule
import Swy.Codegen.LinkedFunctions

/-!
# The linked module

What the bodies of the amalgamation refer to. While the body of a function is generated its
references are looked up one after the other, and each is looked up to a prototype: `Linked` says
which of them are still to be looked up in a configuration of a run. Since every prototype has a
body at the end of a successful run, the functions of the module are executed without ever getting
stuck, and they return what they mean to the interpreter (`codegen_links`).
-/

namespace Swy

open Library

namespace CodegenInstance

/-! ## What is looked up -/

namespace State

variable {s s' : State}

/-- The reference is looked up to a prototype. -/
def Resolves (s : State) : Reference → Prop
  | .function function => function ∈ s.prototypes
  | .instantiation inst => ∃ unit exported, s.getCachedInstantiationOf inst = some unit ∧
      unit.exportedNode = some exported ∧ exported.id ∈ s.prototypes

/-- Instantiations and prototypes are only added. -/
structure Extends (s s' : State) : Prop where
  grows : s.Grows s'
  prototypes : ∀ f ∈ s.prototypes, f ∈ s'.prototypes

theorem Extends.resolves (h : s.Extends s') {ref : Reference} (href : s.Resolves ref) :
    s'.Resolves ref := by
  cases ref with
  | function f => exact h.prototypes f href
  | instantiation inst =>
    obtain ⟨unit, exported, hunit, hexported, hprototype⟩ := href
    exact ⟨unit, exported, h.grows.cached hunit, hexported, h.prototypes _ hprototype⟩

theorem Extends.trans {s'' : State} (h : s.Extends s') (h' : s'.Extends s'') : s.Extends s'' :=
  ⟨h.grows.trans h'.grows, fun f hf => h'.prototypes f (h.prototypes f hf)⟩

theorem extends_lookupGlobal (s : State) (function : NodeId) :
    s.Extends (s.lookupGlobal function) :=
  ⟨(s.keeps_lookupGlobal function).grows, fun _ hf => List.mem_insert_of_mem hf⟩

theorem extends_addCallee (s : State) (function callee : NodeId) :
    s.Extends (s.addCallee function callee) := ⟨s.grows_addCallee function callee, fun _ hf => hf⟩

theorem isDeclaration_addCallee (s : State) (function callee f : NodeId) :
    (s.addCallee function callee).isDeclaration f = s.isDeclaration f := by
  by_cases hne : f = function
  · subst hne
    simp [addCallee, isDeclaration]
  · simp [addCallee, isDeclaration, Function.update_of_ne hne]

/-- No body is entered. -/
def SameBodies (s s' : State) : Prop :=
  s.Extends s' ∧ ∀ f, s'.isDeclaration f = s.isDeclaration f

/-- What a resolved reference is looked up to is a prototype. -/
theorem mem_prototypes_of_lookup {ref : Reference} (href : s.Resolves ref) {function : NodeId}
    {type : FunctionType} (h : s.irContext.lookup ref = some (function, type)) :
    function ∈ s.prototypes := by
  cases ref with
  | function f =>
    obtain ⟨type', -, heq⟩ := Option.map_eq_some_iff.1 h
    cases heq
    exact href
  | instantiation inst =>
    obtain ⟨unit, exported, hunit, hexported, hprototype⟩ := href
    obtain ⟨f, hf, h⟩ := Option.bind_eq_some_iff.1 h
    obtain ⟨type', -, h⟩ := Option.bind_eq_some_iff.1 h
    cases h
    have hunit : (s.instantiations.find? fun entry => entry.1 = inst.label.node.id).map Prod.snd =
        some unit := hunit
    simp only [irContext, hunit, hexported, Option.bind_eq_bind, Option.bind_some,
      Option.pure_def, Option.some.injEq] at hf
    rwa [← hf]

end State

/-! ## What is still to be looked up -/

/-- The references of the body that the method generates. -/
def Control.generating : Control → List (NodeId × List Reference)
  | generateFunctionDecl decl refs => [(decl, refs)]
  | _ => []

/-- The references of the body that the frame generates. -/
def Frame.generating : Frame → List (NodeId × List Reference)
  | generateFunctionDecl decl refs => [(decl, refs)]
  | _ => []

/-- The bodies that are generated, and what is still to be looked up for them. -/
def Config.generating (m : Config) : List (NodeId × List Reference) :=
  m.control.generating ++ m.stack.flatMap Frame.generating

/-- An instantiation was looked up. -/
def Control.isLookupResult : Control → Bool
  | lookupResult _ => true
  | _ => false

/-- What a step does to the bodies that are generated. -/
inductive Looks : Config → Config → Prop
  | same {m m' : Config} : m'.generating = m.generating → m.state.SameBodies m'.state →
    m'.control.isLookupResult = false → Looks m m'
  | found {unit : Option MetaUnit} {inst : AST} {stack : List Frame} {s : State} :
    Looks ⟨.unitResult unit, .lookupInstantiation inst :: stack, s⟩ (lookupExported stack s unit)
  | enter {function : NodeId} {a : AST} {stack : List Frame} {s : State} :
    s.declaringNode function = some a →
    Looks ⟨.consumeFunctionDecl function [], stack, s⟩
      ⟨.generateFunctionDecl function a.functionReferences, stack, s.enterBody function⟩
  | call {function callee : NodeId} {refs : List Reference} {stack : List Frame} {s : State} :
    Looks ⟨.generateFunctionDecl function (.function callee :: refs), stack, s⟩
      ⟨.generateFunctionDecl function refs, stack,
        (s.lookupGlobal callee).addCallee function callee⟩
  | called {function callee : NodeId} {refs : List Reference} {stack : List Frame} {s : State} :
    Looks ⟨.lookupResult (some callee), .generateFunctionDecl function refs :: stack, s⟩
      ⟨.generateFunctionDecl function refs.tail, stack, s.addCallee function callee⟩
  | leave {function : NodeId} {kept : NodeId → Bool} {stack : List Frame} {s : State} :
    Looks ⟨.generateFunctionDecl function [], stack, s⟩
      ⟨.functionResult (some function), stack, s.leaveBody kept function⟩
  | failed {m : Config} {fault : Fault} {stack : List Frame} {s : State} :
    Looks m ⟨.failed fault, stack, s⟩

section Steps

variable {stack : List Frame} {s : State} {m : Config}

theorem State.SameBodies.refl (s : State) : s.SameBodies s :=
  ⟨⟨.refl s, fun _ hf => hf⟩, fun _ => rfl⟩

theorem State.SameBodies.of_keeps {s s' : State} (h : s.Keeps s')
    (hprototypes : s'.prototypes = s.prototypes) : s.SameBodies s' := by
  refine ⟨⟨h.grows, fun f hf => hprototypes ▸ hf⟩, fun f => ?_⟩
  rw [State.isDeclaration, h.bodies]
  rfl

theorem looks_codegen {index : Nat} (hm : codegen stack s index = some m) :
    Looks ⟨.codegen, stack, s⟩ m := by
  unfold codegen at hm
  split at hm
  · cases hm
    exact .same rfl (.refl s) rfl
  · obtain ⟨dependency, -, hm⟩ := Option.bind_eq_some_iff.1 hm
    dsimp only at hm
    split at hm
    · cases hm
      exact .same rfl (.of_keeps ⟨rfl, rfl, rfl, rfl⟩ rfl) rfl
    · cases hm
      exact .same rfl (.of_keeps ⟨rfl, rfl, rfl, rfl⟩ rfl) rfl

theorem looks_codegenFunctionDecl {decl : NodeId} :
    Looks ⟨.codegenFunctionDecl decl, stack, s⟩ (codegenFunctionDecl stack s decl) := by
  have hsame : s.SameBodies (s.lookupGlobal decl) := ⟨s.extends_lookupGlobal decl, fun _ => rfl⟩
  unfold codegenFunctionDecl
  dsimp only
  split
  · split
    · exact .same rfl hsame rfl
    · exact .failed
  · exact .same rfl hsame rfl

theorem looks_consumeFunctionDecl {decl : NodeId} {insts : List AST} :
    Looks ⟨.consumeFunctionDecl decl insts, stack, s⟩ (consumeFunctionDecl stack s decl insts) := by
  cases insts with
  | cons inst insts => exact .same rfl (.refl s) rfl
  | nil =>
    rw [consumeFunctionDecl, enterFunctionDecl]
    split
    · exact .same rfl (.refl s) rfl
    split
    · exact .failed
    split
    · exact .failed
    split
    next a ha => exact .enter ha
    next => exact .failed

theorem looks_generateFunctionDecl {kept : NodeId → Bool} {decl : NodeId} {refs : List Reference} :
    Looks ⟨.generateFunctionDecl decl refs, stack, s⟩
      (generateFunctionDecl stack s kept decl refs) := by
  rcases refs with _ | ⟨ref, refs⟩
  · exact .leave
  · cases ref with
    | function callee => exact .call
    | instantiation inst => exact .same rfl (.refl s) rfl

theorem looks_instantiate {inst : AST} {requiresCompleted : Bool} :
    Looks ⟨.instantiate inst requiresCompleted, stack, s⟩
      (instantiate stack s inst requiresCompleted) := by
  unfold instantiate
  split
  · exact .same rfl (.refl s) rfl
  split
  · exact .failed
  split
  · split
    · exact .same rfl (.refl s) rfl
    · exact .failed
  · exact .failed

theorem looks_codegenMetaDecl {decl : NodeId} :
    Looks ⟨.codegenMetaDecl decl, stack, s⟩ (codegenMetaDecl stack s decl) := by
  unfold codegenMetaDecl
  split
  · exact .same rfl (.of_keeps ⟨rfl, rfl, rfl, rfl⟩ rfl) rfl
  split
  · exact .same rfl (.refl s) rfl
  · exact .failed

theorem looks_consumeMetaDecl {decl : NodeId} {insts : List AST} :
    Looks ⟨.consumeMetaDecl decl insts, stack, s⟩ (consumeMetaDecl stack s decl insts) := by
  cases insts with
  | cons inst insts => exact .same rfl (.refl s) rfl
  | nil =>
    rw [consumeMetaDecl, enterMetaDecl]
    split
    · exact .same rfl (.refl s) rfl
    split
    · exact .same rfl (.of_keeps ⟨rfl, rfl, rfl, rfl⟩ rfl) rfl
    split
    · exact .same rfl (.of_keeps ⟨rfl, rfl, rfl, rfl⟩ rfl) rfl
    · exact .failed

theorem sameBodies_lookupFromExecutor (s : State) (callee : NodeId) (dependency : Dependency) :
    s.SameBodies (lookupFromExecutor s callee dependency) :=
  .of_keeps (s.keeps_lookupFromExecutor callee dependency)
    (s.sameFunctions_lookupFromExecutor callee dependency).prototypes

theorem looks_generateMetaDecl {decl : NodeId} {refs : List Reference} :
    Looks ⟨.generateMetaDecl decl refs, stack, s⟩ (generateMetaDecl stack s decl refs) := by
  rcases refs with _ | ⟨ref, refs⟩
  · exact .same rfl (.refl s) rfl
  · cases ref with
    | function callee =>
      exact .same rfl (sameBodies_lookupFromExecutor s callee _) rfl
    | instantiation inst => exact .same rfl (.refl s) rfl

theorem looks_generateJumpPad {inst : AST} {refs : List Reference} :
    Looks ⟨.generateJumpPad inst refs, stack, s⟩ (generateJumpPad stack s inst refs) := by
  rcases refs with _ | ⟨ref, refs⟩
  · rw [generateJumpPad]
    split
    · exact .same rfl (.refl s) rfl
    · exact .failed
  · cases ref with
    | function callee =>
      exact .same rfl (sameBodies_lookupFromExecutor s callee _) rfl
    | instantiation arg => exact .same rfl (.refl s) rfl

theorem looks_resolveDependencies {index : Nat} (hm : resolveDependencies stack s index = some m) :
    Looks ⟨.resolveDependencies, stack, s⟩ m := by
  unfold resolveDependencies at hm
  split at hm
  · cases hm
    exact .same rfl (.refl s) rfl
  · obtain ⟨dependency, -, hm⟩ := Option.bind_eq_some_iff.1 hm
    dsimp only at hm
    split at hm
    · split at hm
      · cases hm
        exact .same rfl (.of_keeps ⟨rfl, rfl, rfl, rfl⟩ rfl) rfl
      · cases hm
        exact .failed
    · cases hm
      exact .same rfl (.of_keeps ⟨rfl, rfl, rfl, rfl⟩ rfl) rfl

theorem looks_pull {function : NodeId} :
    Looks ⟨.pull function, stack, s⟩ (pull stack s function) := by
  have hpull (callees : List NodeId) (available : List Symbol) (definition : Definition) :
      s.SameBodies ((callees.foldl
        (fun (s : State) callee => s.requireGlobal callee (.llvmFunction callee))
        { s with availableSymbols := available }).define definition) := by
    have havailable : s.Keeps { s with availableSymbols := available } := ⟨rfl, rfl, rfl, rfl⟩
    have hcallees : (callees.foldl
        (fun (s : State) callee => s.requireGlobal callee (.llvmFunction callee))
        { s with availableSymbols := available }).prototypes = s.prototypes :=
      (State.sameFunctions_requireGlobals _ callees).prototypes
    exact .of_keeps (havailable.trans ((State.keeps_requireGlobals _ callees).trans
      ⟨rfl, rfl, rfl, rfl⟩)) hcallees
  unfold pull
  split
  · exact .failed
  all_goals
    split
    · exact .failed
    split
    · exact .failed
    · exact .same rfl (hpull _ _ _) rfl

theorem looks_invoke {unit : Option MetaUnit} {inst : AST} :
    Looks ⟨.invoke inst, stack, s⟩ (invoke stack s unit inst) := by
  unfold invoke
  split
  · exact .same rfl ⟨⟨⟨rfl, List.prefix_refl _, fun _ => rfl, fun _ => id⟩, fun _ hf => hf⟩,
      fun _ => rfl⟩ rfl
  split
  · exact .same rfl (.refl s) rfl
  split
  · exact .failed
  · exact .same rfl ⟨⟨⟨rfl, List.prefix_append _ _, id, fun _ => id⟩, fun _ hf => hf⟩,
      fun _ => rfl⟩ rfl

theorem looks_returnFunction {function : Option NodeId}
    (hm : returnFunction s function stack = some m) :
    Looks ⟨.functionResult function, stack, s⟩ m := by
  unfold returnFunction at hm
  split at hm
  · split at hm
    · cases hm
      exact .same rfl (.refl s) rfl
    · cases hm
      exact .same rfl (.refl s) rfl
  · split at hm
    · cases hm
      exact .same rfl (.refl s) rfl
    · cases hm
      exact .same rfl (.refl s) rfl
  · cases hm

theorem looks_returnUnit {unit : Option MetaUnit} (hm : returnUnit s unit stack = some m) :
    Looks ⟨.unitResult unit, stack, s⟩ m := by
  unfold returnUnit at hm
  split at hm
  · cases hm
    exact .found
  · cases hm
    exact .same rfl (.refl s) rfl
  · cases hm

theorem looks_returnLookup {function : Option NodeId}
    (hm : returnLookup s function stack = some m) :
    Looks ⟨.lookupResult function, stack, s⟩ m := by
  unfold returnLookup at hm
  split at hm
  · cases hm
    exact .same rfl (.refl s) rfl
  · split at hm
    · cases hm
      exact .called
    · cases hm
      exact .failed
  · split at hm
    · cases hm
      exact .same rfl (sameBodies_lookupFromExecutor s _ _) rfl
    · cases hm
      exact .failed
  · split at hm
    · cases hm
      exact .same rfl (sameBodies_lookupFromExecutor s _ _) rfl
    · cases hm
      exact .failed
  · cases hm

theorem looks_returnMetaFunction {metaFunction : Option NodeId}
    (hm : returnMetaFunction s metaFunction stack = some m) :
    Looks ⟨.metaFunctionResult metaFunction, stack, s⟩ m := by
  unfold returnMetaFunction at hm
  split at hm
  · split at hm
    · cases hm
      exact .same rfl (.of_keeps ⟨rfl, rfl, rfl, rfl⟩ rfl) rfl
    · cases hm
      exact .same rfl (.refl s) rfl
  · cases hm

theorem looks_returnResolved {success : Bool} (hm : returnResolved s success stack = some m) :
    Looks ⟨.resolved success, stack, s⟩ m := by
  unfold returnResolved at hm
  split at hm
  · split at hm
    · split at hm
      · cases hm
        exact .same rfl (.of_keeps ⟨rfl, rfl, rfl, rfl⟩ rfl) rfl
      · cases hm
        exact .failed
    · cases hm
      exact .same rfl (.refl s) rfl
  · cases hm

/-- Every step is one of these. -/
theorem step_looks {choice : Choice} {m m' : Config} (hm : step choice m = some m') :
    Looks m m' := by
  obtain ⟨control, stack, s⟩ := m
  cases control with
  | codegen => exact looks_codegen hm
  | codegenFunctionDecl decl =>
    cases hm
    exact looks_codegenFunctionDecl
  | consumeFunctionDecl decl insts =>
    cases hm
    exact looks_consumeFunctionDecl
  | generateFunctionDecl decl refs =>
    cases hm
    exact looks_generateFunctionDecl
  | functionResult function => exact looks_returnFunction hm
  | lookupInstantiation inst requiresCompleted =>
    cases hm
    exact .same rfl (.refl s) rfl
  | lookupResult function => exact looks_returnLookup hm
  | instantiate inst requiresCompleted =>
    cases hm
    exact looks_instantiate
  | unitResult unit => exact looks_returnUnit hm
  | codegenMetaDecl decl =>
    cases hm
    exact looks_codegenMetaDecl
  | consumeMetaDecl decl insts =>
    cases hm
    exact looks_consumeMetaDecl
  | generateMetaDecl decl refs =>
    cases hm
    exact looks_generateMetaDecl
  | metaFunctionResult metaFunction => exact looks_returnMetaFunction hm
  | generateJumpPad inst refs =>
    cases hm
    exact looks_generateJumpPad
  | resolveDependencies => exact looks_resolveDependencies hm
  | pull function =>
    cases hm
    exact looks_pull
  | resolved success => exact looks_returnResolved hm
  | invoke inst =>
    cases hm
    exact looks_invoke
  | finished success => cases hm
  | failed fault => cases hm

end Steps

/-! ## The references of the bodies -/

/-- The reference of the body is still to be looked up. -/
def Config.Pending (m : Config) (function : NodeId) (ref : Reference) : Prop :=
  ∃ refs, (function, refs) ∈ m.generating ∧ ref ∈ refs

/-- What every configuration keeps of the references of the bodies. -/
structure Linked (m : Config) : Prop where
  bodies : ∀ f, m.state.isDeclaration f = false → ∃ a, m.state.declaringNode f = some a ∧
    ∀ ref ∈ a.functionReferences, m.state.Resolves ref ∨ m.Pending f ref
  found : ∀ function, m.control = .lookupResult function →
    ∃ inst, m.stack.head?.bind Frame.awaited = some inst ∧
      (function.isSome = true → m.state.Resolves (.instantiation inst))

namespace Linked

variable {m m' : Config} {stack : List Frame} {s : State} {function : NodeId}

/-- The bodies that there were keep their references. -/
theorem bodies_of (h : Linked m) (hextends : m.state.Extends m'.state)
    (hpending : ∀ f ref, m.Pending f ref → m'.state.Resolves ref ∨ m'.Pending f ref) {f : NodeId}
    (hf : m.state.isDeclaration f = false) : ∃ a, m'.state.declaringNode f = some a ∧
      ∀ ref ∈ a.functionReferences, m'.state.Resolves ref ∨ m'.Pending f ref := by
  obtain ⟨a, ha, hrefs⟩ := h.bodies f hf
  refine ⟨a, hextends.grows.declaringNode ha, fun ref href => ?_⟩
  rcases hrefs ref href with hresolved | hpends
  · exact .inl (hextends.resolves hresolved)
  · exact hpending f ref hpends

theorem pending_cons {refs : List Reference} {f : NodeId} {ref : Reference} :
    Config.Pending ⟨.generateFunctionDecl function refs, stack, s⟩ f ref ↔
      (f = function ∧ ref ∈ refs) ∨
        ∃ refs', (f, refs') ∈ stack.flatMap Frame.generating ∧ ref ∈ refs' := by
  constructor
  · rintro ⟨refs', hmem, href⟩
    rcases List.mem_cons.1 hmem with heq | hmem
    · cases heq
      exact .inl ⟨rfl, href⟩
    · exact .inr ⟨refs', hmem, href⟩
  · rintro (⟨rfl, href⟩ | ⟨refs', hmem, href⟩)
    · exact ⟨refs, List.mem_cons_self, href⟩
    · exact ⟨refs', List.mem_cons_of_mem _ hmem, href⟩

/-- Where no method of the function is generated, what is pending is pending on the stack. -/
theorem pending_iff {control : Control} (hcontrol : control.isGenerating = false) {f : NodeId}
    {ref : Reference} :
    Config.Pending ⟨control, stack, s⟩ f ref ↔
      ∃ refs, (f, refs) ∈ stack.flatMap Frame.generating ∧ ref ∈ refs := by
  have hnone : control.generating = [] := by
    cases control with
    | generateFunctionDecl decl refs => exact Bool.noConfusion hcontrol
    | _ => rfl
  rw [Config.Pending, Config.generating, hnone]
  rfl

/-- What an instantiation is looked up to. -/
theorem lookupExported {unit : Option MetaUnit} {inst : AST}
    (h : Linked ⟨.unitResult unit, .lookupInstantiation inst :: stack, s⟩)
    (hinv : Inv (.unitResult unit) (.lookupInstantiation inst :: stack) s) :
    (∃ fault, (lookupExported stack s unit).control = .failed fault) ∨
      Linked (lookupExported stack s unit) := by
  have hawaited : stack.head?.bind Frame.awaited = some inst := hinv.chained.1 inst rfl
  -- The new configuration, once the result resolves the instantiation.
  have hresult {result : Option NodeId} {s' : State} (hsame : s.SameBodies s')
      (hresolves : result.isSome = true → s'.Resolves (.instantiation inst)) :
      Linked ⟨.lookupResult result, stack, s'⟩ := by
    refine ⟨fun f hf => ?_, fun function hfunction => ⟨inst, hawaited, fun hsome => hresolves ?_⟩⟩
    · have hf' : s.isDeclaration f = false := (hsame.2 f).symm.trans hf
      refine h.bodies_of hsame.1 (fun g ref hpends => .inr ?_) hf'
      obtain ⟨refs, hmem, href⟩ := hpends
      exact ⟨refs, hmem, href⟩
    · cases hfunction
      exact hsome
  unfold CodegenInstance.lookupExported
  split
  · refine .inr (hresult (.refl s) fun hsome => ?_)
    cases hsome
  next unit =>
    split
    · refine .inr (hresult ⟨⟨⟨rfl, List.prefix_refl _, fun _ => rfl, fun _ => id⟩, fun _ hf => hf⟩,
        fun _ => rfl⟩ fun hsome => ?_)
      cases hsome
    next exported hexported =>
      split
      · refine .inr (hresult ⟨s.extends_lookupGlobal _, fun _ => rfl⟩ fun _ => ?_)
        exact ⟨unit, exported, hinv.sound inst rfl, hexported, List.mem_insert_self⟩
      · exact .inl ⟨_, rfl⟩

/-- The body of a function is entered. -/
theorem enter {a : AST} (h : Linked ⟨.consumeFunctionDecl function [], stack, s⟩)
    (ha : s.declaringNode function = some a) :
    Linked ⟨.generateFunctionDecl function a.functionReferences, stack, s.enterBody function⟩ := by
  have hextends : s.Extends (s.enterBody function) :=
    ⟨s.grows_updateBody function _ (fun _ => rfl) _, fun _ hf => hf⟩
  refine ⟨fun f hf => ?_, fun g hg => by cases hg⟩
  by_cases hne : f = function
  · subst hne
    exact ⟨a, hextends.grows.declaringNode ha,
      fun ref href => .inr (pending_cons.2 (.inl ⟨rfl, href⟩))⟩
  · refine h.bodies_of hextends (fun g ref hpends => .inr (pending_cons.2 (.inr ?_))) ?_
    · exact (pending_iff rfl).1 hpends
    · change s.isDeclaration f = false
      simpa [State.enterBody, State.isDeclaration, Function.update_of_ne hne] using hf

/-- The next reference of the body is resolved. -/
theorem next {control : Control} {stack' : List Frame} {refs refs' : List Reference} {s' : State}
    (h : Linked ⟨control, stack', s⟩)
    (hpending : ∀ f ref, Config.Pending ⟨control, stack', s⟩ f ref →
      Config.Pending ⟨.generateFunctionDecl function refs, stack, s⟩ f ref)
    (hextends : s.Extends s') (hbodies : ∀ f, s'.isDeclaration f = s.isDeclaration f)
    (hrefs : ∀ ref ∈ refs, s'.Resolves ref ∨ ref ∈ refs') :
    Linked ⟨.generateFunctionDecl function refs', stack, s'⟩ := by
  refine ⟨fun f hf => h.bodies_of hextends (fun g ref hpends => ?_) ?_, fun g hg => by cases hg⟩
  · rcases pending_cons.1 (hpending g ref hpends) with ⟨rfl, href⟩ | hstack
    · rcases hrefs ref href with hresolved | href
      · exact .inl hresolved
      · exact .inr (pending_cons.2 (.inl ⟨rfl, href⟩))
    · exact .inr (pending_cons.2 (.inr hstack))
  · rwa [← hbodies]

/-- The body is left. -/
theorem leave {kept : NodeId → Bool} (h : Linked ⟨.generateFunctionDecl function [], stack, s⟩) :
    Linked ⟨.functionResult (some function), stack, s.leaveBody kept function⟩ := by
  have hbodies (f : NodeId) : (s.leaveBody kept function).isDeclaration f = s.isDeclaration f := by
    by_cases hne : f = function
    · subst hne
      simp [State.leaveBody, State.isDeclaration]
    · simp [State.leaveBody, State.isDeclaration, Function.update_of_ne hne]
  have hextends : s.Extends (s.leaveBody kept function) :=
    ⟨⟨rfl, List.prefix_refl _, id, fun g hg => by rwa [hbodies]⟩, fun _ hf => hf⟩
  refine ⟨fun f hf => h.bodies_of hextends (fun g ref hpends => ?_) ?_, fun g hg => by cases hg⟩
  · rcases pending_cons.1 hpends with ⟨-, href⟩ | hstack
    · exact absurd href List.not_mem_nil
    · exact .inr ((pending_iff rfl).2 hstack)
  · rwa [hbodies] at hf

/-- A step keeps the references, unless a fault ends the run. -/
theorem step (h : Linked m) (hsound : m.Sound) {choice : Choice}
    (hm : CodegenInstance.step choice m = some m') :
    (∃ fault, m'.control = .failed fault) ∨ Linked m' := by
  cases step_looks hm with
  | same hgenerating hsame hcontrol =>
    refine .inr ⟨fun f hf => h.bodies_of hsame.1 (fun g ref hpends => .inr ?_) ?_, ?_⟩
    · rwa [Config.Pending, hgenerating]
    · rwa [← hsame.2]
    · intro function hfunction
      rw [hfunction] at hcontrol
      exact Bool.noConfusion hcontrol
  | found =>
    rcases hsound with ⟨fault, hfault⟩ | hinv
    · cases hfault
    · exact h.lookupExported hinv
  | enter ha => exact .inr (h.enter ha)
  | @call function callee refs stack s =>
    have hextends : s.Extends ((s.lookupGlobal callee).addCallee function callee) :=
      (s.extends_lookupGlobal callee).trans (State.extends_addCallee _ function callee)
    refine .inr (h.next (fun _ _ hpends => hpends) hextends
      (State.isDeclaration_addCallee _ function callee) fun ref href => ?_)
    rcases List.mem_cons.1 href with rfl | href
    · exact .inl List.mem_insert_self
    · exact .inr href
  | @called function callee refs stack s =>
    obtain ⟨inst, hawaited, hresolves⟩ := h.found _ rfl
    refine .inr (h.next (fun _ _ hpends => hpends) (s.extends_addCallee function callee)
      (s.isDeclaration_addCallee function callee) fun ref href => ?_)
    rcases refs with _ | ⟨⟨f⟩ | ⟨i⟩, refs⟩
    · cases hawaited
    · cases hawaited
    · obtain rfl : i = inst := Option.some.inj hawaited
      rcases List.mem_cons.1 href with rfl | href
      · exact .inl ((s.extends_addCallee function callee).resolves (hresolves rfl))
      · exact .inr href
  | leave => exact .inr h.leave
  | failed => exact .inl ⟨_, rfl⟩

end Linked

/-! ## Runs -/

/-- Every configuration of a run keeps the references, unless a fault ended it. -/
theorem Reachable.linked {reads : Reads} {a : AST} {m : Config} (h : Reachable reads a m) :
    (∃ fault, m.control = .failed fault) ∨ Linked m := by
  induction h with
  | refl =>
    refine .inr ⟨fun f hf => ?_, fun f hf => ?_⟩
    · cases hf
    · cases hf
  | @tail m₁ m₂ hsteps hstep ih =>
    obtain ⟨choice, -, hm⟩ := hstep
    rcases ih with ⟨fault, hfault⟩ | hlinked
    · obtain ⟨control, stack, s⟩ := m₁
      obtain rfl : control = .failed fault := hfault
      cases hm
    · exact hlinked.step (Reachable.sound hsteps) hm

/-- The functions of the module. -/
def State.hasBody (s : State) (function : NodeId) : Bool := !s.isDeclaration function

/-- The functions of the module, and how they are executed. -/
def State.functions (s : State) (uninitialized : NodeId → Word) :
    Procedures Activation NodeId (List Word) (Option Word) :=
  linkedFunctions s.irContext s.hasBody uninitialized

/-- At the end of a successful run the references of every function are looked up to functions with
a body. -/
theorem looksUp_of_finished {reads : Reads} {a : AST} {m : Config} (h : Reachable reads a m)
    (hfinished : m.control = .finished true) {f : NodeId} {body : AST}
    (hf : m.state.hasBody f = true) (hbody : m.state.declaringNode f = some body) :
    m.state.irContext.LooksUpIn (m.state.hasBody · = true) body.functionReferences := by
  rcases h.linked with ⟨fault, hfault⟩ | hlinked
  · cases hfinished.symm.trans hfault
  obtain ⟨body', hbody', hrefs⟩ := hlinked.bodies f (by simpa [State.hasBody] using hf)
  obtain rfl : body = body' := Option.some.inj (hbody.symm.trans hbody')
  intro ref href function type hlookup
  have hresolved : m.state.Resolves ref := by
    refine (hrefs ref href).resolve_right ?_
    rintro ⟨refs, hmem, -⟩
    rcases h.sound with ⟨fault, hfault⟩ | hinv
    · cases hfinished.symm.trans hfault
    have hquiet : Quiet m.stack := by
      refine hinv.disciplined.quiet_of ?_
      rw [hfinished]
      rfl
    rw [Config.generating, hfinished] at hmem
    obtain ⟨frame, hframe, hmem⟩ := List.mem_flatMap.1 hmem
    cases frame with
    | generateFunctionDecl g refs => exact Bool.noConfusion (hquiet _ hframe)
    | _ => cases hmem
  have hprototype : m.state.Declares function :=
    .inl (State.mem_prototypes_of_lookup hresolved hlookup)
  obtain ⟨callees, hcallees, -⟩ := (codegen_complete h).1 hfinished function hprototype
  simp [State.hasBody, State.isDeclaration, hcallees]

/-- At the end of a successful run, if no fault stopped the code of a function, the functions of the
module can be executed: they never get stuck, however they call each other, and they return exactly
what they mean to the interpreter. -/
theorem codegen_links {reads : Reads} {a : AST} {m : Config} (h : Reachable reads a m)
    (hfinished : m.control = .finished true)
    (hgenerated : ∀ f, m.state.hasBody f = true → (m.state.irContext.generated f).isSome = true)
    {function : NodeId} (hfunction : m.state.Declares function) (uninitialized : NodeId → Word)
    (arguments : List Word) :
    ∃ s, (m.state.functions uninitialized).enter function arguments = some s ∧
      (∀ c, Reaches (m.state.functions uninitialized).linked (s, []) c →
        (m.state.functions uninitialized).linked c ≠ .stuck) ∧
      ∀ result, Halts (m.state.functions uninitialized).linked (s, []) result ↔
        Means m.state.irContext m.state.hasBody uninitialized function arguments result := by
  have hbody : m.state.hasBody function = true := by
    obtain ⟨callees, hcallees, -⟩ := (codegen_complete h).1 hfinished function hfunction
    simp [State.hasBody, State.isDeclaration, hcallees]
  obtain ⟨code, hcode⟩ := Option.isSome_iff_exists.1 (hgenerated function hbody)
  have henter : (m.state.functions uninitialized).enter function arguments =
      some (.ofPoint code arguments (⟨0, 0⟩, .start ⟨uninitialized, 0⟩)) :=
    enter_eq_some.2 ⟨hbody, code, hcode, rfl⟩
  refine ⟨_, henter, fun c hreach => ?_, fun result => ?_⟩
  · refine linkedFunctions_ne_stuck hgenerated (fun f b hf hb => ?_) henter hreach
    exact looksUp_of_finished h hfinished hf hb
  · rw [← linked_returns_iff_means hgenerated]
    constructor
    · intro hhalts
      exact ⟨_, henter, hhalts⟩
    · rintro ⟨s, hs, hhalts⟩
      rw [Option.some.inj (henter.symm.trans hs)]
      exact hhalts

/-! ## A module with an instantiation -/

namespace ExportedCall

/-- `m<>`. -/
def inst : AST :=
  .node { node := ⟨12, .metaInstantiationExpr⟩ }
    [.node { node := ⟨13, .declRefExpr "m"⟩, decl := some ⟨1, .metaDecl "m"⟩ } []]

/-- `int -> { return expr; }`. -/
def returning (id : NodeId) (expr : AST) : List AST :=
  [.node { node := ⟨id, .anonymousArgumentDecl⟩ } [],
    .node { node := ⟨id + 1, .compoundStmt⟩ } [.node { node := ⟨id + 2, .returnStmt⟩ } [expr]]]

/-- `m<> -> { m() int -> { return 3; } }`. -/
def m : AST :=
  .node { node := ⟨1, .metaDecl "m"⟩ }
    [.node { node := ⟨2, .argumentDeclList⟩ } [],
      .node { node := ⟨3, .metaContribution⟩ }
        [.node { node := ⟨4, .functionDecl "m"⟩ }
          (.node { node := ⟨5, .argumentDeclList⟩ } [] ::
            returning 30 (.node { node := ⟨6, .integerLiteralExpr 3⟩ } []))]]

/-- `f() int -> { return m<>() + 1; }`. -/
def f : AST :=
  .node { node := ⟨7, .functionDecl "f"⟩ }
    (.node { node := ⟨8, .argumentDeclList⟩ } [] ::
      returning 40 (.node { node := ⟨9, .binaryOperatorExpr .plus⟩ }
        [.node { node := ⟨10, .callOperatorExpr⟩ } [inst],
          .node { node := ⟨11, .integerLiteralExpr 1⟩ } []]))

/-- The program. -/
def program : AST := .node { node := ⟨0, .compilationUnit⟩ } [m, f]

/-- The unit of `m<>`. -/
def unit : MetaUnit where
  ast := .node { node := ⟨20, .metaUnit ⟨12, "m", some (1, .metaDecl)⟩⟩ }
    [.node { node := ⟨21, .functionDecl "m"⟩ }
      (.node { node := ⟨22, .argumentDeclList⟩ } [] ::
        returning 50 (.node { node := ⟨23, .integerLiteralExpr 3⟩ } []))]
  exportedNode := some ⟨21, .functionDecl "m"⟩

/-- The run up to where the jump pad of `m<>` is invoked. -/
def invoking : Config :=
  (run ({ index := 1 } :: List.replicate 11 {}) (start program)).getD (start program)

/-- The unit was read. -/
def instantiated : Config := (step { unit := some unit } invoking).getD invoking

/-- The end of the run. -/
def generated : Config := (run (List.replicate 23 {}) instantiated).getD instantiated

theorem reachable : Reachable (fun _ _ _ => True) program generated := by
  have hrun : run ({ index := 1 } :: List.replicate 11 {}) (start program) = some invoking := by rfl
  have hinvoking : Reachable (fun _ _ _ => True) program invoking := Reachable.run .refl hrun
  have hinstantiated : Reachable (fun _ _ _ => True) program instantiated :=
    hinvoking.tail ⟨{ unit := some unit }, fun _ _ => trivial, by rfl⟩
  have hrun' : run (List.replicate 23 {}) instantiated = some generated := by rfl
  exact hinstantiated.run hrun'

theorem finished : generated.control = .finished true := by rfl

theorem declarations : (generated.state.compilationUnit.children ++
    generated.state.instantiations.flatMap fun entry => entry.2.ast.children).map
      (fun c => c.label.node.id) = [1, 7, 21] := by rfl

/-- No fault stops the code of the functions. -/
theorem isSome_generated {function : NodeId} (h : generated.state.hasBody function = true) :
    (generated.state.irContext.generated function).isSome = true := by
  have hid : function ∈ [1, 7, 21] := by
    rcases reachable.linked with ⟨fault, hfault⟩ | hlinked
    · cases finished.symm.trans hfault
    obtain ⟨c, hc, -⟩ := hlinked.bodies function (by simpa [State.hasBody] using h)
    have hlabel : c.label.node.id = function := by simpa using List.find?_some hc
    rw [← declarations, ← hlabel]
    exact List.mem_map_of_mem (List.mem_of_find?_eq_some hc)
  rcases List.mem_cons.1 hid with rfl | hid
  · exact absurd h (by decide +kernel)
  rcases List.mem_cons.1 hid with rfl | hid
  · decide +kernel
  · rw [List.mem_singleton.1 hid]
    decide +kernel

end ExportedCall

/-- `m<> -> { m() int -> { return 3; } } f() int -> { return m<>() + 1; }`, where `f()` is `4`. -/
theorem codegen_links_export :
    ∃ (a : AST) (m : Config), Reachable (fun _ _ _ => True) a m ∧ m.control = .finished true ∧
      ∃ s, (m.state.functions fun _ => 0).enter 7 [] = some s ∧
        (∀ c, Reaches (m.state.functions fun _ => 0).linked (s, []) c →
          (m.state.functions fun _ => 0).linked c ≠ .stuck) ∧
        Means m.state.irContext m.state.hasBody (fun _ => 0) 7 [] (some 4) := by
  obtain ⟨s, henter, hstuck, hmeans⟩ := codegen_links ExportedCall.reachable ExportedCall.finished
    (fun _ hf => ExportedCall.isSome_generated hf)
    (.inl (by decide +kernel) : ExportedCall.generated.state.Declares 7) (fun _ => 0) []
  refine ⟨_, _, ExportedCall.reachable, ExportedCall.finished, s, henter, hstuck,
    (hmeans (some 4)).1 ?_⟩
  obtain ⟨s', hs', hhalts⟩ := Procedures.linkedReturns_iff_execute.2
    (⟨40, by decide +kernel⟩ : ∃ fuel,
      (ExportedCall.generated.state.functions fun _ => 0).execute fuel 7 [] = some (some 4))
  rwa [Option.some.inj (henter.symm.trans hs')]

end CodegenInstance

end Swy
