import Swy.Codegen.PreInstantiation

/-!
# The complete module

What a step does to the functions of the amalgamation (`Change`). A function that is declared and
has no body is pending in the worklist of the unit, or it is the one that is generated next. At the
end of a successful run the worklist is drained, so that every prototype has a body
(`codegen_complete`).
-/

namespace Swy

open Library

namespace CodegenInstance

namespace State

/-- The function is a prototype, or a top level function of the compilation unit. -/
def Declares (s : State) (function : NodeId) : Prop :=
  function ∈ s.prototypes ∨
    ∃ c ∈ s.compilationUnit.children, c.label.node.id = function ∧ AST.kind c = .functionDecl

/-- The functions of the amalgamation are not touched. -/
structure SameFunctions (s s' : State) : Prop where
  compilationUnit : s'.compilationUnit = s.compilationUnit
  prototypes : s'.prototypes = s.prototypes
  dependencies : s'.dependencies = s.dependencies
  bodies : s'.bodies = s.bodies

variable {s s' s'' : State}

theorem SameFunctions.refl (s : State) : s.SameFunctions s := ⟨rfl, rfl, rfl, rfl⟩

theorem SameFunctions.trans (h : s.SameFunctions s') (h' : s'.SameFunctions s'') :
    s.SameFunctions s'' :=
  ⟨h'.compilationUnit.trans h.compilationUnit, h'.prototypes.trans h.prototypes,
    h'.dependencies.trans h.dependencies, h'.bodies.trans h.bodies⟩

theorem sameFunctions_requireGlobal (s : State) (callee : NodeId) (dependency : Dependency) :
    s.SameFunctions (s.requireGlobal callee dependency) := by
  unfold requireGlobal
  split
  · exact .refl s
  · exact ⟨rfl, rfl, rfl, rfl⟩

theorem sameFunctions_lookupFromExecutor (s : State) (callee : NodeId) (dependency : Dependency) :
    s.SameFunctions (lookupFromExecutor s callee dependency) :=
  (s.sameFunctions_requireGlobal callee dependency).trans ⟨rfl, rfl, rfl, rfl⟩

theorem sameFunctions_requireGlobals (s : State) (callees : List NodeId) :
    s.SameFunctions
      (callees.foldl (fun s callee => s.requireGlobal callee (.llvmFunction callee)) s) := by
  induction callees generalizing s with
  | nil => exact .refl s
  | cons callee callees ih => exact (s.sameFunctions_requireGlobal _ _).trans (ih _)

end State

/-! ## What a step does to the functions -/

/-- The method does not start with the lookup of a function. -/
def Control.isPlain : Control → Bool
  | codegenFunctionDecl _ => false
  | _ => true

/-- Neither a function is looked up or found in front of the method, nor is the run finished. -/
def Control.isInner : Control → Bool
  | codegenFunctionDecl _ | lookupResult (some _) | finished true => false
  | _ => true

/-- The body of a function is entered. -/
def State.enterBody (function : NodeId) (s : State) : State :=
  { s with
    currentGeneration := s.currentGeneration.insert function
    bodies := Function.update s.bodies function (some (.entered [])) }

/-- The body of a function is left. -/
def State.leaveBody (kept : NodeId → Bool) (function : NodeId) (s : State) : State :=
  { s with
    currentGeneration := s.currentGeneration.erase function
    bodies := Function.update s.bodies function ((s.bodies function).map (.finish kept)) }

/-- What a step does to the functions of the amalgamation. -/
inductive Change : Config → Config → Prop
  | keep {control control' : Control} {stack stack' : List Frame} {s s' : State} :
    control.isPlain = true → control'.isInner = true → control'.isGenerating = false →
    s.SameFunctions s' →
    Change ⟨control, stack, s⟩ ⟨control', stack', s'⟩
  | drained {stack stack' : List Frame} {s : State} :
    s.dependencies = [] → Change ⟨.codegen, stack, s⟩ ⟨.finished true, stack', s⟩
  | skip {dependency : NodeId × ASTKind} {stack stack' : List Frame} {s : State} :
    dependency.2 ≠ .functionDecl →
    Change ⟨.codegen, stack, s⟩
      ⟨.codegen, stack', { s with dependencies := s.dependencies.erase dependency }⟩
  | take {function : NodeId} {stack stack' : List Frame} {s : State} :
    Change ⟨.codegen, stack, s⟩ ⟨.codegenFunctionDecl function, stack',
      { s with dependencies := s.dependencies.erase (function, .functionDecl) }⟩
  | resolve {function : NodeId} {stack stack' : List Frame} {s s' : State} :
    s.SameFunctions s' →
    Change ⟨.resolveDependencies, stack, s⟩ ⟨.codegenFunctionDecl function, stack', s'⟩
  | declare {function : NodeId} {control' : Control} {stack stack' : List Frame} {s : State} :
    control'.isInner = true →
    Change ⟨.codegenFunctionDecl function, stack, s⟩ ⟨control', stack', s.lookupGlobal function⟩
  | found {unit : Option MetaUnit} {function : NodeId} {stack stack' : List Frame} {s : State} :
    Change ⟨.unitResult unit, stack, s⟩
      ⟨.lookupResult (some function), stack', s.lookupGlobal function⟩
  | enter {function : NodeId} {refs : List Reference} {stack stack' : List Frame} {s : State} :
    s.isDeclaration function = true →
    Change ⟨.consumeFunctionDecl function [], stack, s⟩
      ⟨.generateFunctionDecl function refs, stack', s.enterBody function⟩
  | call {function callee : NodeId} {refs refs' : List Reference} {stack stack' : List Frame}
    {s : State} :
    Change ⟨.generateFunctionDecl function refs, stack, s⟩
      ⟨.generateFunctionDecl function refs', stack',
        (s.lookupGlobal callee).addCallee function callee⟩
  | called {function callee : NodeId} {refs : List Reference} {stack stack' : List Frame}
    {s : State} :
    Change ⟨.lookupResult (some callee), stack, s⟩
      ⟨.generateFunctionDecl function refs, stack', s.addCallee function callee⟩
  | leave {function : NodeId} {kept : NodeId → Bool} {stack stack' : List Frame} {s : State} :
    Change ⟨.generateFunctionDecl function [], stack, s⟩
      ⟨.functionResult (some function), stack', s.leaveBody kept function⟩

section Steps

variable {stack : List Frame} {s : State} {m : Config}

theorem change_codegen {index : Nat} (hm : codegen stack s index = some m) :
    Change ⟨.codegen, stack, s⟩ m := by
  unfold codegen at hm
  split at hm
  · rename_i hdrained
    cases hm
    exact .drained hdrained
  · obtain ⟨dependency, -, hm⟩ := Option.bind_eq_some_iff.1 hm
    dsimp only at hm
    split at hm
    · cases hm
      exact .take
    · rename_i hkind
      cases hm
      refine .skip fun hk => ?_
      obtain ⟨decl, kind⟩ := dependency
      obtain rfl : kind = .functionDecl := hk
      exact hkind decl rfl

theorem change_codegenFunctionDecl {decl : NodeId} :
    Change ⟨.codegenFunctionDecl decl, stack, s⟩ (codegenFunctionDecl stack s decl) := by
  unfold codegenFunctionDecl
  dsimp only
  split
  · split
    · exact .declare rfl
    · exact .declare rfl
  · exact .declare rfl

theorem change_consumeFunctionDecl {decl : NodeId} {insts : List AST} :
    Change ⟨.consumeFunctionDecl decl insts, stack, s⟩
      (consumeFunctionDecl stack s decl insts) := by
  cases insts with
  | cons inst insts => exact .keep rfl rfl rfl (.refl s)
  | nil =>
    rw [consumeFunctionDecl, enterFunctionDecl]
    split
    · exact .keep rfl rfl rfl (.refl s)
    split
    · exact .keep rfl rfl rfl (.refl s)
    split
    · exact .keep rfl rfl rfl (.refl s)
    rename_i hdeclaration
    split
    · exact .enter (by simpa using hdeclaration)
    · exact .keep rfl rfl rfl (.refl s)

theorem change_generateFunctionDecl {kept : NodeId → Bool} {decl : NodeId} {refs : List Reference} :
    Change ⟨.generateFunctionDecl decl refs, stack, s⟩
      (generateFunctionDecl stack s kept decl refs) := by
  rcases refs with _ | ⟨ref, refs⟩
  · exact .leave
  · cases ref with
    | function callee => exact .call
    | instantiation inst => exact .keep rfl rfl rfl (.refl s)

theorem change_instantiate {inst : AST} {requiresCompleted : Bool} :
    Change ⟨.instantiate inst requiresCompleted, stack, s⟩
      (instantiate stack s inst requiresCompleted) := by
  unfold instantiate
  split
  · exact .keep rfl rfl rfl (.refl s)
  split
  · exact .keep rfl rfl rfl (.refl s)
  split
  · split
    · exact .keep rfl rfl rfl (.refl s)
    · exact .keep rfl rfl rfl (.refl s)
  · exact .keep rfl rfl rfl (.refl s)

theorem change_codegenMetaDecl {decl : NodeId} :
    Change ⟨.codegenMetaDecl decl, stack, s⟩ (codegenMetaDecl stack s decl) := by
  unfold codegenMetaDecl
  split
  · exact .keep rfl rfl rfl ⟨rfl, rfl, rfl, rfl⟩
  split
  · exact .keep rfl rfl rfl (.refl s)
  · exact .keep rfl rfl rfl (.refl s)

theorem change_consumeMetaDecl {decl : NodeId} {insts : List AST} :
    Change ⟨.consumeMetaDecl decl insts, stack, s⟩ (consumeMetaDecl stack s decl insts) := by
  cases insts with
  | cons inst insts => exact .keep rfl rfl rfl (.refl s)
  | nil =>
    rw [consumeMetaDecl, enterMetaDecl]
    split
    · exact .keep rfl rfl rfl (.refl s)
    split
    · exact .keep rfl rfl rfl ⟨rfl, rfl, rfl, rfl⟩
    split
    · exact .keep rfl rfl rfl ⟨rfl, rfl, rfl, rfl⟩
    · exact .keep rfl rfl rfl (.refl s)

theorem change_generateMetaDecl {decl : NodeId} {refs : List Reference} :
    Change ⟨.generateMetaDecl decl refs, stack, s⟩ (generateMetaDecl stack s decl refs) := by
  rcases refs with _ | ⟨ref, refs⟩
  · exact .keep rfl rfl rfl (.refl s)
  · cases ref with
    | function callee => exact .keep rfl rfl rfl (s.sameFunctions_lookupFromExecutor callee _)
    | instantiation inst => exact .keep rfl rfl rfl (.refl s)

theorem change_generateJumpPad {inst : AST} {refs : List Reference} :
    Change ⟨.generateJumpPad inst refs, stack, s⟩ (generateJumpPad stack s inst refs) := by
  rcases refs with _ | ⟨ref, refs⟩
  · rw [generateJumpPad]
    split
    · exact .keep rfl rfl rfl (.refl s)
    · exact .keep rfl rfl rfl (.refl s)
  · cases ref with
    | function callee => exact .keep rfl rfl rfl (s.sameFunctions_lookupFromExecutor callee _)
    | instantiation arg => exact .keep rfl rfl rfl (.refl s)

theorem change_resolveDependencies {index : Nat} (hm : resolveDependencies stack s index = some m) :
    Change ⟨.resolveDependencies, stack, s⟩ m := by
  unfold resolveDependencies at hm
  split at hm
  · cases hm
    exact .keep rfl rfl rfl (.refl s)
  · obtain ⟨dependency, -, hm⟩ := Option.bind_eq_some_iff.1 hm
    dsimp only at hm
    split at hm
    · split at hm
      · cases hm
        exact .resolve ⟨rfl, rfl, rfl, rfl⟩
      · cases hm
        exact .keep rfl rfl rfl ⟨rfl, rfl, rfl, rfl⟩
    · cases hm
      exact .resolve ⟨rfl, rfl, rfl, rfl⟩

theorem change_pull {function : NodeId} :
    Change ⟨.pull function, stack, s⟩ (pull stack s function) := by
  have hpull (callees : List NodeId) (available : List Symbol) (definition : Definition) :
      s.SameFunctions ((callees.foldl
        (fun (s : State) callee => s.requireGlobal callee (.llvmFunction callee))
        { s with availableSymbols := available }).define definition) := by
    have havailable : s.SameFunctions { s with availableSymbols := available } :=
      ⟨rfl, rfl, rfl, rfl⟩
    exact havailable.trans
      ((State.sameFunctions_requireGlobals _ callees).trans ⟨rfl, rfl, rfl, rfl⟩)
  unfold pull
  split
  · exact .keep rfl rfl rfl (.refl s)
  all_goals
    split
    · exact .keep rfl rfl rfl (.refl s)
    split
    · exact .keep rfl rfl rfl (.refl s)
    · exact .keep rfl rfl rfl (hpull _ _ _)

theorem change_invoke {unit : Option MetaUnit} {inst : AST} :
    Change ⟨.invoke inst, stack, s⟩ (invoke stack s unit inst) := by
  unfold invoke
  split
  · exact .keep rfl rfl rfl ⟨rfl, rfl, rfl, rfl⟩
  split
  · exact .keep rfl rfl rfl (.refl s)
  split
  · exact .keep rfl rfl rfl (.refl s)
  · exact .keep rfl rfl rfl ⟨rfl, rfl, rfl, rfl⟩

theorem change_returnFunction {function : Option NodeId}
    (hm : returnFunction s function stack = some m) :
    Change ⟨.functionResult function, stack, s⟩ m := by
  unfold returnFunction at hm
  split at hm
  · split at hm
    · cases hm
      exact .keep rfl rfl rfl (.refl s)
    · cases hm
      exact .keep rfl rfl rfl (.refl s)
  · split at hm
    · cases hm
      exact .keep rfl rfl rfl (.refl s)
    · cases hm
      exact .keep rfl rfl rfl (.refl s)
  · cases hm

theorem change_returnUnit {unit : Option MetaUnit} (hm : returnUnit s unit stack = some m) :
    Change ⟨.unitResult unit, stack, s⟩ m := by
  unfold returnUnit at hm
  split at hm
  · cases hm
    unfold lookupExported
    split
    · exact .keep rfl rfl rfl (.refl s)
    split
    · exact .keep rfl rfl rfl ⟨rfl, rfl, rfl, rfl⟩
    split
    · exact .found
    · exact .keep rfl rfl rfl (.refl s)
  · cases hm
    exact .keep rfl rfl rfl (.refl s)
  · cases hm

theorem change_returnLookup {function : Option NodeId}
    (hm : returnLookup s function stack = some m) :
    Change ⟨.lookupResult function, stack, s⟩ m := by
  unfold returnLookup at hm
  split at hm
  · cases hm
    exact .keep rfl rfl rfl (.refl s)
  · split at hm
    · cases hm
      exact .called
    · cases hm
      exact .keep rfl rfl rfl (.refl s)
  · split at hm
    · cases hm
      exact .keep rfl rfl rfl (s.sameFunctions_lookupFromExecutor _ _)
    · cases hm
      exact .keep rfl rfl rfl (.refl s)
  · split at hm
    · cases hm
      exact .keep rfl rfl rfl (s.sameFunctions_lookupFromExecutor _ _)
    · cases hm
      exact .keep rfl rfl rfl (.refl s)
  · cases hm

theorem change_returnMetaFunction {metaFunction : Option NodeId}
    (hm : returnMetaFunction s metaFunction stack = some m) :
    Change ⟨.metaFunctionResult metaFunction, stack, s⟩ m := by
  unfold returnMetaFunction at hm
  split at hm
  · split at hm
    · cases hm
      exact .keep rfl rfl rfl ⟨rfl, rfl, rfl, rfl⟩
    · cases hm
      exact .keep rfl rfl rfl (.refl s)
  · cases hm

theorem change_returnResolved {success : Bool} (hm : returnResolved s success stack = some m) :
    Change ⟨.resolved success, stack, s⟩ m := by
  unfold returnResolved at hm
  split at hm
  · split at hm
    · split at hm
      · cases hm
        exact .keep rfl rfl rfl ⟨rfl, rfl, rfl, rfl⟩
      · cases hm
        exact .keep rfl rfl rfl (.refl s)
    · cases hm
      exact .keep rfl rfl rfl (.refl s)
  · cases hm

/-- Every step is one of the changes. -/
theorem step_change {choice : Choice} {m m' : Config} (hm : step choice m = some m') :
    Change m m' := by
  obtain ⟨control, stack, s⟩ := m
  cases control with
  | codegen => exact change_codegen hm
  | codegenFunctionDecl decl =>
    cases hm
    exact change_codegenFunctionDecl
  | consumeFunctionDecl decl insts =>
    cases hm
    exact change_consumeFunctionDecl
  | generateFunctionDecl decl refs =>
    cases hm
    exact change_generateFunctionDecl
  | functionResult function => exact change_returnFunction hm
  | lookupInstantiation inst requiresCompleted =>
    cases hm
    exact .keep rfl rfl rfl (.refl s)
  | lookupResult function => exact change_returnLookup hm
  | instantiate inst requiresCompleted =>
    cases hm
    exact change_instantiate
  | unitResult unit => exact change_returnUnit hm
  | codegenMetaDecl decl =>
    cases hm
    exact change_codegenMetaDecl
  | consumeMetaDecl decl insts =>
    cases hm
    exact change_consumeMetaDecl
  | generateMetaDecl decl refs =>
    cases hm
    exact change_generateMetaDecl
  | metaFunctionResult metaFunction => exact change_returnMetaFunction hm
  | generateJumpPad inst refs =>
    cases hm
    exact change_generateJumpPad
  | resolveDependencies => exact change_resolveDependencies hm
  | pull function =>
    cases hm
    exact change_pull
  | resolved success => exact change_returnResolved hm
  | invoke inst =>
    cases hm
    exact change_invoke
  | finished success => cases hm
  | failed fault => cases hm

end Steps

/-! ## Declared and pending functions -/

/-- The functions that a body refers to. -/
def FunctionBody.callees : FunctionBody → List NodeId
  | entered callees | finished callees => callees

/-- What the functions of the amalgamation keep. -/
structure Amalgamated (control : Control) (s : State) : Prop where
  /-- A function without a body is in the worklist, or it is generated next. -/
  pending : ∀ f, s.Declares f → s.isDeclaration f = true →
    (f, .functionDecl) ∈ s.dependencies ∨ control = .codegenFunctionDecl f
  /-- What a body refers to is a prototype. -/
  callees : ∀ f body, s.bodies f = some body → ∀ callee ∈ body.callees, callee ∈ s.prototypes
  found : ∀ f, control = .lookupResult (some f) → f ∈ s.prototypes
  drained : control = .finished true → s.dependencies = []

namespace Amalgamated

variable {s s' : State} {control control' : Control} {function callee : NodeId}

theorem of_isInner (hinner : control'.isInner = true)
    (hpending : ∀ f, s'.Declares f → s'.isDeclaration f = true →
      (f, .functionDecl) ∈ s'.dependencies)
    (hcallees : ∀ f body, s'.bodies f = some body →
      ∀ callee ∈ body.callees, callee ∈ s'.prototypes) :
    Amalgamated control' s' where
  pending f hf hbody := .inl (hpending f hf hbody)
  callees := hcallees
  found f hfound := by
    subst hfound
    exact Bool.noConfusion hinner
  drained hfinished := by
    subst hfinished
    exact Bool.noConfusion hinner

/-- A function without a body is in the worklist in front of a plain method. -/
theorem pending_of_isPlain (h : Amalgamated control s) (hplain : control.isPlain = true)
    {f : NodeId} (hf : s.Declares f) (hbody : s.isDeclaration f = true) :
    (f, .functionDecl) ∈ s.dependencies := by
  rcases h.pending f hf hbody with hpending | rfl
  · exact hpending
  · exact Bool.noConfusion hplain

/-- The lookup of a function declares it, and it is pending unless it has a body. -/
theorem lookupGlobal_pending (h : Amalgamated control s)
    (hcontrol : ∀ f, control = .codegenFunctionDecl f → f = function) {f : NodeId}
    (hf : (s.lookupGlobal function).Declares f)
    (hbody : (s.lookupGlobal function).isDeclaration f = true) :
    (f, .functionDecl) ∈ (s.lookupGlobal function).dependencies := by
  change s.isDeclaration f = true at hbody
  by_cases hfunction : f = function
  · subst hfunction
    have hdependencies : (s.lookupGlobal f).dependencies =
        s.dependencies.insert (f, .functionDecl) := by
      unfold State.lookupGlobal
      exact if_pos hbody
    rw [hdependencies]
    exact List.mem_insert_self
  · have hf : s.Declares f := by
      rcases hf with hf | hf
      · exact .inl ((List.mem_insert_iff.1 hf).resolve_left hfunction)
      · exact .inr hf
    have hpending : (f, .functionDecl) ∈ s.dependencies := by
      rcases h.pending f hf hbody with hpending | hcontrol'
      · exact hpending
      · exact absurd (hcontrol f hcontrol') hfunction
    unfold State.lookupGlobal
    dsimp only
    split
    · exact List.mem_insert_of_mem hpending
    · exact hpending

theorem lookupGlobal_callees (h : Amalgamated control s) (f : NodeId) (body : FunctionBody)
    (hbody : (s.lookupGlobal function).bodies f = some body) (callee : NodeId)
    (hcallee : callee ∈ body.callees) : callee ∈ (s.lookupGlobal function).prototypes :=
  List.mem_insert_of_mem (h.callees f body hbody callee hcallee)

/-- Only the body of one function was updated. -/
theorem update (h : Amalgamated control s) (hplain : control.isPlain = true)
    (hinner : control'.isInner = true) {body : Option FunctionBody} {current : List NodeId}
    (hbody : s.isDeclaration function = false → body.isNone = false)
    (hcallees : ∀ b, body = some b → ∀ callee ∈ b.callees, callee ∈ s.prototypes) :
    Amalgamated control' { s with
      currentGeneration := current
      bodies := Function.update s.bodies function body } := by
  refine of_isInner hinner (fun f hf hdeclaration => ?_) fun f b hb => ?_
  · refine h.pending_of_isPlain hplain hf ?_
    by_contra hkept
    have hgrows := (s.grows_updateBody function body hbody current).bodies f
      (Bool.eq_false_iff.2 hkept)
    rw [hgrows] at hdeclaration
    cases hdeclaration
  · by_cases hf : f = function
    · subst hf
      simp only [Function.update_self] at hb
      exact hcallees b hb
    · simp only [Function.update_of_ne hf] at hb
      exact h.callees f b hb

/-- A body refers to one more prototype. -/
theorem addCallee (h : Amalgamated control s) (hplain : control.isPlain = true)
    (hinner : control'.isInner = true) (hcallee : callee ∈ s.prototypes) :
    Amalgamated control' (s.addCallee function callee) := by
  refine h.update hplain hinner (fun hbody => by simpa [State.isDeclaration] using hbody) ?_
  intro b hb g hg
  obtain ⟨body, hbody, rfl⟩ := Option.map_eq_some_iff.1 hb
  cases body with
  | entered callees =>
    rcases List.mem_append.1 hg with hg | hg
    · exact h.callees function _ hbody g hg
    · rwa [List.mem_singleton.1 hg]
  | finished callees => exact h.callees function _ hbody g hg

theorem leaveBody (h : Amalgamated control s) (hplain : control.isPlain = true)
    (hinner : control'.isInner = true) (kept : NodeId → Bool) :
    Amalgamated control' (s.leaveBody kept function) := by
  refine h.update hplain hinner (fun hbody => by simpa [State.isDeclaration] using hbody) ?_
  intro b hb g hg
  obtain ⟨body, hbody, rfl⟩ := Option.map_eq_some_iff.1 hb
  cases body with
  | entered callees => exact h.callees function _ hbody g (List.mem_of_mem_filter hg)
  | finished callees => exact h.callees function _ hbody g hg

/-- What is taken from the worklist is generated next. -/
theorem erase (h : Amalgamated .codegen s) {dependency : NodeId × ASTKind}
    (hinner : control'.isInner = true ∨ ∃ f, control' = .codegenFunctionDecl f)
    (hdependency : ∀ f, dependency = (f, .functionDecl) → control' = .codegenFunctionDecl f) :
    Amalgamated control' { s with dependencies := s.dependencies.erase dependency } where
  pending f hf hbody := by
    by_cases hne : (f, .functionDecl) = dependency
    · exact .inr (hdependency f hne.symm)
    · exact .inl ((List.mem_erase_of_ne hne).2 (h.pending_of_isPlain rfl hf hbody))
  callees := h.callees
  found f hfound := by
    subst hfound
    rcases hinner with hinner | ⟨f, hf⟩
    · exact Bool.noConfusion hinner
    · cases hf
  drained hfinished := by
    subst hfinished
    rcases hinner with hinner | ⟨f, hf⟩
    · exact Bool.noConfusion hinner
    · cases hf

/-- A change keeps what the functions of the amalgamation keep. -/
theorem change {m m' : Config} (h : Amalgamated m.control m.state) (hchange : Change m m') :
    Amalgamated m'.control m'.state := by
  cases hchange with
  | keep hplain hinner _ hsame =>
    refine of_isInner hinner (fun f hf hbody => ?_) ?_
    · unfold State.Declares at hf
      unfold State.isDeclaration at hbody
      rw [hsame.prototypes, hsame.compilationUnit] at hf
      rw [hsame.bodies] at hbody
      rw [hsame.dependencies]
      exact h.pending_of_isPlain hplain hf hbody
    · rw [hsame.bodies, hsame.prototypes]
      exact h.callees
  | drained hdrained =>
    refine ⟨fun f hf hbody => .inl (h.pending_of_isPlain rfl hf hbody), h.callees, ?_,
      fun _ => hdrained⟩
    intro f hfound
    cases hfound
  | skip hdependency =>
    refine h.erase (.inl rfl) fun f hf => ?_
    rw [hf] at hdependency
    exact absurd rfl hdependency
  | @take function =>
    refine h.erase (.inr ⟨function, rfl⟩) fun f hf => ?_
    rw [(Prod.mk.inj hf).1]
  | resolve hsame =>
    refine ⟨fun f hf hbody => .inl ?_, ?_, ?_, ?_⟩
    · unfold State.Declares at hf
      unfold State.isDeclaration at hbody
      rw [hsame.prototypes, hsame.compilationUnit] at hf
      rw [hsame.bodies] at hbody
      rw [hsame.dependencies]
      exact h.pending_of_isPlain rfl hf hbody
    · rw [hsame.bodies, hsame.prototypes]
      exact h.callees
    · intro f hfound
      cases hfound
    · intro hfinished
      cases hfinished
  | declare hinner =>
    refine of_isInner hinner (fun f hf hbody => ?_) h.lookupGlobal_callees
    exact h.lookupGlobal_pending (fun f hf => (Control.codegenFunctionDecl.inj hf).symm) hf hbody
  | found =>
    refine ⟨fun f hf hbody => .inl ?_, h.lookupGlobal_callees, ?_, ?_⟩
    · exact h.lookupGlobal_pending (fun f hf => by cases hf) hf hbody
    · intro f hfound
      cases hfound
      exact List.mem_insert_self
    · intro hfinished
      cases hfinished
  | @call function callee refs refs' =>
    have hlookup : Amalgamated (.generateFunctionDecl function refs)
        (State.lookupGlobal callee _) :=
      of_isInner rfl (fun f hf hbody => h.lookupGlobal_pending (fun f hf => by cases hf) hf hbody)
        h.lookupGlobal_callees
    exact hlookup.addCallee rfl rfl List.mem_insert_self
  | called => exact h.addCallee rfl rfl (h.found _ rfl)
  | enter hdeclaration =>
    refine h.update rfl rfl (fun _ => rfl) ?_
    rintro b hb callee hcallee
    cases hb
    cases hcallee
  | leave => exact h.leaveBody rfl rfl _

end Amalgamated

/-- A function keeps its body. -/
theorem Change.isDeclaration {m m' : Config} (h : Change m m') {f : NodeId}
    (hbody : m.state.isDeclaration f = false) : m'.state.isDeclaration f = false := by
  cases h with
  | keep _ _ _ hsame =>
    unfold State.isDeclaration at hbody ⊢
    rwa [hsame.bodies]
  | resolve hsame =>
    unfold State.isDeclaration at hbody ⊢
    rwa [hsame.bodies]
  | enter => exact (State.grows_updateBody _ _ _ (fun _ => rfl) _).bodies f hbody
  | call => exact (State.grows_addCallee _ _ _).bodies f hbody
  | called => exact (State.grows_addCallee _ _ _).bodies f hbody
  | leave =>
    exact (State.grows_updateBody _ _ _ (fun h => by simpa [State.isDeclaration] using h) _).bodies
      f hbody
  | _ => exact hbody

/-! ## Runs -/

/-- The step starts to generate the body of the function. -/
def StartsBody (function : NodeId) (m m' : Config) : Prop :=
  (∃ insts, m.control = .consumeFunctionDecl function insts) ∧
    ∃ refs, m'.control = .generateFunctionDecl function refs

/-- A body is started for a function that has none. -/
theorem StartsBody.isDeclaration {function : NodeId} {m m' : Config} {choice : Choice}
    (h : StartsBody function m m') (hm : step choice m = some m') :
    m.state.isDeclaration function = true ∧ m'.state.isDeclaration function = false := by
  obtain ⟨⟨insts, hcontrol⟩, refs, hcontrol'⟩ := h
  cases step_change hm with
  | keep _ _ hgenerating _ =>
    subst hcontrol'
    exact Bool.noConfusion hgenerating
  | enter hdeclaration =>
    cases hcontrol
    exact ⟨hdeclaration, by simp [State.enterBody, State.isDeclaration]⟩
  | _ => cases hcontrol

/-- Every configuration of a run keeps it. -/
theorem Reachable.amalgamated {reads : Reads} {a : AST} {m : Config} (h : Reachable reads a m) :
    Amalgamated m.control m.state := by
  induction h with
  | refl =>
    refine ⟨fun f hf _ => .inl ?_, ?_, ?_, ?_⟩
    · rcases hf with hf | ⟨c, hc, rfl, hkind⟩
      · exact absurd hf List.not_mem_nil
      · exact List.mem_map.2 ⟨c, hc, by rw [hkind]⟩
    · intro f body hbody
      cases hbody
    · intro f hfound
      cases hfound
    · intro hfinished
      cases hfinished
  | tail _ hstep ih =>
    obtain ⟨choice, -, hstep⟩ := hstep
    exact ih.change (step_change hstep)

/-- A function keeps its body in what follows. -/
theorem isDeclaration_of_steps {reads : Reads} {m m' : Config}
    (h : Relation.ReflTransGen (Step reads) m m') {f : NodeId}
    (hbody : m.state.isDeclaration f = false) : m'.state.isDeclaration f = false := by
  induction h with
  | refl => exact hbody
  | tail _ hstep ih =>
    obtain ⟨choice, -, hstep⟩ := hstep
    exact (step_change hstep).isDeclaration ih

/-- When the unit was generated, every prototype and every top level function has a body that was
generated to its end, and what it refers to is a prototype. No body is started twice. -/
theorem codegen_complete {reads : Reads} {a : AST} {m : Config} (h : Reachable reads a m) :
    (m.control = .finished true → ∀ f, m.state.Declares f →
      ∃ callees, m.state.bodies f = some (.finished callees) ∧
        ∀ callee ∈ callees, callee ∈ m.state.prototypes) ∧
    ∀ f m₁ m₂ m₃, Step reads m m₁ → StartsBody f m m₁ →
      Relation.ReflTransGen (Step reads) m₁ m₂ → Step reads m₂ m₃ → ¬StartsBody f m₂ m₃ := by
  constructor
  · intro hfinished f hf
    have hamalgamated := h.amalgamated
    rcases h.sound with ⟨fault, hfault⟩ | hinv
    · cases hfinished.symm.trans hfault
    rw [hfinished] at hinv
    have hbody : ∃ body, m.state.bodies f = some body := by
      by_contra hnone
      have hdeclaration : m.state.isDeclaration f = true := by
        unfold State.isDeclaration
        rw [Option.isNone_iff_eq_none, Option.eq_none_iff_forall_ne_some]
        exact fun body hbody => hnone ⟨body, hbody⟩
      rcases hamalgamated.pending f hf hdeclaration with hpending | hcontrol
      · rw [hamalgamated.drained hfinished] at hpending
        exact absurd hpending List.not_mem_nil
      · cases hfinished.symm.trans hcontrol
    obtain ⟨body, hbody⟩ := hbody
    cases body with
    | entered callees =>
      exact absurd hbody (hinv.not_entered rfl (hinv.disciplined.quiet_of rfl) f callees)
    | finished callees => exact ⟨callees, hbody, hamalgamated.callees f _ hbody⟩
  · intro f m₁ m₂ m₃ hstep hstarts hsteps hstep' hstarts'
    obtain ⟨choice, -, hstep⟩ := hstep
    obtain ⟨choice', -, hstep'⟩ := hstep'
    have hbody := isDeclaration_of_steps hsteps (hstarts.isDeclaration hstep).2
    rw [(hstarts'.isDeclaration hstep').1] at hbody
    cases hbody

/-- `m<> -> { m() -> {} } f() -> { m<>(); }`, where the function that `m<>` exports is generated
behind `f`. -/
theorem codegen_complete_export :
    ∃ (a : AST) (m : Config), Reachable (fun _ _ _ => True) a m ∧ m.control = .finished true ∧
      m.state.prototypes = [21, 7] ∧
      ∀ f, m.state.Declares f → ∃ callees, m.state.bodies f = some (.finished callees) ∧
        ∀ callee ∈ callees, callee ∈ m.state.prototypes := by
  let inst : AST := .node { node := ⟨12, .metaInstantiationExpr⟩ }
    [.node { node := ⟨13, .declRefExpr "m"⟩, decl := some ⟨1, .metaDecl "m"⟩ } []]
  let a : AST := .node { node := ⟨0, .compilationUnit⟩ }
    [.node { node := ⟨1, .metaDecl "m"⟩ }
        [.node { node := ⟨2, .argumentDeclList⟩ } [],
          .node { node := ⟨3, .metaContribution⟩ }
            [.node { node := ⟨4, .functionDecl "m"⟩ }
              [.node { node := ⟨5, .argumentDeclList⟩ } [],
                .node { node := ⟨6, .compoundStmt⟩ } []]]],
      .node { node := ⟨7, .functionDecl "f"⟩ }
        [.node { node := ⟨8, .argumentDeclList⟩ } [],
          .node { node := ⟨9, .compoundStmt⟩ }
            [.node { node := ⟨10, .expressionStmt⟩ }
              [.node { node := ⟨11, .callOperatorExpr⟩ } [inst]]]]]
  let unit : MetaUnit :=
    { ast := .node { node := ⟨20, .metaUnit ⟨12, "m", some (1, .metaDecl)⟩⟩ }
        [.node { node := ⟨21, .functionDecl "m"⟩ }
          [.node { node := ⟨22, .argumentDeclList⟩ } [], .node { node := ⟨23, .compoundStmt⟩ } []]]
      exportedNode := some ⟨21, .functionDecl "m"⟩ }
  let choices : List Choice := { index := 1 } :: List.replicate 11 {}
  let m₁ : Config := (run choices (start a)).getD (start a)
  have hrun₁ : run choices (start a) = some m₁ := by rfl
  let m₂ : Config := (step { unit := some unit } m₁).getD m₁
  have hstep : step { unit := some unit } m₁ = some m₂ := by rfl
  have h₁ : Reachable (fun _ _ _ => True) a m₁ := Reachable.run .refl hrun₁
  have h₂ : Reachable (fun _ _ _ => True) a m₂ := h₁.tail ⟨_, fun _ _ => trivial, hstep⟩
  have hfinishes : ∃ m, run (List.replicate 23 {}) m₂ = some m ∧ m.control = .finished true ∧
      m.state.prototypes = [21, 7] := ⟨_, rfl, rfl, rfl⟩
  obtain ⟨m, hrun, hfinished, hprototypes⟩ := hfinishes
  exact ⟨a, m, h₂.run hrun, hfinished, hprototypes, (codegen_complete (h₂.run hrun)).1 hfinished⟩

end CodegenInstance

end Swy
