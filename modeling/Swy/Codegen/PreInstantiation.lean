import Swy.Codegen.CodegenInstance

/-!
# What is instantiated before it is looked up

The instantiations of a function or of a meta declaration are consumed before it is generated. `Inv`
says what every configuration of a run keeps: which instantiations are cached for the loops on the
stack, that an absent result has been diagnosed, and that the executor is not entered while the body
of a function is generated.
-/

namespace Swy

open Library

namespace CodegenInstance

/-- A unit exports a function. -/
def MetaUnit.ExportsFunction (unit : MetaUnit) : Prop :=
  ∃ exported, unit.exportedNode = some exported ∧ exported.kind = .functionDecl

/-! ## What only grows -/

namespace State

/-- Instantiations are only added, an error is kept, and a function keeps having a body. -/
structure Grows (s s' : State) : Prop where
  compilationUnit : s'.compilationUnit = s.compilationUnit
  instantiations : s.instantiations <+: s'.instantiations
  hasErrors : s.hasErrors = true → s'.hasErrors = true
  bodies : ∀ g, s.isDeclaration g = false → s'.isDeclaration g = false

/-- Neither instantiations nor errors nor bodies are touched. -/
structure Keeps (s s' : State) : Prop where
  compilationUnit : s'.compilationUnit = s.compilationUnit
  instantiations : s'.instantiations = s.instantiations
  hasErrors : s'.hasErrors = s.hasErrors
  bodies : s'.bodies = s.bodies

variable {s s' s'' : State}

theorem Grows.refl (s : State) : s.Grows s := ⟨rfl, List.prefix_refl _, id, fun _ => id⟩

theorem Grows.trans (h : s.Grows s') (h' : s'.Grows s'') : s.Grows s'' :=
  ⟨h'.compilationUnit.trans h.compilationUnit, h.instantiations.trans h'.instantiations,
    h'.hasErrors ∘ h.hasErrors, fun g => h'.bodies g ∘ h.bodies g⟩

theorem Keeps.grows (h : s.Keeps s') : s.Grows s' :=
  ⟨h.compilationUnit, h.instantiations ▸ List.prefix_refl _, fun he => h.hasErrors.trans he,
    fun g hg => by rwa [isDeclaration, h.bodies]⟩

theorem Keeps.trans (h : s.Keeps s') (h' : s'.Keeps s'') : s.Keeps s'' :=
  ⟨h'.compilationUnit.trans h.compilationUnit, h'.instantiations.trans h.instantiations,
    h'.hasErrors.trans h.hasErrors, h'.bodies.trans h.bodies⟩

theorem keeps_lookupGlobal (s : State) (decl : NodeId) : s.Keeps (s.lookupGlobal decl) :=
  ⟨rfl, rfl, rfl, rfl⟩

theorem keeps_requireGlobal (s : State) (callee : NodeId) (dependency : Dependency) :
    s.Keeps (s.requireGlobal callee dependency) := by
  unfold requireGlobal
  split <;> exact ⟨rfl, rfl, rfl, rfl⟩

theorem keeps_lookupFromExecutor (s : State) (callee : NodeId) (dependency : Dependency) :
    s.Keeps (lookupFromExecutor s callee dependency) :=
  (s.keeps_requireGlobal callee dependency).trans ⟨rfl, rfl, rfl, rfl⟩

theorem keeps_requireGlobals (s : State) (callees : List NodeId) :
    s.Keeps (callees.foldl (fun s callee => s.requireGlobal callee (.llvmFunction callee)) s) := by
  induction callees generalizing s with
  | nil => exact ⟨rfl, rfl, rfl, rfl⟩
  | cons callee callees ih => exact (s.keeps_requireGlobal _ _).trans (ih _)

/-- Only a body is updated. -/
theorem grows_updateBody (s : State) (function : NodeId) (body : Option FunctionBody)
    (hbody : s.isDeclaration function = false → body.isNone = false) (current : List NodeId) :
    s.Grows { s with
      currentGeneration := current
      bodies := Function.update s.bodies function body } := by
  refine ⟨rfl, List.prefix_refl _, id, fun g hg => ?_⟩
  unfold isDeclaration at hg ⊢
  by_cases h : g = function
  · subst h
    simpa only [Function.update_self] using hbody hg
  · simpa only [Function.update_of_ne h] using hg

theorem grows_addCallee (s : State) (function callee : NodeId) :
    s.Grows (s.addCallee function callee) :=
  s.grows_updateBody function _ (fun h => by simpa [isDeclaration] using h) s.currentGeneration

/-- A body that is entered is only changed by its own callees. -/
theorem entered_addCallee {function callee g : NodeId} {callees : List NodeId}
    (h : (s.addCallee function callee).bodies g = some (.entered callees)) :
    ∃ callees, s.bodies g = some (.entered callees) := by
  unfold addCallee at h
  by_cases hg : g = function
  · subst hg
    simp only [Function.update_self] at h
    rcases hbody : s.bodies g with _ | ⟨callees⟩ | ⟨callees⟩ <;> rw [hbody] at h
    · cases h
    · exact ⟨callees, rfl⟩
    · cases h
  · simp only [Function.update_of_ne hg] at h
    exact ⟨callees, h⟩

/-- An instantiation is cached with a unit that exports a function. -/
def Usable (s : State) (inst : AST) : Prop :=
  ∃ unit, s.getCachedInstantiationOf inst = some unit ∧ unit.ExportsFunction

theorem Grows.cached (h : s.Grows s') {inst : AST} {unit : MetaUnit}
    (hunit : s.getCachedInstantiationOf inst = some unit) :
    s'.getCachedInstantiationOf inst = some unit := by
  obtain ⟨added, hadded⟩ := h.instantiations
  unfold getCachedInstantiationOf at hunit ⊢
  obtain ⟨entry, hentry, rfl⟩ := Option.map_eq_some_iff.1 hunit
  rw [← hadded, List.find?_append, hentry]
  rfl

theorem Grows.usable (h : s.Grows s') {inst : AST} (hi : s.Usable inst) : s'.Usable inst := by
  obtain ⟨unit, hunit, hexports⟩ := hi
  exact ⟨unit, h.cached hunit, hexports⟩

theorem Grows.declaringNode (h : s.Grows s') {decl : NodeId} {a : AST}
    (ha : s.declaringNode decl = some a) : s'.declaringNode decl = some a := by
  obtain ⟨added, hadded⟩ := h.instantiations
  unfold State.declaringNode at ha ⊢
  rw [h.compilationUnit, ← hadded, List.flatMap_append, ← List.append_assoc, List.find?_append, ha]
  rfl

theorem cacheInstantiationOf_self {inst : AST} (unit : MetaUnit)
    (h : (s.getCachedInstantiationOf inst).isSome = false) :
    (s.cacheInstantiationOf inst unit).getCachedInstantiationOf inst = some unit := by
  unfold getCachedInstantiationOf at h
  rw [Option.isSome_map, Option.isSome_eq_false_iff, Option.isNone_iff_eq_none] at h
  unfold getCachedInstantiationOf cacheInstantiationOf
  rw [List.find?_append, h]
  simp

end State

/-! ## The loops on the stack -/

/-- The instantiations of a function that were consumed are usable. -/
def ConsumesFunction (s : State) (decl : NodeId) (insts : List AST) : Prop :=
  ∃ a visited, s.declaringNode decl = some a ∧ a.consumeAll = visited ++ insts ∧
    ∀ inst ∈ visited, s.Usable inst

/-- A body was entered, and the instantiations that are still looked up are usable. -/
def GeneratesFunction (s : State) (decl : NodeId) (refs : List Reference) : Prop :=
  s.isDeclaration decl = false ∧ ∀ inst, .instantiation inst ∈ refs → s.Usable inst

/-- The instantiations of a meta declaration that were consumed are cached. -/
def ConsumesMeta (s : State) (decl : NodeId) (insts : List AST) : Prop :=
  ∃ a visited, s.declaringNode decl = some a ∧ a.consumeMeta = visited ++ insts ∧
    ∀ inst ∈ visited, (s.getCachedInstantiationOf inst).isSome = true

/-- What the loop of a frame keeps. -/
def Frame.Sound (s : State) : Frame → Prop
  | consumeFunctionDecl decl insts => ConsumesFunction s decl insts
  | generateFunctionDecl decl refs => GeneratesFunction s decl refs
  | consumeMetaDecl decl insts => ConsumesMeta s decl insts
  | generateMetaDecl decl _ => ConsumesMeta s decl []
  | _ => True

section

variable {s s' : State} {decl : NodeId}

theorem ConsumesFunction.grow (h : s.Grows s') {insts : List AST}
    (hc : ConsumesFunction s decl insts) : ConsumesFunction s' decl insts := by
  obtain ⟨a, visited, ha, hvisited, hall⟩ := hc
  exact ⟨a, visited, h.declaringNode ha, hvisited, fun inst hi => h.usable (hall inst hi)⟩

/-- The next instantiation was consumed. -/
theorem ConsumesFunction.next {inst : AST} {insts : List AST}
    (h : ConsumesFunction s decl (inst :: insts)) (hi : s.Usable inst) :
    ConsumesFunction s decl insts := by
  obtain ⟨a, visited, ha, hvisited, hall⟩ := h
  refine ⟨a, visited ++ [inst], ha, by rw [hvisited, List.append_assoc]; rfl, ?_⟩
  intro x hx
  rcases List.mem_append.1 hx with hx | hx
  · exact hall x hx
  · rw [List.mem_singleton.1 hx]
    exact hi

theorem GeneratesFunction.grow (h : s.Grows s') {refs : List Reference}
    (hg : GeneratesFunction s decl refs) : GeneratesFunction s' decl refs :=
  ⟨h.bodies decl hg.1, fun inst hi => h.usable (hg.2 inst hi)⟩

theorem GeneratesFunction.tail {refs : List Reference} (h : GeneratesFunction s decl refs) :
    GeneratesFunction s decl refs.tail := ⟨h.1, fun inst hi => h.2 inst (List.mem_of_mem_tail hi)⟩

theorem ConsumesMeta.grow (h : s.Grows s') {insts : List AST} (hc : ConsumesMeta s decl insts) :
    ConsumesMeta s' decl insts := by
  obtain ⟨a, visited, ha, hvisited, hall⟩ := hc
  refine ⟨a, visited, h.declaringNode ha, hvisited, fun inst hi => ?_⟩
  obtain ⟨unit, hunit⟩ := Option.isSome_iff_exists.1 (hall inst hi)
  rw [h.cached hunit]
  rfl

theorem ConsumesMeta.next {inst : AST} {insts : List AST}
    (h : ConsumesMeta s decl (inst :: insts))
    (hi : (s.getCachedInstantiationOf inst).isSome = true) : ConsumesMeta s decl insts := by
  obtain ⟨a, visited, ha, hvisited, hall⟩ := h
  refine ⟨a, visited ++ [inst], ha, by rw [hvisited, List.append_assoc]; rfl, ?_⟩
  intro x hx
  rcases List.mem_append.1 hx with hx | hx
  · exact hall x hx
  · rw [List.mem_singleton.1 hx]
    exact hi

theorem Frame.Sound.grow (h : s.Grows s') {frame : Frame} (hf : frame.Sound s) :
    frame.Sound s' := by
  cases frame with
  | consumeFunctionDecl => exact ConsumesFunction.grow h hf
  | generateFunctionDecl => exact GeneratesFunction.grow h hf
  | consumeMetaDecl => exact ConsumesMeta.grow h hf
  | generateMetaDecl => exact ConsumesMeta.grow h hf
  | _ => trivial

end

/-! ## Whose result is waited for -/

/-- The instantiation whose result a frame waits for. -/
def Frame.awaited : Frame → Option AST
  | consumeFunctionDecl _ insts => insts.head?
  | generateFunctionDecl _ refs | generateMetaDecl _ refs | generateJumpPad _ refs =>
    match refs with
    | .instantiation inst :: _ => some inst
    | _ => none
  | lookupInstantiation inst => some inst
  | consumeMetaDecl _ insts => insts.head?
  | _ => none

/-- The instantiation that the call of a frame is about. -/
def Frame.serves : Frame → Option AST
  | lookupInstantiation inst | instantiate inst | generateJumpPad inst _ | shipToJIT inst =>
    some inst
  | _ => none

/-- The instantiation that the current call is about. -/
def Control.serves : Control → Option AST
  | lookupInstantiation inst _ | instantiate inst _ | generateJumpPad inst _ | invoke inst =>
    some inst
  | _ => none

/-- The top of the stack waits for the result of the instantiation. -/
def Awaits (inst : Option AST) (stack : List Frame) : Prop :=
  ∀ i, inst = some i → stack.head?.bind Frame.awaited = some i

/-- Every call about an instantiation is waited for by the frame below. -/
def Chained : List Frame → Prop
  | [] => True
  | frame :: stack => Awaits frame.serves stack ∧ Chained stack

/-! ## While a body is generated -/

/-- The frame generates the body of a function. -/
def Frame.isGenerating : Frame → Bool
  | generateFunctionDecl _ _ => true
  | _ => false

/-- The body of a function is generated. -/
def Control.isGenerating : Control → Bool
  | generateFunctionDecl _ _ => true
  | _ => false

/-- No frame generates the body of a function. -/
def Quiet (stack : List Frame) : Prop := ∀ frame ∈ stack, frame.isGenerating = false

/-- While the body of a function is generated only completed instantiations are looked up. -/
inductive Disciplined : Control → List Frame → Prop
  | quiet {control : Control} {stack : List Frame} :
    control.isGenerating = false → Quiet stack → Disciplined control stack
  | generate {decl : NodeId} {refs : List Reference} {stack : List Frame} :
    Quiet stack → Disciplined (.generateFunctionDecl decl refs) stack
  | lookup {inst : AST} {decl : NodeId} {refs : List Reference} {stack : List Frame} :
    Quiet stack →
    Disciplined (.lookupInstantiation inst true) (.generateFunctionDecl decl refs :: stack)
  | instantiate {inst i : AST} {decl : NodeId} {refs : List Reference} {stack : List Frame} :
    Quiet stack →
    Disciplined (.instantiate inst true)
      (.lookupInstantiation i :: .generateFunctionDecl decl refs :: stack)
  | unit {unit : Option MetaUnit} {i : AST} {decl : NodeId} {refs : List Reference}
    {stack : List Frame} :
    Quiet stack →
    Disciplined (.unitResult unit)
      (.lookupInstantiation i :: .generateFunctionDecl decl refs :: stack)
  | result {function : Option NodeId} {decl : NodeId} {refs : List Reference}
    {stack : List Frame} :
    Quiet stack → Disciplined (.lookupResult function) (.generateFunctionDecl decl refs :: stack)

/-- The methods that run while the body of a function is generated. -/
def Control.mayGenerate : Control → Bool
  | generateFunctionDecl _ _ | lookupInstantiation _ true | instantiate _ true | unitResult _
  | lookupResult _ => true
  | _ => false

/-- The other methods do not. -/
theorem Disciplined.quiet_of {control : Control} {stack : List Frame}
    (h : Disciplined control stack) (hc : control.mayGenerate = false) : Quiet stack := by
  cases h with
  | quiet _ hq => exact hq
  | _ => exact Bool.noConfusion hc

/-- The body of the function is between its start and its end. -/
def Generates (decl : NodeId) (control : Control) (stack : List Frame) : Prop :=
  (∃ refs, control = .generateFunctionDecl decl refs) ∨
    ∃ refs, .generateFunctionDecl decl refs ∈ stack

/-! ## The invariant -/

/-- What the current method keeps. An absent result was diagnosed. -/
def Control.Sound (s : State) (stack : List Frame) : Control → Prop
  | consumeFunctionDecl decl insts =>
    ConsumesFunction s decl insts ∨ s.hasErrors = true ∧ insts = []
  | generateFunctionDecl decl refs => GeneratesFunction s decl refs
  | functionResult none => s.hasErrors = true
  | functionResult (some function) => s.isDeclaration function = false
  | lookupResult none => s.hasErrors = true
  | lookupResult (some _) => ∀ inst, stack.head?.bind Frame.awaited = some inst → s.Usable inst
  | unitResult none => s.hasErrors = true
  | unitResult (some unit) =>
    ∀ inst, stack.head?.bind Frame.awaited = some inst →
      s.getCachedInstantiationOf inst = some unit
  | consumeMetaDecl decl insts => ConsumesMeta s decl insts ∨ s.hasErrors = true ∧ insts = []
  | generateMetaDecl decl _ => ConsumesMeta s decl []
  | metaFunctionResult none => s.hasErrors = true
  | pull function => s.isDeclaration function = false
  | resolved false => s.hasErrors = true
  | _ => True

/-- What every configuration keeps that was not stopped by a fault. -/
structure Inv (control : Control) (stack : List Frame) (s : State) : Prop where
  sound : control.Sound s stack
  frames : ∀ frame ∈ stack, frame.Sound s
  awaits : Awaits control.serves stack
  chained : Chained stack
  disciplined : Disciplined control stack
  entered : ∀ decl callees, s.bodies decl = some (.entered callees) → Generates decl control stack

/-- The invariant holds, unless a fault ended the run. -/
def Config.Sound (m : Config) : Prop :=
  (∃ fault, m.control = .failed fault) ∨ Inv m.control m.stack m.state

theorem Config.Sound.failed {fault : Fault} {stack : List Frame} {s : State} :
    Config.Sound ⟨.failed fault, stack, s⟩ := .inl ⟨fault, rfl⟩

section Moves

variable {s s' : State} {control control' : Control} {frame : Frame} {stack : List Frame}

theorem Awaits.none : Awaits none stack := fun _ h => (Option.some_ne_none _ h.symm).elim

/-- No body is generated while no call generates one. -/
theorem Inv.not_entered (h : Inv control stack s) (hc : control.isGenerating = false)
    (hq : Quiet stack) (decl : NodeId) (callees : List NodeId) :
    s.bodies decl ≠ some (.entered callees) := by
  intro hbody
  rcases h.entered decl callees hbody with ⟨refs, rfl⟩ | ⟨refs, hmem⟩
  · exact Bool.noConfusion hc
  · exact Bool.noConfusion (hq _ hmem)

/-- The current method goes on. -/
theorem Inv.goto (h : Inv control stack s) (hc : control.isGenerating = false) (hq : Quiet stack)
    (hgrows : s.Grows s') (hbodies : s'.bodies = s.bodies) (hc' : control'.isGenerating = false)
    (hsound : control'.Sound s' stack) (hawaits : Awaits control'.serves stack) :
    Inv control' stack s' where
  sound := hsound
  frames frame hf := (h.frames frame hf).grow hgrows
  awaits := hawaits
  chained := h.chained
  disciplined := .quiet hc' hq
  entered decl callees hbody := absurd (hbodies ▸ hbody) (h.not_entered hc hq decl callees)

/-- The current method calls another one. -/
theorem Inv.call (h : Inv control stack s) (hc : control.isGenerating = false) (hq : Quiet stack)
    (hgrows : s.Grows s') (hbodies : s'.bodies = s.bodies) (hc' : control'.isGenerating = false)
    (hframe : frame.Sound s') (hf : frame.isGenerating = false)
    (hserves : Awaits frame.serves stack)
    (hsound : control'.Sound s' (frame :: stack))
    (hawaits : Awaits control'.serves (frame :: stack)) :
    Inv control' (frame :: stack) s' where
  sound := hsound
  frames := List.forall_mem_cons.2 ⟨hframe, fun frame hf => (h.frames frame hf).grow hgrows⟩
  awaits := hawaits
  chained := ⟨hserves, h.chained⟩
  disciplined := .quiet hc' (List.forall_mem_cons.2 ⟨hf, hq⟩)
  entered decl callees hbody := absurd (hbodies ▸ hbody) (h.not_entered hc hq decl callees)

/-- The result is returned to the call that waits for it. -/
theorem Inv.return (h : Inv control (frame :: stack) s) (hc : control.isGenerating = false)
    (hq : Quiet (frame :: stack)) (hgrows : s.Grows s') (hbodies : s'.bodies = s.bodies)
    (hc' : control'.isGenerating = false) (hsound : control'.Sound s' stack)
    (hawaits : Awaits control'.serves stack) : Inv control' stack s' where
  sound := hsound
  frames frame hf := (h.frames frame (List.mem_cons_of_mem _ hf)).grow hgrows
  awaits := hawaits
  chained := h.chained.2
  disciplined := .quiet hc' (List.forall_mem_cons.1 hq).2
  entered decl callees hbody := absurd (hbodies ▸ hbody) (h.not_entered hc hq decl callees)

end Moves

/-! ## One step -/

section Steps

variable {stack : List Frame} {s : State}

theorem sound_codegen (h : Inv .codegen stack s) {index : Nat} {m : Config}
    (hm : codegen stack s index = some m) : m.Sound := by
  have hq := h.disciplined.quiet_of rfl
  unfold codegen at hm
  split at hm
  · cases hm
    exact .inr (h.goto rfl hq (.refl s) rfl rfl trivial .none)
  · obtain ⟨dependency, -, hm⟩ := Option.bind_eq_some_iff.1 hm
    dsimp only at hm
    split at hm
    · cases hm
      exact .inr (h.call rfl hq ⟨rfl, List.prefix_refl _, id, fun _ => id⟩ rfl rfl trivial rfl
        .none trivial .none)
    · cases hm
      exact .inr (h.goto rfl hq ⟨rfl, List.prefix_refl _, id, fun _ => id⟩ rfl rfl trivial .none)

theorem sound_codegenFunctionDecl {decl : NodeId} (h : Inv (.codegenFunctionDecl decl) stack s) :
    (codegenFunctionDecl stack s decl).Sound := by
  have hq := h.disciplined.quiet_of rfl
  have hkeeps := s.keeps_lookupGlobal decl
  unfold codegenFunctionDecl
  dsimp only
  split
  · split
    · rename_i a ha
      exact .inr (h.goto rfl hq hkeeps.grows rfl rfl
        (.inl ⟨a, [], ha, rfl, fun _ hi => absurd hi List.not_mem_nil⟩) .none)
    · exact .failed
  · rename_i hbody
    exact .inr (h.goto rfl hq hkeeps.grows rfl rfl (Bool.eq_false_iff.2 hbody) .none)

theorem sound_enterFunctionDecl {decl : NodeId} (h : Inv (.consumeFunctionDecl decl []) stack s) :
    (enterFunctionDecl stack s decl).Sound := by
  have hq := h.disciplined.quiet_of rfl
  unfold enterFunctionDecl
  split
  · rename_i herrors
    have herrors : s.hasErrors = true := by simpa [State.canContinue] using herrors
    exact .inr (h.goto rfl hq (.refl s) rfl rfl herrors .none)
  rename_i hcontinue
  split
  · exact .failed
  split
  · exact .failed
  split
  · rename_i a ha
    have hsound : ConsumesFunction s decl [] := by
      rcases h.sound with hsound | ⟨herrors, -⟩
      · exact hsound
      · exact absurd (by simp [State.canContinue, herrors]) hcontinue
    obtain ⟨a', visited, ha', hvisited, hall⟩ := hsound
    obtain rfl : a' = a := Option.some.inj (ha'.symm.trans ha)
    rw [List.append_nil] at hvisited
    have hgrows := s.grows_updateBody decl (some (.entered [])) (fun _ => rfl)
      (s.currentGeneration.insert decl)
    refine .inr ⟨⟨by simp [State.isDeclaration], fun inst hi => hgrows.usable (hall inst ?_)⟩,
      fun frame hf => (h.frames frame hf).grow hgrows, .none, h.chained, .generate hq, ?_⟩
    · rw [← hvisited]
      exact AST.mem_consumeAll_of_functionReferences hi
    · intro g callees hbody
      by_cases hg : g = decl
      · subst hg
        exact .inl ⟨_, rfl⟩
      · simp only [Function.update_of_ne hg] at hbody
        exact absurd hbody (h.not_entered rfl hq g callees)
  · exact .failed

theorem sound_consumeFunctionDecl {decl : NodeId} {insts : List AST}
    (h : Inv (.consumeFunctionDecl decl insts) stack s) :
    (consumeFunctionDecl stack s decl insts).Sound := by
  cases insts with
  | nil => exact sound_enterFunctionDecl h
  | cons inst insts =>
    have hq := h.disciplined.quiet_of rfl
    have hsound : ConsumesFunction s decl (inst :: insts) := by
      rcases h.sound with hsound | ⟨-, hnil⟩
      · exact hsound
      · cases hnil
    exact .inr (h.call rfl hq (.refl s) rfl rfl hsound rfl .none trivial fun _ hi => hi)

theorem sound_leaveFunctionDecl {kept : NodeId → Bool} {decl : NodeId}
    (h : Inv (.generateFunctionDecl decl []) stack s) :
    (leaveFunctionDecl stack s kept decl).Sound := by
  have hq : Quiet stack := by
    cases h.disciplined with
    | quiet hc _ => exact Bool.noConfusion hc
    | generate hq => exact hq
  have hdecl := h.sound.1
  have hgrows := s.grows_updateBody decl ((s.bodies decl).map (.finish kept))
    (fun hbody => by simpa [State.isDeclaration] using hbody) (s.currentGeneration.erase decl)
  refine .inr ⟨hgrows.bodies decl hdecl, fun frame hf => (h.frames frame hf).grow hgrows, .none,
    h.chained, .quiet rfl hq, fun g callees hbody => ?_⟩
  by_cases hg : g = decl
  · subst hg
    simp only [leaveFunctionDecl, Function.update_self] at hbody
    rcases hold : s.bodies g with _ | ⟨callees⟩ | ⟨callees⟩ <;> rw [hold] at hbody <;> cases hbody
  · simp only [leaveFunctionDecl, Function.update_of_ne hg] at hbody
    rcases h.entered g callees hbody with ⟨refs, hcontrol⟩ | ⟨refs, hmem⟩
    · cases hcontrol
      exact absurd rfl hg
    · exact Bool.noConfusion (hq _ hmem)

/-- What was entered before is still generated, when neither the method nor the frames that were
left generate a body. -/
theorem Inv.entered_of {control control' : Control} {stack' : List Frame} {s s' : State}
    (h : Inv control stack s) (hc : control.isGenerating = false)
    (hframes : ∀ decl refs, .generateFunctionDecl decl refs ∈ stack →
      Generates decl control' stack')
    (hbodies : ∀ decl callees, s'.bodies decl = some (.entered callees) →
      ∃ callees, s.bodies decl = some (.entered callees)) (decl : NodeId) (callees : List NodeId)
    (hbody : s'.bodies decl = some (.entered callees)) : Generates decl control' stack' := by
  obtain ⟨callees, hbody⟩ := hbodies decl callees hbody
  rcases h.entered decl callees hbody with ⟨refs, rfl⟩ | ⟨refs, hmem⟩
  · exact Bool.noConfusion hc
  · exact hframes decl refs hmem

theorem sound_generateFunctionDecl {kept : NodeId → Bool} {decl : NodeId} {refs : List Reference}
    (h : Inv (.generateFunctionDecl decl refs) stack s) :
    (generateFunctionDecl stack s kept decl refs).Sound := by
  have hq : Quiet stack := by
    cases h.disciplined with
    | quiet hc _ => exact Bool.noConfusion hc
    | generate hq => exact hq
  have hgenerates {g : NodeId} (hg : Generates g (.generateFunctionDecl decl refs) stack) :
      g = decl := by
    rcases hg with ⟨refs, hcontrol⟩ | ⟨refs, hmem⟩
    · exact (Control.generateFunctionDecl.inj hcontrol).1.symm
    · exact Bool.noConfusion (hq _ hmem)
  rcases refs with _ | ⟨ref, refs⟩
  · exact sound_leaveFunctionDecl h
  cases ref with
  | function callee =>
    have hgrows : s.Grows ((s.lookupGlobal callee).addCallee decl callee) :=
      (s.keeps_lookupGlobal callee).grows.trans ((s.lookupGlobal callee).grows_addCallee _ _)
    refine .inr ⟨h.sound.tail.grow hgrows, fun frame hf => (h.frames frame hf).grow hgrows, .none,
      h.chained, .generate hq, fun g callees hbody => ?_⟩
    obtain ⟨callees, hbody⟩ := State.entered_addCallee hbody
    obtain rfl := hgenerates (h.entered g callees hbody)
    exact .inl ⟨refs, rfl⟩
  | instantiation inst =>
    refine .inr ⟨trivial, List.forall_mem_cons.2 ⟨h.sound, h.frames⟩, fun _ hi => hi,
      ⟨.none, h.chained⟩, .lookup hq, fun g callees hbody => ?_⟩
    obtain rfl := hgenerates (h.entered g callees hbody)
    exact .inr ⟨_, List.mem_cons_self⟩

theorem sound_lookupInstantiation {inst : AST} {requiresCompleted : Bool}
    (h : Inv (.lookupInstantiation inst requiresCompleted) stack s) :
    Config.Sound ⟨.instantiate inst requiresCompleted, .lookupInstantiation inst :: stack, s⟩ := by
  refine .inr ⟨trivial, List.forall_mem_cons.2 ⟨trivial, h.frames⟩, fun _ hi => hi,
    ⟨h.awaits, h.chained⟩, ?_, ?_⟩
  · cases h.disciplined with
    | quiet _ hq => exact .quiet rfl (List.forall_mem_cons.2 ⟨rfl, hq⟩)
    | lookup hq => exact .instantiate hq
  · exact h.entered_of rfl (fun g refs hmem => .inr ⟨refs, List.mem_cons_of_mem _ hmem⟩)
      fun _ callees hbody => ⟨callees, hbody⟩

theorem sound_instantiate {inst : AST} {requiresCompleted : Bool}
    (h : Inv (.instantiate inst requiresCompleted) stack s) :
    (instantiate stack s inst requiresCompleted).Sound := by
  unfold instantiate
  split
  · rename_i unit hunit
    refine .inr ⟨fun i hi => ?_, h.frames, .none, h.chained, ?_,
      h.entered_of rfl (fun g refs hmem => .inr ⟨refs, hmem⟩)
        fun _ callees hbody => ⟨callees, hbody⟩⟩
    · obtain rfl := Option.some.inj ((h.awaits inst rfl).symm.trans hi)
      exact hunit
    · cases h.disciplined with
      | quiet _ hq => exact .quiet rfl hq
      | instantiate hq => exact .unit hq
  · cases requiresCompleted with
    | true => exact .failed
    | false =>
      have hq := h.disciplined.quiet_of rfl
      simp only [Bool.false_eq_true, if_false]
      split
      · split
        · exact .inr (h.call rfl hq (.refl s) rfl rfl trivial rfl h.awaits trivial .none)
        · exact .failed
      · exact .failed

theorem sound_codegenMetaDecl {decl : NodeId} (h : Inv (.codegenMetaDecl decl) stack s) :
    (codegenMetaDecl stack s decl).Sound := by
  have hq := h.disciplined.quiet_of rfl
  unfold codegenMetaDecl
  split
  · exact .inr (h.goto rfl hq ⟨rfl, List.prefix_refl _, id, fun _ => id⟩ rfl rfl trivial .none)
  · split
    · rename_i a ha
      exact .inr (h.goto rfl hq (.refl s) rfl rfl
        (.inl ⟨a, [], ha, rfl, fun _ hi => absurd hi List.not_mem_nil⟩) .none)
    · exact .failed

theorem sound_enterMetaDecl {decl : NodeId} (h : Inv (.consumeMetaDecl decl []) stack s) :
    (enterMetaDecl stack s decl).Sound := by
  have hq := h.disciplined.quiet_of rfl
  unfold enterMetaDecl
  split
  · rename_i herrors
    have herrors : s.hasErrors = true := by simpa [State.canContinue] using herrors
    exact .inr (h.goto rfl hq (.refl s) rfl rfl herrors .none)
  rename_i hcontinue
  split
  · exact .inr (h.goto rfl hq ⟨rfl, List.prefix_refl _, id, fun _ => id⟩ rfl rfl trivial .none)
  split
  · have hsound : ConsumesMeta s decl [] := by
      rcases h.sound with hsound | ⟨herrors, -⟩
      · exact hsound
      · exact absurd (by simp [State.canContinue, herrors]) hcontinue
    exact .inr (h.goto rfl hq ⟨rfl, List.prefix_refl _, id, fun _ => id⟩ rfl rfl
      (hsound.grow ⟨rfl, List.prefix_refl _, id, fun _ => id⟩) .none)
  · exact .failed

theorem sound_consumeMetaDecl {decl : NodeId} {insts : List AST}
    (h : Inv (.consumeMetaDecl decl insts) stack s) :
    (consumeMetaDecl stack s decl insts).Sound := by
  cases insts with
  | nil => exact sound_enterMetaDecl h
  | cons inst insts =>
    have hq := h.disciplined.quiet_of rfl
    have hsound : ConsumesMeta s decl (inst :: insts) := by
      rcases h.sound with hsound | ⟨-, hnil⟩
      · exact hsound
      · cases hnil
    exact .inr (h.call rfl hq (.refl s) rfl rfl hsound rfl .none trivial fun _ hi => hi)

theorem sound_generateMetaDecl {decl : NodeId} {refs : List Reference}
    (h : Inv (.generateMetaDecl decl refs) stack s) :
    (generateMetaDecl stack s decl refs).Sound := by
  have hq := h.disciplined.quiet_of rfl
  rcases refs with _ | ⟨ref, refs⟩
  · exact .inr (h.goto rfl hq (.refl s) rfl rfl trivial .none)
  cases ref with
  | function callee =>
    have hkeeps := s.keeps_lookupFromExecutor callee (.functionDecl callee)
    exact .inr (h.goto rfl hq hkeeps.grows hkeeps.bodies rfl (h.sound.grow hkeeps.grows) .none)
  | instantiation inst =>
    exact .inr (h.call rfl hq (.refl s) rfl rfl h.sound rfl .none trivial fun _ hi => hi)

theorem sound_generateJumpPad {inst : AST} {refs : List Reference}
    (h : Inv (.generateJumpPad inst refs) stack s) :
    (generateJumpPad stack s inst refs).Sound := by
  have hq := h.disciplined.quiet_of rfl
  rcases refs with _ | ⟨ref, refs⟩
  · rw [generateJumpPad]
    split
    · exact .inr (h.call rfl hq (.refl s) rfl rfl trivial rfl h.awaits trivial .none)
    · exact .failed
  cases ref with
  | function callee =>
    have hkeeps := s.keeps_lookupFromExecutor callee (.functionDecl callee)
    exact .inr (h.goto rfl hq hkeeps.grows hkeeps.bodies rfl trivial h.awaits)
  | instantiation arg =>
    exact .inr (h.call rfl hq (.refl s) rfl rfl trivial rfl h.awaits trivial fun _ hi => hi)

theorem sound_resolveDependencies (h : Inv .resolveDependencies stack s) {index : Nat} {m : Config}
    (hm : resolveDependencies stack s index = some m) : m.Sound := by
  have hq := h.disciplined.quiet_of rfl
  unfold resolveDependencies at hm
  split at hm
  · cases hm
    exact .inr (h.goto rfl hq (.refl s) rfl rfl trivial .none)
  · obtain ⟨dependency, -, hm⟩ := Option.bind_eq_some_iff.1 hm
    dsimp only at hm
    split at hm
    · split at hm
      · cases hm
        exact .inr (h.call rfl hq ⟨rfl, List.prefix_refl _, id, fun _ => id⟩ rfl rfl trivial rfl
          .none trivial .none)
      · cases hm
        exact .failed
    · cases hm
      exact .inr (h.call rfl hq ⟨rfl, List.prefix_refl _, id, fun _ => id⟩ rfl rfl trivial rfl
        .none trivial .none)

theorem sound_pull {function : NodeId} (h : Inv (.pull function) stack s) :
    (pull stack s function).Sound := by
  have hq := h.disciplined.quiet_of rfl
  have hpull (callees : List NodeId) (available : List Symbol) (definition : Definition) :
      s.Keeps ((callees.foldl
        (fun (s : State) callee => s.requireGlobal callee (.llvmFunction callee))
        { s with availableSymbols := available }).define definition) := by
    have havailable : s.Keeps { s with availableSymbols := available } := ⟨rfl, rfl, rfl, rfl⟩
    exact havailable.trans ((State.keeps_requireGlobals _ callees).trans ⟨rfl, rfl, rfl, rfl⟩)
  unfold pull
  split
  · exact .failed
  all_goals
    split
    · exact .failed
    split
    · exact .failed
    exact .inr (h.goto rfl hq (hpull _ _ _).grows (hpull _ _ _).bodies rfl trivial .none)

theorem sound_invoke {unit : Option MetaUnit} {inst : AST} (h : Inv (.invoke inst) stack s) :
    (invoke stack s unit inst).Sound := by
  have hq := h.disciplined.quiet_of rfl
  unfold invoke
  split
  · exact .inr (h.goto rfl hq
      ⟨rfl, List.prefix_refl _, fun _ => rfl, fun _ => id⟩ rfl rfl rfl .none)
  · rename_i unit
    split
    · rename_i herrors
      have herrors : s.hasErrors = true := by simpa [State.canContinue] using herrors
      exact .inr (h.goto rfl hq (.refl s) rfl rfl herrors .none)
    split
    · exact .failed
    · rename_i hcached
      refine .inr (h.goto rfl hq ⟨rfl, List.prefix_append _ _, id, fun _ => id⟩ rfl rfl
        (fun i hi => ?_) .none)
      obtain rfl := Option.some.inj ((h.awaits inst rfl).symm.trans hi)
      exact State.cacheInstantiationOf_self unit (Bool.eq_false_iff.2 hcached)

/-! ## Returning a result -/

theorem sound_returnFunction {function : Option NodeId} {m : Config}
    (h : Inv (.functionResult function) stack s) (hm : returnFunction s function stack = some m) :
    m.Sound := by
  have hq := h.disciplined.quiet_of rfl
  unfold returnFunction at hm
  split at hm
  · split at hm
    · cases hm
      exact .inr (h.return rfl hq (.refl s) rfl rfl trivial .none)
    · cases hm
      exact .inr (h.return rfl hq (.refl s) rfl rfl trivial .none)
  · split at hm
    · cases hm
      exact .inr (h.return rfl hq (.refl s) rfl rfl h.sound .none)
    · cases hm
      exact .inr (h.return rfl hq (.refl s) rfl rfl h.sound .none)
  · cases hm

theorem sound_lookupExported {inst : AST} {unit : Option MetaUnit}
    (h : Inv (.unitResult unit) (.lookupInstantiation inst :: stack) s) :
    (lookupExported stack s unit).Sound := by
  -- The new configuration, once its method is sound.
  have hreturn {function : Option NodeId} {s' : State} (hgrows : s.Grows s')
      (hbodies : s'.bodies = s.bodies)
      (hsound : Control.Sound s' stack (.lookupResult function)) :
      Inv (.lookupResult function) stack s' := by
    refine ⟨hsound, fun frame hf => (h.frames frame (List.mem_cons_of_mem _ hf)).grow hgrows, .none,
      h.chained.2, ?_, h.entered_of rfl (fun g refs hmem => ?_) fun g callees hbody => ?_⟩
    · cases h.disciplined with
      | quiet _ hq => exact .quiet rfl (List.forall_mem_cons.1 hq).2
      | unit hq => exact .result hq
    · rcases List.mem_cons.1 hmem with hframe | hmem
      · cases hframe
      · exact .inr ⟨refs, hmem⟩
    · exact ⟨callees, hbodies ▸ hbody⟩
  unfold lookupExported
  split
  · exact .inr (hreturn (.refl s) rfl h.sound)
  rename_i unit
  split
  · exact .inr (hreturn ⟨rfl, List.prefix_refl _, fun _ => rfl, fun _ => id⟩ rfl rfl)
  rename_i exported hexported
  split
  · rename_i hk
    refine .inr (hreturn (s.keeps_lookupGlobal _).grows rfl fun i hi => ?_)
    obtain rfl := Option.some.inj ((h.chained.1 inst rfl).symm.trans hi)
    exact ⟨unit, h.sound inst rfl, exported, hexported, hk⟩
  · exact .failed

theorem sound_returnUnit {unit : Option MetaUnit} {m : Config}
    (h : Inv (.unitResult unit) stack s) (hm : returnUnit s unit stack = some m) : m.Sound := by
  unfold returnUnit at hm
  split at hm
  · cases hm
    exact sound_lookupExported h
  · rename_i decl insts stack
    cases hm
    have hq : Quiet (.consumeMetaDecl decl insts :: stack) := by
      cases h.disciplined with
      | quiet _ hq => exact hq
    refine .inr (h.return rfl hq (.refl s) rfl rfl ?_ .none)
    have hloop : ConsumesMeta s decl insts := h.frames _ List.mem_cons_self
    cases unit with
    | none => exact .inr ⟨h.sound, rfl⟩
    | some unit =>
      cases insts with
      | nil => exact .inl hloop
      | cons inst insts =>
        refine .inl (hloop.next ?_)
        rw [h.sound inst rfl]
        rfl
  · cases hm

theorem sound_returnLookup {function : Option NodeId} {m : Config}
    (h : Inv (.lookupResult function) stack s) (hm : returnLookup s function stack = some m) :
    m.Sound := by
  unfold returnLookup at hm
  split at hm
  · rename_i decl insts stack
    cases hm
    have hq : Quiet (.consumeFunctionDecl decl insts :: stack) := by
      cases h.disciplined with
      | quiet _ hq => exact hq
    refine .inr (h.return rfl hq (.refl s) rfl rfl ?_ .none)
    have hloop : ConsumesFunction s decl insts := h.frames _ List.mem_cons_self
    cases function with
    | none => exact .inr ⟨h.sound, rfl⟩
    | some function =>
      cases insts with
      | nil => exact .inl hloop
      | cons inst insts => exact .inl (hloop.next (h.sound inst rfl))
  · rename_i decl refs stack
    split at hm
    · rename_i callee
      cases hm
      have hq : Quiet stack := by
        cases h.disciplined with
        | quiet _ hq => exact Bool.noConfusion (hq _ List.mem_cons_self)
        | result hq => exact hq
      have hgrows := s.grows_addCallee decl callee
      have hloop : GeneratesFunction s decl refs := h.frames _ List.mem_cons_self
      refine .inr ⟨hloop.tail.grow hgrows,
        fun frame hf => (h.frames frame (List.mem_cons_of_mem _ hf)).grow hgrows,
          .none, h.chained.2,
        .generate hq, h.entered_of rfl (fun g refs hmem => ?_) fun _ _ => State.entered_addCallee⟩
      rcases List.mem_cons.1 hmem with hframe | hmem
      · cases hframe
        exact .inl ⟨_, rfl⟩
      · exact Bool.noConfusion (hq _ hmem)
    · cases hm
      exact .failed
  · rename_i decl refs stack
    split at hm
    · rename_i callee
      cases hm
      have hq : Quiet (.generateMetaDecl decl refs :: stack) := by
        cases h.disciplined with
        | quiet _ hq => exact hq
      have hkeeps := s.keeps_lookupFromExecutor callee (.llvmFunction callee)
      have hloop : ConsumesMeta s decl [] := h.frames _ List.mem_cons_self
      exact .inr (h.return rfl hq hkeeps.grows hkeeps.bodies rfl (hloop.grow hkeeps.grows) .none)
    · cases hm
      exact .failed
  · rename_i inst refs stack
    split at hm
    · rename_i callee
      cases hm
      have hq : Quiet (.generateJumpPad inst refs :: stack) := by
        cases h.disciplined with
        | quiet _ hq => exact hq
      have hkeeps := s.keeps_lookupFromExecutor callee (.llvmFunction callee)
      exact .inr (h.return rfl hq hkeeps.grows hkeeps.bodies rfl trivial h.chained.1)
    · cases hm
      exact .failed
  · cases hm

theorem sound_returnMetaFunction {metaFunction : Option NodeId} {m : Config}
    (h : Inv (.metaFunctionResult metaFunction) stack s)
    (hm : returnMetaFunction s metaFunction stack = some m) : m.Sound := by
  have hq := h.disciplined.quiet_of rfl
  unfold returnMetaFunction at hm
  split at hm
  · split at hm
    · cases hm
      exact .inr (h.return rfl hq ⟨rfl, List.prefix_refl _, id, fun _ => id⟩ rfl rfl trivial
        h.chained.1)
    · cases hm
      exact .inr (h.return rfl hq (.refl s) rfl rfl h.sound .none)
  · cases hm

theorem sound_returnResolved {success : Bool} {m : Config} (h : Inv (.resolved success) stack s)
    (hm : returnResolved s success stack = some m) : m.Sound := by
  have hq := h.disciplined.quiet_of rfl
  unfold returnResolved at hm
  split at hm
  · cases success with
    | true =>
      simp only [if_true] at hm
      split at hm
      · cases hm
        exact .inr (h.return rfl hq ⟨rfl, List.prefix_refl _, id, fun _ => id⟩ rfl rfl trivial
          h.chained.1)
      · cases hm
        exact .failed
    | false =>
      cases hm
      exact .inr (h.return rfl hq (.refl s) rfl rfl h.sound .none)
  · cases hm

end Steps

/-! ## Runs -/

/-- A step keeps the invariant. -/
theorem Config.Sound.step {m m' : Config} (h : m.Sound) {choice : Choice}
    (hm : CodegenInstance.step choice m = some m') : m'.Sound := by
  obtain ⟨control, stack, s⟩ := m
  rcases h with ⟨fault, hfault⟩ | h
  · obtain rfl : control = .failed fault := hfault
    cases hm
  cases control with
  | codegen => exact sound_codegen h hm
  | codegenFunctionDecl decl =>
    cases hm
    exact sound_codegenFunctionDecl h
  | consumeFunctionDecl decl insts =>
    cases hm
    exact sound_consumeFunctionDecl h
  | generateFunctionDecl decl refs =>
    cases hm
    exact sound_generateFunctionDecl h
  | functionResult function => exact sound_returnFunction h hm
  | lookupInstantiation inst requiresCompleted =>
    cases hm
    exact sound_lookupInstantiation h
  | lookupResult function => exact sound_returnLookup h hm
  | instantiate inst requiresCompleted =>
    cases hm
    exact sound_instantiate h
  | unitResult unit => exact sound_returnUnit h hm
  | codegenMetaDecl decl =>
    cases hm
    exact sound_codegenMetaDecl h
  | consumeMetaDecl decl insts =>
    cases hm
    exact sound_consumeMetaDecl h
  | generateMetaDecl decl refs =>
    cases hm
    exact sound_generateMetaDecl h
  | metaFunctionResult metaFunction => exact sound_returnMetaFunction h hm
  | generateJumpPad inst refs =>
    cases hm
    exact sound_generateJumpPad h
  | resolveDependencies => exact sound_resolveDependencies h hm
  | pull function =>
    cases hm
    exact sound_pull h
  | resolved success => exact sound_returnResolved h hm
  | invoke inst =>
    cases hm
    exact sound_invoke h
  | finished success => cases hm
  | failed fault => cases hm

/-- Every configuration of a run is sound. -/
theorem Reachable.sound {reads : Reads} {a : AST} {m : Config} (h : Reachable reads a m) :
    m.Sound := by
  induction h with
  | refl =>
    refine .inr ⟨trivial, fun _ hf => absurd hf List.not_mem_nil, .none, trivial,
      .quiet rfl fun _ hf => absurd hf List.not_mem_nil, fun _ _ hbody => ?_⟩
    cases hbody
  | tail _ hstep ih =>
    obtain ⟨choice, -, hstep⟩ := hstep
    exact ih.step hstep

/-- Only finished functions are pulled. While the body of a function is generated neither a jump pad
is invoked nor a function is pulled, since the instantiations that the body looks up are cached. The
function that `resolveGlobal` returns, which is pulled then, has a body that was generated to its
end. -/
theorem pulls_finished {reads : Reads} {a : AST} {m : Config} (h : Reachable reads a m) :
    (∀ inst, m.control = .invoke inst → ∀ decl, ¬Generates decl m.control m.stack) ∧
    (∀ function, m.control = .pull function → (∀ decl, ¬Generates decl m.control m.stack) ∧
      ∃ callees, m.state.bodies function = some (.finished callees)) ∧
    (∀ function stack, m.control = .functionResult (some function) →
      m.stack = .resolveDependencies :: stack →
      ∃ callees, m.state.bodies function = some (.finished callees)) ∧
    ∀ inst decl refs stack, m.control = .lookupInstantiation inst true →
      m.stack = .generateFunctionDecl decl refs :: stack →
      (m.state.getCachedInstantiationOf inst).isSome = true := by
  obtain ⟨control, stack, s⟩ := m
  rcases h.sound with ⟨fault, rfl⟩ | h
  · exact ⟨nofun, nofun, nofun, nofun⟩
  have hquiet (hc : control.mayGenerate = false) (hg : control.isGenerating = false)
      (decl : NodeId) : ¬Generates decl control stack := by
    rintro (⟨refs, rfl⟩ | ⟨refs, hmem⟩)
    · exact Bool.noConfusion hg
    · exact Bool.noConfusion (h.disciplined.quiet_of hc _ hmem)
  have hfinished (hc : control.mayGenerate = false) (hg : control.isGenerating = false)
      {function : NodeId} (hbody : s.isDeclaration function = false) :
      ∃ callees, s.bodies function = some (.finished callees) := by
    unfold State.isDeclaration at hbody
    rcases hold : s.bodies function with _ | ⟨callees⟩ | ⟨callees⟩
    · rw [hold] at hbody
      cases hbody
    · exact absurd hold (h.not_entered hg (h.disciplined.quiet_of hc) function callees)
    · exact ⟨callees, rfl⟩
  refine ⟨?_, ?_, ?_, ?_⟩
  · rintro inst rfl
    exact hquiet rfl rfl
  · rintro function rfl
    exact ⟨hquiet rfl rfl, hfinished rfl rfl h.sound⟩
  · rintro function stack' rfl -
    exact hfinished rfl rfl h.sound
  · rintro inst decl refs stack' rfl rfl
    have hawaited := h.awaits inst rfl
    obtain ⟨unit, hunit, -⟩ : s.Usable inst := by
      have hloop : GeneratesFunction s decl refs := h.frames _ List.mem_cons_self
      refine hloop.2 inst ?_
      rcases refs with _ | ⟨ref, refs⟩
      · cases hawaited
      · cases ref with
        | function callee => cases hawaited
        | instantiation i =>
          obtain rfl := Option.some.inj hawaited
          exact List.mem_cons_self
    rw [hunit]
    rfl

/-- `g() -> {} m<> -> { meta { g(); } m() -> {} } f() -> { m<>(); }`, where `g` is pulled for the
meta function of `m`. -/
theorem pulls_finished_callee :
    ∃ (a : AST) (m : Config), Reachable (fun _ _ _ => True) a m ∧ m.control = .pull 1 ∧
      (∀ decl, ¬Generates decl m.control m.stack) ∧
      ∃ callees, m.state.bodies 1 = some (.finished callees) := by
  let a : AST := .node { node := ⟨0, .compilationUnit⟩ }
    [.node { node := ⟨1, .functionDecl "g"⟩ }
        [.node { node := ⟨2, .argumentDeclList⟩ } [], .node { node := ⟨3, .compoundStmt⟩ } []],
      .node { node := ⟨4, .metaDecl "m"⟩ }
        [.node { node := ⟨5, .argumentDeclList⟩ } [],
          .node { node := ⟨6, .metaContribution⟩ }
            [.node { node := ⟨7, .metaCalculationStmt⟩ }
                [.node { node := ⟨8, .unscopedCompoundStmt⟩ }
                  [.node { node := ⟨9, .expressionStmt⟩ }
                    [.node { node := ⟨10, .callOperatorExpr⟩ }
                      [.node { node := ⟨11, .declRefExpr "g"⟩,
                               decl := some ⟨1, .functionDecl "g"⟩ } []]]]],
              .node { node := ⟨12, .functionDecl "m"⟩ }
                [.node { node := ⟨13, .argumentDeclList⟩ } [],
                  .node { node := ⟨14, .compoundStmt⟩ } []]]],
      .node { node := ⟨15, .functionDecl "f"⟩ }
        [.node { node := ⟨16, .argumentDeclList⟩ } [],
          .node { node := ⟨17, .compoundStmt⟩ }
            [.node { node := ⟨18, .expressionStmt⟩ }
              [.node { node := ⟨19, .callOperatorExpr⟩ }
                [.node { node := ⟨20, .metaInstantiationExpr⟩ }
                  [.node { node := ⟨21, .declRefExpr "m"⟩, decl := some ⟨4, .metaDecl "m"⟩ }
                    []]]]]]]
  let choices : List Choice := { index := 2 } :: List.replicate 15 {}
  let m : Config := (run choices (start a)).getD (start a)
  have hrun : run choices (start a) = some m := by rfl
  have hreachable : Reachable (fun _ _ _ => True) a m :=
    Reachable.run .refl hrun
  have hpull : m.control = .pull 1 := by rfl
  exact ⟨a, m, hreachable, hpull, (pulls_finished hreachable).2.1 1 hpull⟩

end CodegenInstance

end Swy
