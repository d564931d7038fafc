import Mathlib.Order.WellFounded
import Swy.Codegen.Moves
import Swy.Library.Work

/-!
# Runs are finite

Which programs the code generation comes to an end for. A run only goes on for ever if
instantiations depend on each other in a circle: through the instantiations in what they
instantiate, through those in what was instantiated, or through the functions that their arguments
call. Where every instantiation has a rank above all of these (`Ranks`), each step replaces work by
lighter work, so that every run is finite, and each one comes to an end by itself or by a failed
assertion (`codegen_ends`). Meta declarations that instantiate each other in a circle have no such
ranks, and nothing stops a run that generates one of them (`instantiates_in_circle`).
-/

namespace Swy

open Library

/-! ## Ranks -/

/-- The least rank of an instantiation that may depend on the reference. -/
def Reference.rankIn (rank : NodeId → Nat) : Reference → Nat
  | .function decl => rank decl + 1
  | .instantiation inst => rank inst.label.node.id

/-- No instantiation in the declaration depends on itself: its rank is above the ranks of the meta
declaration it instantiates and of what its arguments refer to. -/
structure AST.Ranked (rank : NodeId → Nat) (a : AST) : Prop where
  decl : ∀ inst ∈ a.consumeAll, rank inst.label.node.id ≤ rank a.label.node.id
  target : ∀ inst ∈ a.consumeAll, ∀ d,
    inst.children.head?.bind (fun declRef => declRef.label.decl) = some d →
      rank d.id < rank inst.label.node.id
  arguments : ∀ inst ∈ a.consumeAll, ∀ ref ∈ AST.allReferences inst.children.tail,
    ref.rankIn rank ≤ rank inst.label.node.id

namespace CodegenInstance

/-- The rank of the instantiation is above the ranks of everything in the unit. -/
structure MetaUnit.RankedBelow (rank : NodeId → Nat) (bound : Nat) (unit : MetaUnit) : Prop where
  declarations : ∀ c ∈ unit.ast.children, AST.Ranked rank c
  consumed : ∀ c ∈ unit.ast.children, ∀ inst ∈ AST.consumeAll c,
    rank inst.label.node.id < bound
  exported : ∀ e, unit.exportedNode = some e → rank e.id < bound

/-- No instantiation in the state depends on itself. -/
structure Ranks (rank : NodeId → Nat) (s : State) : Prop where
  declarations : ∀ c ∈ s.declarations, AST.Ranked rank c
  instantiations : ∀ entry ∈ s.instantiations, entry.2.RankedBelow rank (rank entry.1)

/-! ## The work -/

/-- The weights of the references that are still to be looked up. -/
def referencesWork (rank : NodeId → Nat) (refs : List Reference) : Multiset Nat :=
  (refs.map fun ref => 16 * ref.rankIn rank + 12 : List Nat)

/-- The weights of the instantiations that are still to be consumed. -/
def instantiationsWork (rank : NodeId → Nat) (insts : List AST) : Multiset Nat :=
  (insts.map fun inst => 16 * (rank inst.label.node.id + 1) + 4 : List Nat)

/-- The work of the current method. A weight is above those of what is called for it, which have a
lower rank or are lighter at the same rank. -/
def Control.work (rank : NodeId → Nat) (s : State) : Control → Multiset Nat
  | codegen => {1}
  | codegenFunctionDecl decl => if s.isDeclaration decl then {16 * (rank decl + 1) + 6} else {3}
  | consumeFunctionDecl _ insts | consumeMetaDecl _ insts => instantiationsWork rank insts + {4}
  | generateFunctionDecl _ refs | generateMetaDecl _ refs | generateJumpPad _ refs =>
    referencesWork rank refs + {4}
  | lookupInstantiation inst false => {16 * (rank inst.label.node.id + 1) + 3}
  | lookupInstantiation _ true => {4}
  | instantiate inst false => {16 * (rank inst.label.node.id + 1) + 2}
  | instantiate _ true | resolveDependencies => {3}
  | codegenMetaDecl decl => {16 * (rank decl + 1) + 6}
  | functionResult _ | metaFunctionResult _ | resolved _ | invoke _ => {2}
  | lookupResult _ | unitResult _ => {1}
  | pull _ => {0}
  | finished _ | failed _ => 0

/-- The work of a call that waits. What was looked up for the first reference may become a
dependency. -/
def Frame.work (rank : NodeId → Nat) : Frame → Multiset Nat
  | codegen => {1}
  | consumeFunctionDecl _ insts | consumeMetaDecl _ insts =>
    instantiationsWork rank insts.tail + {4}
  | generateFunctionDecl _ refs | generateMetaDecl _ refs | generateJumpPad _ refs =>
    ((refs.take 1).map fun ref => 16 * ref.rankIn rank + 10 : List Nat) +
      (referencesWork rank refs.tail + {4})
  | lookupInstantiation _ => {2}
  | instantiate inst => referencesWork rank (AST.allReferences inst.children.tail) + {5}
  | shipToJIT _ | resolveDependencies => {3}

/-- The work of the calls on the stack. -/
def stackWork (rank : NodeId → Nat) (stack : List Frame) : Multiset Nat :=
  (stack.map (Frame.work rank)).sum

theorem stackWork_nil {rank : NodeId → Nat} : stackWork rank [] = 0 := rfl

theorem stackWork_singleton {rank : NodeId → Nat} (frame : Frame) :
    stackWork rank [frame] = frame.work rank := by simp [stackWork]

/-- The node is not a function, or it has a body. -/
def State.isSettled (s : State) (dependency : NodeId × ASTKind) : Bool :=
  dependency.2 != .functionDecl || !s.isDeclaration dependency.1

/-- The work of the dependencies. -/
def State.work (rank : NodeId → Nat) (s : State) : Multiset Nat :=
  (s.unresolvedDependencies.map fun d => 16 * (rank d.function + 1) + 8 : List Nat) +
    ((s.dependencies.filter s.isSettled).map fun _ => 5 : List Nat)

/-- The work that is left in a configuration. -/
def Config.work (rank : NodeId → Nat) (m : Config) : Multiset Nat :=
  m.control.work rank m.state + stackWork rank m.stack + m.state.work rank

/-! ## What is used up -/

/-- How often the run may still be stopped, by a failed assertion and by an error. -/
def Config.unstopped (m : Config) : Nat :=
  (if m.control.isEnd then 0 else 1) + if m.state.hasErrors then 0 else 1

/-- The ranks of what is not instantiated yet. -/
def State.uninstantiated (rank : NodeId → Nat) (s : State) : Multiset Nat :=
  ((s.consumed.filter fun inst => (s.getCachedInstantiationOf inst).isNone).map
    fun inst => rank inst.label.node.id : List Nat)

/-- How many functions and meta functions are not available yet. -/
def State.unavailable (s : State) : Nat :=
  s.declarations.countP (fun c => !s.isGlobalResolved (.function c.label.node.id)) +
    s.declarations.countP fun c => !s.isGlobalResolved (.metaFunction c.label.node.id)

/-- The function that the worklist waits for. -/
def waitedFor : Option NodeId → List Frame → Option NodeId
  | _, [] => none
  | above, .codegen :: _ => above
  | _, frame :: stack => waitedFor frame.function stack

/-- How many functions are to be begun, and whether the worklist does not wait for one of them. -/
def Config.unbegun (m : Config) : Nat :=
  if m.state.hasErrors then 0
  else 2 * m.state.declarations.countP (fun c => m.state.isDeclaration c.label.node.id) +
    if (waitedFor m.control.function m.stack).any m.state.isDeclaration then 0 else 1

/-- A configuration is ahead of another one: it is stopped, or it has instantiated more, or it has
made more functions available, or it has begun more functions, or less work is left in it. -/
def Ahead (rank : NodeId → Nat) (m' m : Config) : Prop :=
  Prod.Lex (· < ·) (Prod.Lex Multiset.IsDershowitzMannaLT (Prod.Lex (· < ·)
    (Prod.Lex (· < ·) Multiset.IsDershowitzMannaLT)))
    (m'.unstopped, m'.state.uninstantiated rank, m'.state.unavailable, m'.unbegun, m'.work rank)
    (m.unstopped, m.state.uninstantiated rank, m.state.unavailable, m.unbegun, m.work rank)

theorem wellFounded_ahead (rank : NodeId → Nat) : WellFounded (Ahead rank) :=
  InvImage.wf (fun m : Config =>
      (m.unstopped, m.state.uninstantiated rank, m.state.unavailable, m.unbegun, m.work rank))
    (wellFounded_lt.prod_lex (Multiset.wellFounded_isDershowitzMannaLT.prod_lex
      (wellFounded_lt.prod_lex (wellFounded_lt.prod_lex
        Multiset.wellFounded_isDershowitzMannaLT))))

namespace State

variable {rank : NodeId → Nat} {s s' : State}

/-- Nothing is used up between the states. -/
structure Alike (s s' : State) : Prop extends SameText s s' where
  hasErrors : s'.hasErrors = s.hasErrors
  availableSymbols : s'.availableSymbols = s.availableSymbols
  isDeclaration : ∀ f, s'.isDeclaration f = s.isDeclaration f

theorem Alike.refl (s : State) : s.Alike s := ⟨.refl s, rfl, rfl, fun _ => rfl⟩

theorem alike_lookupGlobal (s : State) (function : NodeId) : s.Alike (s.lookupGlobal function) :=
  ⟨⟨rfl, rfl⟩, rfl, rfl, fun _ => rfl⟩

theorem alike_addCallee (s : State) (function callee : NodeId) :
    s.Alike (s.addCallee function callee) :=
  ⟨⟨rfl, rfl⟩, rfl, rfl, s.isDeclaration_addCallee function callee⟩

theorem Alike.trans {s'' : State} (h : s.Alike s') (h' : s'.Alike s'') : s.Alike s'' where
  compilationUnit := h'.compilationUnit.trans h.compilationUnit
  instantiations := h'.instantiations.trans h.instantiations
  hasErrors := h'.hasErrors.trans h.hasErrors
  availableSymbols := h'.availableSymbols.trans h.availableSymbols
  isDeclaration f := (h'.isDeclaration f).trans (h.isDeclaration f)

theorem alike_leaveBody (s : State) (kept : NodeId → Bool) (function : NodeId) :
    s.Alike (s.leaveBody kept function) := by
  refine ⟨⟨rfl, rfl⟩, rfl, rfl, fun f => ?_⟩
  by_cases hf : f = function
  · subst hf
    simp [leaveBody, State.isDeclaration]
  · simp [leaveBody, State.isDeclaration, Function.update_of_ne hf]

theorem alike_lookupFromExecutor (s : State) (callee : NodeId) (dependency : Dependency) :
    s.Alike (lookupFromExecutor s callee dependency) := by
  have hkeeps := s.keeps_lookupFromExecutor callee dependency
  refine ⟨hkeeps.sameText, hkeeps.hasErrors, by simp, fun f => ?_⟩
  rw [State.isDeclaration, hkeeps.bodies, State.isDeclaration]

theorem Alike.controlWork (h : s.Alike s') (control : Control) :
    control.work rank s' = control.work rank s := by
  cases control with
  | lookupInstantiation inst requiresCompleted | instantiate inst requiresCompleted =>
    cases requiresCompleted <;> rfl
  | codegenFunctionDecl decl => simp only [Control.work, h.isDeclaration]
  | _ => rfl

theorem Alike.isSettled (h : s.Alike s') : s'.isSettled = s.isSettled := by
  funext dependency
  rw [State.isSettled, h.isDeclaration, State.isSettled]

theorem Alike.work (h : s.Alike s')
    (hunresolved : s'.unresolvedDependencies = s.unresolvedDependencies)
    (hdependencies : s'.dependencies = s.dependencies) : s'.work rank = s.work rank := by
  simp only [State.work, hunresolved, hdependencies, h.isSettled]

/-- A function that is looked up is settled, or it has to be begun. -/
theorem work_lookupGlobal (s : State) (function : NodeId) :
    (s.lookupGlobal function).work rank = s.work rank := by
  have hsettled : (s.lookupGlobal function).dependencies.filter s.isSettled =
      s.dependencies.filter s.isSettled := by
    unfold State.lookupGlobal
    dsimp only
    split
    · rename_i hbody
      by_cases hmem : (function, .functionDecl) ∈ s.dependencies
      · rw [List.insert_of_mem hmem]
      · rw [List.insert_of_not_mem hmem, List.filter_cons_of_neg]
        simp [State.isSettled, hbody]
    · rfl
  rw [State.work, (s.alike_lookupGlobal function).isSettled, hsettled]
  rfl

/-- What is looked up by the executor may become a dependency. -/
theorem work_lookupFromExecutor (s : State) (callee : NodeId) {dependency : Dependency}
    (hdependency : dependency.function = callee) :
    (lookupFromExecutor s callee dependency).work rank ≤
      s.work rank + {16 * (rank callee + 1) + 8} := by
  have halike := s.alike_lookupFromExecutor callee dependency
  have hunresolved : (lookupFromExecutor s callee dependency).unresolvedDependencies =
      s.unresolvedDependencies ∨
      (lookupFromExecutor s callee dependency).unresolvedDependencies =
        dependency :: s.unresolvedDependencies := by
    unfold lookupFromExecutor requireGlobal setGlobalAsUnresolved
    split
    · exact .inl rfl
    · by_cases hmem : dependency ∈ s.unresolvedDependencies
      · exact .inl (List.insert_of_mem hmem)
      · exact .inr (List.insert_of_not_mem hmem)
  have hdependencies : (lookupFromExecutor s callee dependency).dependencies = s.dependencies := by
    unfold lookupFromExecutor requireGlobal
    split <;> rfl
  rcases hunresolved with hsame | hcons
  · rw [halike.work hsame hdependencies]
    exact Multiset.le_add_right _ _
  · apply le_of_eq
    simp only [State.work, hcons, hdependencies, halike.isSettled, List.map_cons, hdependency,
      ← Multiset.cons_coe, ← Multiset.singleton_add]
    rw [add_assoc, add_comm]

end State

/-! ## Less work is left -/

section Ahead

variable {rank : NodeId → Nat} {m m' : Config}

theorem Ahead.of_unstopped (h : m'.unstopped < m.unstopped) : Ahead rank m' m := .left _ _ h

theorem Ahead.of_uninstantiated (hunstopped : m'.unstopped = m.unstopped)
    (h : (m'.state.uninstantiated rank).IsDershowitzMannaLT (m.state.uninstantiated rank)) :
    Ahead rank m' m := by
  rw [Ahead, hunstopped]
  exact .right _ (.left _ _ h)

theorem State.SameText.uninstantiated {s s' : State} (h : s.SameText s') :
    s'.uninstantiated rank = s.uninstantiated rank := by
  simp only [State.uninstantiated, h.consumed, h.cached]

theorem Ahead.of_unavailable (hunstopped : m'.unstopped = m.unstopped)
    (htext : m.state.SameText m'.state) (h : m'.state.unavailable < m.state.unavailable) :
    Ahead rank m' m := by
  rw [Ahead, hunstopped, htext.uninstantiated]
  exact .right _ (.right _ (.left _ _ h))

theorem Ahead.of_unbegun (hunstopped : m'.unstopped = m.unstopped)
    (htext : m.state.SameText m'.state)
    (havailable : m'.state.availableSymbols = m.state.availableSymbols)
    (h : m'.unbegun < m.unbegun) : Ahead rank m' m := by
  have hunavailable : m'.state.unavailable = m.state.unavailable := by
    simp only [State.unavailable, htext.declarations, State.isGlobalResolved, havailable]
  rw [Ahead, hunstopped, htext.uninstantiated, hunavailable]
  exact .right _ (.right _ (.right _ (.left _ _ h)))

theorem Ahead.of_work (hunstopped : m'.unstopped = m.unstopped) (halike : m.state.Alike m'.state)
    (hunbegun : m'.unbegun = m.unbegun) (h : (m'.work rank).IsDershowitzMannaLT (m.work rank)) :
    Ahead rank m' m := by
  have hunavailable : m'.state.unavailable = m.state.unavailable := by
    simp only [State.unavailable, halike.declarations, State.isGlobalResolved,
      halike.availableSymbols]
  rw [Ahead, hunstopped, halike.uninstantiated, hunavailable, hunbegun]
  exact .right _ (.right _ (.right _ (.right _ h)))

/-- The worklist waits for a function that is still to be begun. -/
def Config.waitsToBegin (m : Config) : Bool :=
  (waitedFor m.control.function m.stack).any m.state.isDeclaration

variable {control control' : Control} {s s' : State}

/-- Frames are popped and pushed, and some work of the method, of these frames and of the state is
replaced. -/
theorem Ahead.replace (popped pushed : List Frame) {stack : List Frame} (X Y Z : Multiset Nat)
    (halike : s.Alike s') (hend : control.isEnd = false) (hend' : control'.isEnd = false)
    (hwaits : s.hasErrors = false → Config.waitsToBegin ⟨control', pushed ++ stack, s⟩ =
      Config.waitsToBegin ⟨control, popped ++ stack, s⟩)
    (hold : control.work rank s + stackWork rank popped + s.work rank = X + Z)
    (hnew : control'.work rank s + stackWork rank pushed + s'.work rank ≤ X + Y) (hZ : Z ≠ 0)
    (h : ∀ y ∈ Y, ∃ z ∈ Z, y < z) :
    Ahead rank ⟨control', pushed ++ stack, s'⟩ ⟨control, popped ++ stack, s⟩ := by
  refine .of_work ?_ halike ?_ ?_
  · simp only [Config.unstopped, hend, hend', halike.hasErrors]
  · simp only [Config.unbegun, halike.hasErrors, halike.declarations, funext halike.isDeclaration]
    by_cases herrors : s.hasErrors = true
    · simp only [herrors, if_true]
    · have hwaits := hwaits (Bool.eq_false_iff.2 herrors)
      simp only [Config.waitsToBegin] at hwaits
      simp only [herrors, hwaits]
  · refine lt_of_replace (X + stackWork rank stack) Y Z ?_ ?_ hZ h
    · simp only [Config.work, halike.controlWork]
      simp only [stackWork, List.map_append, List.sum_append] at hnew ⊢
      calc control'.work rank s + ((pushed.map (Frame.work rank)).sum +
            (stack.map (Frame.work rank)).sum) + s'.work rank
          = control'.work rank s + (pushed.map (Frame.work rank)).sum + s'.work rank +
            (stack.map (Frame.work rank)).sum := by ac_rfl
        _ ≤ X + Y + (stack.map (Frame.work rank)).sum := add_le_add hnew le_rfl
        _ = X + (stack.map (Frame.work rank)).sum + Y := by ac_rfl
    · simp only [Config.work]
      simp only [stackWork, List.map_append, List.sum_append] at hold ⊢
      calc control.work rank s + ((popped.map (Frame.work rank)).sum +
            (stack.map (Frame.work rank)).sum) + s.work rank
          = control.work rank s + (popped.map (Frame.work rank)).sum + s.work rank +
            (stack.map (Frame.work rank)).sum := by ac_rfl
        _ = X + Z + (stack.map (Frame.work rank)).sum := by rw [hold]
        _ = X + (stack.map (Frame.work rank)).sum + Z := by ac_rfl

/-- One piece of work is replaced, and the work of the state is the same. -/
theorem Ahead.exchange (popped pushed : List Frame) {stack : List Frame} (X Y : Multiset Nat)
    (z : Nat) (halike : s.Alike s') (hend : control.isEnd = false) (hend' : control'.isEnd = false)
    (hwaits : s.hasErrors = false → Config.waitsToBegin ⟨control', pushed ++ stack, s⟩ =
      Config.waitsToBegin ⟨control, popped ++ stack, s⟩) (hstate : s'.work rank = s.work rank)
    (hold : control.work rank s + stackWork rank popped = {z} + X)
    (hnew : control'.work rank s + stackWork rank pushed ≤ Y + X) (h : ∀ y ∈ Y, y < z) :
    Ahead rank ⟨control', pushed ++ stack, s'⟩ ⟨control, popped ++ stack, s⟩ := by
  refine .replace popped pushed (X + s.work rank) Y {z} halike hend hend' hwaits ?_ ?_
    (Multiset.singleton_ne_zero z) fun y hy => ⟨z, Multiset.mem_singleton_self z, h y hy⟩
  · rw [hold]
    ac_rfl
  · calc control'.work rank s + stackWork rank pushed + s'.work rank ≤ Y + X + s.work rank := by
          rw [hstate]
          exact add_le_add hnew le_rfl
      _ = X + s.work rank + Y := by ac_rfl

/-- The method goes on with lighter work. -/
theorem Ahead.goto {stack : List Frame} (X Y : Multiset Nat) (z : Nat) (halike : s.Alike s')
    (hend : control.isEnd = false) (hend' : control'.isEnd = false)
    (hwaits : s.hasErrors = false → Config.waitsToBegin ⟨control', stack, s⟩ =
      Config.waitsToBegin ⟨control, stack, s⟩) (hstate : s'.work rank = s.work rank)
    (hold : control.work rank s = {z} + X) (hnew : control'.work rank s ≤ Y + X)
    (h : ∀ y ∈ Y, y < z) : Ahead rank ⟨control', stack, s'⟩ ⟨control, stack, s⟩ := by
  refine .exchange [] [] X Y z halike hend hend' hwaits hstate ?_ ?_ h
  · rw [hold, stackWork_nil, add_zero]
  · rwa [stackWork_nil, add_zero]

/-- The method calls another one, whose work is lighter. -/
theorem Ahead.call {stack : List Frame} {frame : Frame} (X Y : Multiset Nat) (z : Nat)
    (halike : s.Alike s') (hend : control.isEnd = false) (hend' : control'.isEnd = false)
    (hwaits : s.hasErrors = false → Config.waitsToBegin ⟨control', frame :: stack, s⟩ =
      Config.waitsToBegin ⟨control, stack, s⟩) (hstate : s'.work rank = s.work rank)
    (hold : control.work rank s = {z} + X) (hnew : control'.work rank s + frame.work rank ≤ Y + X)
    (h : ∀ y ∈ Y, y < z) : Ahead rank ⟨control', frame :: stack, s'⟩ ⟨control, stack, s⟩ := by
  refine .exchange [] [frame] X Y z halike hend hend' hwaits hstate ?_ ?_ h
  · rw [hold, stackWork_nil, add_zero]
  · rwa [stackWork_singleton]

/-- The work of the method is done, and the call below goes on. -/
theorem Ahead.returned {stack : List Frame} {frame : Frame} (X Y : Multiset Nat) (z : Nat)
    (halike : s.Alike s') (hend : control.isEnd = false) (hend' : control'.isEnd = false)
    (hwaits : s.hasErrors = false → Config.waitsToBegin ⟨control', stack, s⟩ =
      Config.waitsToBegin ⟨control, frame :: stack, s⟩) (hstate : s'.work rank = s.work rank)
    (hold : control.work rank s + frame.work rank = {z} + X) (hnew : control'.work rank s ≤ Y + X)
    (h : ∀ y ∈ Y, y < z) : Ahead rank ⟨control', stack, s'⟩ ⟨control, frame :: stack, s⟩ := by
  refine .exchange [frame] [] X Y z halike hend hend' hwaits hstate ?_ ?_ h
  · rw [stackWork_singleton, hold]
  · rwa [stackWork_nil, add_zero]

end Ahead

/-! ## Every move -/

section Moves

variable {rank : NodeId → Nat} {m m' : Config} {s : State}

theorem Ranks.cached (h : Ranks rank s) {inst : AST} {unit : MetaUnit}
    (hcached : s.getCachedInstantiationOf inst = some unit) :
    unit.RankedBelow rank (rank inst.label.node.id) := by
  obtain ⟨entry, hentry, rfl⟩ := Option.map_eq_some_iff.1 hcached
  have haddress : entry.1 = inst.label.node.id := by simpa using List.find?_some hentry
  rw [← haddress]
  exact h.instantiations entry (List.mem_of_find?_eq_some hentry)

theorem mem_instantiationsWork {insts : List AST} {y : Nat}
    (h : y ∈ instantiationsWork rank insts) :
    ∃ inst ∈ insts, y = 16 * (rank inst.label.node.id + 1) + 4 := by
  obtain ⟨inst, hinst, rfl⟩ := List.mem_map.1 (Multiset.mem_coe.1 h)
  exact ⟨inst, hinst, rfl⟩

theorem mem_referencesWork {refs : List Reference} {y : Nat} (h : y ∈ referencesWork rank refs) :
    ∃ ref ∈ refs, y = 16 * ref.rankIn rank + 12 := by
  obtain ⟨ref, href, rfl⟩ := List.mem_map.1 (Multiset.mem_coe.1 h)
  exact ⟨ref, href, rfl⟩

/-- What a declaration consumes is lighter than the declaration. -/
theorem lt_of_consumed (hranks : Ranks rank s) {decl : NodeId} {a : AST} {insts : List AST}
    (ha : s.declaringNode decl = some a) (hinsts : ∀ inst ∈ insts, inst ∈ a.consumeAll) :
    ∀ y ∈ instantiationsWork rank insts + {4}, y < 16 * (rank decl + 1) + 6 := by
  intro y hy
  rcases Multiset.mem_add.1 hy with hy | hy
  · obtain ⟨inst, hinst, rfl⟩ := mem_instantiationsWork hy
    have hrank := (hranks.declarations a (State.mem_declarations ha)).decl inst (hinsts inst hinst)
    rw [State.id_of_declaringNode ha] at hrank
    omega
  · rw [Multiset.mem_singleton.1 hy]
    omega

/-- What is called for an instantiation is lighter than the instantiation. -/
theorem lt_of_target (hranks : Ranks rank s) {inst : AST} {d : Node} (hinst : inst ∈ s.consumed)
    (hd : inst.children.head?.bind (fun declRef => declRef.label.decl) = some d) :
    ∀ y ∈ ({16 * (rank d.id + 1) + 6} +
      (referencesWork rank (AST.allReferences inst.children.tail) + {5}) : Multiset Nat),
      y < 16 * (rank inst.label.node.id + 1) + 2 := by
  obtain ⟨c, hc, hinst⟩ := List.mem_flatMap.1 hinst
  intro y hy
  rcases Multiset.mem_add.1 hy with hy | hy
  · have hrank := (hranks.declarations c hc).target inst hinst d hd
    rw [Multiset.mem_singleton.1 hy]
    omega
  rcases Multiset.mem_add.1 hy with hy | hy
  · obtain ⟨ref, href, rfl⟩ := mem_referencesWork hy
    have hrank := (hranks.declarations c hc).arguments inst hinst ref href
    omega
  · rw [Multiset.mem_singleton.1 hy]
    omega

/-- A function whose body is entered is begun. -/
theorem ahead_enter {decl : NodeId} {a : AST} {control control' : Control} {stack : List Frame}
    (hend : control.isEnd = false) (hend' : control'.isEnd = false) (herrors : s.hasErrors = false)
    (hbody : s.isDeclaration decl = true) (ha : s.declaringNode decl = some a) :
    Ahead rank ⟨control', stack, s.enterBody decl⟩ ⟨control, stack, s⟩ := by
  refine .of_unbegun ?_ ⟨rfl, rfl⟩ rfl ?_
  · simp only [Config.unstopped, hend, hend']
    rfl
  have hdecl := State.id_of_declaringNode ha
  have hself : (s.enterBody decl).isDeclaration decl = false := by
    simp [State.enterBody, State.isDeclaration]
  have hother (f : NodeId) (hf : (s.enterBody decl).isDeclaration f = true) :
      s.isDeclaration f = true := by
    by_cases hfd : f = decl
    · rw [hfd]
      exact hbody
    · simpa [State.enterBody, State.isDeclaration, Function.update_of_ne hfd] using hf
  have hlt := countP_lt (p := fun c : AST => (s.enterBody decl).isDeclaration c.label.node.id)
    (q := fun c : AST => s.isDeclaration c.label.node.id) (fun c => hother c.label.node.id)
    (State.mem_declarations ha) (by rw [hdecl]; exact hself) (by rw [hdecl]; exact hbody)
  have herrors' : (s.enterBody decl).hasErrors = false := herrors
  have hdeclarations : (s.enterBody decl).declarations = s.declarations := rfl
  simp only [Config.unbegun, herrors, herrors', hdeclarations, Bool.false_eq_true, if_false]
  split_ifs <;> omega

/-- A function or a meta function that is defined for the executor is available. -/
theorem ahead_available {s' : State} {symbol : Symbol} {decl : NodeId} {a : AST}
    {control control' : Control} {stack : List Frame} (hend : control.isEnd = false)
    (hend' : control'.isEnd = false) (htext : s.SameText s') (herrors : s'.hasErrors = s.hasErrors)
    (havailable : s'.availableSymbols = s.availableSymbols.insert symbol)
    (hsymbol : symbol = .function decl ∨ symbol = .metaFunction decl)
    (hresolved : s.isGlobalResolved symbol = false) (ha : s.declaringNode decl = some a) :
    Ahead rank ⟨control', stack, s'⟩ ⟨control, stack, s⟩ := by
  refine .of_unavailable (by simp only [Config.unstopped, hend, hend', herrors]) htext ?_
  have hkeeps (x : Symbol) (hx : (!s'.isGlobalResolved x) = true) :
      (!s.isGlobalResolved x) = true := by
    rw [Bool.not_eq_true', Bool.eq_false_iff, ne_eq, State.mem_isGlobalResolved] at hx ⊢
    intro hmem
    apply hx
    rw [havailable]
    exact List.mem_insert_of_mem hmem
  have hself : (!s'.isGlobalResolved symbol) = false := by
    rw [Bool.not_eq_false', State.mem_isGlobalResolved, havailable]
    exact List.mem_insert_self
  have hnew : (!s.isGlobalResolved symbol) = true := by rw [hresolved]; rfl
  have hmem := State.mem_declarations ha
  have hdecl := State.id_of_declaringNode ha
  have hfunctions := List.countP_mono_left (l := s.declarations) fun c _ =>
    hkeeps (.function c.label.node.id)
  have hmetaFunctions := List.countP_mono_left (l := s.declarations) fun c _ =>
    hkeeps (.metaFunction c.label.node.id)
  simp only [State.unavailable, htext.declarations]
  rcases hsymbol with rfl | rfl
  · have hlt := countP_lt (fun c : AST => hkeeps (.function c.label.node.id)) hmem
      (by rw [hdecl]; exact hself) (by rw [hdecl]; exact hnew)
    omega
  · have hlt := countP_lt (fun c : AST => hkeeps (.metaFunction c.label.node.id)) hmem
      (by rw [hdecl]; exact hself) (by rw [hdecl]; exact hnew)
    omega

/-- An instantiation is read: what is in its unit has a lower rank. -/
theorem ahead_read {inst : AST} {unit : MetaUnit} {control control' : Control}
    {stack : List Frame} (hend : control.isEnd = false) (hend' : control'.isEnd = false)
    (hinst : inst ∈ s.consumed) (hcached : (s.getCachedInstantiationOf inst).isSome = false)
    (hranks : unit.RankedBelow rank (rank inst.label.node.id)) :
    Ahead rank ⟨control', stack, s.cacheInstantiationOf inst unit⟩ ⟨control, stack, s⟩ := by
  refine .of_uninstantiated (by simp only [Config.unstopped, hend, hend']; rfl) ?_
  have hconsumed : (s.cacheInstantiationOf inst unit).consumed =
      s.consumed ++ unit.ast.children.flatMap AST.consumeAll := by
    simp only [State.consumed, State.declarations_cacheInstantiationOf, List.flatMap_append]
  rw [State.uninstantiated, State.uninstantiated, hconsumed]
  refine lt_of_done (fun i hi => ?_) hinst (by simpa using hcached) ?_ fun i hi => ?_
  · simp only [State.getCachedInstantiationOf, State.cacheInstantiationOf, List.find?_append,
      Option.isNone_map, Option.isNone_or, Bool.and_eq_true] at hi ⊢
    exact hi.1
  · rw [State.cacheInstantiationOf_self unit hcached]
    rfl
  · obtain ⟨c, hc, hi⟩ := List.mem_flatMap.1 hi
    exact hranks.consumed c hc i hi

section Dependencies

variable {control control' : Control} {stack : List Frame}

theorem State.work_erase {dependency : NodeId × ASTKind} (hmem : dependency ∈ s.dependencies)
    (hsettled : s.isSettled dependency = true) :
    s.work rank =
      State.work rank { s with dependencies := s.dependencies.erase dependency } + {5} := by
  have hperm := ((List.perm_cons_erase hmem).filter s.isSettled).map fun _ => 5
  rw [List.filter_cons_of_pos hsettled, List.map_cons] at hperm
  have hwork : (((s.dependencies.filter s.isSettled).map fun _ => 5 : List Nat) : Multiset Nat) =
      (((s.dependencies.erase dependency).filter s.isSettled).map fun _ => 5 : List Nat) +
        ({5} : Multiset Nat) := by
    rw [Multiset.coe_eq_coe.2 hperm, add_comm, Multiset.singleton_add, Multiset.cons_coe]
  rw [State.work, hwork, ← add_assoc]
  rfl

theorem State.work_eraseUnresolved {dependency : Dependency}
    (hmem : dependency ∈ s.unresolvedDependencies) :
    s.work rank =
      State.work rank
        { s with unresolvedDependencies := s.unresolvedDependencies.erase dependency } +
        {16 * (rank dependency.function + 1) + 8} := by
  have hperm := (List.perm_cons_erase hmem).map fun d => 16 * (rank d.function + 1) + 8
  rw [List.map_cons] at hperm
  rw [State.work, Multiset.coe_eq_coe.2 hperm, ← Multiset.cons_coe, ← Multiset.singleton_add,
    add_assoc, add_comm]
  rfl

/-- What is looked up by the executor is lighter than the reference to it. -/
theorem ahead_lookedUp (popped : List Frame) {callee : NodeId} {dependency : Dependency}
    (X : Multiset Nat) (z : Nat) (hdependency : dependency.function = callee)
    (hend : control.isEnd = false) (hend' : control'.isEnd = false)
    (hwaits : s.hasErrors = false → Config.waitsToBegin ⟨control', stack, s⟩ =
      Config.waitsToBegin ⟨control, popped ++ stack, s⟩)
    (hold : control.work rank s + stackWork rank popped = {z} + X)
    (hnew : control'.work rank s ≤ X) (h : 16 * (rank callee + 1) + 8 < z) :
    Ahead rank ⟨control', stack, lookupFromExecutor s callee dependency⟩
      ⟨control, popped ++ stack, s⟩ := by
  refine .replace popped [] (X + s.work rank) {16 * (rank callee + 1) + 8} {z}
    (s.alike_lookupFromExecutor callee dependency) hend hend' hwaits ?_ ?_
    (Multiset.singleton_ne_zero z) fun y hy => ⟨z, Multiset.mem_singleton_self z, ?_⟩
  · rw [hold]
    ac_rfl
  · rw [stackWork_nil, add_zero, add_assoc]
    exact add_le_add hnew (s.work_lookupFromExecutor callee hdependency)
  · rwa [Multiset.mem_singleton.1 hy]

/-- What was looked up for an instantiation has a lower rank. -/
theorem lt_of_found (hranks : Ranks rank s) {function : NodeId} {inst : AST}
    (hcalled : Called ⟨.lookupResult (some function), stack, s⟩)
    (hawaited : stack.head?.bind Frame.awaited = some inst) :
    rank function < rank inst.label.node.id := by
  obtain ⟨unit, e, hcached, hexported, rfl⟩ := hcalled.found function rfl inst hawaited
  exact (hranks.cached hcached).exported e hexported

/-- The executor looked up a function for the first of the references that a call waits for. -/
theorem ahead_called (frame : Frame) {function : NodeId} {inst : AST} {refs : List Reference}
    (hrank : rank function < rank inst.label.node.id) (hend : control.isEnd = false)
    (hend' : control'.isEnd = false)
    (hwaits : s.hasErrors = false → Config.waitsToBegin ⟨control', stack, s⟩ =
      Config.waitsToBegin ⟨control, frame :: stack, s⟩)
    (hold : control.work rank s + frame.work rank =
      {1} + ({16 * rank inst.label.node.id + 10} + (referencesWork rank refs + {4})))
    (hnew : control'.work rank s = referencesWork rank refs + {4}) :
    Ahead rank ⟨control', stack, lookupFromExecutor s function (.llvmFunction function)⟩
      ⟨control, frame :: stack, s⟩ := by
  refine ahead_lookedUp [frame] (referencesWork rank refs + {4} + {1})
    (16 * rank inst.label.node.id + 10) rfl hend hend' hwaits ?_ ?_ (by omega)
  · rw [stackWork_singleton, hold, add_comm, add_assoc]
  · rw [hnew]
    exact Multiset.le_add_right _ _

/-- A dependency is resolved. -/
theorem ahead_resolve {dependency : Dependency} (hmem : dependency ∈ s.unresolvedDependencies) :
    Ahead rank ⟨.codegenFunctionDecl dependency.function, .resolveDependencies :: stack,
      { s with unresolvedDependencies := s.unresolvedDependencies.erase dependency }⟩
      ⟨.resolveDependencies, stack, s⟩ := by
  refine .replace [] [.resolveDependencies] ({3} + State.work rank
      { s with unresolvedDependencies := s.unresolvedDependencies.erase dependency })
    (Control.work rank s (.codegenFunctionDecl dependency.function))
    {16 * (rank dependency.function + 1) + 8} ⟨⟨rfl, rfl⟩, rfl, rfl, fun _ => rfl⟩ rfl rfl
    (fun _ => rfl) ?_ ?_ (Multiset.singleton_ne_zero _) fun y hy =>
      ⟨_, Multiset.mem_singleton_self _, ?_⟩
  · rw [stackWork_nil, add_zero, State.work_eraseUnresolved hmem, ← add_assoc]
    rfl
  · rw [stackWork_singleton]
    apply le_of_eq
    simp only [Frame.work]
    ac_rfl
  · simp only [Control.work] at hy
    split at hy <;> rw [Multiset.mem_singleton.1 hy] <;> omega

/-- A node of the worklist that has nothing to be generated is done. -/
theorem ahead_settled {dependency : NodeId × ASTKind} (pushed : List Frame)
    (hmem : dependency ∈ s.dependencies) (hsettled : s.isSettled dependency = true)
    (hend' : control'.isEnd = false)
    (hwaits : Config.waitsToBegin ⟨control', pushed ++ stack, s⟩ =
      Config.waitsToBegin ⟨.codegen, stack, s⟩) (Y : Multiset Nat)
    (hnew : control'.work rank s + stackWork rank pushed = {1} + Y) (h : ∀ y ∈ Y, y < 5) :
    Ahead rank
      ⟨control', pushed ++ stack, { s with dependencies := s.dependencies.erase dependency }⟩
      ⟨.codegen, stack, s⟩ := by
  refine .replace [] pushed ({1} + State.work rank
      { s with dependencies := s.dependencies.erase dependency }) Y {5}
    ⟨⟨rfl, rfl⟩, rfl, rfl, fun _ => rfl⟩ rfl hend' (fun _ => hwaits) ?_ ?_
    (Multiset.singleton_ne_zero _) fun y hy => ⟨_, Multiset.mem_singleton_self _, h y hy⟩
  · rw [stackWork_nil, add_zero, State.work_erase hmem hsettled, ← add_assoc]
    rfl
  · rw [hnew]
    apply le_of_eq
    ac_rfl

/-- A function is taken from the worklist: it has a body, or the worklist waits for it. -/
theorem ahead_take {decl : NodeId} (hmem : (decl, .functionDecl) ∈ s.dependencies)
    (herrors : s.hasErrors = false) :
    Ahead rank ⟨.codegenFunctionDecl decl, [.codegen],
      { s with dependencies := s.dependencies.erase (decl, .functionDecl) }⟩
      ⟨.codegen, [], s⟩ := by
  by_cases hbody : s.isDeclaration decl = true
  · refine .of_unbegun rfl ⟨rfl, rfl⟩ rfl ?_
    change Config.unbegun ⟨.codegenFunctionDecl decl, [.codegen], s⟩ <
      Config.unbegun ⟨.codegen, [], s⟩
    simp [Config.unbegun, herrors, waitedFor, Control.function, hbody]
  · refine ahead_settled [.codegen] hmem ?_ rfl ?_ {3} ?_ (by simp)
    · simp [State.isSettled, hbody]
    · simp [Config.waitsToBegin, waitedFor, Control.function, hbody]
    · rw [stackWork_singleton]
      simp only [Control.work, hbody, Frame.work]
      exact add_comm _ _

end Dependencies

/-- Every move is ahead. -/
theorem Moves.ahead {choice : Choice} (hm : Moves choice m m') (hcalled : Called m)
    (hsound : m.Sound) (hlinked : Linked m)
    (hunwinds : m.state.hasErrors = true → m.control.unwinds = true) (hranks : Ranks rank m.state)
    (hranks' : Ranks rank m'.state) : Ahead rank m' m := by
  have lighter {y z : Nat} (h : y < z) : ∀ x ∈ ({y} : Multiset Nat), x < z := by simpa using h
  have done {z : Nat} : ∀ x ∈ (0 : Multiset Nat), x < z := by simp
  have hcontinues (hcontrol : m.control.unwinds = false) : m.state.hasErrors = false := by
    by_contra herrors
    have hunwinds := hunwinds (by simpa using herrors)
    rw [hcontrol] at hunwinds
    cases hunwinds
  cases hm with
  | fail hcontrol herrors =>
    apply Ahead.of_unstopped
    simp only [Config.unstopped, hcontrol, herrors]
    simp [Control.isEnd]
  | drained | functionMissing =>
    apply Ahead.of_unstopped
    simp [Config.unstopped, Control.isEnd]
  | @skip dependency stack s hmem hkind =>
    refine ahead_settled [] hmem ?_ rfl rfl 0 rfl done
    simpa [State.isSettled] using .inl hkind
  | @take decl stack s hmem =>
    obtain rfl : stack = [] := by simpa [ReturnsTo, Control.returns] using hcalled.returns
    exact ahead_take hmem (hcontinues rfl)
  | @generated decl stack s hbody =>
    refine .goto 0 {2} 3 (s.alike_lookupGlobal decl) rfl rfl (fun _ => rfl)
      (s.work_lookupGlobal decl) ?_ le_rfl (lighter (by omega))
    simp [Control.work, hbody]
  | @consumeAll decl a stack s hbody ha =>
    refine .goto 0 (instantiationsWork rank a.consumeAll + {4}) (16 * (rank decl + 1) + 6)
      (s.alike_lookupGlobal decl) rfl rfl (fun _ => rfl) (s.work_lookupGlobal decl) ?_
      (Multiset.le_add_right _ _) (lt_of_consumed hranks ha fun _ hinst => hinst)
    simp [Control.work, hbody]
  | @consume decl inst insts stack s =>
    exact .call (instantiationsWork rank insts + {4}) {16 * (rank inst.label.node.id + 1) + 3}
      (16 * (rank inst.label.node.id + 1) + 4) (.refl s) rfl rfl (fun _ => rfl) rfl rfl le_rfl
      (lighter (by omega))
  | @giveUp decl stack s herrors =>
    refine .goto 0 {2} 4 (.refl s) rfl rfl (fun h => ?_) rfl rfl le_rfl (lighter (by omega))
    rw [herrors] at h
    cases h
  | enter herrors hbody ha => exact ahead_enter rfl rfl herrors hbody ha
  | @call decl callee refs stack s =>
    have halike := (s.lookupGlobal callee).alike_addCallee decl callee
    refine .goto (referencesWork rank refs + {4}) 0 _ ((s.alike_lookupGlobal callee).trans halike)
      rfl rfl (fun _ => rfl) ?_ rfl le_rfl done
    rw [halike.work rfl rfl, State.work_lookupGlobal]
  | @callInstantiation _ inst refs stack s | @callInstantiationMeta _ inst refs stack s
  | @callInstantiationJumpPad _ inst refs stack s =>
    refine .call (referencesWork rank refs + {4}) ({4} + {16 * rank inst.label.node.id + 10})
      (16 * rank inst.label.node.id + 12) (.refl s) rfl rfl (fun _ => rfl) rfl rfl le_rfl ?_
    simp
  | @leave decl stack s =>
    exact .goto 0 {2} 4 (s.alike_leaveBody choice.kept decl) rfl rfl (fun _ => rfl)
      ((s.alike_leaveBody choice.kept decl).work rfl rfl) rfl le_rfl (lighter (by omega))
  | @lookup inst requiresCompleted stack s =>
    cases requiresCompleted with
    | true =>
      refine .call 0 ({3} + {2}) 4 (.refl s) rfl rfl (fun _ => rfl) rfl rfl le_rfl ?_
      simp
    | false =>
      refine .call 0 ({16 * (rank inst.label.node.id + 1) + 2} + {2})
        (16 * (rank inst.label.node.id + 1) + 3) (.refl s) rfl rfl (fun _ => rfl) rfl rfl le_rfl ?_
      simp
  | @cached inst requiresCompleted unit stack s =>
    cases requiresCompleted with
    | true =>
      exact .goto 0 {1} 3 (.refl s) rfl rfl (fun _ => rfl) rfl rfl le_rfl (lighter (by omega))
    | false =>
      exact .goto 0 {1} _ (.refl s) rfl rfl (fun _ => rfl) rfl rfl le_rfl (lighter (by omega))
  | @instantiate inst d stack s hd =>
    exact .call 0 _ _ (.refl s) rfl rfl (fun _ => rfl) rfl rfl (le_of_eq (add_zero _).symm)
      (lt_of_target hranks (hcalled.control inst List.mem_cons_self) hd)
  | @metaGenerated decl stack s =>
    exact .goto 0 {2} _ ⟨⟨rfl, rfl⟩, rfl, rfl, fun _ => rfl⟩ rfl rfl (fun _ => rfl) rfl rfl le_rfl
      (lighter (by omega))
  | @consumeAllMeta decl a stack s ha =>
    exact .goto 0 (instantiationsWork rank a.consumeMeta + {4}) (16 * (rank decl + 1) + 6) (.refl s)
      rfl rfl (fun _ => rfl) rfl rfl (Multiset.le_add_right _ _)
      (lt_of_consumed hranks ha fun _ => AST.mem_consumeAll_of_consumeMeta a)
  | @consumeMeta decl inst insts stack s =>
    exact .call (instantiationsWork rank insts + {4}) {16 * (rank inst.label.node.id + 1) + 2}
      (16 * (rank inst.label.node.id + 1) + 4) (.refl s) rfl rfl (fun _ => rfl) rfl rfl le_rfl
      (lighter (by omega))
  | @giveUpMeta decl stack s | @leaveMeta decl stack s =>
    exact .goto 0 {2} 4 (.refl s) rfl rfl (fun _ => rfl) rfl rfl le_rfl (lighter (by omega))
  | @metaAvailable decl stack s =>
    exact .goto 0 {2} 4 ⟨⟨rfl, rfl⟩, rfl, rfl, fun _ => rfl⟩ rfl rfl (fun _ => rfl) rfl rfl le_rfl
      (lighter (by omega))
  | enterMeta hresolved ha =>
    exact ahead_available rfl rfl ⟨rfl, rfl⟩ rfl rfl (.inr rfl) hresolved ha
  | @callMeta decl callee refs stack s | @callJumpPad inst callee refs stack s =>
    refine ahead_lookedUp [] (referencesWork rank refs + {4}) (16 * (rank callee + 1) + 12) rfl rfl
      rfl (fun _ => rfl) ?_ le_rfl (by omega)
    rw [stackWork_nil, add_zero]
    rfl
  | @createJumpPadTo decl inst stack s =>
    refine .returned (referencesWork rank (AST.allReferences inst.children.tail) + {2}) {4} 5
      ⟨⟨rfl, rfl⟩, rfl, rfl, fun _ => rfl⟩ rfl rfl (fun _ => rfl) rfl ?_ ?_ (lighter (by omega))
    · simp only [Control.work, Frame.work]
      ac_rfl
    · simp only [Control.work]
      rw [add_left_comm, ← add_assoc]
      exact Multiset.le_add_right _ _
  | @noMetaFunction inst stack s =>
    refine .returned (referencesWork rank (AST.allReferences inst.children.tail) + {2}) {1} 5
      (.refl s) rfl rfl (fun _ => rfl) rfl ?_ (Multiset.le_add_right _ _) (lighter (by omega))
    simp only [Control.work, Frame.work]
    ac_rfl
  | @shipToJIT inst stack s =>
    refine .call 0 ({3} + {3}) 4 (.refl s) rfl rfl (fun _ => rfl) rfl rfl le_rfl ?_
    simp
  | @resolvedAll stack s | @notContinued inst stack s =>
    exact .goto 0 _ _ (.refl s) rfl rfl (fun _ => rfl) rfl rfl le_rfl (lighter (by omega))
  | resolve hmem => exact ahead_resolve hmem
  | @pull function body stack s hbody hresolved =>
    obtain ⟨a, ha, -⟩ := hlinked.bodies function (by simp [State.isDeclaration, hbody])
    have hkeeps := s.keeps_pull function body.callees
    exact ahead_available rfl rfl hkeeps.sameText hkeeps.hasErrors
      (s.pull_availableSymbols function body.callees) (.inl rfl) hresolved ha
  | @ship definitions inst stack s =>
    exact .returned {2} 0 3 ⟨⟨rfl, rfl⟩, rfl, rfl, fun _ => rfl⟩ rfl rfl (fun _ => rfl) rfl
      (add_comm _ _) (le_of_eq (zero_add _).symm) done
  | @notShipped inst stack s =>
    exact .returned {2} {1} 3 (.refl s) rfl rfl (fun _ => rfl) rfl (add_comm _ _)
      (Multiset.le_add_right _ _) (lighter (by omega))
  | @notRead inst stack s | @notExported unit inst stack s =>
    have herrors : s.hasErrors = false := hcontinues rfl
    apply Ahead.of_unstopped
    simp [Config.unstopped, Control.isEnd, herrors]
  | read hunit hcached =>
    refine ahead_read rfl rfl (hcalled.control _ List.mem_cons_self) hcached ?_
    refine hranks'.instantiations ⟨_, _⟩ ?_
    exact List.mem_append_right _ (List.mem_singleton_self _)
  | @functionDone decl stack s =>
    obtain rfl : stack = [] := by simpa [ReturnsTo, Frame.returns] using hcalled.returns.2
    have hbody : s.isDeclaration decl = false := by
      rcases hsound with ⟨fault, hfault⟩ | hinv
      · cases hfault
      · exact hinv.sound
    refine .returned {1} 0 2 (.refl s) rfl rfl (fun _ => ?_) rfl rfl (le_of_eq (zero_add _).symm)
      done
    simp [Config.waitsToBegin, waitedFor, Control.function, hbody]
  | @functionResolved decl stack s =>
    exact .returned {3} {0} 2 (.refl s) rfl rfl (fun _ => rfl) rfl rfl (Multiset.le_add_right _ _)
      (lighter (by omega))
  | @functionUnresolved stack s =>
    exact .returned {2} 0 3 (.refl s) rfl rfl (fun _ => rfl) rfl (add_comm _ _)
      (le_of_eq (zero_add _).symm) done
  | @exported unit e inst stack s hexported =>
    exact .returned {1} 0 2 (s.alike_lookupGlobal e.id) rfl rfl (fun _ => rfl)
      (s.work_lookupGlobal e.id) (add_comm _ _) (le_of_eq (zero_add _).symm) done
  | @notInstantiated inst stack s =>
    exact .returned {1} 0 2 (.refl s) rfl rfl (fun _ => rfl) rfl (add_comm _ _)
      (le_of_eq (zero_add _).symm) done
  | @consumedMeta unit decl insts stack s =>
    refine .returned (instantiationsWork rank insts.tail + {4}) 0 1 (.refl s) rfl rfl (fun _ => rfl)
      rfl rfl ?_ done
    cases unit <;> simp [Control.work, instantiationsWork]
  | @consumed function decl insts stack s =>
    refine .returned (instantiationsWork rank insts.tail + {4}) 0 1 (.refl s) rfl rfl (fun _ => rfl)
      rfl rfl ?_ done
    cases function <;> simp [Control.work, instantiationsWork]
  | @called decl callee refs stack s =>
    have halike := s.alike_addCallee decl callee
    refine .returned _ 0 1 halike rfl rfl (fun _ => rfl) (halike.work rfl rfl) rfl ?_ done
    rw [zero_add]
    exact Multiset.le_add_left _ _
  | @calledMeta decl callee refs stack s =>
    obtain ⟨inst, hawaited, -⟩ := hlinked.found (some callee) rfl
    have hrank := lt_of_found hranks hcalled hawaited
    rcases refs with _ | ⟨_ | _, refs⟩ <;> cases hawaited
    exact ahead_called (.generateMetaDecl decl (.instantiation inst :: refs)) hrank rfl rfl
      (fun _ => rfl) rfl rfl
  | @calledJumpPad pad callee refs stack s =>
    obtain ⟨inst, hawaited, -⟩ := hlinked.found (some callee) rfl
    have hrank := lt_of_found hranks hcalled hawaited
    rcases refs with _ | ⟨_ | _, refs⟩ <;> cases hawaited
    exact ahead_called (.generateJumpPad pad (.instantiation inst :: refs)) hrank rfl rfl
      (fun _ => rfl) rfl rfl

end Moves

/-! ## Runs -/

section Runs

variable {rank : NodeId → Nat} {reads : Reads} {a : AST} {m m' : Config}

/-- What is read keeps the ranks. -/
theorem Reachable.ranks (hprogram : ∀ c ∈ a.children, AST.Ranked rank c)
    (hreads : ∀ m inst unit, Reachable reads a m → reads m.state inst (some unit) →
      unit.RankedBelow rank (rank inst.label.node.id)) (h : Reachable reads a m) :
    Ranks rank m.state := by
  induction h with
  | refl =>
    refine ⟨fun c hc => hprogram c ?_, fun _ hentry => absurd hentry List.not_mem_nil⟩
    simpa [start, State.declarations] using hc
  | @tail m m' hsteps hstep ih =>
    obtain ⟨choice, hchoice, hstep⟩ := hstep
    rcases (step_moves hstep).text with htext | ⟨inst, unit, hcontrol, hunit, hstate⟩
    · refine ⟨?_, ?_⟩
      · rw [htext.declarations]
        exact ih.declarations
      · rw [htext.instantiations]
        exact ih.instantiations
    · have hread := hchoice inst hcontrol
      rw [hunit] at hread
      have hunit := hreads m inst unit hsteps hread
      rw [hstate]
      refine ⟨fun c hc => ?_, fun entry hentry => ?_⟩
      · rw [State.declarations_cacheInstantiationOf] at hc
        rcases List.mem_append.1 hc with hc | hc
        · exact ih.declarations c hc
        · exact hunit.declarations c hc
      · rcases List.mem_append.1 hentry with hentry | hentry
        · exact ih.instantiations entry hentry
        · rw [List.mem_singleton.1 hentry]
          exact hunit

/-- Every step of a run is ahead. -/
theorem Reachable.ahead (hranks : ∀ m, Reachable reads a m → Ranks rank m.state)
    (h : Reachable reads a m) (hstep : Step reads m m') : Ahead rank m' m := by
  have hranks' := hranks m' (h.tail hstep)
  obtain ⟨choice, -, hstep⟩ := hstep
  have hmoves := step_moves hstep
  have hend := hmoves.isEnd
  have hlinked : Linked m := by
    rcases h.linked with ⟨fault, hfault⟩ | hlinked
    · rw [hfault] at hend
      cases hend
    · exact hlinked
  exact hmoves.ahead (h.called hend) h.sound hlinked h.unwinds (hranks m h) hranks'

/-- A program is generated in finitely many steps where its instantiations have ranks, and each one
is read to a unit of lower ranks: no run goes on for ever, and each one can be continued to an
end. -/
theorem codegen_ends (hprogram : ∀ c ∈ a.children, AST.Ranked rank c)
    (hreads : ∀ m inst unit, Reachable reads a m → reads m.state inst (some unit) →
      unit.RankedBelow rank (rank inst.label.node.id))
    (htotal : ∀ s inst, ∃ unit, reads s inst unit) :
    (¬∃ run : Nat → Config, run 0 = start a ∧ ∀ n, Step reads (run n) (run (n + 1))) ∧
    ∀ m, Reachable reads a m →
      ∃ m', Relation.ReflTransGen (Step reads) m m' ∧ m'.control.isEnd = true := by
  have hranks (m : Config) (h : Reachable reads a m) : Ranks rank m.state :=
    h.ranks hprogram hreads
  refine ⟨?_, fun m => ?_⟩
  · rintro ⟨run, hstart, hsteps⟩
    have hreachable (n : Nat) : Reachable reads a (run n) := by
      induction n with
      | zero =>
        rw [hstart]
        exact .refl
      | succ n ih => exact ih.tail (hsteps n)
    have hdescends := wellFounded_iff_isEmpty_descending_chain.1 (wellFounded_ahead rank)
    exact hdescends.elim ⟨run, fun n => (hreachable n).ahead hranks (hsteps n)⟩
  · induction m using (wellFounded_ahead rank).induction with
    | h m ih =>
      intro h
      by_cases hend : m.control.isEnd = true
      · exact ⟨m, .refl, hend⟩
      -- The configuration goes on with whatever its instantiation may be read to.
      have hgoes : ∃ m', Step reads m m' := by
        have hcalled := h.called (Bool.eq_false_iff.2 hend)
        by_cases hinvoke : ∃ inst, m.control = .invoke inst
        · obtain ⟨inst, hinst⟩ := hinvoke
          obtain ⟨unit, hunit⟩ := htotal m.state inst
          obtain ⟨m', hstep⟩ := Option.isSome_iff_exists.1
            (hcalled.isSome_step (Bool.eq_false_iff.2 hend) unit)
          refine ⟨m', _, fun inst' hinst' => ?_, hstep⟩
          cases hinst.symm.trans hinst'
          exact hunit
        · obtain ⟨m', hstep⟩ := Option.isSome_iff_exists.1
            (hcalled.isSome_step (Bool.eq_false_iff.2 hend) none)
          exact ⟨m', _, fun inst hinst => absurd ⟨inst, hinst⟩ hinvoke, hstep⟩
      obtain ⟨m₁, hstep⟩ := hgoes
      obtain ⟨m', hsteps, hend'⟩ := ih m₁ (h.ahead hranks hstep) (h.tail hstep)
      exact ⟨m', .head hstep hsteps, hend'⟩

end Runs

/-! ## A program with an instantiation -/

namespace RankedCall

open ExportedCall

/-- The function and the instantiation in it are above the meta declaration. -/
def rank (node : NodeId) : Nat := if node = 7 ∨ node = 12 then 1 else 0

/-- `m<>` is read to its unit. -/
def Reading (_ : State) (inst : AST) (result : Option MetaUnit) : Prop :=
  result = if inst.label.node.id = 12 then some ExportedCall.unit else none

theorem ranked_of_consumesNothing {c : AST} (h : c.consumeAll = []) : AST.Ranked rank c := by
  refine ⟨?_, ?_, ?_⟩ <;> rw [h] <;> exact fun _ hinst => absurd hinst List.not_mem_nil

theorem ranked_f : AST.Ranked rank f := by
  have hconsumes : f.consumeAll = [inst] := by rfl
  refine ⟨?_, ?_, ?_⟩ <;> rw [hconsumes] <;> refine List.forall_mem_singleton.2 ?_
  · decide
  · intro d hd
    cases hd
    decide
  · exact fun _ href => absurd href List.not_mem_nil

theorem rankedBelow_unit : ExportedCall.unit.RankedBelow rank 1 := by
  have hconsumes : ∀ c ∈ ExportedCall.unit.ast.children, AST.consumeAll c = [] :=
    List.forall_mem_singleton.2 rfl
  refine ⟨fun c hc => ranked_of_consumesNothing (hconsumes c hc), fun c hc => ?_, fun e he => ?_⟩
  · rw [hconsumes c hc]
    exact fun _ hinst => absurd hinst List.not_mem_nil
  · cases he
    decide

end RankedCall

open RankedCall in
/-- `m<> -> { m() int -> { return 3; } } f() int -> { return m<>() + 1; }` is generated in finitely
many steps. -/
theorem codegen_ends_call :
    (¬∃ run : Nat → Config, run 0 = start ExportedCall.program ∧
      ∀ n, Step Reading (run n) (run (n + 1))) ∧
    ∀ m, Reachable Reading ExportedCall.program m →
      ∃ m', Relation.ReflTransGen (Step Reading) m m' ∧ m'.control.isEnd = true := by
  have hprogram : ∀ c ∈ ExportedCall.program.children, AST.Ranked rank c := by
    intro c hc
    rcases List.mem_cons.1 hc with rfl | hc
    · exact ranked_of_consumesNothing rfl
    · rw [List.mem_singleton.1 hc]
      exact ranked_f
  refine codegen_ends hprogram (fun m inst unit _ hread => ?_) fun s inst => ⟨_, rfl⟩
  unfold Reading at hread
  split at hread
  · rename_i hinst
    cases hread
    rw [hinst]
    exact rankedBelow_unit
  · cases hread

/-! ## Instantiations in a circle -/

/-- What each of the meta declarations consumes first is an instantiation of one of them. -/
def State.InstantiatesInCircle (s : State) (decls : NodeId → Prop) : Prop :=
  ∀ d, decls d → s.isGlobalResolved (.metaFunction d) = false ∧
    ∃ a inst insts next, s.declaringNode d = some a ∧ a.consumeMeta = inst :: insts ∧
      s.getCachedInstantiationOf inst = none ∧
      inst.children.head?.bind (fun declRef => declRef.label.decl) = some next ∧
      next.kind = .metaDecl ∧ decls next.id

section Circle

variable {reads : Reads} {decls : NodeId → Prop} {d : NodeId} {stack : List Frame} {s : State}

/-- What is called while the meta declarations instantiate each other. -/
def Control.Circles (s : State) (decls : NodeId → Prop) : Control → Prop
  | codegenMetaDecl d => decls d
  | consumeMetaDecl d insts => decls d ∧ ∃ a, s.declaringNode d = some a ∧ a.consumeMeta = insts
  | instantiate inst requiresCompleted => requiresCompleted = false ∧ ∃ d a insts, decls d ∧
    s.declaringNode d = some a ∧ a.consumeMeta = inst :: insts
  | _ => False

/-- How one of the meta declarations gets to the next one. -/
theorem State.InstantiatesInCircle.round (hcircle : s.InstantiatesInCircle decls) (hd : decls d) :
    ∃ a inst insts next, s.declaringNode d = some a ∧ a.consumeMeta = inst :: insts ∧ decls next ∧
      ∀ choice stack,
        step choice ⟨.codegenMetaDecl d, stack, s⟩ =
          some ⟨.consumeMetaDecl d (inst :: insts), stack, s⟩ ∧
        step choice ⟨.instantiate inst false, stack, s⟩ =
          some ⟨.codegenMetaDecl next, .instantiate inst :: stack, s⟩ := by
  obtain ⟨havailable, a, inst, insts, next, ha, hinsts, hcached, hnext, hkind, hdecls⟩ :=
    hcircle d hd
  refine ⟨a, inst, insts, next.id, ha, hinsts, hdecls, fun choice stack => ⟨?_, ?_⟩⟩
  · simp [step, codegenMetaDecl, havailable, ha, hinsts]
  · simp [step, instantiate, hcached, hnext, hkind]

/-- Each call makes the next one. -/
theorem step_circles (hcircle : s.InstantiatesInCircle decls) {control : Control}
    (hcontrol : control.Circles s decls) (choice : Choice) (stack : List Frame) :
    ∃ control' pushed, step choice ⟨control, stack, s⟩ = some ⟨control', pushed ++ stack, s⟩ ∧
      control'.Circles s decls := by
  cases control with
  | codegenMetaDecl d =>
    obtain ⟨a, inst, insts, next, ha, hinsts, -, hsteps⟩ := hcircle.round hcontrol
    exact ⟨.consumeMetaDecl d (inst :: insts), [], (hsteps choice stack).1, hcontrol, a, ha, hinsts⟩
  | consumeMetaDecl d insts =>
    obtain ⟨hd, a, ha, rfl⟩ := hcontrol
    obtain ⟨a', inst, insts, next, ha', hinsts, -⟩ := hcircle.round hd
    obtain rfl := Option.some.inj (ha.symm.trans ha')
    rw [hinsts]
    exact ⟨.instantiate inst false, [.consumeMetaDecl d (inst :: insts)], rfl, rfl, d, a, insts, hd,
      ha, hinsts⟩
  | instantiate inst requiresCompleted =>
    obtain ⟨rfl, d, a, insts, hd, ha, hinsts⟩ := hcontrol
    obtain ⟨a', inst', insts', next, ha', hinsts', hnext, hsteps⟩ := hcircle.round hd
    obtain rfl := Option.some.inj (ha.symm.trans ha')
    obtain ⟨rfl, rfl⟩ := List.cons.inj (hinsts.symm.trans hinsts')
    exact ⟨.codegenMetaDecl next, [.instantiate inst], (hsteps choice stack).2, hnext⟩
  | _ => exact hcontrol.elim

theorem Control.Circles.isEnd {control : Control} (h : control.Circles s decls) :
    control.isEnd = false ∧ control.isInvoke = false := by
  cases control with
  | finished | failed | invoke => exact h.elim
  | _ => exact ⟨rfl, rfl⟩

/-- The generation of a meta declaration gets to that of the next one, with calls that wait. -/
theorem steps_circle (reads : Reads) (hcircle : s.InstantiatesInCircle decls) (hd : decls d)
    (stack : List Frame) : ∃ next pushed, decls next ∧ pushed ≠ [] ∧
      Relation.ReflTransGen (Step reads) ⟨.codegenMetaDecl d, stack, s⟩
        ⟨.codegenMetaDecl next, pushed ++ stack, s⟩ := by
  obtain ⟨a, inst, insts, next, -, -, hnext, hsteps⟩ := hcircle.round hd
  let frame : Frame := .consumeMetaDecl d (inst :: insts)
  have hconsume := (hsteps {} stack).1
  have hinstantiate : step {} ⟨.consumeMetaDecl d (inst :: insts), stack, s⟩ =
      some ⟨.instantiate inst false, frame :: stack, s⟩ := rfl
  have hcodegen := (hsteps {} (frame :: stack)).2
  refine ⟨next, [.instantiate inst, frame], hnext, by simp, ?_⟩
  exact .tail (.tail (.single (.of_step rfl hconsume)) (.of_step rfl hinstantiate))
    (.of_step rfl hcodegen)

/-- Nothing stops meta declarations that instantiate each other in a circle: once one of them is to
be generated no run comes to an end, nothing is generated or read, and the calls on the stack get
arbitrarily many. -/
theorem instantiates_in_circle (hcircle : s.InstantiatesInCircle decls) (hd : decls d) :
    (∀ m, Relation.ReflTransGen (Step reads) ⟨.codegenMetaDecl d, stack, s⟩ m →
      m.state = s ∧ m.control.isEnd = false ∧ stack <:+ m.stack ∧ ∃ m', Step reads m m') ∧
    ∀ depth, ∃ m, Relation.ReflTransGen (Step reads) ⟨.codegenMetaDecl d, stack, s⟩ m ∧
      depth ≤ m.stack.length := by
  have hinvariant (m : Config)
      (h : Relation.ReflTransGen (Step reads) ⟨.codegenMetaDecl d, stack, s⟩ m) :
      m.state = s ∧ m.control.Circles s decls ∧ stack <:+ m.stack := by
    induction h with
    | refl => exact ⟨rfl, hd, List.suffix_refl stack⟩
    | @tail m m' _ hstep ih =>
      obtain ⟨control, stack', s'⟩ := m
      obtain ⟨rfl, hcontrol, hsuffix⟩ := ih
      obtain ⟨choice, -, hstep⟩ := hstep
      obtain ⟨control', pushed, hstep', hcontrol'⟩ := step_circles hcircle hcontrol choice stack'
      cases hstep.symm.trans hstep'
      exact ⟨rfl, hcontrol', hsuffix.trans (List.suffix_append pushed stack')⟩
  refine ⟨fun m h => ?_, fun depth => ?_⟩
  · obtain ⟨hstate, hcontrol, hsuffix⟩ := hinvariant m h
    refine ⟨hstate, hcontrol.isEnd.1, hsuffix, ?_⟩
    obtain ⟨control, stack', s'⟩ := m
    obtain rfl : s' = s := hstate
    obtain ⟨control', pushed, hstep, -⟩ := step_circles hcircle hcontrol {} stack'
    exact ⟨_, Step.of_step hcontrol.isEnd.2 hstep⟩
  · -- After each round a meta declaration is to be generated again.
    have hround : ∃ next stack', decls next ∧ depth ≤ stack'.length ∧
        Relation.ReflTransGen (Step reads) ⟨.codegenMetaDecl d, stack, s⟩
          ⟨.codegenMetaDecl next, stack', s⟩ := by
      induction depth with
      | zero => exact ⟨d, stack, hd, Nat.zero_le _, .refl⟩
      | succ depth ih =>
        obtain ⟨next, stack', hnext, hdepth, hsteps⟩ := ih
        obtain ⟨next', pushed, hnext', hpushed, hsteps'⟩ := steps_circle reads hcircle hnext stack'
        have hlength := List.length_pos_iff.2 hpushed
        refine ⟨next', pushed ++ stack', hnext', ?_, hsteps.trans hsteps'⟩
        rw [List.length_append]
        omega
    obtain ⟨next, stack', -, hdepth, hsteps⟩ := hround
    exact ⟨_, hsteps, hdepth⟩

end Circle

namespace InstantiatesItself

/-- `m<>`. -/
def inst (id : NodeId) : AST :=
  .node { node := ⟨id, .metaInstantiationExpr⟩ }
    [.node { node := ⟨id + 1, .declRefExpr "m"⟩, decl := some ⟨1, .metaDecl "m"⟩ } []]

/-- `m<> -> { meta { m<>(); } m() -> {} }`. -/
def m : AST :=
  .node { node := ⟨1, .metaDecl "m"⟩ }
    [.node { node := ⟨2, .argumentDeclList⟩ } [],
      .node { node := ⟨3, .metaContribution⟩ }
        [.node { node := ⟨4, .metaCalculationStmt⟩ }
            [.node { node := ⟨5, .unscopedCompoundStmt⟩ }
              [.node { node := ⟨6, .expressionStmt⟩ }
                [.node { node := ⟨7, .callOperatorExpr⟩ } [inst 8]]]],
          .node { node := ⟨10, .functionDecl "m"⟩ }
            [.node { node := ⟨11, .argumentDeclList⟩ } [],
              .node { node := ⟨12, .compoundStmt⟩ } []]]]

/-- `f() -> { m<>(); }`. -/
def f : AST :=
  .node { node := ⟨13, .functionDecl "f"⟩ }
    [.node { node := ⟨14, .argumentDeclList⟩ } [],
      .node { node := ⟨15, .compoundStmt⟩ }
        [.node { node := ⟨16, .expressionStmt⟩ }
          [.node { node := ⟨17, .callOperatorExpr⟩ } [inst 18]]]]

/-- The program. -/
def program : AST := .node { node := ⟨0, .compilationUnit⟩ } [m, f]

/-- `m` is to be generated for the instantiation in `f`. -/
def reached : Config :=
  (run ({ index := 1 } :: List.replicate 4 {}) (start program)).getD (start program)

end InstantiatesItself

open InstantiatesItself in
/-- `m<> -> { meta { m<>(); } m() -> {} } f() -> { m<>(); }`, when `f` is generated first. -/
theorem instantiates_in_circle_itself : Reachable (fun _ _ _ => True) program reached ∧
    (∀ m, Relation.ReflTransGen (Step fun _ _ _ => True) reached m →
      m.state = reached.state ∧ m.control.isEnd = false ∧ reached.stack <:+ m.stack ∧
        ∃ m', Step (fun _ _ _ => True) m m') ∧
    ∀ depth, ∃ m, Relation.ReflTransGen (Step fun _ _ _ => True) reached m ∧
      depth ≤ m.stack.length := by
  have hrun : run ({ index := 1 } :: List.replicate 4 {}) (start program) = some reached := by rfl
  have hcircle : reached.state.InstantiatesInCircle (· = 1) := by
    rintro d rfl
    exact ⟨by decide, m, inst 8, [], ⟨1, .metaDecl "m"⟩, rfl, rfl, rfl, rfl, rfl, rfl⟩
  exact ⟨Reachable.run .refl hrun, instantiates_in_circle hcircle rfl⟩

end CodegenInstance

end Swy
