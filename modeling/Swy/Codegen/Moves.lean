import Swy.Codegen.PulledOnce
import Swy.Codegen.LinkedModule
import Swy.Sema.MetaInstantiations

/-!
# The moves of the machine

Every step of the machine is one of the `Moves`, and every result is returned to a call that waits
for it, so that a run only ends where the source does (`Called.isSome_step`). What is instantiated
is always one of the instantiations in the declarations (`Called`).
-/

namespace Swy

open Library

namespace CodegenInstance

namespace State

variable (s : State)

/-- The top level declarations of the program and of the units. -/
def declarations : List AST :=
  s.compilationUnit.children ++ s.instantiations.flatMap fun entry => entry.2.ast.children

/-- The instantiations in the declarations. -/
def consumed : List AST := s.declarations.flatMap AST.consumeAll

end State

/-! ## What a step can do -/

/-- The run has ended. -/
def Control.isEnd : Control → Bool
  | finished _ | failed _ => true
  | _ => false

/-- The moves of the machine, each with what the source checks before it. -/
inductive Moves (choice : Choice) : Config → Config → Prop
  | fail {control : Control} {fault : Fault} {stack stack' : List Frame} {s s' : State} :
    control.isEnd = false → s'.hasErrors = s.hasErrors → s'.compilationUnit = s.compilationUnit →
    s'.instantiations = s.instantiations →
    Moves choice ⟨control, stack, s⟩ ⟨.failed fault, stack', s'⟩
  | drained {stack : List Frame} {s : State} :
    Moves choice ⟨.codegen, stack, s⟩ ⟨.finished true, stack, s⟩
  | skip {dependency : NodeId × ASTKind} {stack : List Frame} {s : State} :
    dependency ∈ s.dependencies → dependency.2 ≠ .functionDecl →
    Moves choice ⟨.codegen, stack, s⟩
      ⟨.codegen, stack, { s with dependencies := s.dependencies.erase dependency }⟩
  | take {decl : NodeId} {stack : List Frame} {s : State} :
    (decl, .functionDecl) ∈ s.dependencies →
    Moves choice ⟨.codegen, stack, s⟩ ⟨.codegenFunctionDecl decl, .codegen :: stack,
      { s with dependencies := s.dependencies.erase (decl, .functionDecl) }⟩
  | generated {decl : NodeId} {stack : List Frame} {s : State} : s.isDeclaration decl = false →
    Moves choice ⟨.codegenFunctionDecl decl, stack, s⟩
      ⟨.functionResult (some decl), stack, s.lookupGlobal decl⟩
  | consumeAll {decl : NodeId} {a : AST} {stack : List Frame} {s : State} :
    s.isDeclaration decl = true → s.declaringNode decl = some a →
    Moves choice ⟨.codegenFunctionDecl decl, stack, s⟩
      ⟨.consumeFunctionDecl decl a.consumeAll, stack, s.lookupGlobal decl⟩
  | consume {decl : NodeId} {inst : AST} {insts : List AST} {stack : List Frame} {s : State} :
    Moves choice ⟨.consumeFunctionDecl decl (inst :: insts), stack, s⟩
      ⟨.lookupInstantiation inst false, .consumeFunctionDecl decl (inst :: insts) :: stack, s⟩
  | giveUp {decl : NodeId} {stack : List Frame} {s : State} : s.hasErrors = true →
    Moves choice ⟨.consumeFunctionDecl decl [], stack, s⟩ ⟨.functionResult none, stack, s⟩
  | enter {decl : NodeId} {a : AST} {stack : List Frame} {s : State} :
    s.hasErrors = false → s.isDeclaration decl = true → s.declaringNode decl = some a →
    Moves choice ⟨.consumeFunctionDecl decl [], stack, s⟩
      ⟨.generateFunctionDecl decl a.functionReferences, stack, s.enterBody decl⟩
  | call {decl callee : NodeId} {refs : List Reference} {stack : List Frame} {s : State} :
    Moves choice ⟨.generateFunctionDecl decl (.function callee :: refs), stack, s⟩
      ⟨.generateFunctionDecl decl refs, stack, (s.lookupGlobal callee).addCallee decl callee⟩
  | callInstantiation {decl : NodeId} {inst : AST} {refs : List Reference} {stack : List Frame}
    {s : State} :
    Moves choice ⟨.generateFunctionDecl decl (.instantiation inst :: refs), stack, s⟩
      ⟨.lookupInstantiation inst true,
        .generateFunctionDecl decl (.instantiation inst :: refs) :: stack, s⟩
  | leave {decl : NodeId} {stack : List Frame} {s : State} :
    Moves choice ⟨.generateFunctionDecl decl [], stack, s⟩
      ⟨.functionResult (some decl), stack, s.leaveBody choice.kept decl⟩
  | lookup {inst : AST} {requiresCompleted : Bool} {stack : List Frame} {s : State} :
    Moves choice ⟨.lookupInstantiation inst requiresCompleted, stack, s⟩
      ⟨.instantiate inst requiresCompleted, .lookupInstantiation inst :: stack, s⟩
  | cached {inst : AST} {requiresCompleted : Bool} {unit : MetaUnit} {stack : List Frame}
    {s : State} : s.getCachedInstantiationOf inst = some unit →
    Moves choice ⟨.instantiate inst requiresCompleted, stack, s⟩ ⟨.unitResult (some unit), stack, s⟩
  | instantiate {inst : AST} {decl : Node} {stack : List Frame} {s : State} :
    inst.children.head?.bind (fun declRef => declRef.label.decl) = some decl →
    Moves choice ⟨.instantiate inst false, stack, s⟩
      ⟨.codegenMetaDecl decl.id, .instantiate inst :: stack, s⟩
  | metaGenerated {decl : NodeId} {stack : List Frame} {s : State} :
    Moves choice ⟨.codegenMetaDecl decl, stack, s⟩
      ⟨.metaFunctionResult (some decl), stack, s.openShipment⟩
  | consumeAllMeta {decl : NodeId} {a : AST} {stack : List Frame} {s : State} :
    s.declaringNode decl = some a →
    Moves choice ⟨.codegenMetaDecl decl, stack, s⟩ ⟨.consumeMetaDecl decl a.consumeMeta, stack, s⟩
  | consumeMeta {decl : NodeId} {inst : AST} {insts : List AST} {stack : List Frame} {s : State} :
    Moves choice ⟨.consumeMetaDecl decl (inst :: insts), stack, s⟩
      ⟨.instantiate inst false, .consumeMetaDecl decl (inst :: insts) :: stack, s⟩
  | giveUpMeta {decl : NodeId} {stack : List Frame} {s : State} :
    Moves choice ⟨.consumeMetaDecl decl [], stack, s⟩ ⟨.metaFunctionResult none, stack, s⟩
  | metaAvailable {decl : NodeId} {stack : List Frame} {s : State} :
    Moves choice ⟨.consumeMetaDecl decl [], stack, s⟩
      ⟨.metaFunctionResult (some decl), stack, s.openShipment⟩
  | enterMeta {decl : NodeId} {a : AST} {stack : List Frame} {s : State} :
    s.isGlobalResolved (.metaFunction decl) = false → s.declaringNode decl = some a →
    Moves choice ⟨.consumeMetaDecl decl [], stack, s⟩
      ⟨.generateMetaDecl decl a.metaFunctionReferences, stack, s.enterMetaFunction decl⟩
  | callMeta {decl callee : NodeId} {refs : List Reference} {stack : List Frame} {s : State} :
    Moves choice ⟨.generateMetaDecl decl (.function callee :: refs), stack, s⟩
      ⟨.generateMetaDecl decl refs, stack, lookupFromExecutor s callee (.functionDecl callee)⟩
  | callInstantiationMeta {decl : NodeId} {inst : AST} {refs : List Reference}
    {stack : List Frame} {s : State} :
    Moves choice ⟨.generateMetaDecl decl (.instantiation inst :: refs), stack, s⟩
      ⟨.lookupInstantiation inst true,
        .generateMetaDecl decl (.instantiation inst :: refs) :: stack, s⟩
  | leaveMeta {decl : NodeId} {stack : List Frame} {s : State} :
    Moves choice ⟨.generateMetaDecl decl [], stack, s⟩ ⟨.metaFunctionResult (some decl), stack, s⟩
  | createJumpPadTo {decl : NodeId} {inst : AST} {stack : List Frame} {s : State} :
    Moves choice ⟨.metaFunctionResult (some decl), .instantiate inst :: stack, s⟩
      ⟨.generateJumpPad inst (AST.allReferences inst.children.tail), stack,
        s.define ⟨.jumpPad inst.label.node.id, [.metaFunction decl]⟩⟩
  | noMetaFunction {inst : AST} {stack : List Frame} {s : State} :
    Moves choice ⟨.metaFunctionResult none, .instantiate inst :: stack, s⟩
      ⟨.unitResult none, stack, s⟩
  | callJumpPad {inst : AST} {callee : NodeId} {refs : List Reference} {stack : List Frame}
    {s : State} :
    Moves choice ⟨.generateJumpPad inst (.function callee :: refs), stack, s⟩
      ⟨.generateJumpPad inst refs, stack, lookupFromExecutor s callee (.functionDecl callee)⟩
  | callInstantiationJumpPad {inst arg : AST} {refs : List Reference} {stack : List Frame}
    {s : State} :
    Moves choice ⟨.generateJumpPad inst (.instantiation arg :: refs), stack, s⟩
      ⟨.lookupInstantiation arg true,
        .generateJumpPad inst (.instantiation arg :: refs) :: stack, s⟩
  | shipToJIT {inst : AST} {stack : List Frame} {s : State} :
    Moves choice ⟨.generateJumpPad inst [], stack, s⟩
      ⟨.resolveDependencies, .shipToJIT inst :: stack, s⟩
  | resolvedAll {stack : List Frame} {s : State} :
    Moves choice ⟨.resolveDependencies, stack, s⟩ ⟨.resolved true, stack, s⟩
  | resolve {dependency : Dependency} {stack : List Frame} {s : State} :
    dependency ∈ s.unresolvedDependencies →
    Moves choice ⟨.resolveDependencies, stack, s⟩
      ⟨.codegenFunctionDecl dependency.function, .resolveDependencies :: stack,
        { s with unresolvedDependencies := s.unresolvedDependencies.erase dependency }⟩
  | pull {function : NodeId} {body : FunctionBody} {stack : List Frame} {s : State} :
    s.bodies function = some body → s.isGlobalResolved (.function function) = false →
    Moves choice ⟨.pull function, stack, s⟩
      ⟨.resolveDependencies, stack, s.pull function body.callees⟩
  | ship {definitions : List Definition} {inst : AST} {stack : List Frame} {s : State} :
    Moves choice ⟨.resolved true, .shipToJIT inst :: stack, s⟩
      ⟨.invoke inst, stack, { s with shipment := none, executor := s.executor ++ definitions }⟩
  | notShipped {inst : AST} {stack : List Frame} {s : State} :
    Moves choice ⟨.resolved false, .shipToJIT inst :: stack, s⟩ ⟨.unitResult none, stack, s⟩
  | notRead {inst : AST} {stack : List Frame} {s : State} :
    Moves choice ⟨.invoke inst, stack, s⟩ ⟨.unitResult none, stack, { s with hasErrors := true }⟩
  | notContinued {inst : AST} {stack : List Frame} {s : State} :
    Moves choice ⟨.invoke inst, stack, s⟩ ⟨.unitResult none, stack, s⟩
  | read {inst : AST} {unit : MetaUnit} {stack : List Frame} {s : State} :
    choice.unit = some unit → (s.getCachedInstantiationOf inst).isSome = false →
    Moves choice ⟨.invoke inst, stack, s⟩
      ⟨.unitResult (some unit), stack, s.cacheInstantiationOf inst unit⟩
  | functionDone {decl : NodeId} {stack : List Frame} {s : State} :
    Moves choice ⟨.functionResult (some decl), .codegen :: stack, s⟩ ⟨.codegen, stack, s⟩
  | functionMissing {stack : List Frame} {s : State} :
    Moves choice ⟨.functionResult none, .codegen :: stack, s⟩ ⟨.finished false, stack, s⟩
  | functionResolved {decl : NodeId} {stack : List Frame} {s : State} :
    Moves choice ⟨.functionResult (some decl), .resolveDependencies :: stack, s⟩
      ⟨.pull decl, stack, s⟩
  | functionUnresolved {stack : List Frame} {s : State} :
    Moves choice ⟨.functionResult none, .resolveDependencies :: stack, s⟩
      ⟨.resolved false, stack, s⟩
  | exported {unit : MetaUnit} {e : Node} {inst : AST} {stack : List Frame} {s : State} :
    unit.exportedNode = some e →
    Moves choice ⟨.unitResult (some unit), .lookupInstantiation inst :: stack, s⟩
      ⟨.lookupResult (some e.id), stack, s.lookupGlobal e.id⟩
  | notExported {unit : MetaUnit} {inst : AST} {stack : List Frame} {s : State} :
    Moves choice ⟨.unitResult (some unit), .lookupInstantiation inst :: stack, s⟩
      ⟨.lookupResult none, stack, { s with hasErrors := true }⟩
  | notInstantiated {inst : AST} {stack : List Frame} {s : State} :
    Moves choice ⟨.unitResult none, .lookupInstantiation inst :: stack, s⟩
      ⟨.lookupResult none, stack, s⟩
  | consumedMeta {unit : Option MetaUnit} {decl : NodeId} {insts : List AST} {stack : List Frame}
    {s : State} :
    Moves choice ⟨.unitResult unit, .consumeMetaDecl decl insts :: stack, s⟩
      ⟨.consumeMetaDecl decl (if unit.isSome then insts.tail else []), stack, s⟩
  | consumed {function : Option NodeId} {decl : NodeId} {insts : List AST} {stack : List Frame}
    {s : State} :
    Moves choice ⟨.lookupResult function, .consumeFunctionDecl decl insts :: stack, s⟩
      ⟨.consumeFunctionDecl decl (if function.isSome then insts.tail else []), stack, s⟩
  | called {decl callee : NodeId} {refs : List Reference} {stack : List Frame} {s : State} :
    Moves choice ⟨.lookupResult (some callee), .generateFunctionDecl decl refs :: stack, s⟩
      ⟨.generateFunctionDecl decl refs.tail, stack, s.addCallee decl callee⟩
  | calledMeta {decl callee : NodeId} {refs : List Reference} {stack : List Frame} {s : State} :
    Moves choice ⟨.lookupResult (some callee), .generateMetaDecl decl refs :: stack, s⟩
      ⟨.generateMetaDecl decl refs.tail, stack, lookupFromExecutor s callee (.llvmFunction callee)⟩
  | calledJumpPad {inst : AST} {callee : NodeId} {refs : List Reference} {stack : List Frame}
    {s : State} :
    Moves choice ⟨.lookupResult (some callee), .generateJumpPad inst refs :: stack, s⟩
      ⟨.generateJumpPad inst refs.tail, stack, lookupFromExecutor s callee (.llvmFunction callee)⟩

section Steps

variable {choice : Choice} {stack : List Frame} {s : State} {m : Config}

theorem Moves.fail_same {control : Control} {fault : Fault} (hcontrol : control.isEnd = false)
    (stack' : List Frame) : Moves choice ⟨control, stack', s⟩ ⟨.failed fault, stack, s⟩ :=
  .fail hcontrol rfl rfl rfl

theorem moves_codegen {index : Nat} (hm : codegen stack s index = some m) :
    Moves choice ⟨.codegen, stack, s⟩ m := by
  unfold codegen at hm
  split at hm
  · cases hm
    exact .drained
  · obtain ⟨dependency, hdependency, hm⟩ := Option.bind_eq_some_iff.1 hm
    have hmem := List.mem_of_getElem? hdependency
    dsimp only at hm
    split at hm
    · cases hm
      exact .take hmem
    · rename_i hkind
      cases hm
      refine .skip hmem fun hk => ?_
      obtain ⟨decl, kind⟩ := dependency
      obtain rfl : kind = .functionDecl := hk
      exact hkind decl rfl

theorem moves_codegenFunctionDecl {decl : NodeId} :
    Moves choice ⟨.codegenFunctionDecl decl, stack, s⟩ (codegenFunctionDecl stack s decl) := by
  unfold codegenFunctionDecl
  dsimp only
  split
  · rename_i hbody
    split
    · rename_i a ha
      exact .consumeAll hbody ha
    · exact .fail rfl rfl rfl rfl
  · rename_i hbody
    exact .generated (Bool.eq_false_iff.2 hbody)

theorem moves_consumeFunctionDecl {decl : NodeId} {insts : List AST} :
    Moves choice ⟨.consumeFunctionDecl decl insts, stack, s⟩
      (consumeFunctionDecl stack s decl insts) := by
  cases insts with
  | cons inst insts => exact .consume
  | nil =>
    rw [consumeFunctionDecl, enterFunctionDecl]
    split
    · rename_i herrors
      exact .giveUp (by simpa [State.canContinue] using herrors)
    rename_i herrors
    split
    · exact .fail_same rfl _
    split
    · exact .fail_same rfl _
    rename_i hdeclaration
    split
    · rename_i a ha
      exact .enter (by simpa [State.canContinue] using herrors) (by simpa using hdeclaration) ha
    · exact .fail_same rfl _

theorem moves_generateFunctionDecl {decl : NodeId} {refs : List Reference} :
    Moves choice ⟨.generateFunctionDecl decl refs, stack, s⟩
      (generateFunctionDecl stack s choice.kept decl refs) := by
  rcases refs with _ | ⟨ref, refs⟩
  · exact .leave
  · cases ref with
    | function callee => exact .call
    | instantiation inst => exact .callInstantiation

theorem moves_instantiate {inst : AST} {requiresCompleted : Bool} :
    Moves choice ⟨.instantiate inst requiresCompleted, stack, s⟩
      (instantiate stack s inst requiresCompleted) := by
  unfold instantiate
  split
  · rename_i unit hunit
    exact .cached hunit
  split
  · exact .fail_same rfl _
  rename_i hcompleted
  obtain rfl : requiresCompleted = false := by simpa using hcompleted
  split
  · rename_i decl hdecl
    split
    · exact .instantiate hdecl
    · exact .fail_same rfl _
  · exact .fail_same rfl _

theorem moves_codegenMetaDecl {decl : NodeId} :
    Moves choice ⟨.codegenMetaDecl decl, stack, s⟩ (codegenMetaDecl stack s decl) := by
  unfold codegenMetaDecl
  split
  · exact .metaGenerated
  split
  · rename_i a ha
    exact .consumeAllMeta ha
  · exact .fail_same rfl _

theorem moves_consumeMetaDecl {decl : NodeId} {insts : List AST} :
    Moves choice ⟨.consumeMetaDecl decl insts, stack, s⟩ (consumeMetaDecl stack s decl insts) := by
  cases insts with
  | cons inst insts => exact .consumeMeta
  | nil =>
    rw [consumeMetaDecl, enterMetaDecl]
    split
    · exact .giveUpMeta
    split
    · exact .metaAvailable
    rename_i havailable
    split
    · rename_i a ha
      exact .enterMeta (by simpa using havailable) ha
    · exact .fail_same rfl _

theorem moves_generateMetaDecl {decl : NodeId} {refs : List Reference} :
    Moves choice ⟨.generateMetaDecl decl refs, stack, s⟩ (generateMetaDecl stack s decl refs) := by
  rcases refs with _ | ⟨ref, refs⟩
  · exact .leaveMeta
  · cases ref with
    | function callee => exact .callMeta
    | instantiation inst => exact .callInstantiationMeta

theorem moves_generateJumpPad {inst : AST} {refs : List Reference} :
    Moves choice ⟨.generateJumpPad inst refs, stack, s⟩ (generateJumpPad stack s inst refs) := by
  rcases refs with _ | ⟨ref, refs⟩
  · rw [generateJumpPad]
    split
    · exact .shipToJIT
    · exact .fail_same rfl _
  · cases ref with
    | function callee => exact .callJumpPad
    | instantiation arg => exact .callInstantiationJumpPad

theorem moves_resolveDependencies {index : Nat}
    (hm : resolveDependencies stack s index = some m) :
    Moves choice ⟨.resolveDependencies, stack, s⟩ m := by
  unfold resolveDependencies at hm
  split at hm
  · cases hm
    exact .resolvedAll
  · obtain ⟨dependency, hdependency, hm⟩ := Option.bind_eq_some_iff.1 hm
    have hmem := List.mem_of_getElem? hdependency
    dsimp only at hm
    split at hm
    · split at hm
      · cases hm
        exact .resolve hmem
      · cases hm
        exact .fail rfl rfl rfl rfl
    · cases hm
      exact .resolve hmem

theorem moves_pull {function : NodeId} :
    Moves choice ⟨.pull function, stack, s⟩ (pull stack s function) := by
  cases hbody : s.bodies function with
  | none =>
    simp only [pull, hbody]
    exact .fail_same rfl _
  | some body =>
    by_cases havailable : s.isGlobalResolved (.function function) = true
    · cases body <;> simp only [pull, hbody, havailable, if_true] <;> exact .fail_same rfl _
    have havailable := Bool.eq_false_iff.2 havailable
    by_cases hshipment : (s.shipment.getD []).any (·.symbol = .function function) = true
    · cases body <;> simp only [pull, hbody, havailable, hshipment, if_true] <;>
        exact .fail_same rfl _
    rw [pull_eq hbody havailable (Bool.eq_false_iff.2 hshipment)]
    exact .pull hbody havailable

theorem moves_invoke {inst : AST} :
    Moves choice ⟨.invoke inst, stack, s⟩ (invoke stack s choice.unit inst) := by
  unfold invoke
  split
  · exact .notRead
  rename_i unit hunit
  split
  · exact .notContinued
  split
  · exact .fail_same rfl _
  · rename_i hcached
    exact .read hunit (by simpa using hcached)

theorem moves_returnFunction {function : Option NodeId}
    (hm : returnFunction s function stack = some m) :
    Moves choice ⟨.functionResult function, stack, s⟩ m := by
  unfold returnFunction at hm
  split at hm
  · cases function with
    | none =>
      cases hm
      exact .functionMissing
    | some decl =>
      cases hm
      exact .functionDone
  · split at hm
    · cases hm
      exact .functionResolved
    · cases hm
      exact .functionUnresolved
  · cases hm

theorem moves_returnUnit {unit : Option MetaUnit} (hm : returnUnit s unit stack = some m) :
    Moves choice ⟨.unitResult unit, stack, s⟩ m := by
  unfold returnUnit at hm
  split at hm
  · cases hm
    unfold lookupExported
    split
    · exact .notInstantiated
    split
    · exact .notExported
    rename_i exported hexported
    split
    · exact .exported hexported
    · exact .fail_same rfl _
  · cases hm
    exact .consumedMeta
  · cases hm

theorem moves_returnLookup {function : Option NodeId}
    (hm : returnLookup s function stack = some m) :
    Moves choice ⟨.lookupResult function, stack, s⟩ m := by
  unfold returnLookup at hm
  split at hm
  · cases hm
    exact .consumed
  · split at hm
    · cases hm
      exact .called
    · cases hm
      exact .fail_same rfl _
  · split at hm
    · cases hm
      exact .calledMeta
    · cases hm
      exact .fail_same rfl _
  · split at hm
    · cases hm
      exact .calledJumpPad
    · cases hm
      exact .fail_same rfl _
  · cases hm

theorem moves_returnMetaFunction {metaFunction : Option NodeId}
    (hm : returnMetaFunction s metaFunction stack = some m) :
    Moves choice ⟨.metaFunctionResult metaFunction, stack, s⟩ m := by
  unfold returnMetaFunction at hm
  split at hm
  · split at hm
    · cases hm
      exact .createJumpPadTo
    · cases hm
      exact .noMetaFunction
  · cases hm

theorem moves_returnResolved {success : Bool} (hm : returnResolved s success stack = some m) :
    Moves choice ⟨.resolved success, stack, s⟩ m := by
  unfold returnResolved at hm
  split at hm
  · cases success with
    | true =>
      rw [if_pos rfl] at hm
      split at hm
      · cases hm
        exact .ship
      · cases hm
        exact .fail_same rfl _
    | false =>
      cases hm
      exact .notShipped
  · cases hm

/-- Every step is one of the moves. -/
theorem step_moves {m m' : Config} (hm : step choice m = some m') :
    Moves choice m m' := by
  obtain ⟨control, stack, s⟩ := m
  cases control with
  | codegen => exact moves_codegen hm
  | codegenFunctionDecl decl =>
    cases hm
    exact moves_codegenFunctionDecl
  | consumeFunctionDecl decl insts =>
    cases hm
    exact moves_consumeFunctionDecl
  | generateFunctionDecl decl refs =>
    cases hm
    exact moves_generateFunctionDecl
  | functionResult function => exact moves_returnFunction hm
  | lookupInstantiation inst requiresCompleted =>
    cases hm
    exact .lookup
  | lookupResult function => exact moves_returnLookup hm
  | instantiate inst requiresCompleted =>
    cases hm
    exact moves_instantiate
  | unitResult unit => exact moves_returnUnit hm
  | codegenMetaDecl decl =>
    cases hm
    exact moves_codegenMetaDecl
  | consumeMetaDecl decl insts =>
    cases hm
    exact moves_consumeMetaDecl
  | generateMetaDecl decl refs =>
    cases hm
    exact moves_generateMetaDecl
  | metaFunctionResult metaFunction => exact moves_returnMetaFunction hm
  | generateJumpPad inst refs =>
    cases hm
    exact moves_generateJumpPad
  | resolveDependencies => exact moves_resolveDependencies hm
  | pull function =>
    cases hm
    exact moves_pull
  | resolved success => exact moves_returnResolved hm
  | invoke inst =>
    cases hm
    exact moves_invoke
  | finished success => cases hm
  | failed fault => cases hm

/-- Nothing is done when the run has ended. -/
theorem Moves.isEnd {m m' : Config} (h : Moves choice m m') : m.control.isEnd = false := by
  cases h with
  | fail hcontrol => exact hcontrol
  | _ => rfl

end Steps

/-! ## The calls on the stack -/

/-- The results that calls return. -/
inductive Result where
  | function
  | lookup
  | unit
  | metaFunction
  | resolved
deriving DecidableEq

/-- What the current method returns. -/
def Control.returns : Control → Option Result
  | codegenFunctionDecl _ | consumeFunctionDecl _ _ | generateFunctionDecl _ _ | functionResult _ =>
    some .function
  | lookupInstantiation _ _ | lookupResult _ => some .lookup
  | instantiate _ _ | unitResult _ | generateJumpPad _ _ | invoke _ => some .unit
  | codegenMetaDecl _ | consumeMetaDecl _ _ | generateMetaDecl _ _ | metaFunctionResult _ =>
    some .metaFunction
  | resolveDependencies | pull _ | resolved _ => some .resolved
  | codegen | finished _ | failed _ => none

/-- What the call of a frame returns. -/
def Frame.returns : Frame → Option Result
  | codegen => none
  | consumeFunctionDecl _ _ | generateFunctionDecl _ _ => some .function
  | lookupInstantiation _ => some .lookup
  | consumeMetaDecl _ _ | generateMetaDecl _ _ => some .metaFunction
  | instantiate _ | generateJumpPad _ _ | shipToJIT _ => some .unit
  | resolveDependencies => some .resolved

/-- What the call of a frame waits for. -/
def Frame.waitsFor : Frame → Result
  | codegen | resolveDependencies => .function
  | consumeFunctionDecl _ _ | generateFunctionDecl _ _ | generateMetaDecl _ _
  | generateJumpPad _ _ => .lookup
  | lookupInstantiation _ | consumeMetaDecl _ _ => .unit
  | instantiate _ => .metaFunction
  | shipToJIT _ => .resolved

/-- Each result is waited for by the call below. -/
def ReturnsTo : Option Result → List Frame → Prop
  | none, stack => stack = []
  | some _, [] => False
  | some result, frame :: stack => frame.waitsFor = result ∧ ReturnsTo frame.returns stack

/-- The instantiations that the current method is about. -/
def Control.instantiations : Control → List AST
  | consumeFunctionDecl _ insts | consumeMetaDecl _ insts => insts
  | generateFunctionDecl _ refs | generateMetaDecl _ refs => refs.filterMap Reference.instantiation?
  | lookupInstantiation inst _ | instantiate inst _ | invoke inst => [inst]
  | generateJumpPad inst refs => inst :: refs.filterMap Reference.instantiation?
  | _ => []

/-- The instantiations that the call of a frame is about. -/
def Frame.instantiations : Frame → List AST
  | consumeFunctionDecl _ insts | consumeMetaDecl _ insts => insts
  | generateFunctionDecl _ refs | generateMetaDecl _ refs => refs.filterMap Reference.instantiation?
  | lookupInstantiation inst | instantiate inst | shipToJIT inst => [inst]
  | generateJumpPad inst refs => inst :: refs.filterMap Reference.instantiation?
  | _ => []

/-- What every configuration of a run keeps of its calls. -/
structure Called (m : Config) : Prop where
  returns : ReturnsTo m.control.returns m.stack
  control : ∀ inst ∈ m.control.instantiations, inst ∈ m.state.consumed
  frames : ∀ frame ∈ m.stack, ∀ inst ∈ frame.instantiations, inst ∈ m.state.consumed
  /-- What was looked up is what the unit exports. -/
  found : ∀ function, m.control = .lookupResult (some function) → ∀ inst,
    m.stack.head?.bind Frame.awaited = some inst →
      ∃ unit e, m.state.getCachedInstantiationOf inst = some unit ∧ unit.exportedNode = some e ∧
        e.id = function

namespace State

variable {s s' : State} {decl : NodeId} {a inst : AST}

/-- The declarations are the same. -/
structure SameText (s s' : State) : Prop where
  compilationUnit : s'.compilationUnit = s.compilationUnit
  instantiations : s'.instantiations = s.instantiations

theorem SameText.refl (s : State) : s.SameText s := ⟨rfl, rfl⟩

theorem SameText.declarations (h : s.SameText s') : s'.declarations = s.declarations := by
  rw [State.declarations, h.compilationUnit, h.instantiations, State.declarations]

theorem SameText.consumed (h : s.SameText s') : s'.consumed = s.consumed := by
  rw [State.consumed, h.declarations, State.consumed]

theorem SameText.declaringNode (h : s.SameText s') (decl : NodeId) :
    s'.declaringNode decl = s.declaringNode decl := by
  rw [State.declaringNode, h.compilationUnit, h.instantiations, State.declaringNode]

theorem SameText.cached (h : s.SameText s') (inst : AST) :
    s'.getCachedInstantiationOf inst = s.getCachedInstantiationOf inst := by
  rw [getCachedInstantiationOf, h.instantiations, getCachedInstantiationOf]

theorem Keeps.sameText (h : s.Keeps s') : s.SameText s' := ⟨h.compilationUnit, h.instantiations⟩

theorem keeps_pull (s : State) (function : NodeId) (callees : List NodeId) :
    s.Keeps (s.pull function callees) := by
  have hkeeps := keeps_requireGlobals
    { s with availableSymbols := s.availableSymbols.insert (.function function) } callees
  exact ⟨hkeeps.compilationUnit, hkeeps.instantiations, hkeeps.hasErrors, hkeeps.bodies⟩

/-- The declarations of a unit that is read come behind the others. -/
theorem declarations_cacheInstantiationOf (s : State) (inst : AST) (unit : MetaUnit) :
    (s.cacheInstantiationOf inst unit).declarations = s.declarations ++ unit.ast.children := by
  simp [State.declarations, cacheInstantiationOf, List.append_assoc]

theorem consumed_cacheInstantiationOf {unit : MetaUnit} {i : AST} (h : i ∈ s.consumed) :
    i ∈ (s.cacheInstantiationOf inst unit).consumed := by
  rw [State.consumed, declarations_cacheInstantiationOf, List.flatMap_append]
  exact List.mem_append_left _ h

theorem id_of_declaringNode (h : s.declaringNode decl = some a) : a.label.node.id = decl := by
  simpa using List.find?_some h

theorem mem_declarations (h : s.declaringNode decl = some a) : a ∈ s.declarations :=
  List.mem_of_find?_eq_some h

theorem mem_consumed (h : s.declaringNode decl = some a) (hinst : inst ∈ a.consumeAll) :
    inst ∈ s.consumed := List.mem_flatMap.2 ⟨a, mem_declarations h, hinst⟩

end State

/-- The declarations are the same, unless an instantiation was read. -/
theorem Moves.text {choice : Choice} {m m' : Config} (h : Moves choice m m') :
    m.state.SameText m'.state ∨ ∃ inst unit, m.control = .invoke inst ∧ choice.unit = some unit ∧
      m'.state = m.state.cacheInstantiationOf inst unit := by
  cases h with
  | fail _ _ hcompilationUnit hinstantiations => exact .inl ⟨hcompilationUnit, hinstantiations⟩
  | callMeta | callJumpPad | calledMeta | calledJumpPad =>
    exact .inl (State.keeps_lookupFromExecutor _ _ _).sameText
  | pull => exact .inl (State.keeps_pull _ _ _).sameText
  | @read inst unit stack s hunit => exact .inr ⟨inst, unit, rfl, hunit, rfl⟩
  | _ => exact .inl ⟨rfl, rfl⟩

end CodegenInstance

namespace AST

variable {a b inst : AST}

theorem mem_consumeAll : inst ∈ a.consumeAll ↔
    inst ∈ a.subtrees ∧ AST.kind inst = .metaInstantiationExpr := by
  rw [consumeAll_eq, instantiationsIn, List.mem_filter, decide_eq_true_iff]

theorem consumeAll_of_subtree (hb : b ∈ a.subtrees) (h : inst ∈ b.consumeAll) :
    inst ∈ a.consumeAll := by
  rw [mem_consumeAll] at h ⊢
  exact ⟨Rose.subtrees_trans h.1 hb, h.2⟩

/-- What the analysis of a meta declaration consumes is an instantiation in it. -/
theorem mem_consumeAll_of_consumeMeta (a : AST) (h : inst ∈ a.consumeMeta) :
    inst ∈ a.consumeAll := by
  induction a using Rose.ind with
  | h n cs ih =>
    unfold consumeMeta at h
    split at h
    · exact consumeAll_of_mem_child List.mem_cons_self h
    · exact h
    · rw [consumeAllMeta_eq, List.mem_flatMap] at h
      obtain ⟨c, hc, h⟩ := h
      exact consumeAll_of_mem_child hc (ih c hc h)

/-- What a meta function looks up is an instantiation in the declaration. -/
theorem mem_consumeAll_of_metaReferences (a : AST) (h : .instantiation inst ∈ a.metaReferences) :
    inst ∈ a.consumeAll := by
  induction a using Rose.ind with
  | h n cs ih =>
    have hmetas {ds : List AST} (hds : ∀ d ∈ ds, d ∈ cs)
        (h : .instantiation inst ∈ allMetaReferences ds) : inst ∈ consumeAll (.node n cs) := by
      rw [allMetaReferences_eq, List.mem_flatMap] at h
      obtain ⟨d, hd, h⟩ := h
      exact consumeAll_of_mem_child (hds d hd) (ih d (hds d hd) h)
    unfold metaReferences at h
    split at h
    · rcases List.mem_append.1 h with h | h
      · exact hmetas (fun d hd => List.mem_cons_of_mem _ hd) h
      · exact consumeAll_of_mem_child List.mem_cons_self (mem_consumeAll_of_references _ h)
    · obtain ⟨c, hc, h⟩ := mem_allReferences.1 h
      exact consumeAll_of_mem_child hc (mem_consumeAll_of_references c h)
    · exact hmetas (fun d hd => hd) h

theorem mem_consumeAll_of_metaFunctionReferences
    (h : .instantiation inst ∈ a.metaFunctionReferences) : inst ∈ a.consumeAll := by
  unfold metaFunctionReferences at h
  split at h
  · exact consumeAll_of_mem_child (by simp) (mem_consumeAll_of_metaReferences _ h)
  · exact absurd h List.not_mem_nil

/-- What the arguments of an instantiation look up is an instantiation where it is one. -/
theorem mem_consumeAll_of_arguments {arg : AST} (hinst : inst ∈ a.consumeAll)
    (h : .instantiation arg ∈ allReferences inst.children.tail) : arg ∈ a.consumeAll := by
  obtain ⟨n, cs⟩ := inst
  obtain ⟨c, hc, h⟩ := mem_allReferences.1 h
  refine consumeAll_of_subtree (mem_consumeAll.1 hinst).1 ?_
  exact consumeAll_of_mem_child (List.mem_of_mem_tail hc) (mem_consumeAll_of_references c h)

end AST

namespace CodegenInstance

namespace Called

variable {control control' : Control} {frame : Frame} {stack : List Frame} {s s' : State}

/-- The method goes on. -/
theorem goto (h : Called ⟨control, stack, s⟩) (hreturns : control'.returns = control.returns)
    (htext : s.SameText s') (hinsts : ∀ inst ∈ control'.instantiations, inst ∈ s.consumed)
    (hfound : ∀ f, control' ≠ .lookupResult (some f)) : Called ⟨control', stack, s'⟩ where
  returns := by
    rw [hreturns]
    exact h.returns
  control := by
    rw [htext.consumed]
    exact hinsts
  frames := by
    rw [htext.consumed]
    exact h.frames
  found f hf := absurd hf (hfound f)

/-- The method calls another one. -/
theorem call (h : Called ⟨control, stack, s⟩) (hreturns : frame.returns = control.returns)
    (hwaits : control'.returns = some frame.waitsFor) (htext : s.SameText s')
    (hinsts : ∀ inst ∈ control'.instantiations, inst ∈ s.consumed)
    (hframe : ∀ inst ∈ frame.instantiations, inst ∈ s.consumed)
    (hfound : ∀ f, control' ≠ .lookupResult (some f)) : Called ⟨control', frame :: stack, s'⟩ where
  returns := by
    rw [hwaits]
    refine ⟨rfl, ?_⟩
    rw [hreturns]
    exact h.returns
  control := by
    rw [htext.consumed]
    exact hinsts
  frames := by
    rw [htext.consumed]
    exact List.forall_mem_cons.2 ⟨hframe, h.frames⟩
  found f hf := absurd hf (hfound f)

/-- The call below goes on. -/
theorem returned (h : Called ⟨control, frame :: stack, s⟩) (hc : control.returns.isSome = true)
    (hreturns : control'.returns = frame.returns) (htext : s.SameText s')
    (hinsts : ∀ inst ∈ control'.instantiations, inst ∈ s.consumed)
    (hfound : ∀ f, control' ≠ .lookupResult (some f)) : Called ⟨control', stack, s'⟩ where
  returns := by
    obtain ⟨result, hresult⟩ := Option.isSome_iff_exists.1 hc
    have hreturns' := h.returns
    rw [hresult] at hreturns'
    rw [hreturns]
    exact hreturns'.2
  control := by
    rw [htext.consumed]
    exact hinsts
  frames := by
    rw [htext.consumed]
    exact (List.forall_mem_cons.1 h.frames).2
  found f hf := absurd hf (hfound f)

theorem refs_instantiations {refs : List Reference} {P : AST → Prop} :
    (∀ inst ∈ refs.filterMap Reference.instantiation?, P inst) ↔
      ∀ inst, .instantiation inst ∈ refs → P inst := by
  simp only [List.mem_filterMap]
  constructor
  · intro h inst hinst
    exact h inst ⟨_, hinst, rfl⟩
  · rintro h inst ⟨ref, href, hinst⟩
    cases ref with
    | function decl => cases hinst
    | instantiation i =>
      cases hinst
      exact h _ href

/-- The moves keep it. -/
theorem moves {choice : Choice} {m m' : Config} (h : Called m) (hsound : m.Sound)
    (hm : Moves choice m m') (hend : m'.control.isEnd = false) : Called m' := by
  have none_control {inst : AST} {P : Prop} (hinst : inst ∈ ([] : List AST)) : P :=
    absurd hinst List.not_mem_nil
  cases hm with
  | fail | drained | functionMissing => cases hend
  | skip => exact h.goto rfl ⟨rfl, rfl⟩ (fun _ => none_control) (fun f hf => by cases hf)
  | take =>
    exact h.call rfl rfl ⟨rfl, rfl⟩ (fun _ => none_control) (fun _ => none_control)
      (fun f hf => by cases hf)
  | generated => exact h.goto rfl ⟨rfl, rfl⟩ (fun _ => none_control) (fun f hf => by cases hf)
  | consumeAll _ ha =>
    exact h.goto rfl ⟨rfl, rfl⟩ (fun inst => State.mem_consumed ha) (fun f hf => by cases hf)
  | consume =>
    refine h.call rfl rfl (.refl _) (List.forall_mem_singleton.2 ?_) h.control
      (fun f hf => by cases hf)
    exact h.control _ List.mem_cons_self
  | giveUp => exact h.goto rfl (.refl _) (fun _ => none_control) (fun f hf => by cases hf)
  | enter _ _ ha =>
    refine h.goto rfl ⟨rfl, rfl⟩ (refs_instantiations.2 fun inst hinst => ?_)
      (fun f hf => by cases hf)
    exact State.mem_consumed ha (AST.mem_consumeAll_of_functionReferences hinst)
  | call => exact h.goto rfl ⟨rfl, rfl⟩ h.control (fun f hf => by cases hf)
  | callInstantiation | callInstantiationMeta =>
    refine h.call rfl rfl (.refl _) (List.forall_mem_singleton.2 ?_) h.control
      (fun f hf => by cases hf)
    exact h.control _ List.mem_cons_self
  | callInstantiationJumpPad =>
    refine h.call rfl rfl (.refl _) (List.forall_mem_singleton.2 ?_) h.control
      (fun f hf => by cases hf)
    exact h.control _ (List.mem_cons_of_mem _ List.mem_cons_self)
  | leave => exact h.goto rfl ⟨rfl, rfl⟩ (fun _ => none_control) (fun f hf => by cases hf)
  | lookup => exact h.call rfl rfl (.refl _) h.control h.control (fun f hf => by cases hf)
  | cached => exact h.goto rfl (.refl _) (fun _ => none_control) (fun f hf => by cases hf)
  | instantiate =>
    exact h.call rfl rfl (.refl _) (fun _ => none_control) h.control (fun f hf => by cases hf)
  | metaGenerated | metaAvailable =>
    exact h.goto rfl ⟨rfl, rfl⟩ (fun _ => none_control) (fun f hf => by cases hf)
  | consumeAllMeta ha =>
    exact h.goto rfl (.refl _)
      (fun inst hinst => State.mem_consumed ha (AST.mem_consumeAll_of_consumeMeta _ hinst))
      (fun f hf => by cases hf)
  | consumeMeta =>
    refine h.call rfl rfl (.refl _) (List.forall_mem_singleton.2 ?_) h.control
      (fun f hf => by cases hf)
    exact h.control _ List.mem_cons_self
  | giveUpMeta | leaveMeta | resolvedAll | notContinued =>
    exact h.goto rfl (.refl _) (fun _ => none_control) (fun f hf => by cases hf)
  | enterMeta _ ha =>
    refine h.goto rfl ⟨rfl, rfl⟩ (refs_instantiations.2 fun inst hinst => ?_)
      (fun f hf => by cases hf)
    exact State.mem_consumed ha (AST.mem_consumeAll_of_metaFunctionReferences hinst)
  | callMeta | callJumpPad =>
    exact h.goto rfl (State.keeps_lookupFromExecutor _ _ _).sameText h.control
      (fun f hf => by cases hf)
  | createJumpPadTo =>
    have hinst := h.frames _ List.mem_cons_self _ List.mem_cons_self
    obtain ⟨a, ha, hconsumed⟩ := List.mem_flatMap.1 hinst
    refine h.returned rfl rfl ⟨rfl, rfl⟩ (List.forall_mem_cons.2 ⟨hinst, ?_⟩)
      (fun f hf => by cases hf)
    refine refs_instantiations.2 fun arg harg => List.mem_flatMap.2 ⟨a, ha, ?_⟩
    exact AST.mem_consumeAll_of_arguments hconsumed harg
  | noMetaFunction | notShipped | functionDone | functionResolved | functionUnresolved
  | notInstantiated =>
    exact h.returned rfl rfl (.refl _) (fun _ => none_control) (fun f hf => by cases hf)
  | shipToJIT =>
    refine h.call rfl rfl (.refl _) (fun _ => none_control) (List.forall_mem_singleton.2 ?_)
      (fun f hf => by cases hf)
    exact h.control _ List.mem_cons_self
  | resolve =>
    exact h.call rfl rfl ⟨rfl, rfl⟩ (fun _ => none_control) (fun _ => none_control)
      (fun f hf => by cases hf)
  | pull =>
    exact h.goto rfl (State.keeps_pull _ _ _).sameText (fun _ => none_control)
      (fun f hf => by cases hf)
  | ship =>
    exact h.returned rfl rfl ⟨rfl, rfl⟩ (h.frames _ List.mem_cons_self) (fun f hf => by cases hf)
  | notRead => exact h.goto rfl ⟨rfl, rfl⟩ (fun _ => none_control) (fun f hf => by cases hf)
  | @read inst unit stack s =>
    refine ⟨h.returns, fun _ => none_control, fun frame hframe inst hinst => ?_,
      fun f hf => by cases hf⟩
    exact State.consumed_cacheInstantiationOf (h.frames frame hframe inst hinst)
  | @exported unit e i stack s hexported =>
    refine ⟨h.returns.2, fun _ => none_control, (List.forall_mem_cons.1 h.frames).2,
      fun f hf inst hinst => ?_⟩
    obtain rfl := Option.some.inj (Control.lookupResult.inj hf)
    rcases hsound with ⟨fault, hfault⟩ | hinv
    · cases hfault
    · have hawaits : stack.head?.bind Frame.awaited = some i := hinv.chained.1 i rfl
      obtain rfl := Option.some.inj (hawaits.symm.trans hinst)
      exact ⟨unit, e, hinv.sound i rfl, hexported, rfl⟩
  | notExported =>
    exact h.returned rfl rfl ⟨rfl, rfl⟩ (fun _ => none_control) (fun f hf => by cases hf)
  | consumedMeta | consumed =>
    refine h.returned rfl rfl (.refl _) (fun inst hinst => ?_) (fun f hf => by cases hf)
    refine h.frames _ List.mem_cons_self inst ?_
    simp only [Control.instantiations] at hinst
    split at hinst
    · exact List.mem_of_mem_tail hinst
    · exact none_control hinst
  | called =>
    refine h.returned rfl rfl ⟨rfl, rfl⟩ (refs_instantiations.2 fun inst hinst => ?_)
      (fun f hf => by cases hf)
    exact refs_instantiations.1 (h.frames _ List.mem_cons_self) inst (List.mem_of_mem_tail hinst)
  | calledMeta =>
    refine h.returned rfl rfl (State.keeps_lookupFromExecutor _ _ _).sameText
      (refs_instantiations.2 fun inst hinst => ?_) (fun f hf => by cases hf)
    exact refs_instantiations.1 (h.frames _ List.mem_cons_self) inst (List.mem_of_mem_tail hinst)
  | calledJumpPad =>
    obtain ⟨hinst, hargs⟩ := List.forall_mem_cons.1 (h.frames _ List.mem_cons_self)
    refine h.returned rfl rfl (State.keeps_lookupFromExecutor _ _ _).sameText
      (List.forall_mem_cons.2 ⟨hinst, refs_instantiations.2 fun arg harg => ?_⟩)
      (fun f hf => by cases hf)
    exact refs_instantiations.1 hargs arg (List.mem_of_mem_tail harg)

end Called

/-- A configuration that has not ended can do a step, whatever is read. -/
theorem Called.isSome_step {m : Config} (h : Called m) (hend : m.control.isEnd = false)
    (unit : Option MetaUnit) : (step { unit := unit } m).isSome = true := by
  obtain ⟨control, stack, s⟩ := m
  have hreturns := h.returns
  cases control with
  | codegen =>
    cases hdependencies : s.dependencies with
    | nil => simp [step, codegen, hdependencies]
    | cons dependency dependencies =>
      obtain ⟨decl, kind⟩ := dependency
      cases kind <;> simp [step, codegen, hdependencies]
  | resolveDependencies =>
    cases hdependencies : s.unresolvedDependencies with
    | nil => simp [step, resolveDependencies, hdependencies]
    | cons dependency dependencies =>
      cases dependency with
      | functionDecl decl => simp [step, resolveDependencies, hdependencies]
      | llvmFunction function =>
        by_cases hsource : function ∈ s.functionSource
        · simp [step, resolveDependencies, hdependencies, hsource]
        · simp [step, resolveDependencies, hdependencies, hsource]
  | functionResult function =>
    cases stack with
    | nil => exact hreturns.elim
    | cons frame stack => cases frame <;> cases hreturns.1 <;> cases function <;> rfl
  | lookupResult function =>
    cases stack with
    | nil => exact hreturns.elim
    | cons frame stack => cases frame <;> cases hreturns.1 <;> cases function <;> rfl
  | unitResult unit =>
    cases stack with
    | nil => exact hreturns.elim
    | cons frame stack => cases frame <;> cases hreturns.1 <;> rfl
  | metaFunctionResult metaFunction =>
    cases stack with
    | nil => exact hreturns.elim
    | cons frame stack =>
      cases frame <;> cases hreturns.1
      cases metaFunction <;> rfl
  | resolved success =>
    cases stack with
    | nil => exact hreturns.elim
    | cons frame stack =>
      cases frame <;> cases hreturns.1
      cases success with
      | false => rfl
      | true => cases hshipment : s.shipment <;> simp [step, returnResolved, hshipment]
  | finished | failed => cases hend
  | _ => rfl

/-- A configuration that has not ended keeps its calls. -/
theorem Reachable.called {reads : Reads} {a : AST} {m : Config} (h : Reachable reads a m)
    (hend : m.control.isEnd = false) : Called m := by
  induction h with
  | refl =>
    exact ⟨rfl, fun _ hinst => absurd hinst List.not_mem_nil,
      fun _ hframe => absurd hframe List.not_mem_nil, fun f hf => by cases hf⟩
  | tail hsteps hstep ih =>
    obtain ⟨choice, -, hstep⟩ := hstep
    have hmoves := step_moves hstep
    exact (ih hmoves.isEnd).moves (Reachable.sound hsteps) hmoves hend

end CodegenInstance

end Swy
