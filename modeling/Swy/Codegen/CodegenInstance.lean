import Swy.Sema.DependencyAnalysis
import Mathlib.Logic.Relation

/-!
# Generating a unit

`CodegenInstance` and `CodeExecutor`: how functions are generated into the amalgamation, how meta
declarations are instantiated, and how functions are pulled into the shipments of the executor. The
two classes call each other, so that a configuration has a stack of the calls that wait for a
result, and every step is one of a single call.

A step takes the choices that the source leaves open: in which order an unordered set is drained,
what running and reading an instantiation gives, and which references are left in a function once it
was optimized. The step of `generateFunctionDecl` and of `generateMetaDecl` is the lookup of one
reference of the code that `FunctionCodegen` and `MetaCodegen` describe.
-/

namespace Swy

open Library

namespace CodegenInstance

/-! ## The state -/

/-- A function in the executor, which is told by its mangled name. -/
inductive Symbol where
  | function (decl : NodeId)
  | metaFunction (decl : NodeId)
  | jumpPad (inst : NodeId)
deriving DecidableEq, Repr

/-- A function with a body in a module of the executor, and the functions its body refers to. -/
structure Definition where
  symbol : Symbol
  callees : List Symbol
deriving DecidableEq, Repr

/-- The body of a function in the amalgamation, and the functions it refers to. A body is entered
with its entry block. -/
inductive FunctionBody where
  | entered (callees : List NodeId)
  | finished (callees : List NodeId)
deriving DecidableEq, Repr

/-- A body that is generated refers to another function. -/
def FunctionBody.addCallee (callee : NodeId) : FunctionBody → FunctionBody
  | entered callees => entered (callees ++ [callee])
  | finished callees => finished callees

/-- The body was generated, and what is kept is left when it was optimized. -/
def FunctionBody.finish (kept : NodeId → Bool) : FunctionBody → FunctionBody
  | entered callees => finished (callees.filter kept)
  | finished callees => finished callees

/-- An entity of `unresolvedDependencies_`. The third kind, an instantiation, is never inserted. -/
inductive Dependency where
  | llvmFunction (function : NodeId)
  | functionDecl (decl : NodeId)
deriving DecidableEq, Repr

/-- The unit that an instantiation is cached with. -/
structure MetaUnit where
  ast : AST
  exportedNode : Option Node

/-- The fields of the code generation and of its executor. A function of the amalgamation is told by
the declaration it is the prototype of. -/
structure State where
  compilationUnit : AST
  /-- An error was submitted to the diagnostic engine. -/
  hasErrors : Bool := false
  /-- The functions in the amalgamation. -/
  prototypes : List NodeId := []
  /-- The functions in the amalgamation with a body. -/
  bodies : NodeId → Option FunctionBody := fun _ => none
  /-- Nodes of any kind, of which the functions are generated. -/
  dependencies : List (NodeId × ASTKind)
  currentGeneration : List NodeId := []
  functionSource : List NodeId := []
  availableSymbols : List Symbol := []
  unresolvedDependencies : List Dependency := []
  shipment : Option (List Definition) := none
  /-- The functions in the modules that were added to the executor. -/
  executor : List Definition := []
  instantiations : List (NodeId × MetaUnit) := []

namespace State

/-- The top level declaration at an address. -/
def declaringNode (s : State) (decl : NodeId) : Option AST :=
  (s.compilationUnit.children ++ s.instantiations.flatMap fun entry => entry.2.ast.children).find?
    fun c => c.label.node.id = decl

/-- `llvm::Function::isDeclaration`. -/
def isDeclaration (s : State) (function : NodeId) : Bool := (s.bodies function).isNone

/-- `canContinue`. -/
def canContinue (s : State) : Bool := !s.hasErrors

/-- `CodegenInstance::lookupGlobal` of a function. -/
def lookupGlobal (function : NodeId) (s : State) : State :=
  { s with
    prototypes := s.prototypes.insert function
    dependencies :=
      if s.isDeclaration function then s.dependencies.insert (function, .functionDecl)
      else s.dependencies
    functionSource := s.functionSource.insert function }

/-- `isGlobalResolved`. -/
def isGlobalResolved (s : State) (symbol : Symbol) : Bool := s.availableSymbols.contains symbol

/-- `setGlobalAsUnresolved`. -/
def setGlobalAsUnresolved (dependency : Dependency) (s : State) : State :=
  { s with unresolvedDependencies := s.unresolvedDependencies.insert dependency }

/-- The entity is unresolved, unless the function is available. -/
def requireGlobal (function : NodeId) (dependency : Dependency) (s : State) : State :=
  if s.isGlobalResolved (.function function) then s else s.setGlobalAsUnresolved dependency

/-- `shipment`: the module is created when it is needed. -/
def openShipment (s : State) : State := { s with shipment := some (s.shipment.getD []) }

/-- A function of the shipment gets a body. -/
def define (definition : Definition) (s : State) : State :=
  { s with shipment := some (s.shipment.getD [] ++ [definition]) }

/-- The body that was defined last refers to the symbol. -/
def refer (symbol : Symbol) (s : State) : State :=
  { s with shipment := s.shipment.map fun definitions =>
      definitions.modifyLast fun d => { d with callees := d.callees ++ [symbol] } }

/-- `getCachedInstantiationOf`. -/
def getCachedInstantiationOf (s : State) (inst : AST) : Option MetaUnit :=
  (s.instantiations.find? fun entry => entry.1 = inst.label.node.id).map Prod.snd

/-- What is inserted by `cacheInstantiationOf`. -/
def cacheInstantiationOf (inst : AST) (unit : MetaUnit) (s : State) : State :=
  { s with instantiations := s.instantiations ++ [(inst.label.node.id, unit)] }

/-- The body of a function that is generated refers to another function. -/
def addCallee (function callee : NodeId) (s : State) : State :=
  { s with bodies :=
      Function.update s.bodies function ((s.bodies function).map (.addCallee callee)) }

/-- What the code of a function looks functions and instantiations up in. -/
def irContext (s : State) : IRContext where
  declaringNode := s.declaringNode
  exportedNode inst := do
    let unit ← (s.instantiations.find? fun entry => entry.1 = inst).map Prod.snd
    let exported ← unit.exportedNode
    return exported.id

end State

/-! ## Configurations -/

/-- What ends a run before its end: a failed assertion, a failed cast, a null pointer. -/
inductive Fault where
  | nullDereference
  | castFailed
  | cycleDetected
  | functionNotEmpty
  | instantiationIncomplete
  | expectedCompleted
  | instantiatedBefore
  | shipmentEmpty
  | sourceMissing
  | expectedGenerated
  | symbolAvailable
  | functionExists
deriving DecidableEq, Repr

/-- What is to be done next: a method is at its start or at the head of a loop, or its result is
returned to the call that waits for it. -/
inductive Control where
  /-- The worklist of `codegen` of the unit. -/
  | codegen
  /-- `CodegenInstance::codegen` of a function. -/
  | codegenFunctionDecl (decl : NodeId)
  /-- `consumeMetaInstantiationsOf` a function: what is left to be consumed. -/
  | consumeFunctionDecl (decl : NodeId) (insts : List AST)
  /-- `FunctionCodegen::codegen`: what is left to be looked up. -/
  | generateFunctionDecl (decl : NodeId) (refs : List Reference)
  | functionResult (function : Option NodeId)
  /-- `CodegenInstance::lookupGlobal` of an instantiation. -/
  | lookupInstantiation (inst : AST) (requiresCompleted : Bool)
  | lookupResult (function : Option NodeId)
  /-- `CodeExecutor::instantiate`. -/
  | instantiate (inst : AST) (requiresCompleted : Bool)
  | unitResult (unit : Option MetaUnit)
  /-- `CodeExecutor::codegen` of a meta declaration. -/
  | codegenMetaDecl (decl : NodeId)
  /-- `consumeMetaInstantiationsOf` a meta declaration. -/
  | consumeMetaDecl (decl : NodeId) (insts : List AST)
  /-- `MetaCodegen::codegen`. -/
  | generateMetaDecl (decl : NodeId) (refs : List Reference)
  | metaFunctionResult (metaFunction : Option NodeId)
  /-- `MetaCodegen::codegenJumpPad`. -/
  | generateJumpPad (inst : AST) (refs : List Reference)
  | resolveDependencies
  | pull (function : NodeId)
  | resolved (success : Bool)
  /-- Runs the jump pad and reads the unit. -/
  | invoke (inst : AST)
  | finished (success : Bool)
  | failed (fault : Fault)

/-- A call that waits for a result. What a loop waits for is the first of what is left. -/
inductive Frame where
  | codegen
  | consumeFunctionDecl (decl : NodeId) (insts : List AST)
  | generateFunctionDecl (decl : NodeId) (refs : List Reference)
  | lookupInstantiation (inst : AST)
  | consumeMetaDecl (decl : NodeId) (insts : List AST)
  | generateMetaDecl (decl : NodeId) (refs : List Reference)
  | instantiate (inst : AST)
  | generateJumpPad (inst : AST) (refs : List Reference)
  | shipToJIT (inst : AST)
  | resolveDependencies

/-- A configuration. -/
structure Config where
  control : Control
  stack : List Frame
  state : State

/-- What the source leaves open about a step. -/
structure Choice where
  /-- Which element of an unordered set is the first one. -/
  index : Nat := 0
  /-- What running and reading the instantiation gives. -/
  unit : Option MetaUnit := none
  /-- Which references are left in the optimized function. -/
  kept : NodeId → Bool := fun _ => true

/-! ## The methods -/

section

variable (stack : List Frame) (s : State)

/-- `CodegenInstance::codegen` of the unit. -/
def codegen (index : Nat) : Option Config :=
  match s.dependencies with
  | [] => some ⟨.finished true, stack, s⟩
  | _ => do
    let dependency ← s.dependencies[index]?
    let s := { s with dependencies := s.dependencies.erase dependency }
    match dependency with
    | (decl, .functionDecl) => return ⟨.codegenFunctionDecl decl, .codegen :: stack, s⟩
    | _ => return ⟨.codegen, stack, s⟩

/-- `CodegenInstance::codegen` of a function. -/
def codegenFunctionDecl (decl : NodeId) : Config :=
  let s := s.lookupGlobal decl
  if s.isDeclaration decl then
    match s.declaringNode decl with
    | some a => ⟨.consumeFunctionDecl decl a.consumeAll, stack, s⟩
    | none => ⟨.failed .nullDereference, stack, s⟩
  else ⟨.functionResult (some decl), stack, s⟩

/-- Behind the instantiations of a function its body is entered. -/
def enterFunctionDecl (decl : NodeId) : Config :=
  if !s.canContinue then ⟨.functionResult none, stack, s⟩
  else if s.currentGeneration.contains decl then ⟨.failed .cycleDetected, stack, s⟩
  else if !s.isDeclaration decl then ⟨.failed .functionNotEmpty, stack, s⟩
  else
    match s.declaringNode decl with
    | some a => ⟨.generateFunctionDecl decl a.functionReferences, stack,
      { s with
        currentGeneration := s.currentGeneration.insert decl
        bodies := Function.update s.bodies decl (some (.entered [])) }⟩
    | none => ⟨.failed .nullDereference, stack, s⟩

/-- The loop over the instantiations of a function. -/
def consumeFunctionDecl (decl : NodeId) : List AST → Config
  | [] => enterFunctionDecl stack s decl
  | inst :: insts =>
    ⟨.lookupInstantiation inst false, .consumeFunctionDecl decl (inst :: insts) :: stack, s⟩

/-- The body is generated and optimized. -/
def leaveFunctionDecl (kept : NodeId → Bool) (decl : NodeId) : Config :=
  ⟨.functionResult (some decl), stack,
    { s with
      currentGeneration := s.currentGeneration.erase decl
      bodies := Function.update s.bodies decl ((s.bodies decl).map (.finish kept)) }⟩

/-- The lookups of a function body. -/
def generateFunctionDecl (kept : NodeId → Bool) (decl : NodeId) : List Reference → Config
  | [] => leaveFunctionDecl stack s kept decl
  | .function callee :: refs =>
    ⟨.generateFunctionDecl decl refs, stack, (s.lookupGlobal callee).addCallee decl callee⟩
  | .instantiation inst :: refs =>
    ⟨.lookupInstantiation inst true,
      .generateFunctionDecl decl (.instantiation inst :: refs) :: stack, s⟩

/-- `CodeExecutor::instantiate`. -/
def instantiate (inst : AST) (requiresCompleted : Bool) : Config :=
  match s.getCachedInstantiationOf inst with
  | some unit => ⟨.unitResult (some unit), stack, s⟩
  | none =>
    if requiresCompleted then ⟨.failed .expectedCompleted, stack, s⟩
    else
      match inst.children.head?.bind fun declRef => declRef.label.decl with
      | some decl =>
        if decl.kind = .metaDecl then ⟨.codegenMetaDecl decl.id, .instantiate inst :: stack, s⟩
        else ⟨.failed .castFailed, stack, s⟩
      | none => ⟨.failed .nullDereference, stack, s⟩

/-- `CodeExecutor::codegen` of a meta declaration. -/
def codegenMetaDecl (decl : NodeId) : Config :=
  if s.isGlobalResolved (.metaFunction decl) then
    ⟨.metaFunctionResult (some decl), stack, s.openShipment⟩
  else
    match s.declaringNode decl with
    | some a => ⟨.consumeMetaDecl decl a.consumeMeta, stack, s⟩
    | none => ⟨.failed .nullDereference, stack, s⟩

/-- Behind the instantiations of a meta declaration its meta function is entered. -/
def enterMetaDecl (decl : NodeId) : Config :=
  if !s.canContinue then ⟨.metaFunctionResult none, stack, s⟩
  else if s.isGlobalResolved (.metaFunction decl) then
    ⟨.metaFunctionResult (some decl), stack, s.openShipment⟩
  else
    match s.declaringNode decl with
    | some a => ⟨.generateMetaDecl decl a.metaFunctionReferences, stack,
      { s with availableSymbols := s.availableSymbols.insert (.metaFunction decl) }.define
        ⟨.metaFunction decl, []⟩⟩
    | none => ⟨.failed .nullDereference, stack, s⟩

/-- The loop over the instantiations of a meta declaration. -/
def consumeMetaDecl (decl : NodeId) : List AST → Config
  | [] => enterMetaDecl stack s decl
  | inst :: insts => ⟨.instantiate inst false, .consumeMetaDecl decl (inst :: insts) :: stack, s⟩

/-- `CodeExecutor::lookupGlobal` of a function, for the body that was defined last. -/
def lookupFromExecutor (callee : NodeId) (dependency : Dependency) : State :=
  (s.requireGlobal callee dependency).openShipment.refer (.function callee)

/-- The lookups of a meta function. -/
def generateMetaDecl (decl : NodeId) : List Reference → Config
  | [] => ⟨.metaFunctionResult (some decl), stack, s⟩
  | .function callee :: refs =>
    ⟨.generateMetaDecl decl refs, stack, lookupFromExecutor s callee (.functionDecl callee)⟩
  | .instantiation inst :: refs =>
    ⟨.lookupInstantiation inst true,
      .generateMetaDecl decl (.instantiation inst :: refs) :: stack, s⟩

/-- The lookups of a jump pad. Behind them the shipment is completed and transferred. -/
def generateJumpPad (inst : AST) : List Reference → Config
  | [] =>
    if s.shipment.isSome then ⟨.resolveDependencies, .shipToJIT inst :: stack, s⟩
    else ⟨.failed .shipmentEmpty, stack, s⟩
  | .function callee :: refs =>
    ⟨.generateJumpPad inst refs, stack, lookupFromExecutor s callee (.functionDecl callee)⟩
  | .instantiation arg :: refs =>
    ⟨.lookupInstantiation arg true, .generateJumpPad inst (.instantiation arg :: refs) :: stack, s⟩

/-- `resolveDependencies`, and `resolveGlobal` of the dependency. -/
def resolveDependencies (index : Nat) : Option Config :=
  match s.unresolvedDependencies with
  | [] => some ⟨.resolved true, stack, s⟩
  | _ => do
    let dependency ← s.unresolvedDependencies[index]?
    let s := { s with unresolvedDependencies := s.unresolvedDependencies.erase dependency }
    match dependency with
    | .llvmFunction function =>
      if s.functionSource.contains function then
        return ⟨.codegenFunctionDecl function, .resolveDependencies :: stack, s⟩
      else return ⟨.failed .sourceMissing, stack, s⟩
    | .functionDecl decl =>
      return ⟨.codegenFunctionDecl decl, .resolveDependencies :: stack, s⟩

/-- `pull`: the functions that the body refers to are unresolved, unless they are available. -/
def pull (function : NodeId) : Config :=
  match s.bodies function with
  | none => ⟨.failed .expectedGenerated, stack, s⟩
  | some (.entered callees) | some (.finished callees) =>
    if s.isGlobalResolved (.function function) then ⟨.failed .symbolAvailable, stack, s⟩
    else if (s.shipment.getD []).any (·.symbol = .function function) then
      ⟨.failed .functionExists, stack, s⟩
    else
      let s := { s with availableSymbols := s.availableSymbols.insert (.function function) }
      let s := callees.foldl (fun s callee => s.requireGlobal callee (.llvmFunction callee)) s
      ⟨.resolveDependencies, stack, s.define ⟨.function function, callees.map .function⟩⟩

/-- The jump pad is invoked, and what it wrote is read and checked. -/
def invoke (unit : Option MetaUnit) (inst : AST) : Config :=
  match unit with
  | none => ⟨.unitResult none, stack, { s with hasErrors := true }⟩
  | some unit =>
    if !s.canContinue then ⟨.unitResult none, stack, s⟩
    else if (s.getCachedInstantiationOf inst).isSome then
      ⟨.failed .instantiatedBefore, stack, s⟩
    else ⟨.unitResult (some unit), stack, s.cacheInstantiationOf inst unit⟩

end

/-! ## The results -/

/-- `CodegenInstance::instantiate`: a unit that does not export a node is an error. What it exports
is a named declaration, for which the cast to an instantiation fails. -/
def lookupExported (stack : List Frame) (s : State) : Option MetaUnit → Config
  | none => ⟨.lookupResult none, stack, s⟩
  | some unit =>
    match unit.exportedNode with
    | none => ⟨.lookupResult none, stack, { s with hasErrors := true }⟩
    | some exported =>
      if exported.kind = .functionDecl then
        ⟨.lookupResult (some exported.id), stack, s.lookupGlobal exported.id⟩
      else ⟨.failed .castFailed, stack, s⟩

/-- A function was generated. -/
def returnFunction (s : State) (function : Option NodeId) : List Frame → Option Config
  | .codegen :: stack =>
    if function.isSome then some ⟨.codegen, stack, s⟩ else some ⟨.finished false, stack, s⟩
  | .resolveDependencies :: stack =>
    match function with
    | some function => some ⟨.pull function, stack, s⟩
    | none => some ⟨.resolved false, stack, s⟩
  | _ => none

/-- An instantiation was looked up. -/
def returnLookup (s : State) (function : Option NodeId) : List Frame → Option Config
  | .consumeFunctionDecl decl insts :: stack =>
    some ⟨.consumeFunctionDecl decl (if function.isSome then insts.tail else []), stack, s⟩
  | .generateFunctionDecl decl refs :: stack =>
    match function with
    | some callee => some ⟨.generateFunctionDecl decl refs.tail, stack, s.addCallee decl callee⟩
    | none => some ⟨.failed .instantiationIncomplete, stack, s⟩
  | .generateMetaDecl decl refs :: stack =>
    match function with
    | some callee =>
      some ⟨.generateMetaDecl decl refs.tail, stack, lookupFromExecutor s callee
        (.llvmFunction callee)⟩
    | none => some ⟨.failed .instantiationIncomplete, stack, s⟩
  | .generateJumpPad inst refs :: stack =>
    match function with
    | some callee =>
      some ⟨.generateJumpPad inst refs.tail, stack, lookupFromExecutor s callee
        (.llvmFunction callee)⟩
    | none => some ⟨.failed .instantiationIncomplete, stack, s⟩
  | _ => none

/-- A unit was instantiated. -/
def returnUnit (s : State) (unit : Option MetaUnit) : List Frame → Option Config
  | .lookupInstantiation _ :: stack => some (lookupExported stack s unit)
  | .consumeMetaDecl decl insts :: stack =>
    some ⟨.consumeMetaDecl decl (if unit.isSome then insts.tail else []), stack, s⟩
  | _ => none

/-- `createJumpPadTo` the meta function that was generated. -/
def returnMetaFunction (s : State) (metaFunction : Option NodeId) : List Frame → Option Config
  | .instantiate inst :: stack =>
    match metaFunction with
    | some decl =>
      some ⟨.generateJumpPad inst (AST.allReferences inst.children.tail), stack,
        s.define ⟨.jumpPad inst.label.node.id, [.metaFunction decl]⟩⟩
    | none => some ⟨.unitResult none, stack, s⟩
  | _ => none

/-- The rest of `shipToJIT`. -/
def returnResolved (s : State) (success : Bool) : List Frame → Option Config
  | .shipToJIT inst :: stack =>
    if success then
      match s.shipment with
      | some definitions =>
        some ⟨.invoke inst, stack,
          { s with shipment := none, executor := s.executor ++ definitions }⟩
      | none => some ⟨.failed .shipmentEmpty, stack, s⟩
    else some ⟨.unitResult none, stack, s⟩
  | _ => none

/-! ## Runs -/

/-- One step. -/
def step (choice : Choice) : Config → Option Config
  | ⟨.codegen, stack, s⟩ => codegen stack s choice.index
  | ⟨.codegenFunctionDecl decl, stack, s⟩ => some (codegenFunctionDecl stack s decl)
  | ⟨.consumeFunctionDecl decl insts, stack, s⟩ => some (consumeFunctionDecl stack s decl insts)
  | ⟨.generateFunctionDecl decl refs, stack, s⟩ =>
    some (generateFunctionDecl stack s choice.kept decl refs)
  | ⟨.functionResult function, stack, s⟩ => returnFunction s function stack
  | ⟨.lookupInstantiation inst requiresCompleted, stack, s⟩ =>
    some ⟨.instantiate inst requiresCompleted, .lookupInstantiation inst :: stack, s⟩
  | ⟨.lookupResult function, stack, s⟩ => returnLookup s function stack
  | ⟨.instantiate inst requiresCompleted, stack, s⟩ =>
    some (instantiate stack s inst requiresCompleted)
  | ⟨.unitResult unit, stack, s⟩ => returnUnit s unit stack
  | ⟨.codegenMetaDecl decl, stack, s⟩ => some (codegenMetaDecl stack s decl)
  | ⟨.consumeMetaDecl decl insts, stack, s⟩ => some (consumeMetaDecl stack s decl insts)
  | ⟨.generateMetaDecl decl refs, stack, s⟩ => some (generateMetaDecl stack s decl refs)
  | ⟨.metaFunctionResult metaFunction, stack, s⟩ => returnMetaFunction s metaFunction stack
  | ⟨.generateJumpPad inst refs, stack, s⟩ => some (generateJumpPad stack s inst refs)
  | ⟨.resolveDependencies, stack, s⟩ => resolveDependencies stack s choice.index
  | ⟨.pull function, stack, s⟩ => some (pull stack s function)
  | ⟨.resolved success, stack, s⟩ => returnResolved s success stack
  | ⟨.invoke inst, stack, s⟩ => some (invoke stack s choice.unit inst)
  | ⟨.finished _, _, _⟩ | ⟨.failed _, _, _⟩ => none

/-- What running, reading and checking an instantiation may give in a state. -/
abbrev Reads := State → AST → Option MetaUnit → Prop

/-- A step in which an instantiation gives what it may give. -/
def Step (reads : Reads) (m m' : Config) : Prop :=
  ∃ choice, (∀ inst, m.control = .invoke inst → reads m.state inst choice.unit) ∧
    step choice m = some m'

/-- The configuration invokes a jump pad. -/
def Control.isInvoke : Control → Bool
  | invoke _ => true
  | _ => false

/-- The steps with the given choices, none of which invokes a jump pad. -/
def run : List Choice → Config → Option Config
  | [], m => some m
  | choice :: choices, m => if m.control.isInvoke then none else (step choice m).bind (run choices)

/-- The code generation of a compilation unit starts. -/
def start (a : AST) : Config :=
  ⟨.codegen, [], {
    compilationUnit := a
    dependencies := a.children.map fun c => (c.label.node.id, AST.kind c) }⟩

/-- The configurations of the runs of a compilation unit. -/
def Reachable (reads : Reads) (a : AST) : Config → Prop :=
  Relation.ReflTransGen (Step reads) (start a)

/-- What is run from a configuration of a run stays in it. -/
theorem Reachable.run {reads : Reads} {a : AST} {m m' : Config} (h : Reachable reads a m)
    {choices : List Choice} (hrun : CodegenInstance.run choices m = some m') :
    Reachable reads a m' := by
  induction choices generalizing m with
  | nil =>
    cases hrun
    exact h
  | cons choice choices ih =>
    rw [CodegenInstance.run] at hrun
    split at hrun
    · cases hrun
    · rename_i hinvoke
      obtain ⟨m₁, hstep, hrun⟩ := Option.bind_eq_some_iff.1 hrun
      refine ih (h.tail ⟨choice, fun inst hinst => ?_, hstep⟩) hrun
      rw [hinst] at hinvoke
      exact absurd rfl hinvoke

end CodegenInstance

end Swy
