import Swy.AST.Scope
import Swy.Diag.Diagnostic
import Mathlib.Logic.Function.Basic

/-!
# The AST builder

`BasicASTBuilder`: the scope chain, the meta mode stack, and the introduction and lookup of names.

The builder's assertions on scopes, modes and resolved declarations do not stop the model: a failed
one is recorded in `failedAssertions`, and what follows is what the code does when assertions are
compiled out. A run in which every assertion held ends with the list it started with.
-/

namespace Swy

/-- `MetaDepthLevel`. -/
inductive MetaDepthLevel where
  | outside | insideMetaDecl | insideComputation
deriving DecidableEq, Repr

/-- The assertions of the builder and the null checks of the fields it reads. -/
inductive BuilderAssertion where
  | emptyScope
  | consistentScopeOnTemporary
  | entryExists
  | introducedTwice
  | enterMetaDeclMode
  | enterMetaComputationMode
  | containingUnitMissing
  | instantiationUnresolved
  | instantiationOfNonMetaDecl
  | unitScopeMissing
deriving DecidableEq, Repr

/-- The fields of units and top level nodes that are set while layouts are read. -/
structure ASTHeap where
  /-- `TopLevelASTNode::containingUnit_`. -/
  containingUnit : NodeId → Option Node
  /-- `UnitASTNode::scope_`. -/
  scope : NodeId → Option ScopeChain
  /-- `MetaUnitASTNode::exportedNode_`. -/
  exportedNode : NodeId → Option Node

/-- The heap before the first layout was read. -/
def ASTHeap.empty : ASTHeap where
  containingUnit _ := none
  scope _ := none
  exportedNode _ := none

/-- The state of a builder. -/
structure BasicASTBuilder where
  currentScope : ScopeChain
  metaDeclMode : List MetaDepthLevel
  heap : ASTHeap
  diagnostics : List Diagnostic
  failedAssertions : List BuilderAssertion

namespace BasicASTBuilder

/-- A builder that starts on a heap: no scope was entered, the mode is the default one. -/
def start (heap : ASTHeap) : BasicASTBuilder where
  currentScope := []
  metaDeclMode := []
  heap := heap
  diagnostics := []
  failedAssertions := []

/-- Records a failed assertion. -/
def fail (a : BuilderAssertion) (b : BasicASTBuilder) : BasicASTBuilder :=
  { b with failedAssertions := b.failedAssertions ++ [a] }

/-- `assert`. -/
def require (c : Bool) (a : BuilderAssertion) (b : BasicASTBuilder) : BasicASTBuilder :=
  if c then b else b.fail a

/-- `DiagnosticEngine::diagnose`. -/
def diagnose (d : Diagnostic) (b : BasicASTBuilder) : BasicASTBuilder :=
  { b with diagnostics := b.diagnostics ++ [d] }

/-- Replaces the current scope. -/
def setScope (s : ScopeChain) (b : BasicASTBuilder) : BasicASTBuilder :=
  { b with currentScope := s }

/-- `isInAnyScope`. -/
def isInAnyScope (b : BasicASTBuilder) : Bool := !b.currentScope.isEmpty

/-- The assertion of `currentScope()`. -/
def requireScope (b : BasicASTBuilder) : BasicASTBuilder := b.require b.isInAnyScope .emptyScope

/-! ## Scopes -/

/-- `enterTemporaryScope`. -/
def enterTemporaryScope (b : BasicASTBuilder) : BasicASTBuilder :=
  let b := b.requireScope
  b.setScope (.allocated false [] :: b.currentScope)

/-- `enterConsistentScope` on the given chain of parents. -/
def enterConsistentScope (parent : ScopeChain) (b : BasicASTBuilder) : BasicASTBuilder :=
  let b := b.require (!b.isInAnyScope || b.currentScope.isConsistent) .consistentScopeOnTemporary
  b.setScope (.allocated true [] :: parent)

/-- `enterInplaceScope`. -/
def enterInplaceScope (b : BasicASTBuilder) : BasicASTBuilder :=
  let b := b.requireScope
  b.setScope (.inplace [] :: b.currentScope)

/-- The leave action of a scope that was put on top of the previous one. -/
def leaveScope (b : BasicASTBuilder) : BasicASTBuilder := b.setScope b.currentScope.tail

/-! ## Modes -/

/-- `ScopedMode::currentMode`. -/
def currentMode (b : BasicASTBuilder) : MetaDepthLevel := b.metaDeclMode.headD .outside

/-- `isInMetaDeclMode`. -/
def isInMetaDeclMode (b : BasicASTBuilder) : Bool := b.currentMode == .insideMetaDecl

/-- `enterMetaDeclMode`. -/
def enterMetaDeclMode (b : BasicASTBuilder) : BasicASTBuilder :=
  let b := b.require (b.currentMode == .outside) .enterMetaDeclMode
  { b with metaDeclMode := .insideMetaDecl :: b.metaDeclMode }

/-- `enterMetaComputationMode`. -/
def enterMetaComputationMode (b : BasicASTBuilder) : BasicASTBuilder :=
  let b := b.require (b.currentMode == .insideMetaDecl) .enterMetaComputationMode
  { b with metaDeclMode := .insideComputation :: b.metaDeclMode }

/-- The leave action of a mode. -/
def leaveMode (b : BasicASTBuilder) : BasicASTBuilder :=
  { b with metaDeclMode := b.metaDeclMode.tail }

/-- `isAllowedToIntroduceDecls`. -/
def isAllowedToIntroduceDecls (b : BasicASTBuilder) : Bool := !b.isInMetaDeclMode

/-- `isAllowedToResolveDecls`. -/
def isAllowedToResolveDecls (b : BasicASTBuilder) : Bool := !b.isInMetaDeclMode

/-! ## Fields of units and top level nodes -/

/-- `setContainingUnit`. -/
def setContainingUnit (id : NodeId) (unit : Node) (b : BasicASTBuilder) : BasicASTBuilder :=
  { b with heap.containingUnit := Function.update b.heap.containingUnit id (some unit) }

/-- `UnitASTNode::setScope`. -/
def setUnitScope (id : NodeId) (scope : ScopeChain) (b : BasicASTBuilder) : BasicASTBuilder :=
  { b with heap.scope := Function.update b.heap.scope id (some scope) }

/-- `setExportedNode`. -/
def setExportedNode (id : NodeId) (decl : Node) (b : BasicASTBuilder) : BasicASTBuilder :=
  { b with heap.exportedNode := Function.update b.heap.exportedNode id (some decl) }

/-! ## Names -/

/-- `directLookup`. -/
def directLookup (name : Identifier) (b : BasicASTBuilder) : Option Node :=
  b.currentScope.lookupIdentifier name

/-- `lookup`: reports an unknown name, with the declaration `similarTo` suggests as a note. -/
def lookup (similarTo : ScopeChain → Identifier → Option Node) (name : Identifier)
    (b : BasicASTBuilder) : Option Node × BasicASTBuilder :=
  let b := b.requireScope
  match b.directLookup name with
  | some decl => (some decl, b)
  | none =>
    let b := b.diagnose (.errorDeclarationUnknown name)
    match similarTo b.currentScope name with
    | none => (none, b)
    | some similar =>
      (none, b.diagnose (.noteDidYouMeanQuestion similar.kind (similar.name?.getD "")))

/-- `isShadowingDeclFromExportedNode`: the current declaration is the one a meta unit exports, and
the previous one is the meta decl the unit was instantiated from. -/
def isShadowingDeclFromExportedNode (heap : ASTHeap) (current previous : Node) :
    Except BuilderAssertion Bool :=
  if previous.kind != .metaDecl then .ok false
  else if !current.kind.isTopLevelNode then .ok false
  else match heap.containingUnit current.id with
    | none => .error .containingUnitMissing
    | some unit =>
      match unit.data with
      | .metaUnit inst =>
        match inst.decl with
        | none => .error .instantiationUnresolved
        | some (decl, _) =>
          if decl != previous.id then .ok false
          else .ok ((heap.exportedNode unit.id).any fun exporting => exporting.id == current.id)
      | _ => .ok false

/-- `isAllowedToShadowDecl`. -/
def isAllowedToShadowDecl (heap : ASTHeap) (current previous : Node) :
    Except BuilderAssertion Bool :=
  isShadowingDeclFromExportedNode heap current previous

/-- `currentScope()->insert`. -/
def insert (name : Identifier) (namedDecl : Node) (b : BasicASTBuilder) : BasicASTBuilder :=
  let b := b.require (b.currentScope.isInsertable name) .entryExists
  b.setScope (b.currentScope.insert name namedDecl)

/-- The diagnostics for a name that is declared already. -/
def rejectDecl (name : Identifier) (namedDecl previous : Node) (b : BasicASTBuilder) :
    BasicASTBuilder :=
  let b := b.require (previous.id != namedDecl.id) .introducedTwice
  let b := b.diagnose (.errorNameTypeDeclaredAlready namedDecl.kind name)
  b.diagnose (.notePreviousTypeDeclarationHint previous.kind)

/-- `introduce`. A node that declares no name is left alone. -/
def introduce (namedDecl : Node) (b : BasicASTBuilder) : BasicASTBuilder :=
  match namedDecl.name? with
  | none => b
  | some name =>
    if !b.isAllowedToIntroduceDecls then b
    else
      let b := b.requireScope
      match b.directLookup name with
      | none => b.insert name namedDecl
      | some previous =>
        match isAllowedToShadowDecl b.heap namedDecl previous with
        | .ok true => b.insert name namedDecl
        | .ok false => b.rejectDecl name namedDecl previous
        | .error a => (b.fail a).rejectDecl name namedDecl previous

end BasicASTBuilder

end Swy
