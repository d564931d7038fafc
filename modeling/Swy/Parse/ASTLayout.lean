import Swy.Parse.BasicASTBuilder

/-!
# Reading a layout

`ASTLayoutReader`: the consume methods that turn a flat layout into an AST while the builder enters
scopes and modes, introduces declarations and resolves references.

The methods call each other through `ConsumeDispatcher` by the kind of the next node. Here each of
them gets the dispatcher as its argument, and `consumeKind` ties the knot with a bound on the depth
of the calls (`fuel`), which also bounds the loops. A layout is accepted with some bound iff it is
accepted with its length (`consume_sound`, `consume_complete` hold for every bound).
-/

namespace Swy

open Library

/-! ## The AST -/

/-- A node with the fields that reading sets on it. -/
structure ASTNode where
  node : Node
  /-- `DeclRefExprASTNode::decl_`. -/
  decl : Option Node := none
  /-- `MetaCalculationStmtASTNode::exportedDecls_`. -/
  exportedDecls : List Node := []
deriving DecidableEq, Repr

/-- An AST as the reader returns it: every node with what its `children()` lists. -/
abbrev AST := Rose ASTNode

/-- The fields of a node that point to its children, as the consume methods set them. -/
inductive ASTFields where
  | none
  | unit (children : List AST)
  | functionDecl (arguments : AST) (returnType : Option AST) (body : AST)
  | argumentDeclList (arguments : List AST)
  | metaDecl (arguments contribution : AST)
  | metaContribution (children : List AST)
  | compoundStmt (statements : List AST)
  | returnStmt (expression : Option AST)
  | ifStmt (expression trueBranch : AST) (falseBranch : Option AST)
  | metaCalculationStmt (stmt : AST)
  | withExpression (expression : AST)
  | binaryOperatorExpr (leftExpr rightExpr : AST)
  | callOperatorExpr (callee : AST) (expressions : List AST)
  | metaInstantiationExpr (decl : AST) (arguments : List AST)

/-- `children()` of `AST.hpp` and `AST.cpp`. -/
def ASTFields.children : ASTFields → List AST
  | .none => []
  | unit children => children
  | functionDecl arguments returnType body => arguments :: (returnType.toList ++ [body])
  | argumentDeclList arguments => arguments
  | metaDecl arguments contribution => [arguments, contribution]
  | metaContribution children => children
  | compoundStmt statements => statements
  | returnStmt expression => expression.toList
  | ifStmt expression trueBranch falseBranch => expression :: trueBranch :: falseBranch.toList
  | metaCalculationStmt stmt => [stmt]
  | withExpression expression => [expression]
  | binaryOperatorExpr leftExpr rightExpr => [leftExpr, rightExpr]
  | callOperatorExpr callee expressions => callee :: expressions
  | metaInstantiationExpr decl arguments => decl :: arguments

namespace AST

/-- The nodes of the AST and their children, without the fields that were set. -/
def shape (a : AST) : Tree := a.map ASTNode.node

/-- A node whose fields were set. -/
def make (n : ASTNode) (fields : ASTFields) : AST := .node n fields.children

/-- The kind of the root. -/
def kind (a : AST) : ASTKind := a.label.node.kind

@[simp] theorem shape_node (n : ASTNode) (cs : List AST) :
    shape (.node n cs) = .node n.node (cs.map shape) := Rose.map_node _ _ _

@[simp] theorem kind_node (n : ASTNode) (cs : List AST) : kind (.node n cs) = n.node.kind := rfl

@[simp] theorem kind_shape (a : AST) : a.shape.kind = a.kind :=
  congrArg Node.kind (Rose.label_map ASTNode.node a)

end AST

namespace ASTLayoutReader

/-! ## The reader's primitives -/

/-- What stops the reader. -/
inductive Fault where
  | readPastEnd
  | nullDereference
  | castFailed
  | reduceExpected
  | unreachable
  | outOfFuel
deriving DecidableEq, Repr

/-- The part of the layout from `pos_` on, and the builder. -/
structure State where
  rest : Layout
  builder : BasicASTBuilder

/-- Reading: stops at the first fault. -/
abbrev ReaderM := StateT State (Except Fault)

/-- The consume method of each kind, and the methods that dispatch on the next node. -/
abbrev Dispatcher := ASTKind → ReaderM AST

variable {α : Type}

/-- `peek`. -/
def peek : ReaderM (Option Node) := fun s =>
  match s.rest with
  | [] => .error .readPastEnd
  | current :: _ => .ok (current, s)

/-- `shift`. -/
def shift : ReaderM (Option Node) := fun s =>
  match s.rest with
  | [] => .error .readPastEnd
  | current :: rest => .ok (current, { s with rest := rest })

/-- `requiresNonNull`. -/
def requiresNonNull : Option Node → ReaderM Node
  | none => throw .nullDereference
  | some node => pure node

/-- `llvm::cast`, for the class with the given `classof`. -/
def cast (classof : ASTKind → Bool) (node : Node) : ReaderM Node :=
  if classof node.kind then pure node else throw .castFailed

/-- `peekAs`. -/
def peekAs (classof : ASTKind → Bool) : ReaderM Node := do
  cast classof (← requiresNonNull (← peek))

/-- `is`. -/
def is (classof : ASTKind → Bool) : ReaderM Bool := do
  return classof (← requiresNonNull (← peek)).kind

/-- `shouldReduce`. -/
def shouldReduce : ReaderM Bool := do
  return (← peek).isNone

/-- `reduce`. -/
def reduce : ReaderM Unit := do
  if !(← shouldReduce) then throw .reduceExpected
  let _ ← shift

/-- `shiftAs`. -/
def shiftAs (kind : ASTKind) : ReaderM Node := do
  cast (· == kind) (← requiresNonNull (← shift))

/-- `scopedShiftAs`: the leave action reads the reduce marker after the body. -/
def scopedShiftAs (kind : ASTKind) (body : Node → ReaderM α) : ReaderM α := do
  let node ← cast (· == kind) (← requiresNonNull (← shift))
  let result ← body node
  if node.isNodeRequiringReduceMarker then reduce
  return result

/-- An action of the builder. -/
def build (f : BasicASTBuilder → BasicASTBuilder) : ReaderM Unit := fun s =>
  .ok ((), { s with builder := f s.builder })

/-- An action that enters a scope or mode, left again at the end of the body. -/
def within (enter leave : BasicASTBuilder → BasicASTBuilder) (body : ReaderM α) : ReaderM α := do
  build enter
  let result ← body
  build leave
  return result

/-- `while (!shouldReduce())`. -/
def whileNotReduce (body : ReaderM AST) : Nat → ReaderM (List AST)
  | 0 => throw .outOfFuel
  | fuel + 1 => do
    if ← shouldReduce then return []
    let child ← body
    let children ← whileNotReduce body fuel
    return child :: children

/-! ## The crawl over a scope -/

/-- `crawlExpand`: reads to the reduce marker of the current frame. -/
def crawlExpand : Nat → Layout → Except Fault Layout
  | 0, _ => throw .outOfFuel
  | _ + 1, [] => throw .readPastEnd
  | _ + 1, none :: rest => pure rest
  | fuel + 1, some current :: rest => do
    if current.isNodeRequiringReduceMarker then
      crawlExpand fuel (← crawlExpand fuel rest)
    else
      crawlExpand fuel rest

/-- The loop of `crawlCurrentScope` with its cursor: the nodes handed to the consumer, and where the
loop stops. -/
def crawl : Nat → Layout → Except Fault (List Node × Layout)
  | 0, _ => throw .outOfFuel
  | _ + 1, [] => throw .readPastEnd
  | _ + 1, none :: rest => pure ([], none :: rest)
  | fuel + 1, some current :: rest => do
    let rest ← if current.isNodeRequiringReduceMarker then crawlExpand fuel rest else pure rest
    let (nodes, stop) ← crawl fuel rest
    return (current :: nodes, stop)

/-- `crawlCurrentScope` with `SaveAndRestore`, which puts the cursor back. -/
def crawlScope (fuel : Nat) : ReaderM (List Node) := fun s => do
  let (nodes, _) ← crawl fuel s.rest
  return (nodes, s)

/-- What `introduceScope` does with a node of the scope. -/
def introduceChild (parent : Node) (b : BasicASTBuilder) (child : Node) : BasicASTBuilder :=
  let b := if child.kind.isTopLevelNode then b.setContainingUnit child.id parent else b
  match child.name? with
  | none => b
  | some name =>
    let b := match parent.data with
      | .metaUnit inst => if name = inst.name then b.setExportedNode parent.id child else b
      | _ => b
    b.introduce child

/-- `introduceScope`. -/
def introduceScope (parent : Node) (fuel : Nat) : ReaderM Unit := do
  let nodes ← crawlScope fuel
  build fun b => nodes.foldl (introduceChild parent) b

/-! ## The dispatching methods -/

/-- `consume`. -/
def consumeAny (dispatch : Dispatcher) : ReaderM AST := do
  dispatch (← requiresNonNull (← peek)).kind

/-- `consumeStmt`. -/
def consumeStmt (dispatch : Dispatcher) : ReaderM AST := do
  dispatch (← peekAs ASTKind.isStmtNode).kind

/-- `consumeExpr`. -/
def consumeExpr (dispatch : Dispatcher) : ReaderM AST := do
  dispatch (← peekAs ASTKind.isExprNode).kind

/-- `consumeTopLevelDecl`. -/
def consumeTopLevelDecl (dispatch : Dispatcher) : ReaderM AST := do
  let node ← requiresNonNull (← peek)
  if node.kind.isTopLevelNode then dispatch node.kind else throw .unreachable

/-- `consumeConstantExpr`. -/
def consumeConstantExpr (dispatch : Dispatcher) : ReaderM AST := do
  let node ← requiresNonNull (← peek)
  if node.kind.isConstantExprNode then dispatch node.kind else throw .unreachable

/-! ## The consume methods -/

/-- Enters a consistent scope on the given parents and restores the previous scope afterwards. -/
def withConsistentScope (parent : ScopeChain) (body : ReaderM α) : ReaderM α := fun s =>
  within (·.enterConsistentScope parent) (·.setScope s.builder.currentScope) body s

/-- The scope object of a unit is filled by `introduceScope` only, so the unit gets it then. -/
def readUnit (dispatch : Dispatcher) (fuel : Nat) (node : Node) : ReaderM AST := do
  introduceScope node fuel
  build fun b => b.setUnitScope node.id b.currentScope
  let children ← whileNotReduce (consumeTopLevelDecl dispatch) fuel
  return .make { node } (.unit children)

/-- `consumeCompilationUnit`. -/
def consumeCompilationUnit (dispatch : Dispatcher) (fuel : Nat) : ReaderM AST :=
  scopedShiftAs .compilationUnit fun node =>
    withConsistentScope [] (readUnit dispatch fuel node)

/-- The meta decl of the instantiation and the scope of the unit it is declared in. -/
def enterMetaUnit (node : Node) (b : BasicASTBuilder) : BasicASTBuilder × ScopeChain :=
  match node.data with
  | .metaUnit inst =>
    match inst.decl with
    | none => (b.fail .instantiationUnresolved, [])
    | some (decl, kind) =>
      let b := b.require (kind == .metaDecl) .instantiationOfNonMetaDecl
      match b.heap.containingUnit decl with
      | none => (b.fail .containingUnitMissing, [])
      | some unit =>
        let b := b.setContainingUnit node.id unit
        match b.heap.scope unit.id with
        | none => (b.fail .unitScopeMissing, [])
        | some scope => (b, scope)
  | _ => (b, [])

/-- `consumeMetaUnit`. -/
def consumeMetaUnit (dispatch : Dispatcher) (fuel : Nat) : ReaderM AST :=
  scopedShiftAs .metaUnit fun node => fun s =>
    let (b, parentScope) := enterMetaUnit node s.builder
    withConsistentScope parentScope (readUnit dispatch fuel node) { s with builder := b }

/-- `consumeFunctionDecl`. -/
def consumeFunctionDecl (dispatch : Dispatcher) : ReaderM AST :=
  scopedShiftAs .functionDecl fun node =>
    within (·.enterTemporaryScope) (·.leaveScope) do
      let args ← dispatch .argumentDeclList
      if ← is ASTKind.isArgumentDecl then
        let returnType ← dispatch .anonymousArgumentDecl
        let body ← consumeStmt dispatch
        return .make { node } (.functionDecl args (some returnType) body)
      else
        let body ← consumeStmt dispatch
        return .make { node } (.functionDecl args none body)

/-- `consumeArgumentDeclList`. -/
def consumeArgumentDeclList (dispatch : Dispatcher) (fuel : Nat) : ReaderM AST :=
  scopedShiftAs .argumentDeclList fun node => do
    let arguments ← whileNotReduce (dispatch .anonymousArgumentDecl) fuel
    return .make { node } (.argumentDeclList arguments)

/-- `consumeAnonymousArgumentDecl`. -/
def consumeAnonymousArgumentDecl (dispatch : Dispatcher) : ReaderM AST := do
  if ← is (· == .namedArgumentDecl) then
    dispatch .namedArgumentDecl
  else
    let node ← shiftAs .anonymousArgumentDecl
    return .make { node } .none

/-- `consumeNamedArgumentDecl`. -/
def consumeNamedArgumentDecl : ReaderM AST := do
  let node ← shiftAs .namedArgumentDecl
  build (·.introduce node)
  return .make { node } .none

/-- `consumeMetaDecl`: the meta decl mode is entered after the arguments were consumed. -/
def consumeMetaDecl (dispatch : Dispatcher) : ReaderM AST := do
  let node ← shiftAs .metaDecl
  within (·.enterTemporaryScope) (·.leaveScope) do
    let args ← dispatch .argumentDeclList
    let contribution ←
      within (·.enterMetaDeclMode) (·.leaveMode) (dispatch .metaContribution)
    return .make { node } (.metaDecl args contribution)

/-- `consumeGlobalConstantDecl`. -/
def consumeGlobalConstantDecl (dispatch : Dispatcher) : ReaderM AST := do
  let node ← shiftAs .globalConstantDecl
  let expression ← consumeConstantExpr dispatch
  return .make { node } (.withExpression expression)

/-- `consumeMetaContribution`. -/
def consumeMetaContribution (dispatch : Dispatcher) (fuel : Nat) : ReaderM AST :=
  scopedShiftAs .metaContribution fun node => do
    let children ← whileNotReduce (consumeAny dispatch) fuel
    return .make { node } (.metaContribution children)

/-- `consumeMetaInstantiationExpr`. -/
def consumeMetaInstantiationExpr (dispatch : Dispatcher) (fuel : Nat) : ReaderM AST :=
  scopedShiftAs .metaInstantiationExpr fun node => do
    let decl ← dispatch .declRefExpr
    let arguments ← whileNotReduce (consumeExpr dispatch) fuel
    return .make { node } (.metaInstantiationExpr decl arguments)

/-- `consumeUnscopedCompoundStmt`. -/
def consumeUnscopedCompoundStmt (dispatch : Dispatcher) (fuel : Nat) : ReaderM AST :=
  scopedShiftAs .unscopedCompoundStmt fun node => do
    let statements ← whileNotReduce (consumeStmt dispatch) fuel
    return .make { node } (.compoundStmt statements)

/-- `consumeCompoundStmt`. -/
def consumeCompoundStmt (dispatch : Dispatcher) (fuel : Nat) : ReaderM AST :=
  scopedShiftAs .compoundStmt fun node =>
    within (·.enterTemporaryScope) (·.leaveScope) do
      let statements ← whileNotReduce (consumeStmt dispatch) fuel
      return .make { node } (.compoundStmt statements)

/-- `consumeReturnStmt`. -/
def consumeReturnStmt (dispatch : Dispatcher) : ReaderM AST :=
  scopedShiftAs .returnStmt fun node => do
    if ← shouldReduce then
      return .make { node } (.returnStmt none)
    else
      let expression ← consumeExpr dispatch
      return .make { node } (.returnStmt (some expression))

/-- `consumeExpressionStmt`. -/
def consumeExpressionStmt (dispatch : Dispatcher) : ReaderM AST := do
  let node ← shiftAs .expressionStmt
  let expression ← consumeExpr dispatch
  return .make { node } (.withExpression expression)

/-- `consumeDeclStmt`. -/
def consumeDeclStmt (dispatch : Dispatcher) : ReaderM AST := do
  let node ← shiftAs .declStmt
  let expression ← consumeExpr dispatch
  build (·.introduce node)
  return .make { node } (.withExpression expression)

/-- `consumeIfStmt`. -/
def consumeIfStmt (dispatch : Dispatcher) : ReaderM AST :=
  scopedShiftAs .ifStmt fun node => do
    let expression ← consumeExpr dispatch
    let trueBranch ← consumeStmt dispatch
    if ← shouldReduce then
      return .make { node } (.ifStmt expression trueBranch none)
    else
      let falseBranch ← consumeStmt dispatch
      return .make { node } (.ifStmt expression trueBranch (some falseBranch))

/-- `consumeMetaIfStmt`. -/
def consumeMetaIfStmt (dispatch : Dispatcher) : ReaderM AST :=
  scopedShiftAs .metaIfStmt fun node => do
    let expression ←
      within (·.enterMetaComputationMode) (·.leaveMode) (consumeExpr dispatch)
    let trueBranch ← dispatch .metaContribution
    if ← shouldReduce then
      return .make { node } (.ifStmt expression trueBranch none)
    else
      let falseBranch ← dispatch .metaContribution
      return .make { node } (.ifStmt expression trueBranch (some falseBranch))

/-- `consumeMetaCalculationStmt`: what is inserted through the in-place scope is exported. -/
def consumeMetaCalculationStmt (dispatch : Dispatcher) : ReaderM AST := do
  let node ← shiftAs .metaCalculationStmt
  build (·.enterInplaceScope)
  let stmt ← within (·.enterMetaComputationMode) (·.leaveMode) (consumeStmt dispatch)
  let exportedDecls := (← get).builder.currentScope.listened
  build (·.leaveScope)
  return .make { node, exportedDecls } (.metaCalculationStmt stmt)

/-- `consumeDeclRefExpr`. -/
def consumeDeclRefExpr (similarTo : ScopeChain → Identifier → Option Node) : ReaderM AST := do
  let node ← shiftAs .declRefExpr
  fun s =>
    match node.data with
    | .declRefExpr name =>
      if s.builder.isAllowedToResolveDecls then
        let (decl, b) := s.builder.lookup similarTo name
        .ok (.make { node, decl } .none, { s with builder := b })
      else
        .ok (.make { node } .none, s)
    | _ => .error .castFailed

/-- `consumeIntegerLiteralExpr`, `consumeBooleanLiteralExpr`. -/
def consumeLiteralExpr (kind : ASTKind) : ReaderM AST := do
  let node ← shiftAs kind
  return .make { node } .none

/-- `consumeErroneousExpr`. -/
def consumeErroneousExpr : ReaderM AST := throw .unreachable

/-- `consumeBinaryOperatorExpr`. -/
def consumeBinaryOperatorExpr (dispatch : Dispatcher) : ReaderM AST := do
  let node ← shiftAs .binaryOperatorExpr
  let left ← consumeExpr dispatch
  let right ← consumeExpr dispatch
  return .make { node } (.binaryOperatorExpr left right)

/-- `consumeCallOperatorExpr`. -/
def consumeCallOperatorExpr (dispatch : Dispatcher) (fuel : Nat) : ReaderM AST :=
  scopedShiftAs .callOperatorExpr fun node => do
    let callee ← consumeExpr dispatch
    let expressions ← whileNotReduce (consumeExpr dispatch) fuel
    return .make { node } (.callOperatorExpr callee expressions)

/-- `ConsumeDispatcher`: the consume method of a kind. -/
def consumeHelper (similarTo : ScopeChain → Identifier → Option Node) (dispatch : Dispatcher)
    (fuel : Nat) : Dispatcher
  | .compilationUnit => consumeCompilationUnit dispatch fuel
  | .metaUnit => consumeMetaUnit dispatch fuel
  | .functionDecl => consumeFunctionDecl dispatch
  | .metaDecl => consumeMetaDecl dispatch
  | .metaContribution => consumeMetaContribution dispatch fuel
  | .argumentDeclList => consumeArgumentDeclList dispatch fuel
  | .anonymousArgumentDecl => consumeAnonymousArgumentDecl dispatch
  | .namedArgumentDecl => consumeNamedArgumentDecl
  | .globalConstantDecl => consumeGlobalConstantDecl dispatch
  | .unscopedCompoundStmt => consumeUnscopedCompoundStmt dispatch fuel
  | .compoundStmt => consumeCompoundStmt dispatch fuel
  | .returnStmt => consumeReturnStmt dispatch
  | .expressionStmt => consumeExpressionStmt dispatch
  | .declStmt => consumeDeclStmt dispatch
  | .ifStmt => consumeIfStmt dispatch
  | .metaIfStmt => consumeMetaIfStmt dispatch
  | .metaCalculationStmt => consumeMetaCalculationStmt dispatch
  | .declRefExpr => consumeDeclRefExpr similarTo
  | .integerLiteralExpr => consumeLiteralExpr .integerLiteralExpr
  | .booleanLiteralExpr => consumeLiteralExpr .booleanLiteralExpr
  | .erroneousExpr => consumeErroneousExpr
  | .binaryOperatorExpr => consumeBinaryOperatorExpr dispatch
  | .callOperatorExpr => consumeCallOperatorExpr dispatch fuel
  | .metaInstantiationExpr => consumeMetaInstantiationExpr dispatch fuel

/-- The consume methods with calls nested at most `fuel` deep. -/
def consumeKind (similarTo : ScopeChain → Identifier → Option Node) : Nat → Dispatcher
  | 0 => fun _ => throw .outOfFuel
  | fuel + 1 => consumeHelper similarTo (consumeKind similarTo fuel) fuel

/-- The entry points of the reader. -/
inductive Production where
  | kind (k : ASTKind)
  | any
  | stmt
  | expr
deriving DecidableEq, Repr

/-- `consume##NAME`, `consume`, `consumeStmt` and `consumeExpr` at the given bound. -/
def consumeWith (similarTo : ScopeChain → Identifier → Option Node) (fuel : Nat) :
    Production → ReaderM AST
  | .kind k => consumeKind similarTo fuel k
  | .any => consumeAny (consumeKind similarTo fuel)
  | .stmt => consumeStmt (consumeKind similarTo fuel)
  | .expr => consumeExpr (consumeKind similarTo fuel)

/-- The reader at its current position: the rest of the layout bounds the depth of the calls. -/
def consume (similarTo : ScopeChain → Identifier → Option Node) (p : Production) : ReaderM AST :=
  fun s => consumeWith similarTo (s.rest.length + 1) p s

end ASTLayoutReader

end Swy
