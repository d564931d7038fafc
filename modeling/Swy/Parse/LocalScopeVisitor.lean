import Swy.Parse.GeneratedParser
import Swy.Parse.ASTLayoutWriter
import Swy.Diag.Diagnostic
import Mathlib.Algebra.Ring.Int.Defs

/-!
# The visitor of the parse tree

`LocalScopeVisitor` writes the layout of a compilation unit: a `visit` method allocates the node of
its context, writes it, visits the children of the context if the node has children, and marks the
reduction if the node requires it. Contexts without a method of their own are flattened. A `visit`
method returns nothing if it would dereference a terminal that the context does not have.

`nodesOf` says what the parse tree stands for: one node for each context that has one, with the
nodes of the contexts below it as its children.
-/

namespace Swy

open Library

/-- The diagnostics of the visitor, the layout it has written so far, and the address of the next
node that is allocated. -/
structure LocalScopeVisitor where
  layout : Layout
  nextId : NodeId
  diagnostics : List Diagnostic
deriving DecidableEq, Repr

namespace Context

/-- The first terminal of the kind among the children of a context. -/
def token? (kind : TokenKind) : List Context → Option Token
  | [] => none
  | .node (.token token) _ :: cs => if token.kind = kind then some token else token? kind cs
  | .node (.rule _) _ :: cs => token? kind cs

/-- The children of the first context of the rule among the children of a context. -/
def rule? (rule : Rule) : List Context → Option (List Context)
  | [] => none
  | .node (.rule r) ds :: cs => if r = rule then some ds else rule? rule cs
  | .node (.token _) _ :: cs => rule? rule cs

end Context

/-- The operators in the order of `AST.inl`, each with its token. -/
def binaryOperators : List (TokenKind × ExprBinaryOperator) :=
  [(.operatorMul, .mul), (.operatorDiv, .div), (.operatorPlus, .plus), (.operatorMinus, .minus),
    (.operatorLessThan, .lessThan), (.operatorGreaterThan, .greaterThan),
    (.operatorLessThanOrEq, .lessThanOrEq), (.operatorGreaterThanOrEq, .greaterThanOrEq),
    (.operatorEqual, .equal), (.operatorNotEqual, .notEqual), (.operatorAssign, .assign)]

/-- The value of decimal digits. -/
def valueOfDigits (digits : List Char) : Nat :=
  digits.foldl (fun value digit => 10 * value + (digit.toNat - '0'.toNat)) 0

/-- `StringRef::getAsInteger(10U, value)` for a 32 bit integer: a minus is read, a plus is not. -/
def getAsInteger (rep : Identifier) : Option Word :=
  let isNegative := rep.toList.head? == some '-'
  let digits := if isNegative then rep.toList.tail else rep.toList
  let value : Int := if isNegative then -valueOfDigits digits else valueOfDigits digits
  if digits.isEmpty || !digits.all Char.isDigit then none
  else if value < -2 ^ 31 ∨ 2 ^ 31 ≤ value then none
  else some (BitVec.ofInt 32 value)

namespace LocalScopeVisitor

open Context

/-- A visitor that was just constructed. -/
def start : LocalScopeVisitor := ⟨[], 0, []⟩

/-- Visiting a context. -/
abbrev Visit := LocalScopeVisitor → Option LocalScopeVisitor

/-- Allocates a node and writes it, as `directWrite`. -/
def directWrite (data : NodeData) (v : LocalScopeVisitor) : LocalScopeVisitor :=
  { v with layout := v.layout ++ [some ⟨v.nextId, data⟩], nextId := v.nextId + 1 }

/-- `markReduce`. -/
def markReduce (v : LocalScopeVisitor) : LocalScopeVisitor :=
  { v with layout := v.layout ++ [none] }

/-- `DiagnosticEngine::diagnose`. -/
def diagnose (d : Diagnostic) (v : LocalScopeVisitor) : LocalScopeVisitor :=
  { v with diagnostics := v.diagnostics ++ [d] }

/-- `contributeFrom`. -/
def contributeFrom (data : NodeData) (visitChildren : Visit) : Visit := fun v => do
  let v := v.directWrite data
  if data.kind.hasChildren then
    let v ← visitChildren v
    if data.kind.isRequiringReduceMarker then return v.markReduce
    return v
  return v

/-! ## The visit methods -/

section Methods

variable (context : List Context) (visitChildren : Visit)

/-- `identifierOf` the terminal of the kind. -/
def identifierOf (kind : TokenKind) : Option Identifier := (token? kind context).map Token.text

/-- `visitFunctionDecl`. -/
def visitFunctionDecl : Visit := fun v => do
  let name ← identifierOf context .identifier
  contributeFrom (.functionDecl name) visitChildren v

/-- `visitArgumentDecl`. -/
def visitArgumentDecl : Visit := fun v =>
  match rule? .argumentName context with
  | some nameContext => do
    let name ← identifierOf nameContext .identifier
    contributeFrom (.namedArgumentDecl name) visitChildren v
  | none => contributeFrom .anonymousArgumentDecl visitChildren v

/-- `visitMetaDecl`. -/
def visitMetaDecl : Visit := fun v => do
  let name ← identifierOf context .identifier
  contributeFrom (.metaDecl name) visitChildren v

/-- `visitMetaInstantiationExpr`: the source range is the one between the brackets. -/
def visitMetaInstantiationExpr : Visit := fun v => do
  let _ ← token? .operatorLessThan context
  let _ ← token? .operatorGreaterThan context
  contributeFrom .metaInstantiationExpr visitChildren v

/-- `visitMetaContribution`: the source range is the one between the braces. -/
def visitMetaContribution : Visit := fun v => do
  let _ ← token? .openCurly context
  let _ ← token? .closeCurly context
  contributeFrom .metaContribution visitChildren v

/-- `visitDeclRefExpr`. -/
def visitDeclRefExpr : Visit := fun v => do
  let name ← identifierOf context .identifier
  contributeFrom (.declRefExpr name) visitChildren v

/-- `visitIntegerLiteralExpr`. -/
def visitIntegerLiteralExpr : Visit := fun v => do
  let rep ← identifierOf context .integerLiteral
  match getAsInteger rep with
  | none => contributeFrom .erroneousExpr visitChildren (v.diagnose (.errorConvertionFailure rep))
  | some value => contributeFrom (.integerLiteralExpr value) visitChildren v

/-- `visitBooleanLiteralExpr`. -/
def visitBooleanLiteralExpr : Visit := fun v =>
  match token? .true_ context with
  | some _ => contributeFrom (.booleanLiteralExpr true) visitChildren v
  | none => do
    let _ ← token? .false_ context
    contributeFrom (.booleanLiteralExpr false) visitChildren v

/-- `getBinaryOperatorOf`: the first operator whose terminal the context has. -/
def getBinaryOperatorOf : Option ExprBinaryOperator :=
  (binaryOperators.find? fun op => (token? op.1 context).isSome).map Prod.snd

/-- `visitExpr`. -/
def visitExpr : Visit := fun v =>
  match rule? .binaryOperator context with
  | some operatorContext => do
    let binaryOperator ← getBinaryOperatorOf operatorContext
    contributeFrom (.binaryOperatorExpr binaryOperator) visitChildren v
  | none => visitChildren v

/-- `visitDeclStmt`. -/
def visitDeclStmt : Visit := fun v => do
  let varDecl ← rule? .varDecl context
  let type ← identifierOf (← rule? .varDeclType varDecl) .identifier
  let name ← identifierOf (← rule? .varDeclName varDecl) .identifier
  let v := if type ≠ "int" then v.diagnose (.errorOnlyIntPermitted type) else v
  contributeFrom (.declStmt name) visitChildren v

/-- The `visit` method of a rule. The rules without one are visited by `visitChildren`. -/
def visitRule : Rule → Visit
  | .compilationUnit => contributeFrom .compilationUnit visitChildren
  | .functionDecl => visitFunctionDecl context visitChildren
  | .argumentDeclList => contributeFrom .argumentDeclList visitChildren
  | .argumentDecl => visitArgumentDecl context visitChildren
  | .metaDecl => visitMetaDecl context visitChildren
  | .metaInstantiationExpr => visitMetaInstantiationExpr context visitChildren
  | .metaContribution => visitMetaContribution context visitChildren
  | .declRefExpr => visitDeclRefExpr context visitChildren
  | .integerLiteralExpr => visitIntegerLiteralExpr context visitChildren
  | .booleanLiteralExpr => visitBooleanLiteralExpr context visitChildren
  | .returnStmt => contributeFrom .returnStmt visitChildren
  | .compoundStmt => contributeFrom .compoundStmt visitChildren
  | .unscopedCompoundStmt => contributeFrom .unscopedCompoundStmt visitChildren
  | .expr => visitExpr context visitChildren
  | .exprStmt => contributeFrom .expressionStmt visitChildren
  | .declStmt => visitDeclStmt context visitChildren
  | .ifStmt => contributeFrom .ifStmt visitChildren
  | .metaIfStmt => contributeFrom .metaIfStmt visitChildren
  | .metaCalculationStmt => contributeFrom .metaCalculationStmt visitChildren
  | .callOperatorExpr => contributeFrom .callOperatorExpr visitChildren
  | _ => visitChildren

end Methods

mutual
/-- `visit`. Terminals write nothing. -/
def visit : Context → Visit
  | .node (.token _) _ => some
  | .node (.rule r) context => visitRule context (visitChildren context) r
/-- `visitChildren`. -/
def visitChildren : List Context → Visit
  | [] => some
  | c :: cs => fun v => (visit c v).bind (visitChildren cs)
end

end LocalScopeVisitor

end Swy
