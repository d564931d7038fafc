import Swy.Library.Rose

/-!
# AST nodes and layouts

The node kinds of `AST.inl`, the static predicates of `ASTPredicate.hpp` on them, and the two forms
in which an AST occurs: the flat layout (`ASTLayout`) and the tree.

A `Node` is an AST object as the layout points to it: its address (`id`) and the fields it was
constructed with. The fields that reading a layout sets later are kept apart: the children are the
tree around the node, the resolved declaration and the exported declarations are in the `ASTNode`
the reader returns. Source ranges are left out, since they only decide where a diagnostic points.

`WellShaped` says which trees the reader's productions describe: it compares the kinds of each
node's children with what the `consume` method of the node's kind reads.
-/

namespace Swy

open Library

/-- A name of the source program. -/
abbrev Identifier := String

/-- The address of an AST object. -/
abbrev NodeId := Nat

/-- The 32 bit integers of the language. -/
abbrev Word := BitVec 32

/-- The binary operators of `AST.inl`. -/
inductive ExprBinaryOperator where
  | mul | div | plus | minus | lessThan | greaterThan | lessThanOrEq | greaterThanOrEq
  | equal | notEqual | assign
deriving DecidableEq, Repr

/-- The kind of an AST node. -/
inductive ASTKind where
  | compilationUnit | metaUnit | functionDecl | metaDecl | metaContribution
  | argumentDeclList | anonymousArgumentDecl | namedArgumentDecl | globalConstantDecl
  | unscopedCompoundStmt | compoundStmt | returnStmt | expressionStmt | declStmt | ifStmt
  | metaIfStmt | metaCalculationStmt
  | declRefExpr | integerLiteralExpr | booleanLiteralExpr | erroneousExpr
  | binaryOperatorExpr | callOperatorExpr | metaInstantiationExpr
deriving DecidableEq, Repr

namespace ASTKind

/-! ## The static predicates -/

/-- The node has a `children()` method. -/
def hasChildren : ASTKind → Bool
  | anonymousArgumentDecl | namedArgumentDecl | declRefExpr | integerLiteralExpr
  | booleanLiteralExpr | erroneousExpr => false
  | _ => true

/-- The size of the array `children()` returns, 0 if it does not return an array. -/
def getKnownAmountOfChildren : ASTKind → Nat
  | metaDecl | binaryOperatorExpr => 2
  | globalConstantDecl | expressionStmt | declStmt | metaCalculationStmt => 1
  | _ => 0

/-- The node has a number of children that is not fixed by its kind. -/
def hasUnknownAmountOfChildren (k : ASTKind) : Bool := k.getKnownAmountOfChildren == 0

/-- The children of the node are followed by a reduce marker in a layout. -/
def isRequiringReduceMarker (k : ASTKind) : Bool := k.hasChildren && k.hasUnknownAmountOfChildren

/-- The node declares a name. -/
def isNamedDeclContext : ASTKind → Bool
  | functionDecl | metaDecl | namedArgumentDecl | globalConstantDecl | declStmt => true
  | _ => false

/-- The node is contained in a unit. -/
def isTopLevelNode : ASTKind → Bool
  | metaUnit | functionDecl | metaDecl | globalConstantDecl => true
  | _ => false

/-- The node is a unit. -/
def isUnitNode : ASTKind → Bool
  | compilationUnit | metaUnit => true
  | _ => false

/-- The node is a statement. -/
def isStmtNode : ASTKind → Bool
  | unscopedCompoundStmt | compoundStmt | returnStmt | expressionStmt | declStmt | ifStmt
  | metaIfStmt | metaCalculationStmt => true
  | _ => false

/-- The node is an expression. -/
def isExprNode : ASTKind → Bool
  | declRefExpr | integerLiteralExpr | booleanLiteralExpr | erroneousExpr
  | binaryOperatorExpr | callOperatorExpr | metaInstantiationExpr => true
  | _ => false

/-- The node is a constant expression. -/
def isConstantExprNode : ASTKind → Bool
  | integerLiteralExpr | booleanLiteralExpr => true
  | _ => false

/-- `AnonymousArgumentDeclASTNode::classof`: a named argument is an anonymous one as well. -/
def isArgumentDecl : ASTKind → Bool
  | anonymousArgumentDecl | namedArgumentDecl => true
  | _ => false

/-- The node must not be passed to a function codegen. -/
def isIntermediateNode : ASTKind → Bool
  | metaUnit | metaDecl | metaContribution | metaIfStmt | metaCalculationStmt => true
  | _ => false

end ASTKind

/-! ## Nodes -/

/-- The instantiation a meta unit stems from: the address of the instantiation expression, the name
it instantiates, and the node its declaration reference was resolved to (address and kind). -/
structure Instantiation where
  node : NodeId
  name : Identifier
  decl : Option (NodeId × ASTKind)
deriving DecidableEq, Repr

/-- The kind of a node with the fields it is constructed with. -/
inductive NodeData where
  | compilationUnit
  | metaUnit (instantiation : Instantiation)
  | functionDecl (name : Identifier)
  | metaDecl (name : Identifier)
  | metaContribution
  | argumentDeclList
  | anonymousArgumentDecl
  | namedArgumentDecl (name : Identifier)
  | globalConstantDecl (name : Identifier)
  | unscopedCompoundStmt
  | compoundStmt
  | returnStmt
  | expressionStmt
  | declStmt (name : Identifier)
  | ifStmt
  | metaIfStmt
  | metaCalculationStmt
  | declRefExpr (name : Identifier)
  | integerLiteralExpr (literal : Word)
  | booleanLiteralExpr (literal : Bool)
  | erroneousExpr
  | binaryOperatorExpr (binaryOperator : ExprBinaryOperator)
  | callOperatorExpr
  | metaInstantiationExpr
deriving DecidableEq, Repr

/-- `ASTNode::getKind`. -/
def NodeData.kind : NodeData → ASTKind
  | compilationUnit => .compilationUnit
  | metaUnit _ => .metaUnit
  | functionDecl _ => .functionDecl
  | metaDecl _ => .metaDecl
  | metaContribution => .metaContribution
  | argumentDeclList => .argumentDeclList
  | anonymousArgumentDecl => .anonymousArgumentDecl
  | namedArgumentDecl _ => .namedArgumentDecl
  | globalConstantDecl _ => .globalConstantDecl
  | unscopedCompoundStmt => .unscopedCompoundStmt
  | compoundStmt => .compoundStmt
  | returnStmt => .returnStmt
  | expressionStmt => .expressionStmt
  | declStmt _ => .declStmt
  | ifStmt => .ifStmt
  | metaIfStmt => .metaIfStmt
  | metaCalculationStmt => .metaCalculationStmt
  | declRefExpr _ => .declRefExpr
  | integerLiteralExpr _ => .integerLiteralExpr
  | booleanLiteralExpr _ => .booleanLiteralExpr
  | erroneousExpr => .erroneousExpr
  | binaryOperatorExpr _ => .binaryOperatorExpr
  | callOperatorExpr => .callOperatorExpr
  | metaInstantiationExpr => .metaInstantiationExpr

/-- `NamedDeclContext::getName`, for the nodes that declare a name. -/
def NodeData.name? : NodeData → Option Identifier
  | functionDecl name | metaDecl name | namedArgumentDecl name | globalConstantDecl name
  | declStmt name => some name
  | _ => none

/-- An AST object: its address and the fields it is constructed with. -/
structure Node where
  id : NodeId
  data : NodeData
deriving DecidableEq, Repr

namespace Node

/-- The kind of a node. -/
def kind (n : Node) : ASTKind := n.data.kind

/-- The name a node declares. -/
def name? (n : Node) : Option Identifier := n.data.name?

/-- `ASTLayoutWriter::isNodeRequiringReduceMarker`. -/
def isNodeRequiringReduceMarker (n : Node) : Bool := n.kind.isRequiringReduceMarker

end Node

theorem NodeData.isSome_name? (d : NodeData) : d.name?.isSome = d.kind.isNamedDeclContext := by
  cases d <;> rfl

/-! ## Layouts and trees -/

/-- A layout: nodes in preorder, `none` is a reduce marker. -/
abbrev Layout := List (Option Node)

/-- The nodes of a tree as `children()` lists them. -/
abbrev Tree := Rose Node

namespace Tree

/-- The kind of the root. -/
def kind (t : Tree) : ASTKind := t.label.kind

@[simp] theorem kind_node (n : Node) (cs : List Tree) : kind (.node n cs) = n.kind := rfl

/-- The node itself, then its children in the order of `children()`, then a reduce marker iff the
kind of the node requires one. -/
def encode (t : Tree) : Layout := Rose.encode Node.isNodeRequiringReduceMarker t

/-- The encodings of a list of trees. -/
def encodeAll (cs : List Tree) : Layout := Rose.encodeAll Node.isNodeRequiringReduceMarker cs

@[simp] theorem encodeAll_nil : encodeAll [] = [] := rfl

@[simp] theorem encodeAll_cons (c : Tree) (cs : List Tree) :
    encodeAll (c :: cs) = encode c ++ encodeAll cs := rfl

theorem encodeAll_append (cs ds : List Tree) :
    encodeAll (cs ++ ds) = encodeAll cs ++ encodeAll ds := Rose.encodeAll_append _ cs ds

theorem encode_node (n : Node) (cs : List Tree) :
    encode (.node n cs) = some n ::
      (encodeAll cs ++ if n.isNodeRequiringReduceMarker then [none] else []) := rfl

end Tree

/-! ## The grammar of the reader -/

namespace ASTKind

/-- The kinds of the children that the `consume` method of a node's kind reads. The erroneous
expression has no production. -/
def fits : ASTKind → List ASTKind → Bool
  | compilationUnit, ks | metaUnit, ks => ks.all isTopLevelNode
  | functionDecl, [args, body] => args == argumentDeclList && body.isStmtNode
  | functionDecl, [args, ret, body] =>
    args == argumentDeclList && ret.isArgumentDecl && body.isStmtNode
  | metaDecl, [args, contribution] => args == argumentDeclList && contribution == metaContribution
  | metaContribution, _ => true
  | argumentDeclList, ks => ks.all isArgumentDecl
  | anonymousArgumentDecl, [] | namedArgumentDecl, [] => true
  | globalConstantDecl, [expr] => expr.isConstantExprNode
  | unscopedCompoundStmt, ks | compoundStmt, ks => ks.all isStmtNode
  | returnStmt, [] => true
  | returnStmt, [expr] => expr.isExprNode
  | expressionStmt, [expr] | declStmt, [expr] => expr.isExprNode
  | ifStmt, [expr, trueBranch] => expr.isExprNode && trueBranch.isStmtNode
  | ifStmt, [expr, trueBranch, falseBranch] =>
    expr.isExprNode && trueBranch.isStmtNode && falseBranch.isStmtNode
  | metaIfStmt, [expr, trueBranch] => expr.isExprNode && trueBranch == metaContribution
  | metaIfStmt, [expr, trueBranch, falseBranch] =>
    expr.isExprNode && trueBranch == metaContribution && falseBranch == metaContribution
  | metaCalculationStmt, [stmt] => stmt.isStmtNode
  | declRefExpr, [] | integerLiteralExpr, [] | booleanLiteralExpr, [] => true
  | binaryOperatorExpr, [left, right] => left.isExprNode && right.isExprNode
  | callOperatorExpr, callee :: exprs => callee.isExprNode && exprs.all isExprNode
  | metaInstantiationExpr, decl :: args => decl == declRefExpr && args.all isExprNode
  | _, _ => false

end ASTKind

namespace Tree

/-- Every node of the tree has the children its production reads. -/
def WellShaped (t : Tree) : Prop := t.all (fun n cs => n.kind.fits (cs.map kind)) = true

instance (t : Tree) : Decidable t.WellShaped := inferInstanceAs (Decidable (_ = true))

theorem wellShaped_node {n : Node} {cs : List Tree} :
    WellShaped (.node n cs) ↔ n.kind.fits (cs.map kind) = true ∧ ∀ c ∈ cs, c.WellShaped :=
  Rose.all_node

/-! What the children of a node are, for the kinds with a fixed form. -/

section Children

variable {n : Node} {cs : List Tree}

theorem WellShaped.leaf (h : WellShaped (.node n cs)) (hk : n.kind.hasChildren = false) :
    cs = [] := by
  have hfit := (wellShaped_node.1 h).1
  cases cs with
  | nil => rfl
  | cons c cs =>
    cases hn : n.kind <;> rw [hn] at hk hfit <;>
      first | exact absurd hfit Bool.false_ne_true | cases hk

theorem WellShaped.metaDecl (h : WellShaped (.node n cs)) (hk : n.kind = .metaDecl) :
    ∃ args contribution : Tree, cs = [args, contribution] ∧ args.kind = .argumentDeclList ∧
      contribution.kind = .metaContribution := by
  have hfit := (wellShaped_node.1 h).1
  rw [hk] at hfit
  match cs, hfit with
  | [args, contribution], hfit =>
    obtain ⟨hargs, hcontribution⟩ := Bool.and_eq_true_iff.1 hfit
    exact ⟨args, contribution, rfl, eq_of_beq hargs, eq_of_beq hcontribution⟩

theorem WellShaped.metaIfStmt (h : WellShaped (.node n cs)) (hk : n.kind = .metaIfStmt) :
    ∃ (expression : Tree) (branches : List Tree), cs = expression :: branches ∧
      expression.kind.isExprNode = true ∧
      ((∃ t : Tree, branches = [t] ∧ t.kind = .metaContribution) ∨
        ∃ t f : Tree, branches = [t, f] ∧ t.kind = .metaContribution ∧
          f.kind = .metaContribution) := by
  have hfit := (wellShaped_node.1 h).1
  rw [hk] at hfit
  match cs, hfit with
  | [e, t], hfit =>
    obtain ⟨he, ht⟩ := Bool.and_eq_true_iff.1 hfit
    exact ⟨e, [t], rfl, he, .inl ⟨t, rfl, eq_of_beq ht⟩⟩
  | [e, t, f], hfit =>
    obtain ⟨hfit, hf⟩ := Bool.and_eq_true_iff.1 hfit
    obtain ⟨he, ht⟩ := Bool.and_eq_true_iff.1 hfit
    exact ⟨e, [t, f], rfl, he, .inr ⟨t, f, rfl, eq_of_beq ht, eq_of_beq hf⟩⟩

theorem WellShaped.metaCalculationStmt (h : WellShaped (.node n cs))
    (hk : n.kind = .metaCalculationStmt) :
    ∃ stmt : Tree, cs = [stmt] ∧ stmt.kind.isStmtNode = true := by
  have hfit := (wellShaped_node.1 h).1
  rw [hk] at hfit
  match cs, hfit with
  | [stmt], hfit => exact ⟨stmt, rfl, hfit⟩

theorem WellShaped.globalConstantDecl (h : WellShaped (.node n cs))
    (hk : n.kind = .globalConstantDecl) :
    ∃ expr : Tree, cs = [expr] ∧ expr.kind.isConstantExprNode = true := by
  have hfit := (wellShaped_node.1 h).1
  rw [hk] at hfit
  match cs, hfit with
  | [expr], hfit => exact ⟨expr, rfl, hfit⟩

theorem WellShaped.functionDecl (h : WellShaped (.node n cs)) (hk : n.kind = .functionDecl) :
    ∃ args body : Tree, (cs = [args, body] ∨ ∃ ret : Tree, cs = [args, ret, body] ∧
        ret.kind.isArgumentDecl = true) ∧
      args.kind = .argumentDeclList ∧ body.kind.isStmtNode = true := by
  have hfit := (wellShaped_node.1 h).1
  rw [hk] at hfit
  match cs, hfit with
  | [args, body], hfit =>
    obtain ⟨hargs, hbody⟩ := Bool.and_eq_true_iff.1 hfit
    exact ⟨args, body, .inl rfl, eq_of_beq hargs, hbody⟩
  | [args, ret, body], hfit =>
    obtain ⟨hfit, hbody⟩ := Bool.and_eq_true_iff.1 hfit
    obtain ⟨hargs, hret⟩ := Bool.and_eq_true_iff.1 hfit
    exact ⟨args, body, .inr ⟨ret, rfl, hret⟩, eq_of_beq hargs, hbody⟩

end Children

end Tree

end Swy
