import Swy.Library.PrecedenceClimbing
import Swy.Parse.SourceTree

/-!
# Chains of operators

The rule `expr` as the parser generator rewrites it: its alternative `expr binaryOperator expr` is
one left associative level for all operators. So a chain of operands groups from the left, and an
assignment has only its next operand at its right.
-/

namespace Swy

open Library Context LocalScopeVisitor Ebnf GeneratedParser

/-- The terminal of an operator. -/
def ExprBinaryOperator.token : ExprBinaryOperator → Token
  | .mul => ⟨.operatorMul, "*"⟩
  | .div => ⟨.operatorDiv, "/"⟩
  | .plus => ⟨.operatorPlus, "+"⟩
  | .minus => ⟨.operatorMinus, "-"⟩
  | .lessThan => ⟨.operatorLessThan, "<"⟩
  | .greaterThan => ⟨.operatorGreaterThan, ">"⟩
  | .lessThanOrEq => ⟨.operatorLessThanOrEq, "<="⟩
  | .greaterThanOrEq => ⟨.operatorGreaterThanOrEq, ">="⟩
  | .equal => ⟨.operatorEqual, "=="⟩
  | .notEqual => ⟨.operatorNotEqual, "!="⟩
  | .assign => ⟨.operatorAssign, "="⟩

/-- An operator and the operand behind it: the children of the context of the operand. -/
abbrev ChainLink := ExprBinaryOperator × List Context

/-- The context of an operand. -/
def exprContext (operand : List Context) : Context := .node (.rule .expr) operand

/-- The context of an operator. -/
def operatorContext (operator : ExprBinaryOperator) : Context :=
  .node (.rule .binaryOperator) [.node (.token operator.token) []]

/-- The context of the alternative `expr binaryOperator expr`. -/
def binaryContext (left : Context) (operator : ExprBinaryOperator) (right : Context) : Context :=
  .node (.rule .expr) [left, operatorContext operator, right]

/-- The precedence of the alternative `expr binaryOperator expr`, which is the last one. -/
def binaryPrecedence (_ : ExprBinaryOperator) : Nat := 1

/-- The precedence of the right side: the alternative is left associative. -/
def rightPrecedence (operator : ExprBinaryOperator) : Nat := binaryPrecedence operator + 1

/-- The tree that the rule `expr` builds of a chain. -/
def parseExpr (first : List Context) (links : List ChainLink) : Context :=
  (climb binaryPrecedence rightPrecedence binaryContext exprContext links.length 0
    (exprContext first) links).1

/-- The alternatives of `expr` without parentheses and operators. -/
def operand : Ebnf Rule TokenKind BasicParser :=
  oneOf (rule .unaryExpr) [rule .metaInstantiationExpr, rule .declRefExpr,
    rule .integerLiteralExpr, rule .booleanLiteralExpr]

/-- The children of the context of an operand. -/
def IsOperand (p : BasicParser) (context : List Context) : Prop :=
  Derives grammar operand p context p

/-- The alternatives of `expr` that do not start with an `expr`, in the order of the grammar. -/
def primary : Ebnf Rule TokenKind BasicParser :=
  oneOf (rule .unaryExpr) [rule .metaInstantiationExpr, rule .declRefExpr,
    seqs [token .openPar, rule .expr, token .closePar], rule .integerLiteralExpr,
    rule .booleanLiteralExpr]

/-- The children of the context of an operand, in parentheses or not. -/
def IsPrimary (p : BasicParser) (context : List Context) : Prop :=
  Derives grammar primary p context p

/-- The children of the context of a name. -/
def nameContext (name : Identifier) : List Context :=
  [.node (.rule .declRefExpr) [.node (.token ⟨.identifier, name⟩) []]]

/-- The tree groups from the left. -/
theorem parseExpr_eq_foldl (first : List Context) (links : List ChainLink) :
    parseExpr first links =
      links.foldl (fun left link => binaryContext left link.1 (exprContext link.2))
        (exprContext first) := by
  have hlevel : ∀ operator, binaryPrecedence operator = 1 := fun _ => rfl
  have hnext : ∀ operator, 1 < rightPrecedence operator := fun _ => Nat.lt_succ_self 1
  rw [parseExpr, climb_eq_foldl hlevel hnext (Nat.zero_le 1) links (Nat.le_refl _)]

/-! ## The tree is derived -/

variable {p : BasicParser}

theorem terminals_parseExpr (first : List Context) (links : List ChainLink) :
    terminals (parseExpr first links) =
      first.flatMap terminals ++
        links.flatMap fun link => link.1.token :: link.2.flatMap terminals := by
  rw [parseExpr_eq_foldl, ← terminals_rule .expr first]
  change _ = terminals (exprContext first) ++ _
  generalize exprContext first = left
  induction links generalizing left with
  | nil => rw [List.foldl_nil, List.flatMap_nil, List.append_nil]
  | cons link links ih =>
    have hbinary : terminals (binaryContext left link.1 (exprContext link.2)) =
        terminals left ++ (link.1.token :: link.2.flatMap terminals) := by
      rw [binaryContext, terminals_rule, List.flatMap_cons, List.flatMap_cons,
        List.flatMap_singleton, operatorContext, terminals_rule, List.flatMap_singleton,
        terminals_token, exprContext, terminals_rule, List.singleton_append]
    rw [List.foldl_cons, ih, hbinary, List.append_assoc, List.flatMap_cons]

/-! ## What it stands for -/

end Swy
