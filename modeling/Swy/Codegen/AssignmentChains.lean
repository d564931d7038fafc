import Swy.Parse.OperandForms
import Swy.Codegen.Evaluation

/-!
# Assignments in chains of operators

There is no operator precedence: in `x = a + b` the assignment is the left operand of the sum. What
is executed first is the assignment of its next operand, and the operators behind it store nothing.
-/

namespace Swy

open Library Context LocalScopeVisitor GeneratedParser

section

variable (ctx : IRContext) (rt : Runtime)

end

variable {ctx : IRContext} {rt : Runtime}

namespace CallInChain

/-- A terminal. -/
def terminal (kind : TokenKind) (text : String) : Context := .node (.token ⟨kind, text⟩) []

/-- `1`. -/
def literal : Context := .node (.rule .expr) [.node (.rule .integerLiteralExpr)
  [terminal .integerLiteral "1"]]

/-- `f<1>`. -/
def inst : Context := .node (.rule .metaInstantiationExpr)
  [.node (.rule .declRefExpr) [terminal .identifier "f"], terminal .operatorLessThan "<",
    .node (.rule .exprList) [literal], terminal .operatorGreaterThan ">"]

/-- `f<1>()`. -/
def call : List Context :=
  [.node (.rule .unaryExpr) [.node (.rule .enclosingExpr) [.node (.rule .callOperatorExpr)
    [inst, terminal .openPar "(", .node (.rule .exprList) [], terminal .closePar ")"]]]]

end CallInChain

end Swy
