import Swy.Sema.CallChecks
import Swy.Codegen.OperandKinds
import Swy.Codegen.Faults

/-!
# Operands that reach the code generation

The language has one type of expressions, and no check says which of them may stand where: the left
operand of an assignment is stored to, every other operand is loaded. What the operands are where
their code is generated only depends on what the names in these positions were resolved to.
-/

namespace Swy

open Library

/-- What an operand is generated for. -/
inductive OperandRole where
  | target
  | value
deriving DecidableEq, Repr

namespace AST

/-- The operands of a node: what its code stores to, and the expressions that are compiled for their
value. The callee of a call and the name and arguments of an instantiation are not among them. -/
def operands : AST → List (OperandRole × AST)
  | .node n cs =>
    match n.node.data, cs with
    | .binaryOperatorExpr op, [left, right] =>
      [(if op = .assign then .target else .value, left), (.value, right)]
    | .callOperatorExpr, _ :: args => args.map (.value, ·)
    | .returnStmt, cs | .expressionStmt, cs | .declStmt _, cs => cs.map (.value, ·)
    | .ifStmt, condition :: _ | .metaIfStmt, condition :: _ => [(.value, condition)]
    | _, _ => []

end AST

/-- Every parameter and variable the expression refers to has a value. -/
def CodegenState.Knows (s : CodegenState) (a : AST) : Prop :=
  ∀ n ∈ a.labels, ∀ d, n.decl = some d → d.kind = .namedArgumentDecl ∨ d.kind = .declStmt →
    s.values.any (·.contains d.id) = true

namespace AST

/-- `P` holds of every node in a tree that is not contributed, if the tree is not contributed. -/
def Below (P : Visit → Prop) (a : AST) : Prop :=
  ∃ above, ∀ v ∈ a.visited false above, v.contributed = false → P v

theorem Below.self {P : Visit → Prop} {a : AST} (h : Below P a) : ∃ above, P ⟨false, above, a⟩ := by
  obtain ⟨above, h⟩ := h
  exact ⟨above, h _ mem_visited_self rfl⟩

/-- The parts of an expression stand at the stage of the expression. -/
theorem Below.child {P : Visit → Prop} {n : ASTNode} {cs : List AST} (h : Below P (.node n cs))
    (hn : n.node.data.kind.isExprNode = true) {c : AST} (hc : c ∈ cs) : Below P c := by
  obtain ⟨above, h⟩ := h
  have hstage : (false, c) ∈ childStages false n.node.data cs := by
    cases hdata : n.node.data <;> rw [hdata] at hn <;> try cases hn
    all_goals exact List.mem_map_of_mem hc
  exact ⟨n :: above, fun v hv => h v (mem_visited_node.2 (.inr ⟨_, hstage, hv⟩))⟩

theorem Below.imp {P Q : Visit → Prop} {a : AST} (h : Below P a) (hpq : ∀ v, P v → Q v) :
    Below Q a := by
  obtain ⟨above, h⟩ := h
  exact ⟨above, fun v hv hc => hpq v (h v hv hc)⟩

end AST

namespace Check

variable {ctx : IRContext} {known known' : List (List NodeId)}

end Check

/-! ## Unhandled declarations -/

namespace FunctionCodegen

variable {ctx : IRContext}

end FunctionCodegen

/-! ## Operands of an accepted unit -/

namespace SemaAnalysis

variable {ctx : IRContext} {a : AST}

theorem constant_of_covers (h : ctx.Covers a) {n : ASTNode} (hn : n ∈ a.labels) {d : Node}
    (hd : n.decl = some d) (hk : d.kind = .globalConstantDecl) :
    ∃ value, ctx.constant d.id = some value := by
  obtain ⟨b, hb, rfl, hs⟩ := h.declaringNode n hn d hd
  obtain ⟨⟨⟨id, data⟩, decl, exportedDecls⟩, cs⟩ := b
  have hfit := (AST.wellShaped_node.1 hs).1
  cases data <;> try cases hk
  rcases cs with _ | ⟨expr, _ | ⟨c, cs⟩⟩
  · cases hfit
  · obtain ⟨⟨⟨exprId, exprData⟩, exprDecl, exprDecls⟩, ds⟩ := expr
    cases exprData <;> try cases hfit
    all_goals exact ⟨_, by rw [IRContext.constant, hb]; rfl⟩
  · cases hfit

end SemaAnalysis

end Swy
