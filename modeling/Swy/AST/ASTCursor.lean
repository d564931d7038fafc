import Swy.Parse.BasicASTBuilder

/-!
# The cursor of the meta codegen

`ASTCursor`: how deep the code generation of a meta function descended, in the AST and in the meta
level. Descending and ascending assert that the transition is balanced.
-/

namespace Swy

/-- `DepthLevel`. -/
inductive DepthLevel where
  | topLevel | insideFunctionDecl
deriving DecidableEq, Repr

/-- The depth below a node of the kind. -/
def DepthLevel.below (kind : ASTKind) (depth : DepthLevel) : DepthLevel :=
  if kind = .functionDecl then .insideFunctionDecl else depth

/-- `ASTCursor`: the depth in both dimensions. -/
structure ASTCursor where
  depth : DepthLevel := .topLevel
  metaDepth : MetaDepthLevel := .outside
deriving DecidableEq, Repr

namespace ASTCursor

/-- `transitionDepth`: the depths a node of the kind leads from and to. -/
def transitionDepth : ASTKind → Option (DepthLevel × DepthLevel)
  | .functionDecl => some (.topLevel, .insideFunctionDecl)
  | _ => none

/-- `transitionMetaDepth`. -/
def transitionMetaDepth : ASTKind → Option (MetaDepthLevel × MetaDepthLevel)
  | .metaDecl => some (.outside, .insideMetaDecl)
  | .metaCalculationStmt => some (.insideMetaDecl, .insideComputation)
  | _ => none

/-- `makeTransition`: nothing if the transition is unbalanced. -/
def makeTransition {α : Type} [DecidableEq α] (depth from' to' : α) : Option α :=
  if depth = from' then some to' else none

/-- `descend`. -/
def descend (kind : ASTKind) (c : ASTCursor) : Option ASTCursor := do
  let depth ← match transitionDepth kind with
    | some (from', to') => makeTransition c.depth from' to'
    | none => some c.depth
  let metaDepth ← match transitionMetaDepth kind with
    | some (from', to') => makeTransition c.metaDepth from' to'
    | none => some c.metaDepth
  return { depth, metaDepth }

/-- `ascend`: the transitions reversed. -/
def ascend (kind : ASTKind) (c : ASTCursor) : Option ASTCursor := do
  let depth ← match transitionDepth kind with
    | some (from', to') => makeTransition c.depth to' from'
    | none => some c.depth
  let metaDepth ← match transitionMetaDepth kind with
    | some (from', to') => makeTransition c.metaDepth to' from'
    | none => some c.metaDepth
  return { depth, metaDepth }

/-- Descending is undone by ascending. -/
theorem ascend_descend {kind : ASTKind} {c c' : ASTCursor} (h : c.descend kind = some c') :
    c'.ascend kind = some c := by
  obtain ⟨depth, metaDepth⟩ := c
  cases kind <;> cases depth <;> cases metaDepth <;> cases h <;> rfl

theorem depth_descend {kind : ASTKind} {c c' : ASTCursor} (h : c.descend kind = some c') :
    c'.depth = DepthLevel.below kind c.depth := by
  obtain ⟨depth, metaDepth⟩ := c
  cases kind <;> cases depth <;> cases metaDepth <;> cases h <;> rfl

end ASTCursor

end Swy
