import Swy.Parse.ASTLayout

/-!
# Lexical scoping

What the names of a unit mean, without scope objects: a resolver that passes an environment through
the tree. It first enters the named top level declarations of a unit in order. A function adds its
parameters and a named return declaration, a declaration statement its variable after its own
initializer, and what was added inside of a function, a meta declaration or a compound statement is
dropped at its end. A meta unit falls back to the names of the unit its meta declaration is in.

Inside of the contribution of a meta declaration (`contributed`) nothing is declared or resolved,
except in the conditions of meta-ifs and in meta calculations.
-/

namespace Swy

open Library

/-- The visible names with their declarations, the innermost one first. -/
abbrev Environment := List (Identifier × Node)

/-- What is known of the units that were resolved so far. -/
structure Units where
  /-- The unit a top level node is contained in. -/
  containingUnit : NodeId → Option Node
  /-- The declaration a meta unit exports. -/
  exportedNode : NodeId → Option Node
  /-- The names that are visible at the top level of a unit. -/
  names : NodeId → Option Environment

/-- The state of the resolver. -/
structure Resolution where
  env : Environment
  units : Units
  errors : List Diagnostic

namespace Units

/-- `n` is the declaration that a unit exports, and `previous` is the meta declaration the unit was
instantiated from. -/
def exports (u : Units) (n previous : Node) : Bool :=
  previous.kind == .metaDecl && n.kind.isTopLevelNode &&
    match u.containingUnit n.id with
    | some ⟨unit, .metaUnit inst⟩ =>
      inst.decl.any (·.1 == previous.id) && (u.exportedNode unit).any (·.id == n.id)
    | _ => false

end Units

namespace Resolution

/-- Accepts a declaration iff its name is not visible, or what is visible may be shadowed. -/
def declare (n : Node) (r : Resolution) : Resolution :=
  match n.name? with
  | none => r
  | some name =>
    if (r.env.lookup name).all (r.units.exports n) then { r with env := (name, n) :: r.env }
    else { r with errors := r.errors ++ [.errorNameTypeDeclaredAlready n.kind name] }

/-- Enters a child of a unit. -/
def enterTopLevel (contributed : Bool) (unit : Node) (r : Resolution) (n : Node) : Resolution :=
  let r := { r with
    units.containingUnit := Function.update r.units.containingUnit n.id (some unit) }
  let r := match unit.data with
    | .metaUnit inst =>
      if n.name? = some inst.name then
        { r with units.exportedNode := Function.update r.units.exportedNode unit.id (some n) }
      else r
    | _ => r
  if contributed then r else r.declare n

/-- Enters the children of a unit in order. -/
def enterUnit (contributed : Bool) (outer : Environment) (unit : Node) (ns : List Node)
    (r : Resolution) : Resolution :=
  let r := ns.foldl (enterTopLevel contributed unit) { r with env := outer }
  { r with units.names := Function.update r.units.names unit.id (some r.env) }

/-- The names that are visible where the meta declaration of a meta unit is. The meta unit is then
contained in the unit of that declaration. -/
def enterMetaUnit (node : Node) (inst : Instantiation) (r : Resolution) :
    Resolution × Environment :=
  match inst.decl.bind fun decl => r.units.containingUnit decl.1 with
  | none => (r, [])
  | some unit =>
    ({ r with units.containingUnit := Function.update r.units.containingUnit node.id (some unit) },
      (r.units.names unit.id).getD [])

/-- The declarations that were added since the environment was `env`, the first one first. -/
def added (env : Environment) (r : Resolution) : List Node :=
  ((r.env.take (r.env.length - env.length)).map Prod.snd).reverse

mutual
/-- Resolves the references of a tree. -/
def resolve (contributed : Bool) : Tree → Resolution → AST × Resolution
  | .node node cs, r =>
    match node.data with
    | .compilationUnit =>
      let (children, r') := resolveAll contributed cs
        (r.enterUnit contributed [] node (cs.map Rose.label))
      (.node { node } children, { r' with env := r.env })
    | .metaUnit inst =>
      let (r₁, outer) := r.enterMetaUnit node inst
      let (children, r') := resolveAll contributed cs
        (r₁.enterUnit contributed outer node (cs.map Rose.label))
      (.node { node } children, { r' with env := r.env })
    | .functionDecl _ | .compoundStmt =>
      let (children, r') := resolveAll contributed cs r
      (.node { node } children, { r' with env := r.env })
    | .namedArgumentDecl _ => (.node { node } [], if contributed then r else r.declare node)
    | .metaDecl _ =>
      match cs with
      | [] => (.node { node } [], r)
      | args :: contribution =>
        let (args, r₁) := resolve contributed args r
        let (contribution, r₂) := resolveAll true contribution r₁
        (.node { node } (args :: contribution), { r₂ with env := r.env })
    | .declStmt _ =>
      let (children, r) := resolveAll contributed cs r
      (.node { node } children, if contributed then r else r.declare node)
    | .metaIfStmt =>
      match cs with
      | [] => (.node { node } [], r)
      | expression :: branches =>
        let (expression, r) := resolve false expression r
        let (branches, r) := resolveAll contributed branches r
        (.node { node } (expression :: branches), r)
    | .metaCalculationStmt =>
      let (children, r') := resolveAll false cs r
      (.node { node, exportedDecls := r'.added r.env } children, r')
    | .declRefExpr name =>
      if contributed then
        (.node { node } [], r)
      else
        match r.env.lookup name with
        | some decl => (.node { node, decl := some decl } [], r)
        | none =>
          (.node { node } [], { r with errors := r.errors ++ [.errorDeclarationUnknown name] })
    | _ =>
      let (children, r) := resolveAll contributed cs r
      (.node { node } children, r)
/-- `resolve` on each tree of a list, from left to right. -/
def resolveAll (contributed : Bool) : List Tree → Resolution → List AST × Resolution
  | [], r => ([], r)
  | c :: cs, r =>
    let (child, r) := resolve contributed c r
    let (children, r) := resolveAll contributed cs r
    (child :: children, r)
end

end Resolution

end Swy
