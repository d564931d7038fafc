import Swy.AST.Node

/-!
# Scopes

`ASTScope` and its three implementations. A scope object is either allocated, with its own lookup
map (consistent or temporary), or an in-place scope, which has no map, forwards to its parent and
tells its listener what was inserted. A scope with its chain of parents is a list: the scope
itself first, then its parent and so on. Only the innermost allocated scope of the chain is ever
inserted into, so leaving a scope drops the head of the list.
-/

namespace Swy

/-- One scope object of a chain. -/
inductive ASTScope where
  /-- `AllocatedScope`: consistent or temporary, with its lookup map. -/
  | allocated (isConsistent : Bool) (lookupMap : List (Identifier × Node))
  /-- `InplaceASTScopeImpl`: the declarations its listener was called with, in order. -/
  | inplace (listened : List Node)
deriving DecidableEq, Repr

/-- A scope followed by its parents. -/
abbrev ScopeChain := List ASTScope

namespace ScopeChain

/-- `lookupIdentifier`: the innermost entry for the name. -/
def lookupIdentifier : ScopeChain → Identifier → Option Node
  | [], _ => none
  | .allocated _ lookupMap :: parents, str =>
    match lookupMap.lookup str with
    | some node => some node
    | none => lookupIdentifier parents str
  | .inplace _ :: parents, str => lookupIdentifier parents str

/-- The assertion of `AllocatedScope::insert`: the innermost allocated scope has no entry. -/
def isInsertable : ScopeChain → Identifier → Bool
  | [], _ => false
  | .allocated _ lookupMap :: _, str => (lookupMap.lookup str).isNone
  | .inplace _ :: parents, str => isInsertable parents str

/-- `insert`: adds the entry to the innermost allocated scope (an entry that is there stays) and
tells every in-place scope on the way. -/
def insert : ScopeChain → Identifier → Node → ScopeChain
  | [], _, _ => []
  | .allocated isConsistent lookupMap :: parents, str, node =>
    match lookupMap.lookup str with
    | some _ => .allocated isConsistent lookupMap :: parents
    | none => .allocated isConsistent ((str, node) :: lookupMap) :: parents
  | .inplace listened :: parents, str, node =>
    .inplace (listened ++ [node]) :: insert parents str node

/-- `isConsistent`. -/
def isConsistent : ScopeChain → Bool
  | [] => false
  | .allocated isConsistent _ :: _ => isConsistent
  | .inplace _ :: parents => isConsistent parents

/-- What the listener of the innermost scope was called with, if it is an in-place scope. -/
def listened : ScopeChain → List Node
  | .inplace decls :: _ => decls
  | _ => []

end ScopeChain

end Swy
