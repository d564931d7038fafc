import Swy.AST.Scope
import Swy.Library.Nearest

/-!
# Similar declarations

`similarTo` of the scopes, which suggests a declaration for an unknown name. Every scope finds the
nearest of its own declarations, and the parents are asked for a strictly nearer one, so that what
is suggested is nearest among all declarations of the chain (`similarTo_nearest`).

The edit distance of `llvm::StringRef` is a parameter, of which only is taken that it is exact up to
the limit (`IsLimited`). The order in which a hash map is iterated is another one.
-/

namespace Swy

open Library

namespace ScopeChain

/-- `AllocatedScope::THRESHOLD`. -/
def THRESHOLD : Nat := 10

/-- The edit distance of two strings, which are compared by their bytes. -/
def distance (str name : Identifier) : Nat :=
  editDistance str.toUTF8.data.toList name.toUTF8.data.toList

/-- The distance is computed exactly up to the limit, and is some larger number beyond it. -/
def IsLimited (limit : Nat) (edit_distance : Identifier → Identifier → Nat) : Prop :=
  ∀ str name,
    (distance str name ≤ limit → edit_distance str name = distance str name) ∧
    (limit < distance str name → limit < edit_distance str name)

section

variable (edit_distance : Identifier → Identifier → Nat)
  (iterate : List (Identifier × Node) → List (Identifier × Node))

/-- `myMostSimilarString`: the nearest declaration of a scope. -/
def myMostSimilarString (lookupMap : List (Identifier × Node)) (str : Identifier) :
    Option Node × Nat :=
  nearest (fun entry : Identifier × Node => edit_distance str entry.1) Prod.snd THRESHOLD
    (iterate lookupMap)

/-- `similarTo` with the distance of the declaration that was found so far. -/
def similarToFrom : ScopeChain → Identifier → Nat → Option Node → Option Node
  | [], _, _, current => current
  | .allocated _ lookupMap :: parents, str, distance, current =>
    let (myCurrent, myDistance) := myMostSimilarString edit_distance iterate lookupMap str
    if myDistance < distance then similarToFrom parents str myDistance myCurrent
    else similarToFrom parents str distance current
  | .inplace _ :: parents, str, distance, current => similarToFrom parents str distance current

/-- `similarTo`. -/
def similarTo : ScopeChain → Identifier → Option Node
  | [], _ => none
  | .allocated isConsistent lookupMap :: parents, str =>
    similarToFrom edit_distance iterate (.allocated isConsistent lookupMap :: parents) str THRESHOLD
      none
  | .inplace _ :: parents, str => similarTo parents str

end

/-! ## The declarations of a chain -/

/-- The declarations of the scopes with their names. -/
def entries : ScopeChain → List (Identifier × Node)
  | [] => []
  | .allocated _ lookupMap :: parents => lookupMap ++ entries parents
  | .inplace _ :: parents => entries parents

theorem mem_entries_of_lookupIdentifier {scopes : ScopeChain} {name : Identifier} {node : Node}
    (h : scopes.lookupIdentifier name = some node) : (name, node) ∈ scopes.entries := by
  induction scopes with
  | nil => cases h
  | cons scope parents ih =>
    cases scope with
    | inplace listened => exact ih h
    | allocated isConsistent lookupMap =>
      rw [lookupIdentifier] at h
      rw [entries, List.mem_append]
      cases hlookup : lookupMap.lookup name with
      | none =>
        rw [hlookup] at h
        exact .inr (ih h)
      | some node' =>
        rw [hlookup] at h
        obtain rfl := Option.some.inj h
        obtain ⟨before, behind, rfl, -⟩ := List.lookup_eq_some_iff.1 hlookup
        exact .inl (List.mem_append_right _ List.mem_cons_self)

/-- The declaration is nearest to the string among those of the chain, at a distance below the
threshold, and the scopes in front of its own only have farther ones. -/
structure IsNearest (scopes : ScopeChain) (str : Identifier) (node : Node) (inner : ScopeChain)
    (isConsistent : Bool) (lookupMap : List (Identifier × Node)) (outer : ScopeChain)
    (name : Identifier) : Prop where
  scopes_eq : scopes = inner ++ .allocated isConsistent lookupMap :: outer
  mem : (name, node) ∈ lookupMap
  below : distance str name < THRESHOLD
  least : ∀ entry ∈ scopes.entries, distance str name ≤ distance str entry.1
  innermost : ∀ entry ∈ inner.entries, distance str name < distance str entry.1

section

variable {edit_distance : Identifier → Identifier → Nat}
  {iterate : List (Identifier × Node) → List (Identifier × Node)}

/-- A limited distance decides which of two names is nearer, if one is within the limit. -/
theorem IsLimited.lt_iff {limit : Nat} (h : IsLimited limit edit_distance) (str name : Identifier)
    {bound : Nat} (hbound : bound ≤ limit) :
    edit_distance str name < bound ↔ distance str name < bound := by
  obtain ⟨hexact, hlarger⟩ := h str name
  by_cases hlimit : distance str name ≤ limit
  · rw [hexact hlimit]
  · have := hlarger (by omega)
    omega

/-- The nearest declaration of a scope, by the exact distance. -/
theorem isNearest_myMostSimilarString (hdistance : IsLimited THRESHOLD edit_distance)
    (hiterate : ∀ lookupMap, (iterate lookupMap).Perm lookupMap)
    (lookupMap : List (Identifier × Node)) (str : Identifier) :
    Library.IsNearest (fun entry : Identifier × Node => distance str entry.1) Prod.snd lookupMap
      (none, THRESHOLD) (myMostSimilarString edit_distance iterate lookupMap str) := by
  have hmem (entry : Identifier × Node) : entry ∈ iterate lookupMap ↔ entry ∈ lookupMap :=
    (hiterate lookupMap).mem_iff
  have hscan : Library.IsNearest (fun entry : Identifier × Node => edit_distance str entry.1)
      Prod.snd (iterate lookupMap) (none, THRESHOLD)
      (myMostSimilarString edit_distance iterate lookupMap str) := .nearest _ _ _ _
  cases hscan with
  | keep hlast hall =>
    refine .keep hlast fun entry hentry => ?_
    have hfar : THRESHOLD ≤ edit_distance str entry.1 := hall entry ((hmem entry).2 hentry)
    have hiff := hdistance.lt_iff str entry.1 (Nat.le_refl THRESHOLD)
    change THRESHOLD ≤ distance str entry.1
    omega
  | found entry hentry hlast hlt hall =>
    change edit_distance str entry.1 < THRESHOLD at hlt
    have hbelow : distance str entry.1 < THRESHOLD :=
      (hdistance.lt_iff str entry.1 (Nat.le_refl _)).1 hlt
    have hexact : edit_distance str entry.1 = distance str entry.1 :=
      (hdistance str entry.1).1 (Nat.le_of_lt hbelow)
    refine .found entry ((hmem entry).1 hentry) (by rw [hlast, hexact]) hbelow fun x hx => ?_
    have hle : edit_distance str entry.1 ≤ edit_distance str x.1 := hall x ((hmem x).2 hx)
    have hiff := hdistance.lt_iff str x.1 (Nat.le_of_lt hbelow)
    change distance str entry.1 ≤ distance str x.1
    omega

/-- The own declarations of a scope decide what its parents are asked for. -/
theorem similarToFrom_allocated (hdistance : IsLimited THRESHOLD edit_distance)
    (hiterate : ∀ lookupMap, (iterate lookupMap).Perm lookupMap) (isConsistent : Bool)
    (lookupMap : List (Identifier × Node)) (parents : ScopeChain) (str : Identifier) {bound : Nat}
    (hbound : bound ≤ THRESHOLD) (current : Option Node) :
    (∃ entry ∈ lookupMap, distance str entry.1 < bound ∧
        (∀ x ∈ lookupMap, distance str entry.1 ≤ distance str x.1) ∧
        similarToFrom edit_distance iterate (.allocated isConsistent lookupMap :: parents) str bound
            current =
          similarToFrom edit_distance iterate parents str (distance str entry.1) (some entry.2)) ∨
      (∀ x ∈ lookupMap, bound ≤ distance str x.1) ∧
        similarToFrom edit_distance iterate (.allocated isConsistent lookupMap :: parents) str bound
            current =
          similarToFrom edit_distance iterate parents str bound current := by
  have hmost := isNearest_myMostSimilarString hdistance hiterate lookupMap str
  rw [similarToFrom]
  cases hmost with
  | keep hlast hall =>
    rw [hlast]
    refine .inr ⟨fun x hx => Nat.le_trans hbound (hall x hx), ?_⟩
    exact if_neg (Nat.not_lt.2 hbound)
  | found entry hentry hlast hlt hall =>
    rw [hlast]
    by_cases hnear : distance str entry.1 < bound
    · exact .inl ⟨entry, hentry, hnear, hall, if_pos hnear⟩
    · refine .inr ⟨fun x hx => ?_, if_neg hnear⟩
      exact Nat.le_trans (Nat.not_lt.1 hnear) (hall x hx)

theorem entries_append (inner outer : ScopeChain) :
    entries (inner ++ outer) = entries inner ++ entries outer := by
  induction inner with
  | nil => rfl
  | cons scope inner ih =>
    cases scope with
    | allocated isConsistent lookupMap =>
      rw [List.cons_append, entries, entries, ih, List.append_assoc]
    | inplace listened => exact ih

/-- A scope in front that only has farther declarations. -/
theorem IsNearest.cons {scope : ASTScope} {parents inner outer : ScopeChain} {str name : Identifier}
    {node : Node} {isConsistent : Bool} {lookupMap : List (Identifier × Node)}
    (h : IsNearest parents str node inner isConsistent lookupMap outer name)
    (hscope : ∀ entry ∈ entries [scope], distance str name < distance str entry.1) :
    IsNearest (scope :: parents) str node (scope :: inner) isConsistent lookupMap outer name where
  scopes_eq := by
    rw [h.scopes_eq]
    rfl
  mem := h.mem
  below := h.below
  least entry hentry := by
    rw [← List.singleton_append, entries_append] at hentry
    rcases List.mem_append.1 hentry with hentry | hentry
    · exact Nat.le_of_lt (hscope entry hentry)
    · exact h.least entry hentry
  innermost entry hentry := by
    rw [← List.singleton_append, entries_append] at hentry
    rcases List.mem_append.1 hentry with hentry | hentry
    · exact hscope entry hentry
    · exact h.innermost entry hentry

/-- What the recursion over the parents returns: the candidate if there is no nearer declaration. -/
theorem similarToFrom_nearest (hdistance : IsLimited THRESHOLD edit_distance)
    (hiterate : ∀ lookupMap, (iterate lookupMap).Perm lookupMap) (scopes : ScopeChain)
    (str : Identifier) {bound : Nat} (hbound : bound ≤ THRESHOLD) (current : Option Node) :
    (similarToFrom edit_distance iterate scopes str bound current = current ∧
        ∀ entry ∈ scopes.entries, bound ≤ distance str entry.1) ∨
      ∃ node inner isConsistent lookupMap outer name,
        similarToFrom edit_distance iterate scopes str bound current = some node ∧
        IsNearest scopes str node inner isConsistent lookupMap outer name ∧
        distance str name < bound := by
  induction scopes generalizing bound current with
  | nil => exact .inl ⟨rfl, fun entry hentry => absurd hentry List.not_mem_nil⟩
  | cons scope parents ih =>
    cases scope with
    | inplace listened =>
      rcases ih hbound current with ⟨hsame, hall⟩ |
        ⟨node, inner, isConsistent, lookupMap, outer, name, hfound, hnearest, hlt⟩
      · exact .inl ⟨hsame, hall⟩
      · exact .inr ⟨node, _, _, _, _, name, hfound,
          hnearest.cons fun entry hentry => absurd hentry List.not_mem_nil, hlt⟩
    | allocated isConsistent lookupMap =>
      have hentries (x : Identifier × Node) (hx : x ∈ entries [.allocated isConsistent lookupMap]) :
          x ∈ lookupMap := by simpa [entries] using hx
      rcases similarToFrom_allocated hdistance hiterate isConsistent lookupMap parents str hbound
        current with ⟨entry, hentry, hnear, hleast, heq⟩ | ⟨hfar, heq⟩
      · rw [heq]
        have hentryBound : distance str entry.1 ≤ THRESHOLD := by omega
        rcases ih hentryBound (some entry.2) with ⟨hsame, hall⟩ |
          ⟨node, inner, isConsistent', lookupMap', outer, name, hfound, hnearest, hlt⟩
        · refine .inr ⟨entry.2, [], isConsistent, lookupMap, parents, entry.1, hsame,
            ⟨rfl, hentry, by omega, fun x hx => ?_, fun x hx => absurd hx List.not_mem_nil⟩, hnear⟩
          rcases List.mem_append.1 hx with hx | hx
          · exact hleast x hx
          · exact hall x hx
        · refine .inr ⟨node, _, _, _, _, name, hfound, hnearest.cons fun x hx => ?_, by omega⟩
          have := hleast x (hentries x hx)
          omega
      · rw [heq]
        rcases ih hbound current with ⟨hsame, hall⟩ |
          ⟨node, inner, isConsistent', lookupMap', outer, name, hfound, hnearest, hlt⟩
        · refine .inl ⟨hsame, fun x hx => ?_⟩
          rcases List.mem_append.1 hx with hx | hx
          · exact hfar x hx
          · exact hall x hx
        · refine .inr ⟨node, _, _, _, _, name, hfound, hnearest.cons fun x hx => ?_, hlt⟩
          have := hfar x (hentries x hx)
          omega

/-- The in-place scopes in front of a chain are passed through. -/
theorem similarTo_eq_similarToFrom (scopes : ScopeChain) (str : Identifier) :
    similarTo edit_distance iterate scopes str =
      similarToFrom edit_distance iterate scopes str THRESHOLD none := by
  induction scopes with
  | nil => rfl
  | cons scope parents ih =>
    cases scope with
    | allocated isConsistent lookupMap => rfl
    | inplace listened => exact ih

/-- What is suggested is a declaration at the least distance of all declarations of the chain, from
the innermost scope that has one at that distance, where no scope in front binds its name. Nothing
is suggested iff every declaration is at the threshold or beyond it. -/
theorem similarTo_nearest (hdistance : IsLimited THRESHOLD edit_distance)
    (hiterate : ∀ lookupMap, (iterate lookupMap).Perm lookupMap) (scopes : ScopeChain)
    (str : Identifier) :
    (∀ node, similarTo edit_distance iterate scopes str = some node →
      ∃ inner isConsistent lookupMap outer name,
        IsNearest scopes str node inner isConsistent lookupMap outer name ∧
        inner.lookupIdentifier name = none) ∧
    (similarTo edit_distance iterate scopes str = none ↔
      ∀ entry ∈ scopes.entries, THRESHOLD ≤ distance str entry.1) := by
  rw [similarTo_eq_similarToFrom]
  rcases similarToFrom_nearest hdistance hiterate scopes str (Nat.le_refl THRESHOLD) none with
    ⟨hnone, hall⟩ | ⟨node, inner, isConsistent, lookupMap, outer, name, hfound, hnearest, -⟩
  · rw [hnone]
    refine ⟨fun node hnode => ?_, fun _ => hall, fun _ => rfl⟩
    cases hnode
  · rw [hfound]
    constructor
    · intro node' hnode
      obtain rfl := Option.some.inj hnode
      refine ⟨inner, isConsistent, lookupMap, outer, name, hnearest, ?_⟩
      rw [Option.eq_none_iff_forall_ne_some]
      intro other hother
      exact Nat.lt_irrefl _
        (hnearest.innermost (name, other) (mem_entries_of_lookupIdentifier hother))
    · constructor
      · intro hnode
        cases hnode
      · intro hall
        have hmem : (name, node) ∈ scopes.entries := by
          rw [hnearest.scopes_eq, entries_append]
          exact List.mem_append_right _ (List.mem_append_left _ hnearest.mem)
        exact absurd (hall (name, node) hmem) (Nat.not_le.2 hnearest.below)

/-- Of `fooo` in the function and `fob`, `food` in the unit the first one is suggested for `foo`,
and for a name far away nothing. -/
theorem similarTo_nearest_function :
    let limited (str name : Identifier) : Nat :=
      if distance str name ≤ THRESHOLD then distance str name else THRESHOLD + 1
    let scopes : ScopeChain := [.inplace [], .allocated false [("fooo", ⟨3, .declStmt "fooo"⟩)],
      .allocated true [("food", ⟨1, .functionDecl "food"⟩), ("fob", ⟨2, .functionDecl "fob"⟩)]]
    (∀ node, similarTo limited List.reverse scopes "foo" = some node →
      ∃ inner isConsistent lookupMap outer name,
        IsNearest scopes "foo" node inner isConsistent lookupMap outer name ∧
        inner.lookupIdentifier name = none) ∧
    similarTo limited List.reverse scopes "foo" = some ⟨3, .declStmt "fooo"⟩ ∧
    similarTo limited List.reverse scopes "somethingElse" = none := by
  intro limited scopes
  have hlimited : IsLimited THRESHOLD limited := by
    intro str name
    constructor
    · intro hle
      exact if_pos hle
    · intro hlt
      have hbeyond : limited str name = THRESHOLD + 1 := if_neg (Nat.not_le.2 hlt)
      omega
  have hnearest := similarTo_nearest hlimited (fun lookupMap => lookupMap.reverse_perm) scopes
  refine ⟨(hnearest "foo").1, by decide, (hnearest "somethingElse").2.2 ?_⟩
  decide

end

end ScopeChain

end Swy
