import Mathlib.Data.List.Basic

/-!
# Edit distances and nearest elements

The edit distance of two lists, and the scan for an element with the least distance below a bound.
The scan compares strictly, so it finds the first of the nearest elements (`IsNearest.nearest`).
-/

namespace Swy.Library

/-! ## The edit distance -/

section EditDistance

variable {α : Type} [DecidableEq α]

/-- The distance to a list that starts with `a`, from the distances to what follows it. -/
def editStep (a : α) (previous : List α → Nat) (length : Nat) : List α → Nat
  | [] => length
  | b :: bs =>
    min (previous (b :: bs) + 1)
      (min (editStep a previous length bs + 1) (previous bs + if a = b then 0 else 1))

/-- The least number of elements to insert, to delete or to replace. -/
def editDistance : List α → List α → Nat
  | [], bs => bs.length
  | a :: as, bs => editStep a (editDistance as) (as.length + 1) bs

example : editDistance "kitten".toList "sitting".toList = 3 := by decide

end EditDistance

/-! ## The nearest element -/

section Nearest

variable {α β : Type} (key : α → Nat) (value : α → β)

/-- The element replaces the candidate if it is strictly nearer. -/
def nearer (best : Option β × Nat) (a : α) : Option β × Nat :=
  if key a < best.2 then (some (value a), key a) else best

/-- The first of the nearest elements below the bound, and its distance. -/
def nearest (bound : Nat) (l : List α) : Option β × Nat := l.foldl (nearer key value) (none, bound)

/-- What a scan of the elements leaves: the first candidate and no nearer element, or an element
that is strictly nearer than the candidate and not farther than any other. -/
inductive IsNearest (l : List α) (first last : Option β × Nat) : Prop
  | keep : last = first → (∀ a ∈ l, first.2 ≤ key a) → IsNearest l first last
  | found (a : α) : a ∈ l → last = (some (value a), key a) → key a < first.2 →
    (∀ x ∈ l, key a ≤ key x) → IsNearest l first last

variable {key value}

theorem IsNearest.cons {a : α} {l : List α} {first last : Option β × Nat}
    (h : IsNearest key value l (nearer key value first a) last) :
    IsNearest key value (a :: l) first last := by
  unfold nearer at h
  by_cases ha : key a < first.2
  · rw [if_pos ha] at h
    cases h with
    | keep hlast hall =>
      refine .found a List.mem_cons_self hlast ha fun x hx => ?_
      rcases List.mem_cons.1 hx with rfl | hx
      · exact Nat.le_refl _
      · exact hall x hx
    | found b hb hlast hlt hall =>
      change key b < key a at hlt
      refine .found b (List.mem_cons_of_mem _ hb) hlast (by omega) fun x hx => ?_
      rcases List.mem_cons.1 hx with rfl | hx
      · omega
      · exact hall x hx
  · rw [if_neg ha] at h
    cases h with
    | keep hlast hall =>
      refine .keep hlast fun x hx => ?_
      rcases List.mem_cons.1 hx with rfl | hx
      · omega
      · exact hall x hx
    | found b hb hlast hlt hall =>
      refine .found b (List.mem_cons_of_mem _ hb) hlast hlt fun x hx => ?_
      rcases List.mem_cons.1 hx with rfl | hx
      · omega
      · exact hall x hx

variable (key value)

/-- The scan from a candidate. -/
theorem IsNearest.foldl (l : List α) (first : Option β × Nat) :
    IsNearest key value l first (l.foldl (nearer key value) first) := by
  induction l generalizing first with
  | nil => exact .keep rfl fun a ha => absurd ha List.not_mem_nil
  | cons a l ih => exact (ih _).cons

/-- The scan finds an element iff one is below the bound, and then one of the nearest. -/
theorem IsNearest.nearest (bound : Nat) (l : List α) :
    IsNearest key value l (none, bound) (nearest key value bound l) := .foldl key value l _

end Nearest

end Swy.Library
