import Mathlib.Data.List.Basic

/-!
# Precedence climbing

How a rule `expr : operand | expr operator expr` is parsed without left recursion: an operand, and
as long as the level of the next operator is high enough, this operator and an expression of the
least level its right side admits. Where all operators have one level and the right side has to be
higher, the operators group from the left (`climb_eq_foldl`).
-/

namespace Swy.Library

variable {α β ω : Type} (level next : ω → Nat) (node : β → ω → β → β) (leaf : α → β)

/-- Goes on behind `left` with the operators of at least the given level: what was parsed, and what
is left of the input. -/
def climb : Nat → Nat → β → List (ω × α) → β × List (ω × α)
  | 0, _, left, rest => (left, rest)
  | _ + 1, _, left, [] => (left, [])
  | fuel + 1, least, left, (operator, operand) :: rest =>
    if least ≤ level operator then
      let (right, rest) := climb fuel (next operator) (leaf operand) rest
      climb fuel least (node left operator right) rest
    else (left, (operator, operand) :: rest)

variable {level next node leaf}

/-- Nothing is parsed where a higher level is needed. -/
theorem climb_of_lt {fuel least : Nat} {left : β} {rest : List (ω × α)}
    (h : ∀ link ∈ rest, level link.1 < least) :
    climb level next node leaf fuel least left rest = (left, rest) := by
  cases fuel with
  | zero => rfl
  | succ fuel =>
    cases rest with
    | nil => rfl
    | cons link rest =>
      have hlt := h link List.mem_cons_self
      rw [climb]
      exact if_neg (Nat.not_le.2 hlt)

/-- Operators of one level whose right side has to be higher group from the left. -/
theorem climb_eq_foldl {l : Nat} (hlevel : ∀ operator, level operator = l)
    (hnext : ∀ operator, l < next operator) {least : Nat} (hleast : least ≤ l)
    (rest : List (ω × α)) {fuel : Nat} (hfuel : rest.length ≤ fuel) (left : β) :
    climb level next node leaf fuel least left rest =
      (rest.foldl (fun left link => node left link.1 (leaf link.2)) left, []) := by
  induction rest generalizing fuel left with
  | nil => cases fuel <;> rfl
  | cons link rest ih =>
    obtain ⟨fuel, rfl⟩ : ∃ k, fuel = k + 1 := ⟨fuel - 1, by rw [List.length_cons] at hfuel; omega⟩
    rw [List.length_cons] at hfuel
    have hstop : climb level next node leaf fuel (next link.1) (leaf link.2) rest =
        (leaf link.2, rest) := by
      apply climb_of_lt
      intro other _
      rw [hlevel]
      exact hnext link.1
    rw [climb, if_pos (by rw [hlevel]; exact hleast), hstop, List.foldl_cons]
    exact ih (by omega) _

end Swy.Library
