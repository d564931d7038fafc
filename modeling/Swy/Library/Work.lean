import Mathlib.Data.Multiset.DershowitzManna

/-!
# Machines that replace work

What a machine still has to do, as a multiset of weights. A step that replaces some work by lighter
work decreases it in the order of Dershowitz and Manna, whatever is dropped besides, so that a
machine whose steps only replace work halts.
-/

namespace Swy.Library

variable {α : Type} [Preorder α]

/-- Some work is replaced by lighter work. -/
theorem lt_of_replace {M N : Multiset α} (X Y Z : Multiset α) (hM : M ≤ X + Y) (hN : N = X + Z)
    (hZ : Z ≠ 0) (h : ∀ y ∈ Y, ∃ z ∈ Z, y < z) : M.IsDershowitzMannaLT N := by
  classical
  have hrest : M - X ≤ Y := by
    rw [Multiset.sub_le_iff_le_add]
    rwa [add_comm]
  refine ⟨M ∩ X, M - X, Z + (X - M), ?_, ?_, ?_, fun y hy => ?_⟩
  · intro hempty
    apply hZ
    rw [Multiset.empty_eq_zero, add_eq_zero] at hempty
    exact hempty.1
  · rw [add_comm, Multiset.sub_add_inter]
  · calc N = X + Z := hN
      _ = X - M + X ∩ M + Z := by rw [Multiset.sub_add_inter]
      _ = M ∩ X + (Z + (X - M)) := by
        rw [Multiset.inter_comm, add_comm (X - M), add_assoc, add_comm (X - M)]
  · obtain ⟨z, hz, hlt⟩ := h y (Multiset.mem_of_le hrest hy)
    exact ⟨z, Multiset.mem_add.2 (.inl hz), hlt⟩

/-- One of the elements is done, and those that come with it are lighter. -/
theorem lt_of_done {β : Type} {weight : β → α} {before after : β → Bool} {x : β} {l new : List β}
    (h : ∀ y, after y = true → before y = true) (hx : x ∈ l) (hbefore : before x = true)
    (hafter : after x = false) (hnew : ∀ y ∈ new, weight y < weight x) :
    Multiset.IsDershowitzMannaLT (α := α) (((l ++ new).filter after).map weight : List α)
      ((l.filter before).map weight : List α) := by
  have hdone := (List.filter_append_perm after (l.filter before)).map weight
  have hrest : (l.filter before).filter after = l.filter after := by
    rw [List.filter_filter]
    refine List.filter_congr fun y _ => ?_
    cases hy : after y with
    | true => rw [h y hy, Bool.and_true]
    | false => rfl
  rw [hrest, List.map_append] at hdone
  have hmem : weight x ∈ (((l.filter before).filter fun y => !after y).map weight) := by
    refine List.mem_map_of_mem (List.mem_filter.2 ⟨List.mem_filter.2 ⟨hx, hbefore⟩, ?_⟩)
    rw [hafter]
    rfl
  refine lt_of_replace ((l.filter after).map weight : List α)
    ((new.filter after).map weight : List α)
    (((l.filter before).filter fun y => !after y).map weight : List α) ?_ ?_ (fun hempty => ?_)
    fun y hy => ⟨weight x, Multiset.mem_coe.2 hmem, ?_⟩
  · rw [List.filter_append, List.map_append, Multiset.coe_add]
  · rw [Multiset.coe_add]
    exact (Multiset.coe_eq_coe.2 hdone).symm
  · rw [Multiset.coe_eq_zero] at hempty
    rw [hempty] at hmem
    exact List.not_mem_nil hmem
  · obtain ⟨i, hi, rfl⟩ := List.mem_map.1 (Multiset.mem_coe.1 hy)
    exact hnew i (List.mem_filter.1 hi).1

/-- Fewer elements are counted when one of them is not any more. -/
theorem countP_lt {β : Type} {p q : β → Bool} {x : β} {l : List β}
    (h : ∀ y, p y = true → q y = true) (hx : x ∈ l) (hp : p x = false) (hq : q x = true) :
    l.countP p < l.countP q := by
  induction l with
  | nil => cases hx
  | cons y l ih =>
    have hle : l.countP p ≤ l.countP q := List.countP_mono_left fun z _ => h z
    rcases List.mem_cons.1 hx with rfl | hx
    · rw [List.countP_cons_of_neg (by simp [hp]), List.countP_cons_of_pos hq]
      omega
    · have hlt := ih hx
      by_cases hy : p y = true
      · rw [List.countP_cons_of_pos hy, List.countP_cons_of_pos (h y hy)]
        omega
      · rw [List.countP_cons_of_neg hy, List.countP_cons]
        omega

end Swy.Library
