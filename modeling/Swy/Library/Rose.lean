import Mathlib.Data.List.Basic
import Mathlib.Data.List.Flatten

/-!
# Rose trees and their preorder encoding with end marks

A rose tree over labels `α`, and its flat encoding: every label in preorder, and after the children
of a *framed* label one end mark (`none`). Labels that are not framed have no end mark, so a reader
must know how many children they have. A reader that only counts end marks still skips exactly the
children of a framed label, whatever the arities below it are (`skip_encodeAll`).
-/

namespace Swy.Library

/-- A tree whose nodes carry a label and a list of children. -/
inductive Rose (α : Type) where
  | node (label : α) (children : List (Rose α))

namespace Rose

variable {α β : Type}

/-- The label at the root. -/
def label : Rose α → α
  | .node a _ => a

/-- The children of the root. -/
def children : Rose α → List (Rose α)
  | .node _ cs => cs

@[simp] theorem label_node (a : α) (cs : List (Rose α)) : (node a cs).label = a := rfl
@[simp] theorem children_node (a : α) (cs : List (Rose α)) : (node a cs).children = cs := rfl

/-- Induction on a tree: a property of every tree whose children have it holds of all trees. -/
@[elab_as_elim]
theorem ind {P : Rose α → Prop} (h : ∀ a cs, (∀ c ∈ cs, P c) → P (.node a cs)) (t : Rose α) : P t :=
  @Rose.rec α P (fun cs => ∀ c ∈ cs, P c) (fun a cs ih => h a cs ih)
    (fun c hc => absurd hc List.not_mem_nil)
    (fun c cs hc hcs x hx => by
      rcases List.mem_cons.1 hx with rfl | hx
      · exact hc
      · exact hcs x hx) t

/-! ## Maps and the labels of a tree -/

mutual
/-- The tree of the same form with every label mapped. -/
def map (f : α → β) : Rose α → Rose β
  | .node a cs => .node (f a) (mapAll f cs)
/-- `map` on each tree of a list. -/
def mapAll (f : α → β) : List (Rose α) → List (Rose β)
  | [] => []
  | c :: cs => map f c :: mapAll f cs
end

@[simp] theorem mapAll_eq (f : α → β) (cs : List (Rose α)) : mapAll f cs = cs.map (map f) := by
  induction cs with
  | nil => rfl
  | cons c cs ih => rw [mapAll, ih, List.map_cons]

@[simp] theorem map_node (f : α → β) (a : α) (cs : List (Rose α)) :
    (node a cs).map f = .node (f a) (cs.map (map f)) := by rw [map, mapAll_eq]

@[simp] theorem label_map (f : α → β) (t : Rose α) : (t.map f).label = f t.label := by
  cases t with
  | node a cs => rw [map_node, label_node, label_node]

@[simp] theorem children_map (f : α → β) (t : Rose α) :
    (t.map f).children = t.children.map (map f) := by
  cases t
  rw [map_node, children_node, children_node]

theorem map_map {γ : Type} (g : β → γ) (f : α → β) (t : Rose α) :
    (t.map f).map g = t.map fun a => g (f a) := by
  induction t using ind with
  | h a cs ih =>
    rw [map_node, map_node, map_node, List.map_map]
    exact congrArg _ (List.map_congr_left ih)

/-- Mapping labels one to one maps trees one to one. -/
theorem map_injective {f : α → β} (hf : Function.Injective f) : Function.Injective (map f) := by
  intro t
  induction t using ind with
  | h a cs ih =>
    have hcs : ∀ ds, cs.map (map f) = ds.map (map f) → cs = ds := by
      induction cs with
      | nil => exact fun ds h => (List.map_eq_nil_iff.1 h.symm).symm
      | cons c cs ihcs =>
        rintro ds h
        obtain ⟨d, ds, rfl, hc, hds⟩ := List.map_eq_cons_iff.1 h.symm
        rw [ih c List.mem_cons_self hc.symm,
          ihcs (fun x hx => ih x (List.mem_cons_of_mem c hx)) ds hds.symm]
    rintro ⟨b, ds⟩ h
    rw [map_node, map_node, node.injEq] at h
    rw [hf h.1, hcs ds h.2]

mutual
/-- All labels in preorder. -/
def labels : Rose α → List α
  | .node a cs => a :: labelsAll cs
/-- The labels of each tree of a list, in order. -/
def labelsAll : List (Rose α) → List α
  | [] => []
  | c :: cs => labels c ++ labelsAll cs
end

@[simp] theorem labelsAll_eq (cs : List (Rose α)) : labelsAll cs = cs.flatMap labels := by
  induction cs with
  | nil => rfl
  | cons c cs ih => rw [labelsAll, ih, List.flatMap_cons]

@[simp] theorem labels_node (a : α) (cs : List (Rose α)) :
    (node a cs).labels = a :: cs.flatMap labels := by rw [labels, labelsAll_eq]

theorem mem_labels_node {x a : α} {cs : List (Rose α)} :
    x ∈ (node a cs).labels ↔ x = a ∨ ∃ c ∈ cs, x ∈ c.labels := by
  rw [labels_node, List.mem_cons, List.mem_flatMap]

theorem labels_map (f : α → β) (t : Rose α) : (t.map f).labels = t.labels.map f := by
  induction t using ind with
  | h a cs ih =>
    rw [map_node, labels_node, labels_node, List.map_cons, List.flatMap_map, List.map_flatMap]
    exact congrArg _ (List.flatMap_congr ih)

mutual
/-- The tree itself and the subtrees below it. -/
def subtrees : Rose α → List (Rose α)
  | .node a cs => .node a cs :: subtreesAll cs
/-- The subtrees of each tree of a list, in order. -/
def subtreesAll : List (Rose α) → List (Rose α)
  | [] => []
  | c :: cs => subtrees c ++ subtreesAll cs
end

@[simp] theorem subtreesAll_eq (cs : List (Rose α)) : subtreesAll cs = cs.flatMap subtrees := by
  induction cs with
  | nil => rfl
  | cons c cs ih => rw [subtreesAll, ih, List.flatMap_cons]

theorem mem_subtrees_node {t : Rose α} {a : α} {cs : List (Rose α)} :
    t ∈ (node a cs).subtrees ↔ t = .node a cs ∨ ∃ c ∈ cs, t ∈ c.subtrees := by
  rw [subtrees, subtreesAll_eq, List.mem_cons, List.mem_flatMap]

/-- The subtrees are in the order of their labels. -/
theorem map_label_subtrees (t : Rose α) : t.subtrees.map label = t.labels := by
  induction t using ind with
  | h a cs ih =>
    rw [subtrees, subtreesAll_eq, labels_node, List.map_cons, List.map_flatMap]
    exact congrArg _ (List.flatMap_congr ih)

theorem mem_subtrees_self (t : Rose α) : t ∈ t.subtrees := by
  cases t with
  | node a cs => exact mem_subtrees_node.2 (.inl rfl)

theorem subtrees_trans {s t u : Rose α} (hs : s ∈ t.subtrees) (ht : t ∈ u.subtrees) :
    s ∈ u.subtrees := by
  induction u using ind with
  | h a cs ih =>
    rcases mem_subtrees_node.1 ht with rfl | ⟨c, hc, hin⟩
    · exact hs
    · exact mem_subtrees_node.2 (.inr ⟨c, hc, ih c hc hin⟩)

theorem child_mem_subtrees {c : Rose α} {a : α} {cs : List (Rose α)} (hc : c ∈ cs) :
    c ∈ (node a cs).subtrees := mem_subtrees_node.2 (.inr ⟨c, hc, mem_subtrees_self c⟩)

theorem label_mem_labels {s t : Rose α} (h : s ∈ t.subtrees) : s.label ∈ t.labels := by
  induction t using ind with
  | h a cs ih =>
    rw [mem_labels_node]
    rcases mem_subtrees_node.1 h with rfl | ⟨c, hc, hs⟩
    · exact .inl rfl
    · exact .inr ⟨c, hc, ih c hc hs⟩

/-- The labels of a subtree are labels of the tree, in its order. -/
theorem labels_sublist {s t : Rose α} (h : s ∈ t.subtrees) : s.labels.Sublist t.labels := by
  induction t using ind with
  | h a cs ih =>
    rcases mem_subtrees_node.1 h with rfl | ⟨c, hc, hs⟩
    · exact List.Sublist.refl _
    · rw [labels_node]
      refine ((ih c hc hs).trans ?_).cons a
      rw [← List.flatMap_singleton labels c]
      exact (List.singleton_sublist.2 hc).flatMap labels

theorem exists_subtree {x : α} {t : Rose α} (h : x ∈ t.labels) : ∃ s ∈ t.subtrees, s.label = x := by
  induction t using ind with
  | h a cs ih =>
    rcases mem_labels_node.1 h with rfl | ⟨c, hc, hx⟩
    · exact ⟨_, mem_subtrees_self _, rfl⟩
    · obtain ⟨s, hs, hlabel⟩ := ih c hc hx
      exact ⟨s, mem_subtrees_node.2 (.inr ⟨c, hc, hs⟩), hlabel⟩

mutual
/-- The subtrees, each with the labels above it, the nearest first. -/
def occurrences (above : List α) : Rose α → List (List α × Rose α)
  | .node a cs => (above, .node a cs) :: occurrencesAll (a :: above) cs
/-- `occurrences` of each tree of a list. -/
def occurrencesAll (above : List α) : List (Rose α) → List (List α × Rose α)
  | [] => []
  | c :: cs => occurrences above c ++ occurrencesAll above cs
end

theorem mem_occurrencesAll {x : List α × Rose α} {above : List α} {cs : List (Rose α)} :
    x ∈ occurrencesAll above cs ↔ ∃ c ∈ cs, x ∈ occurrences above c := by
  induction cs with
  | nil => simp [occurrencesAll]
  | cons c cs ih => rw [occurrencesAll, List.mem_append, ih, List.exists_mem_cons_iff]

theorem mem_occurrences_node {x : List α × Rose α} {above : List α} {a : α} {cs : List (Rose α)} :
    x ∈ (node a cs).occurrences above ↔
      x = (above, .node a cs) ∨ ∃ c ∈ cs, x ∈ occurrences (a :: above) c := by
  rw [occurrences, List.mem_cons, mem_occurrencesAll]

mutual
/-- `p` holds at every node: of its label and its children. -/
def all (p : α → List (Rose α) → Bool) : Rose α → Bool
  | .node a cs => p a cs && allAll p cs
/-- `all` of each tree of a list. -/
def allAll (p : α → List (Rose α) → Bool) : List (Rose α) → Bool
  | [] => true
  | c :: cs => all p c && allAll p cs
end

@[simp] theorem allAll_eq (p : α → List (Rose α) → Bool) (cs : List (Rose α)) :
    allAll p cs = cs.all (all p) := by
  induction cs with
  | nil => rfl
  | cons c cs ih => rw [allAll, ih, List.all_cons]

theorem all_node {p : α → List (Rose α) → Bool} {a : α} {cs : List (Rose α)} :
    (node a cs).all p = true ↔ p a cs = true ∧ ∀ c ∈ cs, c.all p = true := by
  rw [all, allAll_eq, Bool.and_eq_true, List.all_eq_true]

/-! ## The encoding -/

section Encoding

variable (framed : α → Bool)

mutual
/-- The label, the children in order, and an end mark if the label is framed. -/
def encode : Rose α → List (Option α)
  | .node a cs => some a :: (encodeAll cs ++ if framed a then [none] else [])
/-- The encodings of a list of trees, one after the other. -/
def encodeAll : List (Rose α) → List (Option α)
  | [] => []
  | c :: cs => encode c ++ encodeAll cs
end

@[simp] theorem encodeAll_nil : encodeAll framed ([] : List (Rose α)) = [] := rfl

@[simp] theorem encodeAll_cons (c : Rose α) (cs : List (Rose α)) :
    encodeAll framed (c :: cs) = encode framed c ++ encodeAll framed cs := rfl

theorem encodeAll_append (cs ds : List (Rose α)) :
    encodeAll framed (cs ++ ds) = encodeAll framed cs ++ encodeAll framed ds := by
  induction cs with
  | nil => rfl
  | cons c cs ih => rw [List.cons_append, encodeAll_cons, ih, encodeAll_cons, List.append_assoc]

theorem encodeAll_eq_flatMap (cs : List (Rose α)) :
    encodeAll framed cs = cs.flatMap (encode framed) := by
  induction cs with
  | nil => rfl
  | cons c cs ih => rw [encodeAll_cons, ih, List.flatMap_cons]

theorem encode_node (a : α) (cs : List (Rose α)) :
    encode framed (.node a cs) =
      some a :: (encodeAll framed cs ++ if framed a then [none] else []) := rfl

theorem encode_ne_nil (t : Rose α) : encode framed t ≠ [] := by
  cases t with
  | node a cs => rw [encode_node]; exact List.cons_ne_nil _ _

/-- An encoding starts with the root's label. -/
theorem encode_eq_cons (t : Rose α) : ∃ l, encode framed t = some t.label :: l := by
  cases t with
  | node a cs => exact ⟨_, rfl⟩

/-- The labels of an encoding are those of the trees. -/
theorem filterMap_encodeAll (cs : List (Rose α)) :
    (encodeAll framed cs).filterMap id = cs.flatMap labels := by
  have marks : ∀ b : Bool, (if b then [(none : Option α)] else []).filterMap id = [] := by
    intro b
    cases b <;> rfl
  have tree : ∀ t : Rose α, (encode framed t).filterMap id = t.labels := by
    intro t
    induction t using ind with
    | h a cs ih =>
      rw [encode_node, labels_node, List.filterMap_cons_some (f := id) (a := some a) rfl,
        List.filterMap_append, marks, List.append_nil, encodeAll_eq_flatMap, List.filterMap_flatMap]
      exact congrArg _ (List.flatMap_congr ih)
  rw [encodeAll_eq_flatMap, List.filterMap_flatMap]
  exact List.flatMap_congr fun t _ => tree t

theorem mem_encode {x : α} {t : Rose α} : some x ∈ encode framed t ↔ x ∈ t.labels := by
  have hlabels := filterMap_encodeAll framed [t]
  rw [List.flatMap_singleton, encodeAll_cons, encodeAll_nil, List.append_nil] at hlabels
  rw [← hlabels, List.mem_filterMap]
  exact ⟨fun h => ⟨_, h, rfl⟩, fun ⟨_, h, hx⟩ => hx ▸ h⟩

/-! ## Skipping by end marks -/

/-- Reads on to the end mark of the current frame, skipping the frames in between, and returns what
follows that mark. The first argument bounds the number of elements looked at. -/
def skip : Nat → List (Option α) → Option (List (Option α))
  | 0, _ => none
  | _ + 1, [] => none
  | _ + 1, none :: rest => some rest
  | fuel + 1, some a :: rest =>
    if framed a then (skip fuel rest).bind (skip fuel) else skip fuel rest

/-- `l` is balanced: skipping over `l` goes on behind it, whatever follows. -/
def Skips (l : List (Option α)) : Prop :=
  ∀ (fuel : Nat) (rest r : List (Option α)), (∀ n, fuel ≤ n → skip framed n rest = some r) →
    ∀ n, l.length + fuel ≤ n → skip framed n (l ++ rest) = some r

theorem Skips.nil : Skips framed ([] : List (Option α)) :=
  fun _ _ _ hr n hn => hr n (by simpa using hn)

theorem Skips.append {l m : List (Option α)} (hl : Skips framed l) (hm : Skips framed m) :
    Skips framed (l ++ m) := by
  intro fuel rest r hr n hn
  rw [List.append_assoc]
  rw [List.length_append, Nat.add_assoc] at hn
  exact hl (m.length + fuel) _ r (fun k hk => hm fuel rest r hr k hk) n hn

theorem skip_mark {n : Nat} (hn : 1 ≤ n) (rest : List (Option α)) :
    skip framed n (none :: rest) = some rest := by
  cases n with
  | zero => exact absurd hn (by decide)
  | succ n => rfl

/-- Balanced children skip to the end mark of their frame. -/
theorem Skips.mark {l : List (Option α)} (hl : Skips framed l) (rest : List (Option α)) {n : Nat}
    (hn : l.length < n) : skip framed n (l ++ none :: rest) = some rest :=
  hl 1 (none :: rest) rest (fun _ hk => skip_mark framed hk rest) n hn

/-- A label in front of balanced children, with its end mark if it is framed, is balanced. -/
theorem Skips.node {l : List (Option α)} (hl : Skips framed l) (a : α) :
    Skips framed (some a :: (l ++ if framed a then [none] else [])) := by
  intro fuel rest r hr n hn
  cases n with
  | zero => exact absurd hn (by simp)
  | succ n =>
    by_cases ha : framed a = true
    · simp only [ha, ↓reduceIte, List.cons_append, List.append_assoc, List.nil_append,
        List.length_cons, List.length_append, List.length_nil] at hn ⊢
      have inner : skip framed n (l ++ none :: rest) = some rest := hl.mark framed rest (by omega)
      simp only [skip, ha, ↓reduceIte, inner, Option.bind_some]
      exact hr n (by omega)
    · simp only [ha, Bool.false_eq_true, ↓reduceIte, List.append_nil, List.cons_append,
        List.length_cons] at hn ⊢
      simp only [skip, ha, Bool.false_eq_true, ↓reduceIte]
      exact hl fuel rest r hr n (by omega)

theorem Skips.all {cs : List (Rose α)} (h : ∀ c ∈ cs, Skips framed (encode framed c)) :
    Skips framed (encodeAll framed cs) := by
  induction cs with
  | nil => exact .nil framed
  | cons c cs ih =>
    rw [encodeAll_cons]
    exact .append framed (h c List.mem_cons_self) (ih fun x hx => h x (List.mem_cons_of_mem _ hx))

/-- Every encoding is balanced, whatever the arities in the tree are. -/
theorem skips_encode (t : Rose α) : Skips framed (encode framed t) := by
  induction t using ind with
  | h a cs ih => exact (Skips.all framed ih).node framed a

/-- Counting end marks skips exactly the children of a framed label. -/
theorem skip_encodeAll (cs : List (Rose α)) (rest : List (Option α)) {n : Nat}
    (hn : (encodeAll framed cs).length < n) :
    skip framed n (encodeAll framed cs ++ none :: rest) = some rest :=
  (Skips.all framed fun c _ => skips_encode framed c).mark framed rest hn

/-- How many frames more are begun than ended. -/
def openFrames : List (Option α) → Int
  | [] => 0
  | none :: l => openFrames l - 1
  | some a :: l => openFrames l + if framed a then 1 else 0

theorem openFrames_append (l m : List (Option α)) :
    openFrames framed (l ++ m) = openFrames framed l + openFrames framed m := by
  induction l with
  | nil => exact (Int.zero_add _).symm
  | cons o l ih =>
    cases o with
    | none =>
      rw [List.cons_append, openFrames, openFrames, ih]
      omega
    | some a =>
      rw [List.cons_append, openFrames, openFrames, ih]
      omega

/-- A framed label begins a frame, and its end mark ends it. -/
theorem openFrames_node (a : α) (l : List (Option α)) :
    openFrames framed (some a :: (l ++ if framed a then [none] else [])) =
      openFrames framed l := by
  rw [openFrames, openFrames_append]
  split
  · rw [openFrames, openFrames]
    omega
  · rw [openFrames]
    omega

theorem openFrames_all {cs : List (Rose α)}
    (h : ∀ c ∈ cs, openFrames framed (encode framed c) = 0) :
    openFrames framed (encodeAll framed cs) = 0 := by
  induction cs with
  | nil => rfl
  | cons c cs ih =>
    rw [encodeAll_cons, openFrames_append, h c List.mem_cons_self,
      ih fun x hx => h x (List.mem_cons_of_mem _ hx), Int.add_zero]

/-- In an encoding every frame is ended. -/
theorem openFrames_encode (t : Rose α) : openFrames framed (encode framed t) = 0 := by
  induction t using ind with
  | h a cs ih => rw [encode_node, openFrames_node, openFrames_all framed ih]

theorem openFrames_map {β : Type} (f : α → β) (framed' : β → Bool) (l : List (Option α)) :
    openFrames framed' (l.map (Option.map f)) = openFrames (fun a => framed' (f a)) l := by
  induction l with
  | nil => rfl
  | cons o l ih =>
    cases o with
    | none => exact congrArg (· - 1) ih
    | some a => exact congrArg (· + if framed' (f a) then 1 else 0) ih

/-! ## Unique readability -/

section UniquelyRead

variable {arity : α → Nat}

/-- Where there is no end mark, the label says how many children there are. -/
def Ranked (arity : α → Nat) (t : Rose α) : Prop :=
  t.all (fun a cs => framed a || cs.length == arity a) = true

/-- What starts with the encoding of the tree starts with no other one. -/
def UniquelyRead (arity : α → Nat) (t : Rose α) : Prop :=
  ∀ (u : Rose α) (l m : List (Option α)), u.Ranked framed arity →
    encode framed t ++ l = encode framed u ++ m → t = u ∧ l = m

variable {framed} {cs ds : List (Rose α)} {l m : List (Option α)}

/-- Up to an end mark, the trees are read one after the other. -/
theorem uniquelyRead_marked (hcs : ∀ c ∈ cs, UniquelyRead framed arity c)
    (hds : ∀ d ∈ ds, d.Ranked framed arity)
    (h : encodeAll framed cs ++ none :: l = encodeAll framed ds ++ none :: m) :
    cs = ds ∧ l = m := by
  induction cs generalizing ds with
  | nil =>
    cases ds with
    | nil => exact ⟨rfl, (List.cons.inj h).2⟩
    | cons d ds =>
      obtain ⟨r, hr⟩ := encode_eq_cons framed d
      rw [encodeAll_cons, hr] at h
      cases h
  | cons c cs ih =>
    cases ds with
    | nil =>
      obtain ⟨r, hr⟩ := encode_eq_cons framed c
      rw [encodeAll_cons, hr] at h
      cases h
    | cons d ds =>
      rw [encodeAll_cons, encodeAll_cons, List.append_assoc, List.append_assoc] at h
      obtain ⟨rfl, hrest⟩ := hcs c List.mem_cons_self d _ _ (hds d List.mem_cons_self) h
      obtain ⟨rfl, hend⟩ := ih (fun x hx => hcs x (List.mem_cons_of_mem _ hx))
        (fun x hx => hds x (List.mem_cons_of_mem _ hx)) hrest
      exact ⟨rfl, hend⟩

/-- As many trees as before are read one after the other. -/
theorem uniquelyRead_ranked (hcs : ∀ c ∈ cs, UniquelyRead framed arity c)
    (hds : ∀ d ∈ ds, d.Ranked framed arity) (hlength : cs.length = ds.length)
    (h : encodeAll framed cs ++ l = encodeAll framed ds ++ m) : cs = ds ∧ l = m := by
  induction cs generalizing ds with
  | nil =>
    obtain rfl : ds = [] := List.eq_nil_of_length_eq_zero hlength.symm
    exact ⟨rfl, h⟩
  | cons c cs ih =>
    obtain ⟨d, ds, rfl⟩ := List.exists_cons_of_length_eq_add_one hlength.symm
    rw [encodeAll_cons, encodeAll_cons, List.append_assoc, List.append_assoc] at h
    obtain ⟨rfl, hrest⟩ := hcs c List.mem_cons_self d _ _ (hds d List.mem_cons_self) h
    obtain ⟨rfl, hend⟩ := ih (fun x hx => hcs x (List.mem_cons_of_mem _ hx))
      (fun x hx => hds x (List.mem_cons_of_mem _ hx)) (Nat.succ.inj hlength) hrest
    exact ⟨rfl, hend⟩

/-- The encoding of a ranked tree is read in one way only. -/
theorem Ranked.uniquelyRead (t : Rose α) (ht : t.Ranked framed arity) :
    UniquelyRead framed arity t := by
  induction t using ind with
  | h a cs ih =>
    obtain ⟨hroot, hcs⟩ := all_node.1 ht
    have each : ∀ c ∈ cs, UniquelyRead framed arity c := fun c hc => ih c hc (hcs c hc)
    rintro ⟨b, ds⟩ l m hu h
    obtain ⟨hroot', hds⟩ := all_node.1 hu
    rw [encode_node, encode_node, List.cons_append, List.cons_append] at h
    obtain ⟨hlabel, hchildren⟩ := List.cons.inj h
    obtain rfl := Option.some.inj hlabel
    by_cases ha : framed a = true
    · simp only [ha, if_true, List.append_assoc, List.singleton_append] at hchildren
      obtain ⟨rfl, hend⟩ := uniquelyRead_marked each hds hchildren
      exact ⟨rfl, hend⟩
    · simp only [ha, Bool.false_eq_true, if_false, List.append_nil] at hchildren
      have hlength : cs.length = ds.length := by
        rw [Bool.not_eq_true] at ha
        rw [ha, Bool.false_or, beq_iff_eq] at hroot hroot'
        rw [hroot, hroot']
      obtain ⟨rfl, hend⟩ := uniquelyRead_ranked each hds hlength hchildren
      exact ⟨rfl, hend⟩

end UniquelyRead

/-! ## Other labels -/

section Relabel

variable (f : α → β) (framed' : β → Bool)

/-- Where the marks do not depend on what is mapped, the encoding is mapped with the tree. -/
theorem encode_map (t : Rose α) :
    encode framed' (t.map f) = (encode (fun a => framed' (f a)) t).map (Option.map f) := by
  induction t using ind with
  | h a cs ih =>
    have hcs : encodeAll framed' (cs.map (map f)) =
        (encodeAll (fun a => framed' (f a)) cs).map (Option.map f) := by
      rw [encodeAll_eq_flatMap, encodeAll_eq_flatMap, List.flatMap_map, List.map_flatMap]
      exact List.flatMap_congr ih
    rw [map_node, encode_node, encode_node, hcs, List.map_cons, List.map_append]
    cases framed' (f a) <;> rfl

/-- The list is the encoding of a tree after its labels were mapped, and of one before. -/
def Relabels (t : Rose β) : Prop :=
  ∀ l : List (Option α), l.map (Option.map f) = encode framed' t →
    ∃ T : Rose α, encode (fun a => framed' (f a)) T = l ∧ T.map f = t

theorem exists_encodeAll_of_relabels (l : List (Option α)) (ts : List (Rose β))
    (hts : ∀ t ∈ ts, Relabels f framed' t) (h : l.map (Option.map f) = encodeAll framed' ts) :
    ∃ Ts : List (Rose α), encodeAll (fun a => framed' (f a)) Ts = l ∧ Ts.map (map f) = ts := by
  induction ts generalizing l with
  | nil => exact ⟨[], (List.map_eq_nil_iff.1 h).symm, rfl⟩
  | cons t ts ih =>
    obtain ⟨l₁, l₂, rfl, h₁, h₂⟩ := List.map_eq_append_iff.1 h
    obtain ⟨T, rfl, hT⟩ := hts t List.mem_cons_self l₁ h₁
    obtain ⟨Ts, rfl, hTs⟩ := ih l₂ (fun x hx => hts x (List.mem_cons_of_mem _ hx)) h₂
    exact ⟨T :: Ts, rfl, by rw [List.map_cons, hT, hTs]⟩

/-- A list that is the encoding of a tree after its labels were mapped encodes a tree itself. -/
theorem relabels (t : Rose β) : Relabels f framed' t := by
  induction t using ind with
  | h b cs ih =>
    intro l h
    obtain ⟨o, l', rfl, ho, h'⟩ := List.map_eq_cons_iff.1 h
    obtain ⟨a, rfl, rfl⟩ := Option.map_eq_some_iff.1 ho
    obtain ⟨m, marks, rfl, hm, hmarks⟩ := List.map_eq_append_iff.1 h'
    obtain ⟨Ts, rfl, hTs⟩ := exists_encodeAll_of_relabels f framed' m cs ih hm
    have hsame : marks = if framed' (f a) then [none] else [] := by
      by_cases hf : framed' (f a) = true
      · rw [if_pos hf] at hmarks ⊢
        obtain ⟨o, rest, rfl, ho, hrest⟩ := List.map_eq_cons_iff.1 hmarks
        rw [Option.map_eq_none_iff.1 ho, List.map_eq_nil_iff.1 hrest]
      · rw [if_neg hf] at hmarks ⊢
        exact List.map_eq_nil_iff.1 hmarks
    exact ⟨.node a Ts, by rw [encode_node, hsame], by rw [map_node, hTs]⟩

/-- The same of a list of trees. -/
theorem exists_encodeAll_of_map (l : List (Option α)) (ts : List (Rose β))
    (h : l.map (Option.map f) = encodeAll framed' ts) :
    ∃ Ts : List (Rose α), encodeAll (fun a => framed' (f a)) Ts = l ∧ Ts.map (map f) = ts :=
  exists_encodeAll_of_relabels f framed' l ts (fun t _ => relabels f framed' t) h

end Relabel

/-! ## Flat steps -/

mutual
/-- The labels that a reader meets which skips frames but steps flat over labels without one. -/
def unframed : Rose α → List α
  | .node a cs => a :: if framed a then [] else unframedAll cs
/-- `unframed` of each tree of a list. -/
def unframedAll : List (Rose α) → List α
  | [] => []
  | c :: cs => unframed c ++ unframedAll cs
end

@[simp] theorem unframedAll_eq (cs : List (Rose α)) :
    unframedAll framed cs = cs.flatMap (unframed framed) := by
  induction cs with
  | nil => rfl
  | cons c cs ih => rw [unframedAll, ih, List.flatMap_cons]

theorem unframed_of_framed {t : Rose α} (h : framed t.label = true) :
    unframed framed t = [t.label] := by
  obtain ⟨a, cs⟩ := t
  rw [label_node] at h
  rw [unframed, if_pos h, label_node]

end Encoding

end Rose

end Swy.Library
