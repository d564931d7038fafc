import Mathlib.Data.List.Basic
import Mathlib.Logic.Relation

/-!
# Machines and basic blocks

A deterministic machine steps, halts with a result or is stuck; `Reaches` and `Halts` are its runs.

Code in basic blocks is a list of blocks. A generator creates blocks and appends instructions to
them, in any order, but never takes an instruction back, so what it emitted early is a prefix of
what the finished function has (`Extends`). `Grows b` says in addition that of the blocks there are
only `b` was appended to. Code is then reasoned about as it is emitted: a position that is fetched
in the blocks so far is fetched in all that extends them (`fetch_extends`).
-/

namespace Swy.Library

/-! ## Runs of a deterministic machine -/

/-- What a step leads to. -/
inductive Outcome (σ ρ : Type) where
  | running (state : σ)
  | halted (result : ρ)
  | stuck

section Machine

variable {σ ρ : Type} (step : σ → Outcome σ ρ)

/-- At most the given number of steps. -/
def run : Nat → σ → Outcome σ ρ
  | 0, s => .running s
  | n + 1, s =>
    match step s with
    | .running s' => run n s'
    | o => o

/-- The machine gets from the one state to the other. -/
def Reaches (s s' : σ) : Prop := ∃ n, run step n s = .running s'

/-- The machine halts with the result, whatever bound from some number on it is given. -/
def Halts (s : σ) (r : ρ) : Prop := ∃ bound, ∀ fuel, bound ≤ fuel → run step fuel s = .halted r

variable {step} {s s' s'' : σ} {r : ρ}

theorem Reaches.refl : Reaches step s s := ⟨0, rfl⟩

theorem Reaches.head (h : step s = .running s') (hs : Reaches step s' s'') :
    Reaches step s s'' := by
  obtain ⟨n, hn⟩ := hs
  exact ⟨n + 1, by rw [run, h]; exact hn⟩

theorem Reaches.single (h : step s = .running s') : Reaches step s s' := .head h .refl

theorem run_add {n : Nat} (h : run step n s = .running s') (m : Nat) :
    run step (n + m) s = run step m s' := by
  induction n generalizing s with
  | zero =>
    cases h
    rw [Nat.zero_add]
  | succ n ih =>
    rw [Nat.add_right_comm, run]
    rw [run] at h
    cases hs : step s with
    | running s₁ =>
      rw [hs] at h
      exact ih h
    | halted r => rw [hs] at h; cases h
    | stuck => rw [hs] at h; cases h

theorem Reaches.trans (h : Reaches step s s') (h' : Reaches step s' s'') :
    Reaches step s s'' := by
  obtain ⟨n, hn⟩ := h
  obtain ⟨m, hm⟩ := h'
  exact ⟨n + m, (run_add hn m).trans hm⟩

/-- The machine is deterministic: it gets stuck in one state. -/
theorem Reaches.unique (h : Reaches step s s') (h' : Reaches step s s'')
    (hs' : step s' = .stuck) (hs'' : step s'' = .stuck) : s' = s'' := by
  have hrun {s₁ : σ} {n : Nat} {s₂ : σ} (hs : step s₁ = .stuck)
      (h : run step n s₁ = .running s₂) : s₁ = s₂ := by
    cases n with
    | zero => exact Outcome.running.inj h
    | succ n =>
      rw [run, hs] at h
      cases h
  obtain ⟨n, hn⟩ := h
  obtain ⟨m, hm⟩ := h'
  rcases Nat.le_total n m with hle | hle
  · obtain ⟨k, rfl⟩ := Nat.exists_eq_add_of_le hle
    rw [run_add hn] at hm
    exact hrun hs' hm
  · obtain ⟨k, rfl⟩ := Nat.exists_eq_add_of_le hle
    rw [run_add hm] at hn
    exact (hrun hs'' hn).symm

theorem Halts.single (h : step s = .halted r) : Halts step s r := by
  refine ⟨1, fun fuel hfuel => ?_⟩
  obtain ⟨n, rfl⟩ := Nat.exists_eq_add_of_le' hfuel
  rw [run, h]

theorem Halts.of_reaches (h : Reaches step s s') (h' : Halts step s' r) : Halts step s r := by
  obtain ⟨n, hn⟩ := h
  obtain ⟨bound, hb⟩ := h'
  refine ⟨n + bound, fun fuel hfuel => ?_⟩
  obtain ⟨m, rfl⟩ := Nat.exists_eq_add_of_le (Nat.le_of_add_right_le hfuel)
  rw [run_add hn m]
  exact hb m (Nat.le_of_add_le_add_left hfuel)

/-- The machine is deterministic: a state on the way halts with the same result. -/
theorem Halts.of_reached (h : Halts step s r) (h' : Reaches step s s') : Halts step s' r := by
  obtain ⟨bound, hb⟩ := h
  obtain ⟨n, hn⟩ := h'
  refine ⟨bound, fun fuel hfuel => ?_⟩
  rw [← run_add hn fuel]
  exact hb (n + fuel) (Nat.le_trans hfuel (Nat.le_add_left _ _))

/-- The result is the one of every run that halts. -/
theorem Halts.unique (h : Halts step s r) {n : Nat} {r' : ρ} (h' : run step n s = .halted r') :
    r' = r := by
  obtain ⟨bound, hb⟩ := h
  induction n generalizing s bound with
  | zero => cases h'
  | succ n ih =>
    have hrun : run step (bound + 1) s = .halted r := hb _ (Nat.le_succ _)
    rw [run] at h' hrun
    cases hs : step s with
    | running s' =>
      rw [hs] at h'
      refine ih (s := s') h' bound fun fuel hfuel => ?_
      have hrun := hb (fuel + 1) (Nat.le_succ_of_le hfuel)
      rw [run, hs] at hrun
      exact hrun
    | halted r₁ =>
      rw [hs] at h' hrun
      cases h'
      cases hrun
      rfl
    | stuck =>
      rw [hs] at h'
      cases h'

/-- What every step keeps relates a state to the result. -/
theorem Halts.related {R : σ → ρ → Prop} (h : Halts step s r)
    (hhalted : ∀ s r, step s = .halted r → R s r)
    (hrunning : ∀ s s' r, step s = .running s' → R s' r → R s r) : R s r := by
  obtain ⟨bound, hb⟩ := h
  have hrun := hb bound (Nat.le_refl _)
  clear hb
  induction bound generalizing s with
  | zero => cases hrun
  | succ n ih =>
    rw [run] at hrun
    cases hs : step s with
    | running s' =>
      rw [hs] at hrun
      exact hrunning s s' r hs (ih hrun)
    | halted r' =>
      rw [hs] at hrun
      cases hrun
      exact hhalted s r hs
    | stuck =>
      rw [hs] at hrun
      cases hrun

/-- What holds at first and is kept by every step holds of all states that are reached. -/
theorem Reaches.invariant {P : σ → Prop} (h : Reaches step s s') (hs : P s)
    (hstep : ∀ s s', step s = .running s' → P s → P s') : P s' := by
  obtain ⟨n, hn⟩ := h
  induction n generalizing s with
  | zero =>
    cases hn
    exact hs
  | succ n ih =>
    rw [run] at hn
    cases hs₁ : step s with
    | running s₁ =>
      rw [hs₁] at hn
      exact ih (hstep s s₁ hs₁ hs) hn
    | halted r =>
      rw [hs₁] at hn
      cases hn
    | stuck =>
      rw [hs₁] at hn
      cases hn

end Machine

/-! ## Blocks -/

/-- Basic blocks, identified by the order in which they were created. -/
abbrev Blocks (α : Type) := List (List α)

/-- A position in the code. -/
structure Point where
  block : Nat
  index : Nat
deriving DecidableEq, Repr

namespace Blocks

variable {α : Type} {bs bs' bs'' : Blocks α} {b c : Nat} {i : α}

/-- The instructions of a block. -/
def code (bs : Blocks α) (b : Nat) : List α := bs.getD b []

/-- The instruction at a position. -/
def fetch (bs : Blocks α) (p : Point) : Option α := (bs.code p.block)[p.index]?

/-- The position behind the last instruction of a block. -/
def endOf (bs : Blocks α) (b : Nat) : Point := ⟨b, (bs.code b).length⟩

/-- Appends an instruction to a block. -/
def append (bs : Blocks α) (b : Nat) (i : α) : Blocks α := bs.modify b (· ++ [i])

/-- Creates an empty block. -/
def create (bs : Blocks α) : Blocks α := bs ++ [[]]

theorem code_of_length_le (h : bs.length ≤ b) : bs.code b = [] := by
  rw [code, List.getD_eq_getElem?_getD, List.getElem?_eq_none h]
  rfl

@[simp] theorem length_append : (bs.append b i).length = bs.length := List.length_modify _ _ _

@[simp] theorem length_create : bs.create.length = bs.length + 1 := by
  rw [create, List.length_append, List.length_singleton]

theorem code_append_self (h : b < bs.length) : (bs.append b i).code b = bs.code b ++ [i] := by
  simp only [code, append, List.getD_eq_getElem?_getD, List.getElem?_modify_eq,
    List.getElem?_eq_getElem h]
  rfl

theorem code_append_of_ne (h : c ≠ b) : (bs.append b i).code c = bs.code c := by
  simp only [code, append, List.getD_eq_getElem?_getD, List.getElem?_modify_ne _ bs h.symm]

@[simp] theorem code_create : bs.create.code b = bs.code b := by
  rcases Nat.lt_or_ge b bs.length with h | h
  · simp only [code, create, List.getD_eq_getElem?_getD, List.getElem?_append_left h]
  · rw [code_of_length_le h, code, create, List.getD_eq_getElem?_getD,
      List.getElem?_append_right h]
    cases b - bs.length <;> rfl

/-- Everything emitted in `bs` is still there in `bs'`. -/
structure Extends (bs bs' : Blocks α) : Prop where
  length : bs.length ≤ bs'.length
  code : ∀ b, bs.code b <+: bs'.code b

theorem Extends.refl : Extends bs bs := ⟨Nat.le_refl _, fun _ => List.prefix_rfl⟩

theorem Extends.trans (h : Extends bs bs') (h' : Extends bs' bs'') : Extends bs bs'' :=
  ⟨Nat.le_trans h.length h'.length, fun b => (h.code b).trans (h'.code b)⟩

/-- Of the blocks in `bs` at most `b` was appended to. -/
structure Grows (b : Nat) (bs bs' : Blocks α) : Prop extends Extends bs bs' where
  frame : ∀ c, c < bs.length → c ≠ b → bs'.code c = bs.code c

theorem Grows.refl : Grows b bs bs := ⟨.refl, fun _ _ _ => rfl⟩

/-- The second step may append to the block of the first or to a block created since. -/
theorem Grows.trans (h : Grows b bs bs') (h' : Grows c bs' bs'') (hc : c = b ∨ bs.length ≤ c) :
    Grows b bs bs'' := by
  refine ⟨h.toExtends.trans h'.toExtends, fun d hd hdb => ?_⟩
  have hdc : d ≠ c := by
    rcases hc with rfl | hc
    · exact hdb
    · exact fun hdc => Nat.not_lt_of_le hc (hdc ▸ hd)
  rw [h'.frame d (Nat.lt_of_lt_of_le hd h.length) hdc, h.frame d hd hdb]

/-- Nothing was appended to any block of `bs`. -/
theorem Grows.of_length_le (h : Grows b bs bs') (hb : bs.length ≤ b) : Grows c bs bs' :=
  ⟨h.toExtends, fun d hd _ => h.frame d hd (Nat.ne_of_lt (Nat.lt_of_lt_of_le hd hb))⟩

theorem grows_append : Grows b bs (bs.append b i) where
  length := Nat.le_of_eq length_append.symm
  code c := by
    by_cases hc : c = b
    · subst hc
      rcases Nat.lt_or_ge c bs.length with h | h
      · rw [code_append_self h]
        exact List.prefix_append _ _
      · exact ⟨(bs.append c i).code c, by rw [code_of_length_le h, List.nil_append]⟩
    · exact ⟨[], by rw [code_append_of_ne hc, List.append_nil]⟩
  frame _ _ hc := code_append_of_ne hc

theorem grows_create : Grows b bs bs.create where
  length := by
    rw [length_create]
    exact Nat.le_succ _
  code _ := ⟨[], by rw [code_create, List.append_nil]⟩
  frame _ _ _ := code_create

/-- What is emitted stays where it is. -/
theorem fetch_extends {p : Point} (h : Extends bs bs') (hp : bs.fetch p = some i) :
    bs'.fetch p = some i := by
  obtain ⟨tail, htail⟩ := h.code p.block
  rw [fetch] at hp ⊢
  rw [← htail, List.getElem?_append_left (List.getElem?_eq_some_iff.1 hp).1]
  exact hp

/-- An appended instruction stands where the block ended before. -/
theorem fetch_append (h : b < bs.length) : (bs.append b i).fetch (bs.endOf b) = some i := by
  simp only [fetch, endOf, code_append_self h, List.getElem?_concat_length]

theorem endOf_append (h : b < bs.length) :
    (bs.append b i).endOf b = ⟨b, (bs.code b).length + 1⟩ := by
  rw [endOf, code_append_self h, List.length_append, List.length_singleton]

/-! ## Edges between blocks -/

section Edges

variable (targets : α → List Nat)

/-- An instruction of the first block jumps to the second. -/
def Edge (bs : Blocks α) (b c : Nat) : Prop := ∃ i ∈ bs.code b, c ∈ targets i

/-- The second block is reached from the first along jumps. -/
def Leads (bs : Blocks α) : Nat → Nat → Prop := Relation.ReflTransGen (Edge targets bs)

variable {targets}

theorem Leads.refl : Leads targets bs b b := Relation.ReflTransGen.refl

theorem Leads.trans {d : Nat} (h : Leads targets bs b c) (h' : Leads targets bs c d) :
    Leads targets bs b d := Relation.ReflTransGen.trans h h'

theorem Leads.single (hi : i ∈ bs.code b) (hc : c ∈ targets i) : Leads targets bs b c :=
  Relation.ReflTransGen.single ⟨i, hi, hc⟩

theorem Leads.extends (he : Extends bs bs') (h : Leads targets bs b c) :
    Leads targets bs' b c := by
  induction h with
  | refl => exact .refl
  | tail _ hedge ih =>
    obtain ⟨i, hi, hc⟩ := hedge
    exact ih.tail ⟨i, (he.code _).subset hi, hc⟩

end Edges

end Blocks

end Swy.Library
