import Mathlib.Data.List.Basic
import Mathlib.Data.Option.Basic

/-!
# Lexers

A lexer reads the longest word that one of its rules accepts, takes the first of the rules that
accept this word, and goes on behind it. `Lexes` says so without a search: `lex_iff`.
-/

namespace Swy.Library

/-- A rule: the words it accepts, and the kind of its tokens if they are not skipped. -/
structure LexerRule (α κ : Type) where
  kind : Option κ
  accepts : List α → Bool

namespace LexerRule

variable {α κ : Type}

/-- The length of the longest word in front of the input that has at most `n` symbols and at least
one. -/
def longestMatch (rule : LexerRule α κ) (input : List α) : Nat → Option Nat
  | 0 => none
  | n + 1 => if rule.accepts (input.take (n + 1)) then some (n + 1) else rule.longestMatch input n

/-- The longest match of all rules, and the first rule on ties. -/
def longest (input : List α) : List (LexerRule α κ) → Option (Nat × Option κ)
  | [] => none
  | rule :: rules =>
    match rule.longestMatch input input.length, longest input rules with
    | none, best => best
    | some n, none => some (n, rule.kind)
    | some n, some (m, kind) => if m ≤ n then some (n, rule.kind) else some (m, kind)

/-- The tokens of the input as far as the fuel goes. Nothing if no rule matches at some point. -/
def lexFrom (rules : List (LexerRule α κ)) : Nat → List α → Option (List (κ × List α))
  | _, [] => some []
  | 0, _ :: _ => none
  | fuel + 1, a :: input =>
    match longest (a :: input) rules with
    | none => none
    | some (n, kind) => do
      let tokens ← lexFrom rules fuel ((a :: input).drop n)
      match kind with
      | none => return tokens
      | some kind => return (kind, (a :: input).take n) :: tokens

/-- The tokens of the input. -/
def lex (rules : List (LexerRule α κ)) (input : List α) : Option (List (κ × List α)) :=
  lexFrom rules input.length input

/-! ## The next word -/

/-- No rule accepts the word with some of what follows it. -/
def Stops (rules : List (LexerRule α κ)) (word rest : List α) : Prop :=
  ∀ rule ∈ rules, ∀ more, more ≠ [] → more <+: rest → rule.accepts (word ++ more) = false

/-- The word is the next one, of the given kind: no rule accepts a longer one, and the first rule
that accepts it has this kind. -/
structure IsNext (rules : List (LexerRule α κ)) (word rest : List α) (kind : Option κ) : Prop where
  ne_nil : word ≠ []
  first : (rules.find? fun rule => rule.accepts word).map LexerRule.kind = some kind
  stops : Stops rules word rest

/-- The tokens of an input, word by word. -/
inductive Lexes (rules : List (LexerRule α κ)) : List α → List (κ × List α) → Prop
  | nil : Lexes rules [] []
  | skip {word rest : List α} {tokens : List (κ × List α)} :
    IsNext rules word rest none → Lexes rules rest tokens → Lexes rules (word ++ rest) tokens
  | token {word rest : List α} {kind : κ} {tokens : List (κ × List α)} :
    IsNext rules word rest (some kind) → Lexes rules rest tokens →
    Lexes rules (word ++ rest) ((kind, word) :: tokens)

/-! ## The search finds it -/

section Search

variable {rule : LexerRule α κ} {rules : List (LexerRule α κ)} {input : List α}

theorem longestMatch_eq_some {limit n : Nat} :
    rule.longestMatch input limit = some n ↔
      0 < n ∧ n ≤ limit ∧ rule.accepts (input.take n) = true ∧
        ∀ m, n < m → m ≤ limit → rule.accepts (input.take m) = false := by
  induction limit with
  | zero =>
    constructor
    · intro h
      cases h
    · rintro ⟨hpos, hle, -⟩
      omega
  | succ limit ih =>
    rw [longestMatch]
    by_cases haccepts : rule.accepts (input.take (limit + 1)) = true
    · rw [if_pos haccepts, Option.some.injEq]
      constructor
      · rintro rfl
        exact ⟨Nat.succ_pos limit, Nat.le_refl _, haccepts, fun m hlt hle => by omega⟩
      · rintro ⟨-, hle, -, hlonger⟩
        by_contra hne
        have hfalse := hlonger (limit + 1) (by omega) (Nat.le_refl _)
        rw [hfalse] at haccepts
        cases haccepts
    · rw [if_neg haccepts, ih]
      have hfalse := Bool.eq_false_iff.2 haccepts
      constructor
      · rintro ⟨hpos, hle, htake, hlonger⟩
        refine ⟨hpos, by omega, htake, fun m hlt hm => ?_⟩
        rcases Nat.lt_or_ge limit m with hlimit | hlimit
        · obtain rfl : m = limit + 1 := by omega
          exact hfalse
        · exact hlonger m hlt hlimit
      · rintro ⟨hpos, hle, htake, hlonger⟩
        have hne : n ≠ limit + 1 := by
          rintro rfl
          rw [hfalse] at htake
          cases htake
        exact ⟨hpos, by omega, htake, fun m hlt hm => hlonger m hlt (by omega)⟩

theorem longestMatch_eq_none {limit : Nat} :
    rule.longestMatch input limit = none ↔
      ∀ m, 0 < m → m ≤ limit → rule.accepts (input.take m) = false := by
  induction limit with
  | zero =>
    constructor
    · intro _ m hpos hle
      omega
    · intro _
      rfl
  | succ limit ih =>
    rw [longestMatch]
    by_cases haccepts : rule.accepts (input.take (limit + 1)) = true
    · rw [if_pos haccepts]
      constructor
      · intro h
        cases h
      · intro h
        rw [h (limit + 1) (Nat.succ_pos _) (Nat.le_refl _)] at haccepts
        cases haccepts
    · rw [if_neg haccepts, ih]
      constructor
      · intro h m hpos hle
        rcases Nat.lt_or_ge limit m with hlimit | hlimit
        · obtain rfl : m = limit + 1 := by omega
          exact Bool.eq_false_iff.2 haccepts
        · exact h m hpos hlimit
      · intro h m hpos hle
        exact h m hpos (by omega)

/-- The longest word has length `n`, and the first rule that accepts it has the kind. -/
structure IsLongest (rules : List (LexerRule α κ)) (input : List α) (n : Nat) (kind : Option κ) :
    Prop where
  pos : 0 < n
  le : n ≤ input.length
  first : (rules.find? fun rule => rule.accepts (input.take n)).map LexerRule.kind = some kind
  longer : ∀ rule ∈ rules, ∀ m, n < m → m ≤ input.length → rule.accepts (input.take m) = false

theorem IsLongest.accepts {n : Nat} {kind : Option κ} (h : IsLongest rules input n kind) :
    ∃ rule ∈ rules, rule.accepts (input.take n) = true := by
  obtain ⟨rule, hrule, -⟩ := Option.map_eq_some_iff.1 h.first
  exact ⟨rule, List.mem_of_find?_eq_some hrule, by simpa using List.find?_some hrule⟩

theorem IsLongest.length_le {n m : Nat} {kind kind' : Option κ} (h : IsLongest rules input n kind)
    (h' : IsLongest rules input m kind') : m ≤ n := by
  by_contra hlt
  obtain ⟨rule, hrule, haccepts⟩ := h'.accepts
  rw [h.longer rule hrule m (by omega) h'.le] at haccepts
  cases haccepts

theorem IsLongest.unique {n m : Nat} {kind kind' : Option κ} (h : IsLongest rules input n kind)
    (h' : IsLongest rules input m kind') : n = m ∧ kind = kind' := by
  obtain rfl : n = m := Nat.le_antisymm (h'.length_le h) (h.length_le h')
  exact ⟨rfl, Option.some.inj (h.first.symm.trans h'.first)⟩

/-- The induction is on the rules: the first one wins against a longest word of the others that is
not longer than its own. -/
theorem longest_spec (input : List α) (rules : List (LexerRule α κ)) :
    (longest input rules = none ∧
      ∀ rule ∈ rules, ∀ m, 0 < m → m ≤ input.length → rule.accepts (input.take m) = false) ∨
    ∃ n kind, longest input rules = some (n, kind) ∧ IsLongest rules input n kind := by
  induction rules with
  | nil => exact .inl ⟨rfl, fun rule hrule => absurd hrule List.not_mem_nil⟩
  | cons rule rules ih =>
    cases hmatch : rule.longestMatch input input.length with
    | none =>
      have hnone := longestMatch_eq_none.1 hmatch
      rcases ih with ⟨hlongest, hfalse⟩ | ⟨n, kind, hlongest, hspec⟩
      · refine .inl ⟨by rw [longest, hmatch, hlongest], fun other hother => ?_⟩
        rcases List.mem_cons.1 hother with rfl | hother
        · exact hnone
        · exact hfalse other hother
      · refine .inr ⟨n, kind, by rw [longest, hmatch, hlongest], hspec.pos, hspec.le, ?_, ?_⟩
        · rw [List.find?_cons, hnone n hspec.pos hspec.le]
          exact hspec.first
        · intro other hother m hlt hle
          rcases List.mem_cons.1 hother with rfl | hother
          · exact hnone m (by omega) hle
          · exact hspec.longer other hother m hlt hle
    | some k =>
      obtain ⟨hpos, hle, haccepts, hlonger⟩ := longestMatch_eq_some.1 hmatch
      have hfirst : ((rule :: rules).find? fun rule => rule.accepts (input.take k)).map
          LexerRule.kind = some rule.kind := by
        rw [List.find?_cons, haccepts]
        rfl
      rcases ih with ⟨hlongest, hfalse⟩ | ⟨n, kind, hlongest, hspec⟩
      · refine .inr ⟨k, rule.kind, by rw [longest, hmatch, hlongest], hpos, hle, hfirst, ?_⟩
        intro other hother m hlt hm
        rcases List.mem_cons.1 hother with rfl | hother
        · exact hlonger m hlt hm
        · exact hfalse other hother m (by omega) hm
      · by_cases hkn : n ≤ k
        · refine .inr ⟨k, rule.kind, ?_, hpos, hle, hfirst, ?_⟩
          · rw [longest, hmatch, hlongest]
            exact if_pos hkn
          · intro other hother m hlt hm
            rcases List.mem_cons.1 hother with rfl | hother
            · exact hlonger m hlt hm
            · exact hspec.longer other hother m (by omega) hm
        · refine .inr ⟨n, kind, ?_, hspec.pos, hspec.le, ?_, ?_⟩
          · rw [longest, hmatch, hlongest]
            exact if_neg hkn
          · rw [List.find?_cons, hlonger n (by omega) hspec.le]
            exact hspec.first
          · intro other hother m hlt hm
            rcases List.mem_cons.1 hother with rfl | hother
            · exact hlonger m (by omega) hm
            · exact hspec.longer other hother m hlt hm

theorem longest_eq_some {n : Nat} {kind : Option κ} :
    longest input rules = some (n, kind) ↔ IsLongest rules input n kind := by
  rcases longest_spec input rules with ⟨hnone, hfalse⟩ | ⟨m, kind', hsome, hspec⟩
  · rw [hnone]
    constructor
    · intro h
      cases h
    · intro h
      obtain ⟨rule, hrule, haccepts⟩ := h.accepts
      rw [hfalse rule hrule n h.pos h.le] at haccepts
      cases haccepts
  · rw [hsome]
    constructor
    · intro h
      cases h
      exact hspec
    · intro h
      obtain ⟨rfl, rfl⟩ := hspec.unique h
      rfl

theorem isNext_iff {word rest : List α} {kind : Option κ} :
    IsNext rules word rest kind ↔ IsLongest rules (word ++ rest) word.length kind := by
  have htake : (word ++ rest).take word.length = word := List.take_left' rfl
  constructor
  · rintro ⟨hne, hfirst, hstops⟩
    refine ⟨List.length_pos_iff.2 hne, by simp, by rw [htake]; exact hfirst, ?_⟩
    intro rule hrule m hlt hle
    obtain ⟨k, rfl⟩ := Nat.exists_eq_add_of_lt hlt
    have hmore : (word ++ rest).take (word.length + k + 1) = word ++ rest.take (k + 1) := by
      rw [Nat.add_assoc, List.take_length_add_append]
    rw [hmore]
    rw [List.length_append] at hle
    refine hstops rule hrule _ ?_ (List.take_prefix _ _)
    intro hnil
    have hlength := congrArg List.length hnil
    rw [List.length_take, List.length_nil] at hlength
    omega
  · rintro ⟨hpos, -, hfirst, hlonger⟩
    rw [htake] at hfirst
    refine ⟨List.length_pos_iff.1 hpos, hfirst, ?_⟩
    rintro rule hrule more hne ⟨behind, rfl⟩
    have hmore := hlonger rule hrule (word.length + more.length)
      (Nat.lt_add_of_pos_right (List.length_pos_iff.2 hne)) (by simp)
    rwa [List.take_length_add_append, List.take_left' rfl] at hmore

end Search

/-! ## The lexer finds the words -/

section Lex

variable {rules : List (LexerRule α κ)} {input : List α} {tokens : List (κ × List α)}

theorem lexes_of_lexFrom {fuel : Nat} (h : lexFrom rules fuel input = some tokens) :
    Lexes rules input tokens := by
  induction fuel generalizing input tokens with
  | zero =>
    cases input with
    | nil =>
      cases h
      exact .nil
    | cons a input => cases h
  | succ fuel ih =>
    cases input with
    | nil =>
      cases h
      exact .nil
    | cons a input =>
      rw [lexFrom] at h
      cases hlongest : longest (a :: input) rules with
      | none =>
        rw [hlongest] at h
        cases h
      | some best =>
        obtain ⟨n, kind⟩ := best
        rw [hlongest] at h
        obtain ⟨more, hmore, htokens⟩ := Option.bind_eq_some_iff.1 h
        have hspec := longest_eq_some.1 hlongest
        have hnext : IsNext rules ((a :: input).take n) ((a :: input).drop n) kind := by
          rw [isNext_iff, List.take_append_drop, List.length_take, Nat.min_eq_left hspec.le]
          exact hspec
        rw [← List.take_append_drop n (a :: input)]
        cases kind with
        | none =>
          cases htokens
          exact .skip hnext (ih hmore)
        | some kind =>
          cases htokens
          exact .token hnext (ih hmore)

theorem longest_of_isNext {word rest : List α} {kind : Option κ}
    (h : IsNext rules word rest kind) :
    longest (word ++ rest) rules = some (word.length, kind) :=
  longest_eq_some.2 (isNext_iff.1 h)

/-- The words are not empty, so the length of the input is enough fuel. -/
theorem Lexes.lexFrom (h : Lexes rules input tokens) :
    ∀ fuel, input.length ≤ fuel → lexFrom rules fuel input = some tokens := by
  induction h with
  | nil =>
    intro fuel _
    cases fuel <;> rfl
  | @skip word rest tokens hnext _ ih =>
    intro fuel hfuel
    obtain ⟨a, word, rfl⟩ := List.exists_cons_of_ne_nil hnext.ne_nil
    rw [List.length_append, List.length_cons] at hfuel
    obtain ⟨fuel, rfl⟩ : ∃ k, fuel = k + 1 := ⟨fuel - 1, by omega⟩
    have hlongest := longest_of_isNext hnext
    rw [List.cons_append] at hlongest ⊢
    rw [LexerRule.lexFrom, hlongest]
    dsimp only
    rw [← List.cons_append, List.drop_left' rfl, ih fuel (by omega)]
    rfl
  | @token word rest kind tokens hnext _ ih =>
    intro fuel hfuel
    obtain ⟨a, word, rfl⟩ := List.exists_cons_of_ne_nil hnext.ne_nil
    rw [List.length_append, List.length_cons] at hfuel
    obtain ⟨fuel, rfl⟩ : ∃ k, fuel = k + 1 := ⟨fuel - 1, by omega⟩
    have hlongest := longest_of_isNext hnext
    rw [List.cons_append] at hlongest ⊢
    rw [LexerRule.lexFrom, hlongest]
    dsimp only
    rw [← List.cons_append, List.drop_left' rfl, List.take_left' rfl, ih fuel (by omega)]
    rfl

theorem lex_iff : lex rules input = some tokens ↔ Lexes rules input tokens :=
  ⟨lexes_of_lexFrom, fun h => h.lexFrom input.length (Nat.le_refl _)⟩

end Lex

end LexerRule

end Swy.Library
