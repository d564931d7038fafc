import Swy.Library.Rose

/-!
# Grammars with semantic actions

EBNF expressions over rules and tokens with embedded actions and semantic predicates on a parser
state, run from left to right, and the parse trees they derive (`Derives`).

A contract gives each rule a condition on the state before it and a relation between the states
before and after it. `Ensures` is the weakest precondition of an expression under a contract. If
every production keeps the contract of its rule (`Contract.Keeps`), what is proved of a rule node
from its children holds of every derived tree (`Derives.rule_induction`): the induction provides the
contract at the node and at all children. A contract on the states of a machine that reads the
terminals says in the same way what it does with all that is derived (`Derives.drives`).
-/

namespace Swy.Library

/-- An expression on the right side of a production. -/
inductive Ebnf (R T S : Type) where
  | empty
  | token (kind : T)
  | rule (r : R)
  /-- An embedded action. -/
  | action (f : S → S)
  /-- A semantic predicate, which may leave a trace in the state. -/
  | predicate (p : S → Bool × S)
  | seq (e e' : Ebnf R T S)
  | alt (e e' : Ebnf R T S)
  | star (e : Ebnf R T S)

/-- The label of a node of a parse tree: a rule, or a token of the input. -/
inductive ParseSymbol (R L : Type) where
  | rule (r : R)
  | token (l : L)
deriving DecidableEq, Repr

/-- A parse tree. -/
abbrev ParseTree (R L : Type) := Rose (ParseSymbol R L)

/-- The productions of the rules and the kinds of the tokens. -/
structure Grammar (R T L S : Type) where
  production : R → Ebnf R T S
  kind : L → T

variable {R T L S : Type}

namespace Ebnf

/-- `e?`. -/
def opt (e : Ebnf R T S) : Ebnf R T S := .alt e .empty

/-- Expressions one after the other. -/
def seqs : List (Ebnf R T S) → Ebnf R T S
  | [] => .empty
  | e :: es => .seq e (seqs es)

/-- `e | e' | ...`. -/
def oneOf (e : Ebnf R T S) : List (Ebnf R T S) → Ebnf R T S
  | [] => e
  | e' :: es => .alt e (oneOf e' es)

end Ebnf

/-! ## Derivations -/

/-- From the one state the expression derives the trees and ends in the other state. -/
inductive Derives (g : Grammar R T L S) : Ebnf R T S → S → List (ParseTree R L) → S → Prop
  | empty {s : S} : Derives g .empty s [] s
  | token {l : L} {s : S} : Derives g (.token (g.kind l)) s [.node (.token l) []] s
  | rule {r : R} {s s' : S} {cs : List (ParseTree R L)} (h : Derives g (g.production r) s cs s') :
      Derives g (.rule r) s [.node (.rule r) cs] s'
  | action {f : S → S} {s : S} : Derives g (.action f) s [] (f s)
  | predicate {p : S → Bool × S} {s : S} (h : (p s).1 = true) :
      Derives g (.predicate p) s [] (p s).2
  | seq {e e' : Ebnf R T S} {s s' s'' : S} {cs cs' : List (ParseTree R L)}
      (h : Derives g e s cs s') (h' : Derives g e' s' cs' s'') :
      Derives g (.seq e e') s (cs ++ cs') s''
  | left {e e' : Ebnf R T S} {s s' : S} {cs : List (ParseTree R L)} (h : Derives g e s cs s') :
      Derives g (.alt e e') s cs s'
  | right {e e' : Ebnf R T S} {s s' : S} {cs : List (ParseTree R L)} (h : Derives g e' s cs s') :
      Derives g (.alt e e') s cs s'
  | stop {e : Ebnf R T S} {s : S} : Derives g (.star e) s [] s
  | again {e : Ebnf R T S} {s s' s'' : S} {cs cs' : List (ParseTree R L)}
      (h : Derives g e s cs s') (h' : Derives g (.star e) s' cs' s'') :
      Derives g (.star e) s (cs ++ cs') s''

/-- Any number of matches, one after the other. -/
inductive Iterates {α : Type} (M : S → List α → S → Prop) : S → List α → S → Prop
  | nil {s : S} : Iterates M s [] s
  | cons {s s' s'' : S} {cs cs' : List α} (h : M s cs s') (hs : Iterates M s' cs' s'') :
      Iterates M s (cs ++ cs') s''

/-- What one iteration makes of the state and shows of its elements holds of all iterations. -/
theorem Iterates.all {α : Type} {M : S → List α → S → Prop} {I : S → Prop} {P : α → Prop}
    {s s' : S} {cs : List α} (h : Iterates M s cs s') (hs : I s)
    (step : ∀ s cs s', I s → M s cs s' → I s' ∧ ∀ c ∈ cs, P c) : I s' ∧ ∀ c ∈ cs, P c := by
  induction h with
  | nil => exact ⟨hs, fun c hc => absurd hc List.not_mem_nil⟩
  | cons h _ ih =>
    obtain ⟨hs', hcs⟩ := step _ _ _ hs h
    obtain ⟨hs'', hcs'⟩ := ih hs'
    exact ⟨hs'', fun c hc => (List.mem_append.1 hc).elim (hcs c) (hcs' c)⟩

/-- The trees match the expression when the rule nodes among them are judged by `D`. -/
def Matches (kind : L → T) (D : R → S → ParseTree R L → S → Prop) :
    Ebnf R T S → S → List (ParseTree R L) → S → Prop
  | .empty, s, cs, s' => cs = [] ∧ s' = s
  | .token k, s, cs, s' => (∃ l, kind l = k ∧ cs = [.node (.token l) []]) ∧ s' = s
  | .rule r, s, cs, s' => ∃ c, cs = [c] ∧ D r s c s'
  | .action f, s, cs, s' => cs = [] ∧ s' = f s
  | .predicate p, s, cs, s' => (p s).1 = true ∧ cs = [] ∧ s' = (p s).2
  | .seq e e', s, cs, s'' =>
    ∃ cs₁ cs₂ s', cs = cs₁ ++ cs₂ ∧ Matches kind D e s cs₁ s' ∧ Matches kind D e' s' cs₂ s''
  | .alt e e', s, cs, s' => Matches kind D e s cs s' ∨ Matches kind D e' s cs s'
  | .star e, s, cs, s' => Iterates (Matches kind D e) s cs s'

section Matches

variable {kind : L → T} {D : R → S → ParseTree R L → S → Prop} {e : Ebnf R T S} {s s' : S}
  {cs : List (ParseTree R L)}

theorem matches_empty : Matches kind D .empty s cs s' ↔ cs = [] ∧ s' = s := Iff.rfl

theorem matches_rule {r : R} : Matches kind D (.rule r) s cs s' ↔ ∃ c, cs = [c] ∧ D r s c s' :=
  Iff.rfl

theorem matches_alt {e' : Ebnf R T S} :
    Matches kind D (.alt e e') s cs s' ↔ Matches kind D e s cs s' ∨ Matches kind D e' s cs s' :=
  Iff.rfl

theorem matches_opt : Matches kind D e.opt s cs s' ↔
    Matches kind D e s cs s' ∨ cs = [] ∧ s' = s := Iff.rfl

theorem matches_seq_star {e' : Ebnf R T S} : Matches kind D (.seq (.star e) e') s cs s' ↔
    ∃ cs₁ cs₂ s₁, cs = cs₁ ++ cs₂ ∧ Iterates (Matches kind D e) s cs₁ s₁ ∧
      Matches kind D e' s₁ cs₂ s' := Iff.rfl

theorem matches_seq_alt {e' e'' : Ebnf R T S} : Matches kind D (.seq (.alt e e') e'') s cs s' ↔
    Matches kind D (.seq e e'') s cs s' ∨ Matches kind D (.seq e' e'') s cs s' := by
  constructor
  · rintro ⟨cs₁, cs₂, s₁, rfl, h | h, h'⟩
    · exact .inl ⟨cs₁, cs₂, s₁, rfl, h, h'⟩
    · exact .inr ⟨cs₁, cs₂, s₁, rfl, h, h'⟩
  · rintro (⟨cs₁, cs₂, s₁, rfl, h, h'⟩ | ⟨cs₁, cs₂, s₁, rfl, h, h'⟩)
    · exact ⟨cs₁, cs₂, s₁, rfl, .inl h, h'⟩
    · exact ⟨cs₁, cs₂, s₁, rfl, .inr h, h'⟩

theorem matches_seq_opt {e' : Ebnf R T S} : Matches kind D (.seq e.opt e') s cs s' ↔
    (∃ cs₁ cs₂ s₁, cs = cs₁ ++ cs₂ ∧ Matches kind D e s cs₁ s₁ ∧ Matches kind D e' s₁ cs₂ s') ∨
      Matches kind D e' s cs s' := by
  constructor
  · rintro ⟨cs₁, cs₂, s₁, rfl, h | ⟨rfl, rfl⟩, h'⟩
    · exact .inl ⟨cs₁, cs₂, s₁, rfl, h, h'⟩
    · exact .inr h'
  · rintro (⟨cs₁, cs₂, s₁, rfl, h, h'⟩ | h')
    · exact ⟨cs₁, cs₂, s₁, rfl, .inl h, h'⟩
    · exact ⟨[], cs, s, rfl, .inr ⟨rfl, rfl⟩, h'⟩

theorem matches_seq_empty : Matches kind D (.seq e .empty) s cs s' ↔ Matches kind D e s cs s' := by
  constructor
  · rintro ⟨cs₁, cs₂, s₁, rfl, h, rfl, rfl⟩
    rwa [List.append_nil]
  · exact fun h => ⟨cs, [], s', (List.append_nil cs).symm, h, rfl, rfl⟩

theorem matches_seq_token {k : T} : Matches kind D (.seq (.token k) e) s cs s' ↔
    ∃ l ds, cs = .node (.token l) [] :: ds ∧ kind l = k ∧ Matches kind D e s ds s' := by
  constructor
  · rintro ⟨_, ds, _, rfl, ⟨⟨l, hl, rfl⟩, rfl⟩, h⟩
    exact ⟨l, ds, rfl, hl, h⟩
  · rintro ⟨l, ds, rfl, hl, h⟩
    exact ⟨_, ds, s, rfl, ⟨⟨l, hl, rfl⟩, rfl⟩, h⟩

theorem matches_seq_rule {r : R} : Matches kind D (.seq (.rule r) e) s cs s' ↔
    ∃ c ds s₁, cs = c :: ds ∧ D r s c s₁ ∧ Matches kind D e s₁ ds s' := by
  constructor
  · rintro ⟨_, ds, s₁, rfl, ⟨c, rfl, hc⟩, h⟩
    exact ⟨c, ds, s₁, rfl, hc, h⟩
  · rintro ⟨c, ds, s₁, rfl, hc, h⟩
    exact ⟨[c], ds, s₁, rfl, ⟨c, rfl, hc⟩, h⟩

theorem matches_seq_action {f : S → S} : Matches kind D (.seq (.action f) e) s cs s' ↔
    Matches kind D e (f s) cs s' := by
  constructor
  · rintro ⟨_, ds, _, rfl, ⟨rfl, rfl⟩, h⟩
    exact h
  · exact fun h => ⟨[], cs, f s, rfl, ⟨rfl, rfl⟩, h⟩

theorem matches_seq_predicate {p : S → Bool × S} :
    Matches kind D (.seq (.predicate p) e) s cs s' ↔
      (p s).1 = true ∧ Matches kind D e (p s).2 cs s' := by
  constructor
  · rintro ⟨_, ds, _, rfl, ⟨hp, rfl, rfl⟩, h⟩
    exact ⟨hp, h⟩
  · exact fun ⟨hp, h⟩ => ⟨[], cs, _, rfl, ⟨hp, rfl, rfl⟩, h⟩

end Matches

theorem Iterates.mono {α : Type} {M M' : S → List α → S → Prop} {s s' : S} {cs : List α}
    (h : Iterates M s cs s')
    (hM : ∀ s ds s', (∀ d ∈ ds, d ∈ cs) → M s ds s' → M' s ds s') : Iterates M' s cs s' := by
  induction h with
  | nil => exact .nil
  | cons h _ ih =>
    refine .cons (hM _ _ _ (fun d hd => List.mem_append_left _ hd) h) (ih fun s ds s' hds hm => ?_)
    exact hM s ds s' (fun d hd => List.mem_append_right _ (hds d hd)) hm

/-- Another judgement of the rule nodes among the trees. -/
theorem Matches.mono {kind : L → T} {D D' : R → S → ParseTree R L → S → Prop} {e : Ebnf R T S}
    {s s' : S} {cs : List (ParseTree R L)} (h : Matches kind D e s cs s')
    (hD : ∀ r s t s', t ∈ cs → D r s t s' → D' r s t s') : Matches kind D' e s cs s' := by
  induction e generalizing s cs s' with
  | empty | token | action | predicate => exact h
  | rule r =>
    obtain ⟨c, rfl, hc⟩ := h
    exact ⟨c, rfl, hD _ _ _ _ List.mem_cons_self hc⟩
  | seq e e' ih ih' =>
    obtain ⟨cs₁, cs₂, s₁, rfl, h₁, h₂⟩ := h
    exact ⟨cs₁, cs₂, s₁, rfl, ih h₁ fun r s t s' ht => hD r s t s' (List.mem_append_left _ ht),
      ih' h₂ fun r s t s' ht => hD r s t s' (List.mem_append_right _ ht)⟩
  | alt e e' ih ih' => exact h.imp (ih · hD) (ih' · hD)
  | star e ih =>
    exact Iterates.mono h fun _ _ _ hds hm => ih hm fun r s t s' ht => hD r s t s' (hds t ht)

/-- Every tree of a match is a token or was judged. -/
theorem Matches.mem {kind : L → T} {D : R → S → ParseTree R L → S → Prop} {e : Ebnf R T S}
    {s s' : S} {cs : List (ParseTree R L)} (h : Matches kind D e s cs s') :
    ∀ c ∈ cs, (∃ l, c = .node (.token l) []) ∨ ∃ r s s', D r s c s' := by
  induction e generalizing s cs s' with
  | empty =>
    obtain ⟨rfl, _⟩ := h
    exact fun c hc => absurd hc List.not_mem_nil
  | token k =>
    obtain ⟨⟨l, _, rfl⟩, _⟩ := h
    exact fun c hc => .inl ⟨l, List.mem_singleton.1 hc⟩
  | rule r =>
    obtain ⟨c, rfl, hc⟩ := h
    exact fun d hd => .inr ⟨r, s, s', List.mem_singleton.1 hd ▸ hc⟩
  | action f =>
    obtain ⟨rfl, _⟩ := h
    exact fun c hc => absurd hc List.not_mem_nil
  | predicate p =>
    obtain ⟨_, rfl, _⟩ := h
    exact fun c hc => absurd hc List.not_mem_nil
  | seq e e' ih ih' =>
    obtain ⟨cs₁, cs₂, s₁, rfl, h₁, h₂⟩ := h
    exact fun c hc => (List.mem_append.1 hc).elim (ih h₁ c) (ih' h₂ c)
  | alt e e' ih ih' => exact h.elim ih ih'
  | star e ih =>
    have hall := Iterates.all (I := fun _ => True) h trivial fun _ _ _ _ hm => ⟨trivial, ih hm⟩
    exact hall.2

/-! ## Contracts -/

/-- What holds before a rule, and how the state behind it is related to the state before it. -/
structure Contract (R S : Type) where
  pre : R → S → Prop
  post : R → S → S → Prop

namespace Contract

variable (c : Contract R S)

/-- The weakest precondition: the expression ends in a state with the property, if the rules it
calls keep their contracts. A repetition has an invariant. -/
def Ensures : Ebnf R T S → S → (S → Prop) → Prop
  | .empty, s, K => K s
  | .token _, s, K => K s
  | .rule r, s, K => c.pre r s ∧ ∀ s', c.post r s s' → K s'
  | .action f, s, K => K (f s)
  | .predicate p, s, K => (p s).1 = true → K (p s).2
  | .seq e e', s, K => Ensures e s fun s' => Ensures e' s' K
  | .alt e e', s, K => Ensures e s K ∧ Ensures e' s K
  | .star e, s, K => ∃ I : S → Prop, I s ∧ (∀ s, I s → Ensures e s I) ∧ ∀ s, I s → K s

/-- The productions keep the contract. -/
def Keeps (g : Grammar R T L S) : Prop :=
  ∀ r s, c.pre r s → c.Ensures (g.production r) s (c.post r s)

variable {c}

/-- A repetition that leaves the state as it is. -/
theorem ensures_star {e : Ebnf R T S} {s : S} {K : S → Prop} (h : c.Ensures e s (· = s))
    (hs : K s) : c.Ensures (.star e) s K :=
  ⟨(· = s), rfl, fun _ hs' => hs' ▸ h, fun _ hs' => hs' ▸ hs⟩

end Contract

/-- A match is told the contract of the rules it calls: what holds before each of them, and what
holds at the end. -/
theorem Matches.ensures {kind : L → T} {D : R → S → ParseTree R L → S → Prop} {c : Contract R S}
    (hD : ∀ r s t s', D r s t s' → c.post r s s') {e : Ebnf R T S} {s s' : S}
    {cs : List (ParseTree R L)} (h : Matches kind D e s cs s') {K : S → Prop}
    (hK : c.Ensures e s K) :
    K s' ∧ Matches kind (fun r s t s' => c.pre r s ∧ D r s t s') e s cs s' := by
  induction e generalizing s cs s' K with
  | empty =>
    obtain ⟨rfl, rfl⟩ := h
    exact ⟨hK, rfl, rfl⟩
  | token k =>
    obtain ⟨hl, rfl⟩ := h
    exact ⟨hK, hl, rfl⟩
  | rule r =>
    obtain ⟨t, rfl, ht⟩ := h
    exact ⟨hK.2 _ (hD _ _ _ _ ht), t, rfl, hK.1, ht⟩
  | action f =>
    obtain ⟨rfl, rfl⟩ := h
    exact ⟨hK, rfl, rfl⟩
  | predicate p =>
    obtain ⟨hp, rfl, rfl⟩ := h
    exact ⟨hK hp, hp, rfl, rfl⟩
  | seq e e' ih ih' =>
    obtain ⟨cs₁, cs₂, s₁, rfl, h₁, h₂⟩ := h
    obtain ⟨hs₁, hm⟩ := ih h₁ hK
    obtain ⟨hs', hm'⟩ := ih' h₂ hs₁
    exact ⟨hs', cs₁, cs₂, s₁, rfl, hm, hm'⟩
  | alt e e' ih ih' =>
    rcases h with h | h
    · obtain ⟨hs', hm⟩ := ih h hK.1
      exact ⟨hs', .inl hm⟩
    · obtain ⟨hs', hm⟩ := ih' h hK.2
      exact ⟨hs', .inr hm⟩
  | star e ih =>
    obtain ⟨I, hI, hbody, hIK⟩ := hK
    have hall : I s' ∧
        Iterates (Matches kind (fun r s t s' => c.pre r s ∧ D r s t s') e) s cs s' := by
      clear hIK
      induction h with
      | nil => exact ⟨hI, .nil⟩
      | cons h _ ihs =>
        obtain ⟨hs₁, hm⟩ := ih h (hbody _ hI)
        obtain ⟨hs', hms⟩ := ihs hs₁
        exact ⟨hs', .cons hm hms⟩
    exact ⟨hIK _ hall.1, hall.2⟩

section Induction

variable {g : Grammar R T L S} {c : Contract R S} {Q : R → S → ParseTree R L → S → Prop}

/-- What holds of every rule node whose children it holds of, with the contract at the node and at
the children, holds of all that is derived. -/
theorem Derives.rule_induction {e : Ebnf R T S} {s s' : S} {cs : List (ParseTree R L)}
    (hg : c.Keeps g)
    (step : ∀ r s cs s', c.pre r s → c.post r s s' →
      Matches g.kind (fun r s t s' => c.pre r s ∧ c.post r s s' ∧ Q r s t s')
        (g.production r) s cs s' → Q r s (.node (.rule r) cs) s')
    (h : Derives g e s cs s') : ∀ K : S → Prop, c.Ensures e s K → K s' ∧
      Matches g.kind (fun r s t s' => c.pre r s ∧ c.post r s s' ∧ Q r s t s') e s cs s' := by
  induction h with
  | empty => exact fun K hK => ⟨hK, rfl, rfl⟩
  | token => exact fun K hK => ⟨hK, ⟨_, rfl, rfl⟩, rfl⟩
  | rule _ ih =>
    intro K hK
    obtain ⟨hpre, hpost⟩ := hK
    obtain ⟨hs', hm⟩ := ih _ (hg _ _ hpre)
    exact ⟨hpost _ hs', _, rfl, hpre, hs', step _ _ _ _ hpre hs' hm⟩
  | action => exact fun K hK => ⟨hK, rfl, rfl⟩
  | predicate hp => exact fun K hK => ⟨hK hp, hp, rfl, rfl⟩
  | seq _ _ ih ih' =>
    intro K hK
    obtain ⟨hs', hm⟩ := ih _ hK
    obtain ⟨hs'', hm'⟩ := ih' K hs'
    exact ⟨hs'', _, _, _, rfl, hm, hm'⟩
  | left _ ih =>
    intro K hK
    obtain ⟨hs', hm⟩ := ih K hK.1
    exact ⟨hs', .inl hm⟩
  | right _ ih =>
    intro K hK
    obtain ⟨hs', hm⟩ := ih K hK.2
    exact ⟨hs', .inr hm⟩
  | stop =>
    intro K hK
    obtain ⟨I, hI, _, hIK⟩ := hK
    exact ⟨hIK _ hI, .nil⟩
  | again _ _ ih ih' =>
    intro K hK
    obtain ⟨I, hI, hbody, hIK⟩ := hK
    obtain ⟨hs', hm⟩ := ih I (hbody _ hI)
    obtain ⟨hs'', hm'⟩ := ih' K ⟨I, hs', hbody, hIK⟩
    exact ⟨hs'', .cons hm hm'⟩

/-- Rule induction for a tree that a rule derives. -/
theorem Derives.rule_induction_rule {r : R} {s s' : S} {t : ParseTree R L} (hg : c.Keeps g)
    (step : ∀ r s cs s', c.pre r s → c.post r s s' →
      Matches g.kind (fun r s t s' => c.pre r s ∧ c.post r s s' ∧ Q r s t s')
        (g.production r) s cs s' → Q r s (.node (.rule r) cs) s')
    (h : Derives g (.rule r) s [t] s') (hpre : c.pre r s) : c.post r s s' ∧ Q r s t s' := by
  obtain ⟨_, t', ht, _, hpost, hQ⟩ :=
    h.rule_induction hg step (fun _ => True) ⟨hpre, fun _ _ => trivial⟩
  cases ht
  exact ⟨hpost, hQ⟩

end Induction

/-! ## Inversion -/

/-- What is derived, with what the rules in it derive. -/
theorem Derives.matches {g : Grammar R T L S} {e : Ebnf R T S} {s s' : S}
    {cs : List (ParseTree R L)} (h : Derives g e s cs s') :
    Matches g.kind (fun r s t s' => Derives g (.rule r) s [t] s') e s cs s' := by
  induction h with
  | empty | action => exact ⟨rfl, rfl⟩
  | token => exact ⟨⟨_, rfl, rfl⟩, rfl⟩
  | rule h _ => exact ⟨_, rfl, .rule h⟩
  | predicate h => exact ⟨h, rfl, rfl⟩
  | seq _ _ ih ih' => exact ⟨_, _, _, rfl, ih, ih'⟩
  | left _ ih => exact .inl ih
  | right _ ih => exact .inr ih
  | stop => exact .nil
  | again _ _ ih ih' => exact .cons ih ih'

/-- What a rule derives is a node with what its production derives. -/
theorem Derives.children {g : Grammar R T L S} {r : R} {s s' : S} {cs : List (ParseTree R L)}
    (h : Derives g (.rule r) s cs s') :
    ∃ ds, cs = [.node (.rule r) ds] ∧
      Matches g.kind (fun r s t s' => Derives g (.rule r) s [t] s') (g.production r) s ds s' := by
  cases h with
  | rule h => exact ⟨_, rfl, h.matches⟩

/-! ## The terminals -/

/-- The token of a terminal. -/
def terminal? : ParseSymbol R L → Option L
  | .token l => some l
  | .rule _ => none

/-- The terminals of a tree from left to right. -/
def terminals (t : ParseTree R L) : List L := t.labels.filterMap terminal?

theorem terminals_rule (r : R) (cs : List (ParseTree R L)) :
    terminals (.node (.rule r) cs) = cs.flatMap terminals := by
  rw [terminals, Rose.labels_node, List.filterMap_cons, terminal?, List.filterMap_flatMap]
  rfl

@[simp] theorem terminals_token (l : L) :
    terminals (.node (.token l) [] : ParseTree R L) = [l] := rfl

/-! ## Machines that read the terminals -/

section Reading

variable {Q : Type}

/-- The weakest precondition of an expression for a machine that reads the kinds of the terminals:
it reads what the expression derives and ends in a state with the property, if it reads the rules
that are called as the contract says. -/
def Contract.Drives (c : Contract R Q) (δ : Q → T → Option Q) : Ebnf R T S → Q → (Q → Prop) → Prop
  | .empty, q, K => K q
  | .token k, q, K => ∃ q', δ q k = some q' ∧ K q'
  | .rule r, q, K => c.pre r q ∧ ∀ q', c.post r q q' → K q'
  | .action _, q, K => K q
  | .predicate _, q, K => K q
  | .seq e e', q, K => Drives c δ e q fun q' => Drives c δ e' q' K
  | .alt e e', q, K => Drives c δ e q K ∧ Drives c δ e' q K
  | .star e, q, K => ∃ I : Q → Prop, I q ∧ (∀ q, I q → Drives c δ e q I) ∧ ∀ q, I q → K q

/-- All rules that the expression calls have the property. -/
def Ebnf.calls (P : R → Bool) : Ebnf R T S → Bool
  | .empty | .token _ | .action _ | .predicate _ => true
  | .rule r => P r
  | .seq e e' | .alt e e' => calls P e && calls P e'
  | .star e => calls P e

/-- A machine that never leaves a state reads everything there. -/
theorem Contract.drives_of_absorbing {c : Contract R Q} {δ : Q → T → Option Q} {q : Q}
    (hδ : ∀ k, δ q k = some q) {P : R → Bool} (hpre : ∀ r, P r = true → c.pre r q)
    (hpost : ∀ r q', c.post r q q' → q' = q) {e : Ebnf R T S} (he : e.calls P = true)
    {K : Q → Prop} (hK : K q) : c.Drives δ e q K := by
  induction e generalizing K with
  | empty | action | predicate => exact hK
  | token k => exact ⟨q, hδ k, hK⟩
  | rule r => exact ⟨hpre r he, fun q' hq' => hpost r q' hq' ▸ hK⟩
  | seq e e' ih ih' =>
    obtain ⟨he, he'⟩ := Bool.and_eq_true_iff.1 he
    exact ih he (ih' he' hK)
  | alt e e' ih ih' =>
    obtain ⟨he, he'⟩ := Bool.and_eq_true_iff.1 he
    exact ⟨ih he hK, ih' he' hK⟩
  | star e ih =>
    refine ⟨(· = q), rfl, ?_, fun q' hq' => hq' ▸ hK⟩
    rintro q' rfl
    exact ih he rfl

/-- If the machine reads every production as the contract of its rule says, it reads what an
expression derives. -/
theorem Derives.drives {g : Grammar R T L S} {c : Contract R Q} {δ : Q → T → Option Q}
    (hg : ∀ r q, c.pre r q → c.Drives δ (g.production r) q (c.post r q)) {e : Ebnf R T S} {s s' : S}
    {cs : List (ParseTree R L)} (h : Derives g e s cs s') (q : Q) (K : Q → Prop)
    (hK : c.Drives δ e q K) :
    ∃ q', ((cs.flatMap terminals).map g.kind).foldlM δ q = some q' ∧ K q' := by
  induction h generalizing q K with
  | empty | action | predicate | stop =>
    refine ⟨q, rfl, ?_⟩
    first
    | exact hK
    | obtain ⟨I, hI, -, hIK⟩ := hK
      exact hIK q hI
  | @token l s =>
    obtain ⟨q', hq', hK⟩ := hK
    exact ⟨q', by simp [hq'], hK⟩
  | @rule r s s' cs _ ih =>
    obtain ⟨q', hq', hpost⟩ := ih q _ (hg _ _ hK.1)
    rw [List.flatMap_singleton, terminals_rule]
    exact ⟨q', hq', hK.2 q' hpost⟩
  | seq _ _ ih ih' =>
    obtain ⟨q₁, hq₁, hK₁⟩ := ih q _ hK
    obtain ⟨q', hq', hK'⟩ := ih' q₁ K hK₁
    refine ⟨q', ?_, hK'⟩
    rw [List.flatMap_append, List.map_append, List.foldlM_append, hq₁]
    exact hq'
  | left _ ih => exact ih q K hK.1
  | right _ ih => exact ih q K hK.2
  | again _ _ ih ih' =>
    obtain ⟨I, hI, hbody, hIK⟩ := hK
    obtain ⟨q₁, hq₁, hI₁⟩ := ih q I (hbody q hI)
    obtain ⟨q', hq', hK'⟩ := ih' q₁ K ⟨I, hI₁, hbody, hIK⟩
    refine ⟨q', ?_, hK'⟩
    rw [List.flatMap_append, List.map_append, List.foldlM_append, hq₁]
    exact hq'

end Reading

end Swy.Library
