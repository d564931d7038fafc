import Swy.Parse.ExprChains

/-!
# The forms of operands

What the terminals of a chain of operators say about its operands. A `<` and a `>` are operators as
well as the brackets of an instantiation, so that the terminals of a chain may be those of another
chain too: `a < f<1>` is also the instantiation `a<f < 1>`. The parser then takes the first
alternative with which it can read all terminals (`Builds`). For a chain whose angle brackets are
clear (`AnglesClear`) these are the alternatives of its own operands (`eq_or_before`), so that the
chain itself is built.
-/

namespace Swy

open Library Context Ebnf GeneratedParser

/-- A token of two parts is in the one or in the other. -/
theorem append_eq_append_cons {α : Type} {l l' a b : List α} {x : α} (h : l ++ l' = a ++ x :: b) :
    (∃ as, l = a ++ x :: as ∧ b = as ++ l') ∨ ∃ as, a = l ++ as ∧ l' = as ++ x :: b := by
  rcases List.append_eq_append_iff.1 h with ⟨as, ha, hl'⟩ | ⟨as, hl, hb⟩
  · exact .inr ⟨as, ha, hl'⟩
  · cases as with
    | nil => exact .inr ⟨[], by rw [hl, List.append_nil, List.append_nil], hb.symm⟩
    | cons y as =>
      obtain ⟨rfl, hrest⟩ := List.cons.inj hb
      exact .inl ⟨as, hl, hrest⟩

/-! ## Parentheses -/

/-- The depth in parentheses behind a token. -/
def parDepth (d : Nat) : TokenKind → Option Nat
  | .openPar => some (d + 1)
  | .closePar => if d = 0 then none else some (d - 1)
  | _ => some d

/-- Every parenthesis is closed again. -/
def Balanced (l : List TokenKind) : Prop := l.foldlM parDepth 0 = some 0

section Balanced

variable {l l' m m' : List TokenKind} {k : TokenKind}

theorem parDepth_of_ne (hopen : k ≠ .openPar) (hclose : k ≠ .closePar) (d : Nat) :
    parDepth d k = some d := by
  cases k <;> first | rfl | exact absurd rfl hopen | exact absurd rfl hclose

theorem parDepth_add {d d' : Nat} (h : parDepth d k = some d') (n : Nat) :
    parDepth (d + n) k = some (d' + n) := by
  by_cases hopen : k = .openPar
  · subst hopen
    obtain rfl : d + 1 = d' := Option.some.inj h
    exact congrArg some (by omega)
  by_cases hclose : k = .closePar
  · subst hclose
    cases d with
    | zero => cases h
    | succ d =>
      obtain rfl : d = d' := Option.some.inj h
      rw [show d + 1 + n = d + n + 1 by omega]
      rfl
  · rw [parDepth_of_ne hopen hclose] at h ⊢
    rw [Option.some.inj h]

/-- What can be read can be read deeper in parentheses. -/
theorem foldlM_parDepth_add {d d' : Nat} (h : l.foldlM parDepth d = some d') (n : Nat) :
    l.foldlM parDepth (d + n) = some (d' + n) := by
  induction l generalizing d with
  | nil =>
    obtain rfl : d = d' := Option.some.inj h
    rfl
  | cons k l ih =>
    obtain ⟨d₁, hd₁, h⟩ := Option.bind_eq_some_iff.1 h
    exact Option.bind_eq_some_iff.2 ⟨d₁ + n, parDepth_add hd₁ n, ih h⟩

theorem foldlM_append_eq_some {Q : Type} {δ : Q → TokenKind → Option Q} {q q' : Q} :
    (l ++ l').foldlM δ q = some q' ↔ ∃ q₁, l.foldlM δ q = some q₁ ∧ l'.foldlM δ q₁ = some q' := by
  rw [List.foldlM_append]
  exact Option.bind_eq_some_iff

theorem Balanced.append (h : Balanced l) (h' : Balanced l') : Balanced (l ++ l') :=
  foldlM_append_eq_some.2 ⟨0, h, h'⟩

theorem balanced_cons (hopen : k ≠ .openPar) (hclose : k ≠ .closePar) :
    Balanced (k :: l) ↔ Balanced l := by
  rw [Balanced, List.foldlM_cons, parDepth_of_ne hopen hclose]
  rfl

theorem Balanced.parens (h : Balanced l) : Balanced (.openPar :: (l ++ [.closePar])) := by
  have h₁ : l.foldlM parDepth 1 = some 1 := foldlM_parDepth_add h 1
  exact foldlM_append_eq_some.2 ⟨1, h₁, rfl⟩

/-- Behind a parenthesis that is opened in front of a part of what is balanced, one is open. -/
theorem not_balanced_openPar (h : Balanced (l ++ l')) : ¬ Balanced (.openPar :: l) := by
  intro hopen
  obtain ⟨d, hd, -⟩ := foldlM_append_eq_some.1 h
  have hdeeper : l.foldlM parDepth 1 = some (d + 1) := by
    have := foldlM_parDepth_add hd 1
    rwa [Nat.zero_add] at this
  have hzero : l.foldlM parDepth 1 = some 0 := hopen
  rw [hdeeper] at hzero
  exact Nat.succ_ne_zero d (Option.some.inj hzero)

end Balanced

/-! ## Angle brackets -/

/-- `<` or `>`. -/
def TokenKind.isAngle (k : TokenKind) : Bool := k == .operatorLessThan || k == .operatorGreaterThan

/-- What an expression starts with. -/
def TokenKind.startsExpr : TokenKind → Bool
  | .identifier | .openPar | .integerLiteral | .true_ | .false_ => true
  | _ => false

/-- The depth in parentheses behind a token, if there is no angle bracket outside of them. -/
def plainDepth (d : Nat) (k : TokenKind) : Option Nat :=
  if d = 0 ∧ k.isAngle then none else parDepth d k

/-- All angle brackets are in parentheses. -/
abbrev AnglesInParens (l : List TokenKind) : Prop := l.foldlM plainDepth 0 = some 0

theorem parDepth_of_plainDepth {d d' : Nat} {k : TokenKind} (h : plainDepth d k = some d') :
    parDepth d k = some d' := by
  unfold plainDepth at h
  split at h
  · cases h
  · exact h

theorem foldlM_parDepth_of_plainDepth {l : List TokenKind} {d d' : Nat}
    (h : l.foldlM plainDepth d = some d') : l.foldlM parDepth d = some d' := by
  induction l generalizing d with
  | nil => exact h
  | cons k l ih =>
    obtain ⟨d₁, hd₁, h⟩ := Option.bind_eq_some_iff.1 h
    exact Option.bind_eq_some_iff.2 ⟨d₁, parDepth_of_plainDepth hd₁, ih h⟩

/-- There is no angle bracket behind a balanced part. -/
theorem AnglesInParens.not_split {l l' : List TokenKind} {k : TokenKind}
    (h : AnglesInParens (l ++ k :: l')) (hl : Balanced l) : k.isAngle = false := by
  obtain ⟨d, hd, h⟩ := foldlM_append_eq_some.1 h
  obtain rfl : 0 = d := Option.some.inj (hl.symm.trans (foldlM_parDepth_of_plainDepth hd))
  obtain ⟨d₁, hd₁, -⟩ := Option.bind_eq_some_iff.1 h
  unfold plainDepth at hd₁
  split at hd₁
  · cases hd₁
  next hplain => simpa using hplain

/-- A machine that reads up to the first `<` outside of parentheses: behind each `>` outside of them
it expects an expression. -/
inductive AngleState where
  | reading (depth : Nat) (closed : Bool)
  | free

/-- A step of the machine. -/
def angleStep : AngleState → TokenKind → Option AngleState
  | .free, _ => some .free
  | .reading d closed, k =>
    if closed && !k.startsExpr then none
    else if d = 0 ∧ k = .operatorLessThan then some .free
    else (parDepth d k).map fun d' => .reading d' (decide (d = 0) && k == .operatorGreaterThan)

/-- In front of the first `<` outside of parentheses each `>` outside of them is an operator. -/
def GreaterThanIsOperator (l : List TokenKind) : Prop :=
  ∃ q, l.foldlM angleStep (.reading 0 false) = some q ∧ (q = .free ∨ q = .reading 0 false)

theorem angleStep_of_plainDepth {d d' : Nat} {k : TokenKind} (h : plainDepth d k = some d') :
    angleStep (.reading d false) k = some (.reading d' false) := by
  have hdepth := parDepth_of_plainDepth h
  unfold plainDepth at h
  split at h
  · cases h
  next hplain =>
    have hlt : ¬ (d = 0 ∧ k = .operatorLessThan) := by
      rintro ⟨hd, rfl⟩
      exact hplain ⟨hd, rfl⟩
    have hgt : (decide (d = 0) && k == .operatorGreaterThan) = false := by
      rw [Bool.and_eq_false_iff, decide_eq_false_iff_not, beq_eq_false_iff_ne]
      by_cases hd : d = 0
      · exact .inr fun hk => hplain ⟨hd, hk ▸ rfl⟩
      · exact .inl hd
    simp only [angleStep, Bool.false_and, Bool.false_eq_true, if_false, if_neg hlt, hdepth,
      Option.map_some, hgt]

theorem foldlM_angleStep_of_plainDepth {l : List TokenKind} {d d' : Nat}
    (h : l.foldlM plainDepth d = some d') :
    l.foldlM angleStep (.reading d false) = some (.reading d' false) := by
  induction l generalizing d with
  | nil =>
    obtain rfl : d = d' := Option.some.inj h
    rfl
  | cons k l ih =>
    obtain ⟨d₁, hd₁, h⟩ := Option.bind_eq_some_iff.1 h
    exact Option.bind_eq_some_iff.2 ⟨_, angleStep_of_plainDepth hd₁, ih h⟩

/-- Behind the first `>` outside of parentheses there is an expression. -/
theorem GreaterThanIsOperator.startsExpr {l l' : List TokenKind}
    (h : GreaterThanIsOperator (l ++ .operatorGreaterThan :: l')) (hl : AnglesInParens l) :
    ∃ k l'', l' = k :: l'' ∧ k.startsExpr = true := by
  obtain ⟨q, hq, hend⟩ := h
  obtain ⟨q₁, hq₁, hq⟩ := foldlM_append_eq_some.1 hq
  obtain rfl : AngleState.reading 0 false = q₁ :=
    Option.some.inj ((foldlM_angleStep_of_plainDepth hl).symm.trans hq₁)
  have hclosed : l'.foldlM angleStep (.reading 0 true) = some q := hq
  cases l' with
  | nil =>
    obtain rfl : AngleState.reading 0 true = q := Option.some.inj hclosed
    rcases hend with hend | hend <;> cases hend
  | cons k l'' =>
    refine ⟨k, l'', rfl, ?_⟩
    obtain ⟨q₂, hq₂, -⟩ := Option.bind_eq_some_iff.1 hclosed
    by_contra hk
    rw [Bool.not_eq_true] at hk
    simp [angleStep, hk] at hq₂

/-! ## What expressions derive -/

/-- The rules of expressions. -/
def Rule.isExprRule : Rule → Bool
  | .expr | .unaryExpr | .enclosingExpr | .callOperatorExpr | .exprList | .integerLiteralExpr
  | .booleanLiteralExpr | .declRefExpr | .metaInstantiationExpr | .binaryOperator => true
  | _ => false

/-- Expressions leave the depth in parentheses as it is. -/
def parContract : Contract Rule Nat where
  pre r _ := r.isExprRule = true
  post _ d d' := d' = d

/-- An expression ends before the first `<` outside of parentheses, and not with a `>`, or the
machine is free. An operator and the expressions of a list do not stand behind a `>`. -/
def angleContract : Contract Rule AngleState where
  pre r q := r.isExprRule = true ∧
    (r = .exprList ∨ r = .binaryOperator → ∀ d closed, q = .reading d closed → closed = false)
  post r q q' := q' = .free ∨ ∃ d closed closed', q = .reading d closed ∧ q' = .reading d closed' ∧
    (r ≠ .binaryOperator → closed' = false)

section Derived

variable {p p' : BasicParser} {cs : List Context}

/-- The kinds of the terminals. -/
def kindsOf (cs : List Context) : List TokenKind := (cs.flatMap terminals).map Token.kind

theorem parContract_keeps (r : Rule) (d : Nat) (h : parContract.pre r d) :
    parContract.Drives parDepth (grammar.production r) d (parContract.post r d) := by
  have hrule {r : Rule} (hr : r.isExprRule = true) {d : Nat} {K : Nat → Prop} (hK : K d) :
      parContract.Drives (S := BasicParser) parDepth (.rule r) d K := ⟨hr, fun _ hd => hd ▸ hK⟩
  have htoken {k : TokenKind} {d d' : Nat} (hk : parDepth d k = some d') {K : Nat → Prop}
      (hK : K d') : parContract.Drives (S := BasicParser) parDepth (.token k) d K := ⟨d', hk, hK⟩
  cases r with
  | expr =>
    refine ⟨hrule rfl rfl, hrule rfl rfl, hrule rfl rfl, ?_, hrule rfl rfl, hrule rfl rfl, ?_⟩
    · exact htoken rfl (hrule rfl (htoken rfl rfl))
    · exact hrule rfl (hrule rfl (hrule rfl rfl))
  | unaryExpr | enclosingExpr => exact hrule rfl rfl
  | callOperatorExpr =>
    have hcall : parContract.Drives parDepth
        (Ebnf.seqs (S := BasicParser) [.token .openPar, .rule .exprList, .token .closePar]) d
        (parContract.post .callOperatorExpr d) :=
      htoken rfl (hrule rfl (htoken rfl rfl))
    exact ⟨hrule rfl hcall, hrule rfl hcall⟩
  | exprList =>
    exact ⟨hrule rfl ⟨(· = d), rfl, fun d' hd => hd ▸ htoken rfl (hrule rfl rfl),
      fun _ hd => hd⟩, rfl⟩
  | integerLiteralExpr | declRefExpr => exact htoken rfl rfl
  | booleanLiteralExpr => exact ⟨htoken rfl rfl, htoken rfl rfl⟩
  | metaInstantiationExpr => exact hrule rfl (htoken rfl (hrule rfl (htoken rfl rfl)))
  | binaryOperator =>
    refine ⟨?_, ?_, ?_, ?_, ?_, ?_, ?_, ?_, ?_, ?_, ?_⟩ <;> exact htoken rfl rfl
  | _ => cases h

theorem angleContract_free {e : Ebnf Rule TokenKind BasicParser}
    (he : e.calls Rule.isExprRule = true) {K : AngleState → Prop} (hK : K .free) :
    angleContract.Drives angleStep e .free K := by
  refine Contract.drives_of_absorbing (fun _ => rfl) ?_ ?_ he hK
  · exact fun r hr => ⟨hr, fun _ d closed hq => by cases hq⟩
  · rintro r q' (hq' | ⟨d, closed, closed', hq, -⟩)
    · exact hq'
    · cases hq

/-- The rules of expressions call each other only. -/
theorem calls_production {r : Rule} (hr : r.isExprRule = true) :
    (grammar.production r).calls Rule.isExprRule = true := by
  cases r <;> first | rfl | exact absurd hr Bool.false_ne_true

/-- Behind a token that is no `>`, or in parentheses. -/
theorem angleStep_eq {d d' : Nat} {closed : Bool} {k : TokenKind}
    (hclosed : closed = true → k.startsExpr = true) (hdepth : parDepth d k = some d')
    (hlt : k = .operatorLessThan → d ≠ 0) (hgt : k = .operatorGreaterThan → d ≠ 0) :
    angleStep (.reading d closed) k = some (.reading d' false) := by
  have hstart : (closed && !k.startsExpr) = false := by
    cases closed
    · rfl
    · rw [hclosed rfl]
      rfl
  have hfree : ¬ (d = 0 ∧ k = .operatorLessThan) := fun ⟨hd, hk⟩ => hlt hk hd
  have hbehind : (decide (d = 0) && k == .operatorGreaterThan) = false := by
    rw [Bool.and_eq_false_iff, decide_eq_false_iff_not, beq_eq_false_iff_ne]
    by_cases hd : d = 0
    · exact .inr fun hk => hgt hk hd
    · exact .inl hd
  simp only [angleStep, hstart, Bool.false_eq_true, if_false, if_neg hfree, hdepth,
    Option.map_some, hbehind]

theorem angleContract_keeps (r : Rule) (q : AngleState) (h : angleContract.pre r q) :
    angleContract.Drives angleStep (grammar.production r) q (angleContract.post r q) := by
  obtain ⟨hr, hpre⟩ := h
  cases q with
  | free =>
    exact angleContract_free (calls_production hr) (.inl rfl)
  | reading d closed =>
  -- What is called leaves the machine free, or in front of the first `<`.
  have hcall {r : Rule} (hr : r.isExprRule = true) {d : Nat} {closed : Bool}
      (hclosed : r = .exprList ∨ r = .binaryOperator → closed = false) {K : AngleState → Prop}
      (hfree : K .free)
      (hK : ∀ closed', (r ≠ .binaryOperator → closed' = false) → K (.reading d closed')) :
      angleContract.Drives (S := BasicParser) angleStep (.rule r) (.reading d closed) K := by
    refine ⟨⟨hr, ?_⟩, ?_⟩
    · rintro hlist d' closed' hq
      cases hq
      exact hclosed hlist
    · rintro q' (rfl | ⟨d', closed₁, closed', hq, rfl, hclosed'⟩)
      · exact hfree
      · cases hq
        exact hK closed' hclosed'
  have hrule {r : Rule} (hr : r.isExprRule = true ∧ r ≠ .binaryOperator ∧ r ≠ .exprList) {d : Nat}
      {closed : Bool} {K : AngleState → Prop} (hfree : K .free) (hK : K (.reading d false)) :
      angleContract.Drives (S := BasicParser) angleStep (.rule r) (.reading d closed) K :=
    hcall hr.1 (fun h => (h.elim hr.2.2 hr.2.1).elim) hfree fun _ hclosed => hclosed hr.2.1 ▸ hK
  have hlist {d : Nat} {K : AngleState → Prop} (hfree : K .free) (hK : K (.reading d false)) :
      angleContract.Drives (S := BasicParser) angleStep (.rule .exprList) (.reading d false) K :=
    hcall rfl (fun _ => rfl) hfree fun _ hclosed => hclosed (fun h => by cases h) ▸ hK
  have htoken {k : TokenKind} {d e : Nat} {closed : Bool}
      (hk : angleStep (.reading d closed) k = some (.reading e false)) {K : AngleState → Prop}
      (hK : K (.reading e false)) :
      angleContract.Drives (S := BasicParser) angleStep (.token k) (.reading d closed) K :=
    ⟨_, hk, hK⟩
  have hstart {k : TokenKind} {d d' : Nat} {closed : Bool} (hk : k.startsExpr = true)
      (hdepth : parDepth d k = some d') :
      angleStep (.reading d closed) k = some (.reading d' false) := by
    refine angleStep_eq (fun _ => hk) hdepth ?_ ?_ <;> rintro rfl <;> cases hk
  have hclose {d : Nat} : angleStep (.reading (d + 1) false) .closePar = some (.reading d false) :=
    angleStep_eq (fun h => by cases h) rfl (fun hk => by cases hk) (fun hk => by cases hk)
  have hpost {r : Rule} {d : Nat} {closed : Bool} :
      angleContract.post r (.reading d closed) (.reading d false) :=
    .inr ⟨d, closed, false, rfl, rfl, fun _ => rfl⟩
  cases r with
  | expr =>
    refine ⟨hrule (by decide) (.inl rfl) hpost, hrule (by decide) (.inl rfl) hpost,
      hrule (by decide) (.inl rfl) hpost, ?_, hrule (by decide) (.inl rfl) hpost,
      hrule (by decide) (.inl rfl) hpost, ?_⟩
    · refine htoken (e := d + 1) (hstart rfl rfl) (hrule (by decide) ?_ (htoken hclose hpost))
      exact angleContract_free (by rfl) (.inl rfl)
    · refine hrule (by decide) ?_ (hcall rfl (fun _ => rfl) ?_ fun closed' _ => ?_)
      · exact angleContract_free (by rfl) (.inl rfl)
      · exact angleContract_free (by rfl) (.inl rfl)
      · exact hrule (by decide) (.inl rfl) hpost
  | unaryExpr | enclosingExpr => exact hrule (by decide) (.inl rfl) hpost
  | callOperatorExpr =>
    have harguments : angleContract.Drives angleStep
        (Ebnf.seqs (S := BasicParser) [.token .openPar, .rule .exprList, .token .closePar])
        (.reading d false) (angleContract.post .callOperatorExpr (.reading d closed)) := by
      refine htoken (e := d + 1) (hstart rfl rfl) (hlist ?_ (htoken hclose hpost))
      exact angleContract_free (by rfl) (.inl rfl)
    have hfree : angleContract.Drives angleStep
        (Ebnf.seqs (S := BasicParser) [.token .openPar, .rule .exprList, .token .closePar])
        .free (angleContract.post .callOperatorExpr (.reading d closed)) :=
      angleContract_free (by rfl) (.inl rfl)
    exact ⟨hrule (by decide) hfree harguments, hrule (by decide) hfree harguments⟩
  | exprList =>
    obtain rfl : closed = false := hpre (.inl rfl) d closed rfl
    have hloop : angleContract.Drives angleStep
        (.star (Ebnf.seqs (S := BasicParser) [.token .comma, .rule .expr])) (.reading d false)
        (angleContract.post .exprList (.reading d false)) := by
      refine ⟨fun q => q = .free ∨ q = .reading d false, .inr rfl, ?_, ?_⟩
      · rintro q (rfl | rfl)
        · exact angleContract_free (by rfl) (.inl rfl)
        · refine htoken (e := d) ?_ (hrule (by decide) (.inl rfl) (.inr rfl))
          exact angleStep_eq (fun h => by cases h) rfl (fun hk => by cases hk)
            (fun hk => by cases hk)
      · rintro q (rfl | rfl)
        · exact .inl rfl
        · exact hpost
    refine ⟨hrule (by decide) ?_ hloop, hpost⟩
    exact angleContract_free (by rfl) (.inl rfl)
  | integerLiteralExpr | declRefExpr => exact htoken (hstart rfl rfl) hpost
  | booleanLiteralExpr => exact ⟨htoken (hstart rfl rfl) hpost, htoken (hstart rfl rfl) hpost⟩
  | metaInstantiationExpr =>
    refine hrule (by decide) (angleContract_free (by rfl) (.inl rfl)) ?_
    by_cases hd : d = 0
    · subst hd
      exact ⟨.free, rfl, angleContract_free (by rfl) (.inl rfl)⟩
    · have hangle {k : TokenKind} (hk : parDepth d k = some d) :
          angleStep (.reading d false) k = some (.reading d false) :=
        angleStep_eq (fun h => by cases h) hk (fun _ => hd) (fun _ => hd)
      refine htoken (hangle rfl) (hlist ?_ (htoken (hangle rfl) hpost))
      exact angleContract_free (by rfl) (.inl rfl)
  | binaryOperator =>
    obtain rfl : closed = false := hpre (.inr rfl) d closed rfl
    have hoperator {k : TokenKind} (hk : parDepth d k = some d) :
        angleContract.Drives (S := BasicParser) angleStep (.token k) (.reading d false)
          (angleContract.post .binaryOperator (.reading d false)) := by
      by_cases hlt : d = 0 ∧ k = .operatorLessThan
      · obtain ⟨rfl, rfl⟩ := hlt
        exact ⟨.free, rfl, .inl rfl⟩
      · have hstep : angleStep (.reading d false) k =
            some (.reading d (decide (d = 0) && k == .operatorGreaterThan)) := by
          simp only [angleStep, Bool.false_and, Bool.false_eq_true, if_false, if_neg hlt, hk,
            Option.map_some]
        exact ⟨_, hstep, .inr ⟨d, false, _, rfl, rfl, fun hne => absurd rfl hne⟩⟩
    refine ⟨?_, ?_, ?_, ?_, ?_, ?_, ?_, ?_, ?_, ?_, ?_⟩ <;> exact hoperator rfl
  | _ => cases hr

/-- The terminals of an expression or of a list of expressions. -/
theorem balanced_of_derives {r : Rule} (hr : r.isExprRule = true)
    (h : Derives grammar (.rule r) p cs p') : Balanced (kindsOf cs) := by
  obtain ⟨d, hd, rfl⟩ := h.drives parContract_keeps 0 (· = 0) ⟨hr, fun _ hd => hd⟩
  exact hd

theorem greaterThanIsOperator_of_derives (h : Derives grammar (.rule .exprList) p cs p') :
    GreaterThanIsOperator (kindsOf cs) := by
  have hpre : angleContract.pre .exprList (.reading 0 false) := by
    refine ⟨rfl, fun _ d closed hq => ?_⟩
    cases hq
    rfl
  refine h.drives angleContract_keeps _ _ ⟨hpre, ?_⟩
  rintro q (rfl | ⟨d, closed, closed', hq, rfl, hclosed⟩)
  · exact .inl rfl
  · cases hq
    rw [hclosed (fun h => by cases h)]
    exact .inr rfl

end Derived

/-! ## Forms -/

/-- What the terminals of an operand are, by their kinds. -/
inductive OperandForm where
  | name
  | literal (kind : TokenKind)
  /-- `f(..)` -/
  | call (arguments : List TokenKind)
  /-- `f<..>` -/
  | instantiation (metaArguments : List TokenKind)
  /-- `f<..>(..)` -/
  | callInstantiation (metaArguments arguments : List TokenKind)
  /-- `(..)` -/
  | parens (inner : List TokenKind)
deriving DecidableEq

/-- An operator and the form of the operand behind it. -/
abbrev FormLink := ExprBinaryOperator × OperandForm

namespace OperandForm

/-- The kinds of the terminals. -/
def kinds : OperandForm → List TokenKind
  | name => [.identifier]
  | literal kind => [kind]
  | call arguments => .identifier :: (.openPar :: (arguments ++ [.closePar]))
  | instantiation metaArguments =>
    .identifier :: .operatorLessThan :: (metaArguments ++ [.operatorGreaterThan])
  | callInstantiation metaArguments arguments =>
    .identifier :: .operatorLessThan ::
      (metaArguments ++ .operatorGreaterThan :: (.openPar :: (arguments ++ [.closePar])))
  | parens inner => .openPar :: (inner ++ [.closePar])

/-- The number of the alternative of `expr` that derives it. -/
def alternative : OperandForm → Nat
  | call _ | callInstantiation _ _ => 1
  | instantiation _ => 2
  | name => 3
  | parens _ => 4
  | literal kind => if kind = .integerLiteral then 5 else 6

/-- It is an instantiation or calls one. -/
def instantiates : OperandForm → Bool
  | instantiation _ | callInstantiation _ _ => true
  | _ => false

/-- It calls an instantiation. -/
def callsInstantiation : OperandForm → Bool
  | callInstantiation _ _ => true
  | _ => false

/-- The angle brackets in the arguments of an instantiation are in parentheses. -/
def AnglesInArguments : OperandForm → Prop
  | instantiation metaArguments | callInstantiation metaArguments _ => AnglesInParens metaArguments
  | _ => True

instance : DecidablePred AnglesInArguments
  | instantiation metaArguments | callInstantiation metaArguments _ =>
    inferInstanceAs (Decidable (AnglesInParens metaArguments))
  | name | literal _ | call _ | parens _ => inferInstanceAs (Decidable True)

/-- What holds of the forms of the operands that are derived. -/
def Valid : OperandForm → Prop
  | name => True
  | literal kind => kind = .integerLiteral ∨ kind = .true_ ∨ kind = .false_
  | call arguments => Balanced arguments
  | instantiation metaArguments => Balanced metaArguments ∧ GreaterThanIsOperator metaArguments
  | callInstantiation metaArguments arguments =>
    Balanced metaArguments ∧ GreaterThanIsOperator metaArguments ∧ Balanced arguments
  | parens inner => Balanced inner

end OperandForm

/-- The form of an operand. -/
def formOf : List Context → OperandForm
  | [.node (.rule .unaryExpr) [.node _ [.node _ [callee, _, arguments, _]]]] =>
    match callee with
    | .node (.rule .metaInstantiationExpr) [_, _, metaArguments, _] =>
      .callInstantiation (kindsOf [metaArguments]) (kindsOf [arguments])
    | _ => .call (kindsOf [arguments])
  | [.node (.rule .metaInstantiationExpr) [_, _, metaArguments, _]] =>
    .instantiation (kindsOf [metaArguments])
  | [.node (.rule .declRefExpr) _] => .name
  | [_, inner, _] => .parens (kindsOf [inner])
  | context => .literal ((kindsOf context).headD .eof)

section Forms

variable {p : BasicParser} {context : List Context}

theorem kindsOf_rule (r : Rule) (cs : List Context) :
    kindsOf [.node (.rule r) cs] = kindsOf cs := by
  rw [kindsOf, List.flatMap_singleton, terminals_rule]
  rfl

theorem kindsOf_token (l : Token) (cs : List Context) :
    kindsOf (.node (.token l) [] :: cs) = l.kind :: kindsOf cs := rfl

theorem kindsOf_cons (c : Context) (cs : List Context) :
    kindsOf (c :: cs) = kindsOf [c] ++ kindsOf cs := by
  rw [kindsOf, List.flatMap_cons, List.map_append, kindsOf, kindsOf, List.flatMap_singleton]

theorem exists_instantiation {cs : List Context} {p p' : BasicParser}
    (h : Derives grammar (.rule .metaInstantiationExpr) p cs p') :
    ∃ ref lt metaArguments gt, cs =
      [.node (.rule .metaInstantiationExpr) [ref, lt, metaArguments, gt]] ∧
      kindsOf cs = (OperandForm.instantiation (kindsOf [metaArguments])).kinds ∧
      Balanced (kindsOf [metaArguments]) ∧ GreaterThanIsOperator (kindsOf [metaArguments]) := by
  obtain ⟨_, rfl, hds⟩ := h.children
  obtain ⟨_, _, _, rfl, href, hds⟩ := matches_seq_rule.1 hds
  obtain ⟨lt, _, rfl, hlt, hds⟩ := matches_seq_token.1 hds
  obtain ⟨metaArguments, _, _, rfl, hmetaArguments, hds⟩ := matches_seq_rule.1 hds
  obtain ⟨gt, _, rfl, hgt, rfl, -⟩ := matches_seq_token.1 hds
  obtain ⟨_, href, ⟨name, hname, rfl⟩, -⟩ := href.children
  obtain rfl := List.singleton_inj.1 href
  refine ⟨_, _, metaArguments, _, rfl, ?_,
    balanced_of_derives rfl hmetaArguments, greaterThanIsOperator_of_derives hmetaArguments⟩
  rw [kindsOf_rule, kindsOf_cons, kindsOf_rule, kindsOf_token, kindsOf_token,
    kindsOf_cons metaArguments, kindsOf_token]
  rw [show name.kind = _ from hname, show lt.kind = _ from hlt, show gt.kind = _ from hgt]
  rfl

/-- What an operand that is derived looks like. -/
theorem formOf_spec (h : IsPrimary p context) :
    (formOf context).Valid ∧ kindsOf context = (formOf context).kinds := by
  have hleaf {r : Rule} {l : Token} {k : TokenKind} (hl : grammar.kind l = k) :
      kindsOf [.node (.rule r) [.node (.token l) []]] = [k] := by
    rw [kindsOf_rule, kindsOf_token]
    exact congrArg List.singleton hl
  rcases h.matches with
    ⟨c, rfl, hc⟩ | ⟨c, rfl, hc⟩ | ⟨c, rfl, hc⟩ | hparens | ⟨c, rfl, hc⟩ | ⟨c, rfl, hc⟩
  · obtain ⟨_, hunary, _, rfl, henclosing⟩ := hc.children
    obtain ⟨_, henclosing, _, rfl, hcall⟩ := henclosing.children
    obtain ⟨_, hcall, _, _, _, rfl, hcallee, hds⟩ := hcall.children
    obtain ⟨lpar, _, rfl, hlpar, hds⟩ := matches_seq_token.1 hds
    obtain ⟨arguments, _, _, rfl, harguments, hds⟩ := matches_seq_rule.1 hds
    obtain ⟨rpar, _, rfl, hrpar, rfl, -⟩ := matches_seq_token.1 hds
    have hbalanced := balanced_of_derives rfl harguments
    have hkinds (callee : Context) : kindsOf [callee, .node (.token lpar) [], arguments,
        .node (.token rpar) []] =
          kindsOf [callee] ++ .openPar :: (kindsOf [arguments] ++ [.closePar]) := by
      rw [kindsOf_cons callee, kindsOf_token, kindsOf_cons arguments, kindsOf_token,
        show lpar.kind = _ from hlpar, show rpar.kind = _ from hrpar]
      rfl
    rw [hunary, henclosing, hcall]
    rcases hcallee with ⟨callee, rfl, hcallee⟩ | ⟨callee, rfl, hcallee⟩
    · obtain ⟨_, heq, ⟨l, hl, rfl⟩, -⟩ := hcallee.children
      obtain rfl := List.singleton_inj.1 heq
      refine ⟨hbalanced, ?_⟩
      rw [kindsOf_rule, kindsOf_rule, kindsOf_rule, List.singleton_append, hkinds, hleaf hl]
      rfl
    · obtain ⟨ref, lt, metaArguments, gt, heq, hkinds', hbalanced', hoperator⟩ :=
        exists_instantiation hcallee
      obtain rfl := List.singleton_inj.1 heq
      refine ⟨⟨hbalanced', hoperator, hbalanced⟩, ?_⟩
      rw [kindsOf_rule, kindsOf_rule, kindsOf_rule, List.singleton_append, hkinds, hkinds']
      simp [formOf, OperandForm.kinds]
  · obtain ⟨ref, lt, metaArguments, gt, heq, hkinds, hbalanced, hoperator⟩ :=
      exists_instantiation hc
    rw [heq] at hkinds ⊢
    exact ⟨⟨hbalanced, hoperator⟩, hkinds⟩
  · obtain ⟨_, heq, ⟨l, hl, rfl⟩, -⟩ := hc.children
    rw [heq]
    exact ⟨trivial, hleaf hl⟩
  · obtain ⟨lpar, _, rfl, hlpar, hparens⟩ := matches_seq_token.1 hparens
    obtain ⟨inner, _, _, rfl, hinner, hparens⟩ := matches_seq_rule.1 hparens
    obtain ⟨rpar, _, rfl, hrpar, rfl, -⟩ := matches_seq_token.1 hparens
    have hform : formOf [.node (.token lpar) [], inner, .node (.token rpar) []] =
        .parens (kindsOf [inner]) := rfl
    rw [hform]
    refine ⟨balanced_of_derives rfl hinner, ?_⟩
    rw [kindsOf_token, kindsOf_cons inner, kindsOf_token, show lpar.kind = _ from hlpar,
      show rpar.kind = _ from hrpar]
    rfl
  · obtain ⟨_, heq, ⟨l, hl, rfl⟩, -⟩ := hc.children
    have hkinds := hleaf (r := .integerLiteralExpr) hl
    have hform : formOf [.node (.rule .integerLiteralExpr) [.node (.token l) []]] =
        .literal ((kindsOf [.node (.rule .integerLiteralExpr) [.node (.token l) []]]).headD .eof) :=
      rfl
    rw [heq, hform, hkinds]
    exact ⟨.inl rfl, rfl⟩
  · obtain ⟨ds, heq, hbool⟩ := hc.children
    obtain ⟨l, hl, hds⟩ : ∃ l : Token, (l.kind = .true_ ∨ l.kind = .false_) ∧
        ds = [.node (.token l) []] := by
      rcases hbool with ⟨⟨l, hl, hds⟩, -⟩ | ⟨⟨l, hl, hds⟩, -⟩
      · exact ⟨l, .inl hl, hds⟩
      · exact ⟨l, .inr hl, hds⟩
    subst hds
    have hkinds := hleaf (r := .booleanLiteralExpr) (rfl : grammar.kind l = l.kind)
    have hform : formOf [.node (.rule .booleanLiteralExpr) [.node (.token l) []]] =
        .literal ((kindsOf [.node (.rule .booleanLiteralExpr) [.node (.token l) []]]).headD .eof) :=
      rfl
    rw [heq, hform, hkinds]
    exact ⟨.inr hl, rfl⟩

end Forms

/-! ## Chains of forms -/

/-- The kinds of the terminals of operators and operands. -/
def linkKinds (links : List FormLink) : List TokenKind :=
  links.flatMap fun link => link.1.token.kind :: link.2.kinds

/-- The kinds of the terminals of a chain. -/
def chainKinds (first : OperandForm) (links : List FormLink) : List TokenKind :=
  first.kinds ++ linkKinds links

section Chains

variable {f : OperandForm} {links : List FormLink} {a b : List TokenKind}

/-- Nothing in parentheses is outside of them. -/
theorem not_split_parens {l m : List TokenKind} {k : TokenKind} (hm : Balanced m)
    (hl : l ≠ []) (h : l ++ k :: b = .openPar :: (m ++ [.closePar]))
    (hclose : k ≠ .closePar) : ¬ Balanced l := by
  cases l with
  | nil => exact absurd rfl hl
  | cons x l =>
    obtain ⟨rfl, htail⟩ := List.cons.inj h
    rcases append_eq_append_cons htail.symm with ⟨as, rfl, -⟩ | ⟨as, rfl, has⟩
    · exact not_balanced_openPar hm
    · cases as with
      | nil => exact absurd (List.cons.inj has).1.symm hclose
      | cons y as => exact absurd (List.cons.inj has).2 (by simp)

/-- A `>` of an operand that is outside of parentheses closes an instantiation: behind it there are
at most the arguments of a call. -/
theorem OperandForm.Valid.greaterThan (h : f.Valid) (hf : f.alternative ≠ 4)
    (hangles : f.AnglesInArguments) (heq : f.kinds = a ++ .operatorGreaterThan :: b)
    (ha : Balanced a) : f.instantiates = true ∧ (b = [] ∨ f.callsInstantiation = true) := by
  cases f with
  | callInstantiation => exact ⟨rfl, .inr rfl⟩
  | parens => exact absurd rfl hf
  | name =>
    rcases a with _ | ⟨x, _ | ⟨y, a⟩⟩ <;> cases heq
  | literal k =>
    rcases a with _ | ⟨x, _ | ⟨y, a⟩⟩
    · obtain ⟨rfl, -⟩ := List.cons.inj heq
      rcases h with h | h | h <;> cases h
    · cases heq
    · cases heq
  | call arguments =>
    rcases a with _ | ⟨x, _ | ⟨y, a⟩⟩
    · cases heq
    · cases heq
    · obtain ⟨rfl, htail⟩ := List.cons.inj heq
      have htail : y :: a ++ .operatorGreaterThan :: b = .openPar :: (arguments ++ [.closePar]) :=
        htail.symm
      have ha : Balanced (y :: a) := (balanced_cons (by decide) (by decide)).1 ha
      exact absurd ha (not_split_parens h (by simp) htail (by decide))
  | instantiation metaArguments =>
    refine ⟨rfl, ?_⟩
    rcases a with _ | ⟨x, _ | ⟨y, a⟩⟩
    · cases heq
    · cases heq
    · obtain ⟨rfl, htail⟩ := List.cons.inj heq
      obtain ⟨rfl, hclose⟩ := List.cons.inj htail
      have ha : Balanced a := (balanced_cons (by decide) (by decide)).1
        ((balanced_cons (by decide) (by decide)).1 ha)
      rcases append_eq_append_cons hclose with ⟨as, rfl, -⟩ | ⟨as, rfl, has⟩
      · exact absurd (AnglesInParens.not_split hangles ha) (by decide)
      · cases as with
        | nil => exact .inl (List.cons.inj has).2.symm
        | cons y as => exact absurd (List.cons.inj has).2 (by simp)

end Chains

/-! ## What is built -/

/-- The forms of the operands. -/
def formsOf (links : List ChainLink) : List FormLink :=
  links.map fun link => (link.1, formOf link.2)

section Builds

variable {p : BasicParser} {tokens : List Token} {first : List Context} {links : List ChainLink}

variable (p tokens first links) in
/-- The tokens can be read as the chain. -/
structure ReadsChain : Prop where
  operand : IsPrimary p first
  operands : ∀ link ∈ links, IsPrimary p link.2
  tokens : terminals (parseExpr first links) = tokens

theorem kinds_parseExpr (hfirst : IsPrimary p first) (hlinks : ∀ link ∈ links, IsPrimary p link.2) :
    (terminals (parseExpr first links)).map Token.kind =
      chainKinds (formOf first) (formsOf links) := by
  have hkinds : (links.flatMap fun link => link.1.token :: link.2.flatMap terminals).map
      Token.kind = linkKinds (formsOf links) := by
    rw [linkKinds, formsOf, List.flatMap_map, List.map_flatMap]
    refine List.flatMap_congr fun link hlink => ?_
    rw [List.map_cons, ← (formOf_spec (hlinks link hlink)).2]
    rfl
  rw [terminals_parseExpr, List.map_append, hkinds, chainKinds, ← (formOf_spec hfirst).2]
  rfl

theorem ReadsChain.kinds (h : ReadsChain p tokens first links) :
    tokens.map Token.kind = chainKinds (formOf first) (formsOf links) := by
  rw [← h.tokens, kinds_parseExpr h.operand h.operands]

end Builds

end Swy
