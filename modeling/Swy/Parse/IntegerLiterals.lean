import Swy.Parse.GeneratedLexer
import Swy.Parse.LocalScopeVisitor

/-!
# The conversion of integer literals

The lexer reads a literal with a sign, `getAsInteger` reads a minus only. So a literal that starts
with a plus is never converted.
-/

namespace Swy

open GeneratedLexer

/-- The digits of an integer literal. -/
def digitsOf (text : Identifier) : List Char :=
  if text.toList.head?.any sign then text.toList.tail else text.toList

/-- The decimal value of an integer literal. -/
def decimalValue (text : Identifier) : Int :=
  if text.toList.head? = some '-' then -valueOfDigits (digitsOf text)
  else valueOfDigits (digitsOf text)

/-- The range of `std::int32_t`. -/
def InRange (value : Int) : Prop := -2 ^ 31 ≤ value ∧ value < 2 ^ 31

instance (value : Int) : Decidable (InRange value) := inferInstanceAs (Decidable (_ ∧ _))

namespace GeneratedLexer

theorem digit_eq_isDigit (c : Char) : digit c = c.isDigit := by
  rw [Bool.eq_iff_iff]
  simp only [digit, Char.isDigit, Bool.and_eq_true, decide_eq_true_eq, Char.le_def, ge_iff_le]

theorem isDigit_of_digits {cs : List Char} (h : digits cs = true) :
    cs.isEmpty = false ∧ cs.all Char.isDigit = true := by
  rw [digits, Bool.and_eq_true, Bool.not_eq_true'] at h
  refine ⟨h.1, ?_⟩
  rw [← funext digit_eq_isDigit]
  exact h.2

end GeneratedLexer

variable {text : Identifier}

theorem digitsOf_of_sign {c : Char} {cs : List Char} (htext : text.toList = c :: cs)
    (hsign : sign c = true) : digitsOf text = cs := by
  rw [digitsOf, htext]
  exact if_pos hsign

theorem digitsOf_of_not_sign {c : Char} {cs : List Char} (htext : text.toList = c :: cs)
    (hsign : ¬sign c = true) : digitsOf text = c :: cs := by
  rw [digitsOf, htext]
  exact if_neg hsign

theorem decimalValue_of_minus {cs : List Char} (htext : text.toList = '-' :: cs) :
    decimalValue text = -valueOfDigits cs := by
  rw [decimalValue, digitsOf_of_sign htext rfl, htext]
  exact if_pos rfl

theorem decimalValue_of_not_sign {c : Char} {cs : List Char} (htext : text.toList = c :: cs)
    (hsign : ¬sign c = true) : decimalValue text = valueOfDigits (c :: cs) := by
  rw [decimalValue, digitsOf_of_not_sign htext hsign, htext]
  apply if_neg
  intro hhead
  obtain rfl : c = '-' := Option.some.inj hhead
  exact hsign rfl

/-- Behind its sign a literal consists of digits. -/
theorem digits_digitsOf (h : integerLiteral text.toList = true) :
    digits (digitsOf text) = true := by
  cases htext : text.toList with
  | nil =>
    rw [htext] at h
    cases h
  | cons c cs =>
    rw [htext, integerLiteral] at h
    by_cases hsign : sign c = true
    · rw [if_pos hsign] at h
      rw [digitsOf_of_sign htext hsign]
      exact h
    · rw [if_neg hsign] at h
      rw [digitsOf_of_not_sign htext hsign]
      exact h

theorem getAsInteger_of_plus (h : text.toList.head? = some '+') : getAsInteger text = none := by
  obtain ⟨cs, hcs⟩ : ∃ cs, text.toList = '+' :: cs := List.head?_eq_some_iff.1 h
  unfold getAsInteger
  rw [hcs]
  rfl

/-- The conversion of digits with or without a minus. -/
theorem convert_digits {digits : List Char} (h : GeneratedLexer.digits digits = true)
    (value : Int) : (if digits.isEmpty || !digits.all Char.isDigit then none
      else if value < -2 ^ 31 ∨ 2 ^ 31 ≤ value then none else some (BitVec.ofInt 32 value)) =
      if InRange value then some (BitVec.ofInt 32 value) else none := by
  obtain ⟨hempty, hall⟩ := isDigit_of_digits h
  rw [hempty, hall, if_neg (by decide)]
  by_cases hvalue : InRange value
  · rw [if_pos hvalue, if_neg]
    unfold InRange at hvalue
    omega
  · rw [if_neg hvalue, if_pos]
    unfold InRange at hvalue
    omega

/-- Without a plus the conversion is exact. -/
theorem getAsInteger_of_ne_plus (h : integerLiteral text.toList = true)
    (hplus : text.toList.head? ≠ some '+') :
    getAsInteger text =
      if InRange (decimalValue text) then some (BitVec.ofInt 32 (decimalValue text)) else none := by
  have hdigits := digits_digitsOf h
  obtain ⟨c, cs, htext⟩ : ∃ c cs, text.toList = c :: cs := by
    apply List.exists_cons_of_ne_nil
    intro hnil
    rw [hnil] at h
    cases h
  rw [htext] at hplus
  by_cases hminus : c = '-'
  · subst hminus
    rw [digitsOf_of_sign htext rfl] at hdigits
    rw [decimalValue_of_minus htext, ← convert_digits hdigits]
    unfold getAsInteger
    rw [htext]
    rfl
  · have hsign : ¬sign c = true := by
      simp only [sign, Bool.or_eq_true, beq_iff_eq]
      rintro (rfl | rfl)
      · exact hplus rfl
      · exact hminus rfl
    have hhead : ¬(some c = some '-') := by
      intro heq
      exact hminus (Option.some.inj heq)
    rw [digitsOf_of_not_sign htext hsign] at hdigits
    rw [decimalValue_of_not_sign htext hsign, ← convert_digits hdigits]
    unfold getAsInteger
    rw [htext, List.head?_cons, beq_eq_false_iff_ne.2 hhead]
    rfl

/-! ## What the visitor writes -/

namespace LocalScopeVisitor

/-- The context of an integer literal. -/
def literalContext (text : Identifier) : List Context :=
  [.node (.token ⟨.integerLiteral, text⟩) []]

/-- The literal is written with its value if the value is in range, and it is an error otherwise. -/
def WritesExactly (text : Identifier) (visitChildren : Visit) (v : LocalScopeVisitor) : Prop :=
  (InRange (decimalValue text) → ∃ value : Word, value.toInt = decimalValue text ∧
    visitIntegerLiteralExpr (literalContext text) visitChildren v =
      some (v.directWrite (.integerLiteralExpr value))) ∧
  (¬InRange (decimalValue text) →
    visitIntegerLiteralExpr (literalContext text) visitChildren v =
      some ((v.diagnose (.errorConvertionFailure text)).directWrite .erroneousExpr))

variable {visitChildren : Visit} {v : LocalScopeVisitor}

theorem visit_of_getAsInteger_eq_none (h : getAsInteger text = none) :
    visitIntegerLiteralExpr (literalContext text) visitChildren v =
      some ((v.diagnose (.errorConvertionFailure text)).directWrite .erroneousExpr) := by
  have hrep : identifierOf (literalContext text) .integerLiteral = some text := rfl
  simp only [visitIntegerLiteralExpr, hrep, Option.bind_eq_bind, Option.bind_some, h]
  rfl

theorem visit_of_getAsInteger_eq_some {value : Word} (h : getAsInteger text = some value) :
    visitIntegerLiteralExpr (literalContext text) visitChildren v =
      some (v.directWrite (.integerLiteralExpr value)) := by
  have hrep : identifierOf (literalContext text) .integerLiteral = some text := rfl
  simp only [visitIntegerLiteralExpr, hrep, Option.bind_eq_bind, Option.bind_some, h]
  rfl

/-- A literal is written exactly unless it has a plus and a value in range. -/
theorem writesExactly_iff (h : integerLiteral text.toList = true) (visitChildren : Visit)
    (v : LocalScopeVisitor) :
    WritesExactly text visitChildren v ↔
      ¬(text.toList.head? = some '+' ∧ InRange (decimalValue text)) := by
  constructor
  · rintro hexact ⟨hplus, hrange⟩
    obtain ⟨value, -, hvisit⟩ := hexact.1 hrange
    rw [visit_of_getAsInteger_eq_none (getAsInteger_of_plus hplus)] at hvisit
    have hdiagnostics := congrArg LocalScopeVisitor.diagnostics (Option.some.inj hvisit)
    have hlength := congrArg List.length hdiagnostics
    simp [diagnose, directWrite] at hlength
  · intro hnot
    by_cases hplus : text.toList.head? = some '+'
    · refine ⟨fun hrange => absurd ⟨hplus, hrange⟩ hnot, fun _ => ?_⟩
      exact visit_of_getAsInteger_eq_none (getAsInteger_of_plus hplus)
    · have hconvert := getAsInteger_of_ne_plus h hplus
      constructor
      · intro hrange
        rw [if_pos hrange] at hconvert
        refine ⟨_, ?_, visit_of_getAsInteger_eq_some hconvert⟩
        exact BitVec.toInt_ofInt_eq_self (by decide) hrange.1 hrange.2
      · intro hrange
        rw [if_neg hrange] at hconvert
        exact visit_of_getAsInteger_eq_none hconvert

/-- A literal at the lower end of the range, with leading zeros. -/
theorem writesExactly_minimum :
    WritesExactly "-0002147483648" some start ∧ ¬WritesExactly "+5" some start := by
  constructor
  · exact (writesExactly_iff (by decide) some start).2 (by decide)
  · intro hexact
    exact (writesExactly_iff (by decide) some start).1 hexact (by decide)

/-- The literal `+5` is read by the lexer and is an error for the visitor. -/
theorem visitIntegerLiteralExpr_plus_five :
    ¬ ∀ (text : Identifier) (visitChildren : Visit) (v : LocalScopeVisitor),
      integerLiteral text.toList = true → WritesExactly text visitChildren v := by
  intro h
  obtain ⟨value, -, hvisit⟩ := (h "+5" some start (by decide)).1 (by decide)
  have hdiagnostics := congrArg (Option.map LocalScopeVisitor.diagnostics) hvisit
  change some [Diagnostic.errorConvertionFailure "+5"] = some [] at hdiagnostics
  cases hdiagnostics

end LocalScopeVisitor

end Swy
