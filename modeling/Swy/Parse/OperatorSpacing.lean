import Swy.Parse.GeneratedLexer
import Swy.Parse.LocalScopeVisitor

/-!
# Spaces around operators

Where an operand and an operator end does not depend on spaces between them, but for one case:
behind an operand a plus or a minus becomes the sign of an integer literal that starts with a digit.
-/

namespace Swy.GeneratedLexer

open Library LexerRule

/-- The fixed texts of the language. -/
def texts : List (LexerKind × String) := keywords ++ punctuation ++ booleans ++ operators

/-! ## What the rules accept -/

theorem integerLiteral_cons {c : Char} {cs : List Char} (h : integerLiteral (c :: cs) = true) :
    (sign c = true ∨ digit c = true) ∧ cs.all digit = true := by
  rw [integerLiteral] at h
  by_cases hsign : sign c = true
  · rw [if_pos hsign, digits, Bool.and_eq_true] at h
    exact ⟨.inl hsign, h.2⟩
  · rw [if_neg hsign, digits, Bool.and_eq_true, List.all_cons, Bool.and_eq_true] at h
    exact ⟨.inr h.2.1, h.2.2⟩

theorem slash_of_isPrefixOf {c marker : Char} {cs : List Char}
    (h : ['/', marker].isPrefixOf (c :: cs) = true) : c = '/' ∧ ∃ ds, cs = marker :: ds := by
  obtain ⟨ds, hds⟩ := List.isPrefixOf_iff_prefix.1 h
  cases hds
  exact ⟨rfl, ds, rfl⟩

theorem exists_digit_of_integerLiteral {word : List Char} (h : integerLiteral word = true) :
    ∃ c cs, word = c :: cs ∧ (digit c = true ∨ sign c = true) ∧
      ∃ x ∈ c :: cs, digit x = true := by
  cases word with
  | nil => cases h
  | cons c cs =>
    refine ⟨c, cs, rfl, ?_⟩
    rw [integerLiteral] at h
    by_cases hsign : sign c = true
    · rw [if_pos hsign] at h
      cases cs with
      | nil => cases h
      | cons d ds =>
        simp only [digits, List.all_cons, Bool.and_eq_true] at h
        exact ⟨.inr hsign, d, by simp, h.2.1⟩
    · rw [if_neg hsign] at h
      simp only [digits, List.all_cons, Bool.and_eq_true] at h
      exact ⟨.inl h.2.1, c, by simp, h.2.1⟩

theorem exists_letter_of_identifier {word : List Char} (h : identifier word = true) :
    ∃ c cs, word = c :: cs ∧ letter c = true := by
  cases word with
  | nil => cases h
  | cons c cs =>
    rw [identifier, Bool.and_eq_true] at h
    exact ⟨c, cs, rfl, h.1⟩

theorem digit_eq_false_of_letter {c : Char} (h : letter c = true) : digit c = false := by
  by_contra hdigit
  simp only [letter, digit, Bool.not_eq_false, Bool.or_eq_true, Bool.and_eq_true,
    decide_eq_true_eq, beq_iff_eq, Char.le_def, UInt32.le_iff_toNat_le] at h hdigit
  rcases h with (h | h) | rfl
  · simp only [Char.reduceVal, UInt32.reduceToNat] at h hdigit
    omega
  · simp only [Char.reduceVal, UInt32.reduceToNat] at h hdigit
    omega
  · exact absurd hdigit (by decide)

theorem sign_eq_false_of_letter {c : Char} (h : letter c = true) : sign c = false := by
  by_contra hsign
  simp only [sign, Bool.not_eq_false, Bool.or_eq_true, beq_iff_eq] at hsign
  rcases hsign with rfl | rfl <;> exact absurd h (by decide)

/-- The words of the rules by their first character. -/
theorem accepts_cases {rule : LexerRule Char LexerKind} (hrule : rule ∈ rules) {c : Char}
    {cs : List Char} (h : rule.accepts (c :: cs) = true) :
    (∃ entry ∈ texts, c :: cs = entry.2.toList) ∨
    (sign c = true ∨ digit c = true) ∧ cs.all digit = true ∨
    letter c = true ∧ (cs.all fun c => letter c || digit c) = true ∨
    c = '/' ∧ (∃ marker ds, cs = marker :: ds ∧ (marker = '/' ∨ marker = '*')) ∨
    blank c = true ∧ cs.all blank = true := by
  rw [rules, List.mem_append, List.mem_append, List.mem_append] at hrule
  rcases hrule with ((hrule | hrule) | hrule) | hrule
  · obtain ⟨entry, hentry, rfl⟩ := List.mem_map.1 hrule
    exact .inl ⟨entry, List.mem_append_left _ hentry, by simpa [literal] using h⟩
  · rcases List.mem_pair.1 hrule with rfl | rfl
    · exact .inr (.inl (integerLiteral_cons h))
    · simp only [identifier, Bool.and_eq_true] at h
      exact .inr (.inr (.inl h))
  · obtain ⟨entry, hentry, rfl⟩ := List.mem_map.1 hrule
    exact .inl ⟨entry, List.mem_append_right _ hentry, by simpa [literal] using h⟩
  · simp only [List.mem_cons, List.not_mem_nil, or_false] at hrule
    rcases hrule with rfl | rfl | rfl
    · simp only [comment, Bool.and_eq_true] at h
      obtain ⟨rfl, ds, rfl⟩ := slash_of_isPrefixOf h.1
      exact .inr (.inr (.inr (.inl ⟨rfl, '/', ds, rfl, .inl rfl⟩)))
    · simp only [multilineComment, Bool.and_eq_true] at h
      obtain ⟨rfl, ds, rfl⟩ := slash_of_isPrefixOf h.1
      exact .inr (.inr (.inr (.inl ⟨rfl, '*', ds, rfl, .inr rfl⟩)))
    · simp only [whitespace, Bool.and_eq_true, List.all_cons] at h
      exact .inr (.inr (.inr (.inr h.2)))

/-- A word ends where the next character continues no fixed text, no number, no name, no comment and
no blanks. -/
theorem stops_cons {c d : Char} {cs rest : List Char}
    (htext : ∀ entry ∈ texts, ¬ (c :: cs ++ [d]) <+: entry.2.toList)
    (hdigit : sign c = true ∨ digit c = true → digit d = false)
    (hletter : letter c = true → (letter d || digit d) = false)
    (hslash : c = '/' → cs = [] ∧ d ≠ '/' ∧ d ≠ '*')
    (hblank : blank c = true → blank d = false) : Stops rules (c :: cs) (d :: rest) := by
  rintro rule hrule more hmore ⟨behind, hbehind⟩
  obtain ⟨e, more, rfl⟩ := List.exists_cons_of_ne_nil hmore
  obtain rfl : e = d := (List.cons.inj hbehind).1
  by_contra hne
  have haccepts : rule.accepts (c :: (cs ++ e :: more)) = true := by
    rw [← Bool.not_eq_false]
    exact hne
  rcases accepts_cases hrule haccepts with
    ⟨entry, hentry, hword⟩ | ⟨hc, hall⟩ | ⟨hc, hall⟩ | ⟨hc, marker, ds, hcs, hmarker⟩ | ⟨hc, hall⟩
  · exact htext entry hentry ⟨more, by rw [← hword]; simp⟩
  · have hd := List.all_eq_true.1 hall e (by simp)
    rw [hdigit hc] at hd
    cases hd
  · have hd := List.all_eq_true.1 hall e (by simp)
    rw [hletter hc] at hd
    cases hd
  · obtain ⟨rfl, hline, hstar⟩ := hslash hc
    obtain rfl : e = marker := (List.cons.inj hcs).1
    exact hmarker.elim hline hstar
  · have hd := List.all_eq_true.1 hall e (by simp)
    rw [hblank hc] at hd
    cases hd

/-! ## The fixed texts -/

theorem texts_no_digit : ∀ entry ∈ texts, entry.2.toList.all (fun c => !digit c) = true := by
  decide

/-- Only keywords start with a letter. -/
theorem texts_letters :
    ∀ entry ∈ texts, entry.2.toList.head?.any letter = true → entry.2.toList.all letter = true := by
  decide

/-- What goes on behind an operator: an arrow, a comparison. -/
theorem texts_behind_operator : ∀ operator ∈ operators, ∀ entry ∈ texts,
    operator.2.toList <+: entry.2.toList →
      (entry.2.toList.drop operator.2.toList.length).head?.all (fun c => c == '=' || c == '>') =
        true := by
  decide

/-- Operators start with no character of a name, a number or blanks. -/
theorem operators_symbol : ∀ operator ∈ operators,
    (operator.2.toList.head?.all fun c => !letter c && !digit c && !blank c) = true := by
  decide

theorem operators_slash :
    ∀ operator ∈ operators, operator.2.toList.head? = some '/' → operator.2.toList.tail = [] := by
  decide

theorem operators_sign : ∀ operator ∈ operators,
    operator.2.toList.head?.any sign = true → operator.2 = "+" ∨ operator.2 = "-" := by
  decide

/-- How an operator starts. A slash, a plus and a minus are operators of one character. -/
theorem operators_head {operator : LexerKind × String} (hoperator : operator ∈ operators) {c : Char}
    (hc : operator.2.toList.head? = some c) :
    letter c = false ∧ digit c = false ∧ blank c = false ∧
      (c = '/' → operator.2.toList.tail = []) ∧
      (sign c = true → operator.2 = "+" ∨ operator.2 = "-") := by
  have hsymbol := operators_symbol operator hoperator
  have hsign := operators_sign operator hoperator
  rw [hc] at hsymbol hsign
  simp only [Option.all_some, Bool.and_eq_true, Bool.not_eq_true'] at hsymbol
  refine ⟨hsymbol.1.1, hsymbol.1.2, hsymbol.2, ?_, hsign⟩
  rintro rfl
  exact operators_slash operator hoperator hc

theorem operators_ne_nil : ∀ operator ∈ operators, operator.2.toList ≠ [] := by
  decide

theorem operators_first : ∀ operator ∈ operators,
    (rules.find? fun rule => rule.accepts operator.2.toList).map LexerRule.kind =
      some (some operator.1) := by
  decide

/-! ## Operands and operators -/

/-- An operand: an integer literal, or an identifier that is no keyword. -/
inductive IsOperand : TokenKind → String → Prop
  | integerLiteral {text : String} :
    integerLiteral text.toList = true → IsOperand .integerLiteral text
  | identifier {text : String} : identifier text.toList = true →
    (∀ entry ∈ keywords ++ booleans, entry.2 ≠ text) → IsOperand .identifier text

variable {kind : TokenKind} {text : String}

/-- An operand starts with a letter, or it starts with a digit or a sign and has a digit. -/
theorem IsOperand.start (h : IsOperand kind text) : ∃ c cs, text.toList = c :: cs ∧
    (letter c = true ∨ (digit c = true ∨ sign c = true) ∧ ∃ x ∈ c :: cs, digit x = true) := by
  cases h with
  | integerLiteral hliteral =>
    obtain ⟨c, cs, htext, hstart, hdigit⟩ := exists_digit_of_integerLiteral hliteral
    exact ⟨c, cs, htext, .inr ⟨hstart, hdigit⟩⟩
  | identifier hidentifier _ =>
    obtain ⟨c, cs, htext, hletter⟩ := exists_letter_of_identifier hidentifier
    exact ⟨c, cs, htext, .inl hletter⟩

theorem find?_literals_eq_none {entries : List (LexerKind × String)} {word : List Char}
    (h : ∀ entry ∈ entries, entry.2.toList ≠ word) :
    ((entries.map literal).find? fun rule => rule.accepts word) = none := by
  rw [List.find?_eq_none]
  intro rule hrule
  obtain ⟨entry, hentry, rfl⟩ := List.mem_map.1 hrule
  intro haccepts
  exact h entry hentry (eq_of_beq haccepts).symm

theorem punctuation_head :
    ∀ entry ∈ punctuation, entry.2.toList.head?.any letter = false := by
  decide

/-- The first rule that accepts an operand: the fixed texts before it have no digits, and those that
start with a letter are keywords. -/
theorem IsOperand.first (h : IsOperand kind text) :
    (rules.find? fun rule => rule.accepts text.toList).map LexerRule.kind =
      some (some (.parsed kind)) := by
  rw [rules, List.append_assoc, List.append_assoc, List.find?_append, find?_literals_eq_none,
    Option.none_or, List.cons_append, List.find?_cons]
  · cases h with
    | integerLiteral hliteral =>
      rw [show LexerRule.accepts _ text.toList = true from hliteral]
      rfl
    | identifier hidentifier _ =>
      have hliteral : GeneratedLexer.integerLiteral text.toList = false := by
        obtain ⟨c, cs, htext, hletter⟩ := exists_letter_of_identifier hidentifier
        by_contra hliteral
        rw [htext, Bool.not_eq_false] at hliteral
        have hstart := (integerLiteral_cons hliteral).1
        rw [sign_eq_false_of_letter hletter, digit_eq_false_of_letter hletter] at hstart
        exact hstart.elim Bool.noConfusion Bool.noConfusion
      rw [show LexerRule.accepts _ text.toList = false from hliteral, List.cons_append,
        List.find?_cons, show LexerRule.accepts _ text.toList = true from hidentifier]
      rfl
  · intro entry hentry htext
    cases h with
    | integerLiteral hliteral =>
      obtain ⟨c, cs, hcs, -, x, hx, hdigit⟩ := exists_digit_of_integerLiteral hliteral
      have hall := List.all_eq_true.1 (texts_no_digit entry (List.mem_append_left _ hentry)) x
        (by rw [htext, hcs]; exact hx)
      rw [hdigit] at hall
      cases hall
    | identifier hidentifier hkeyword =>
      rw [List.mem_append, List.mem_append] at hentry
      rcases hentry with (hentry | hentry) | hentry
      · exact hkeyword entry (List.mem_append_left _ hentry) (String.toList_inj.1 htext)
      · obtain ⟨c, cs, hcs, hletter⟩ := exists_letter_of_identifier hidentifier
        have hpunctuation := punctuation_head entry hentry
        rw [htext, hcs, List.head?_cons, Option.any_some, hletter] at hpunctuation
        cases hpunctuation
      · exact hkeyword entry (List.mem_append_right _ hentry) (String.toList_inj.1 htext)

/-! ## Where they end -/

theorem stops_nil (word : List Char) : Stops rules word [] := by
  intro rule _ more hne hmore
  exact absurd (List.prefix_nil.1 hmore) hne

/-- The characters an operand starts with. -/
def starts (c : Char) : Bool := letter c || digit c || sign c

theorem starts_eq_false_of_blank {c : Char} (h : blank c = true) : starts c = false := by
  simp only [blank, Bool.or_eq_true, beq_iff_eq] at h
  rcases h with ((rfl | rfl) | rfl) | rfl <;> decide

theorem IsOperand.exists_starts (h : IsOperand kind text) :
    ∃ c cs, text.toList = c :: cs ∧ starts c = true := by
  obtain ⟨c, cs, htext, hletter | ⟨hdigit | hsign, -⟩⟩ := h.start
  · exact ⟨c, cs, htext, by rw [starts, hletter]; rfl⟩
  · exact ⟨c, cs, htext, by rw [starts, hdigit, Bool.or_true]; rfl⟩
  · exact ⟨c, cs, htext, by rw [starts, hsign, Bool.or_true]⟩

/-- An operand ends where no letter and no digit follows. -/
theorem IsOperand.isNext (h : IsOperand kind text) {rest : List Char}
    (hrest : ∀ d ∈ rest.head?, letter d = false ∧ digit d = false) :
    IsNext rules text.toList rest (some (.parsed kind)) := by
  obtain ⟨c, cs, htext, hstart⟩ := h.start
  have hstarts : starts c = true := by
    obtain ⟨c', cs', htext', hstarts⟩ := h.exists_starts
    rw [htext] at htext'
    cases htext'
    exact hstarts
  refine ⟨by rw [htext]; exact List.cons_ne_nil c cs, h.first, ?_⟩
  rw [htext]
  cases rest with
  | nil => exact stops_nil _
  | cons d rest =>
    obtain ⟨hletter, hdigit⟩ := hrest d rfl
    apply stops_cons
    · intro entry hentry hprefix
      rcases hstart with hc | ⟨-, x, hx, hxdigit⟩
      · have hhead : entry.2.toList.head?.any letter = true := by
          obtain ⟨behind, hbehind⟩ := hprefix
          rw [← hbehind]
          exact hc
        have hall := List.all_eq_true.1 (texts_letters entry hentry hhead) d
          (List.IsPrefix.subset hprefix (by simp))
        rw [hletter] at hall
        cases hall
      · have hall := List.all_eq_true.1 (texts_no_digit entry hentry) x
          (List.IsPrefix.subset hprefix (List.mem_append_left _ hx))
        rw [hxdigit] at hall
        cases hall
    · exact fun _ => hdigit
    · intro _
      rw [hletter, hdigit]
      rfl
    · rintro rfl
      exact absurd hstarts (by decide)
    · intro hblank
      rw [starts_eq_false_of_blank hblank] at hstarts
      cases hstarts

/-- An operator ends where an operand or a space follows, unless it is the sign of a number. -/
theorem operator_isNext {operator : LexerKind × String} (hoperator : operator ∈ operators)
    {d : Char} {rest : List Char} (hd : starts d = true ∨ d = ' ')
    (hsign : operator.2 = "+" ∨ operator.2 = "-" → digit d = false) :
    IsNext rules operator.2.toList (d :: rest) (some operator.1) := by
  refine ⟨operators_ne_nil operator hoperator, operators_first operator hoperator, ?_⟩
  obtain ⟨c, cs, htext⟩ := List.exists_cons_of_ne_nil (operators_ne_nil operator hoperator)
  obtain ⟨hletter, hdigit, hblank, hslash, hsigned⟩ :=
    operators_head hoperator (c := c) (by rw [htext]; rfl)
  rw [htext]
  apply stops_cons
  · intro entry hentry hprefix
    have hbehind := texts_behind_operator operator hoperator entry hentry
      (by rw [htext]; exact (List.prefix_append _ _).trans hprefix)
    obtain ⟨behind, heq⟩ := hprefix
    rw [← heq, htext, List.append_assoc, List.drop_left' rfl] at hbehind
    simp only [List.cons_append, List.head?_cons, Option.all_some, Bool.or_eq_true,
      beq_iff_eq] at hbehind
    rcases hbehind with rfl | rfl <;> exact absurd hd (by decide)
  · rintro (hc | hc)
    · exact hsign (hsigned hc)
    · rw [hdigit] at hc
      cases hc
  · intro hc
    rw [hletter] at hc
    cases hc
  · intro hc
    rw [htext] at hslash
    refine ⟨hslash hc, ?_, ?_⟩ <;> rintro rfl <;> exact absurd hd (by decide)
  · intro hc
    rw [hblank] at hc
    cases hc

/-- A space is skipped in front of what is not blank. -/
theorem space_isNext {d : Char} {rest : List Char} (hd : blank d = false) :
    IsNext rules [' '] (d :: rest) none := by
  refine ⟨List.cons_ne_nil _ _, by decide, ?_⟩
  apply stops_cons
  · have hhead : ∀ entry ∈ texts, entry.2.toList.head? ≠ some ' ' := by decide
    rintro entry hentry ⟨behind, hbehind⟩
    exact hhead entry hentry (by rw [← hbehind]; rfl)
  · intro hc
    exact absurd hc (by decide)
  · intro hc
    exact absurd hc (by decide)
  · intro hc
    exact absurd hc (by decide)
  · exact fun _ => hd

/-! ## With and without spaces -/

theorem tokens_of_lexes {words : List (LexerKind × List Char)} (h : Lexes rules text.toList words) :
    tokens text = some (words.map fun word => (word.1, String.ofList word.2)) := by
  rw [tokens, lex_iff.2 h]
  rfl

section Spacing

variable {l r : String} {kl kr : TokenKind} (hl : IsOperand kl l) (hr : IsOperand kr r)
  {operator : LexerKind × String} (hoperator : operator ∈ operators)

include hl hoperator

/-- An operand ends in front of an operator. -/
theorem operand_isNext_operator (rest : List Char) :
    IsNext rules l.toList (operator.2.toList ++ rest) (some (.parsed kl)) := by
  apply hl.isNext
  intro d hd
  obtain ⟨c, cs, htext⟩ := List.exists_cons_of_ne_nil (operators_ne_nil operator hoperator)
  obtain ⟨hletter, hdigit, -⟩ := operators_head hoperator (c := d) (by rw [htext] at hd ⊢; exact hd)
  exact ⟨hletter, hdigit⟩

include hr

theorem tokens_spaced : tokens (l ++ " " ++ operator.2 ++ " " ++ r) =
    some [(.parsed kl, l), operator, (.parsed kr, r)] := by
  obtain ⟨d, ds, hright, hd⟩ := hr.exists_starts
  obtain ⟨c, cs, htext⟩ := List.exists_cons_of_ne_nil (operators_ne_nil operator hoperator)
  have hblank : ∀ {e : Char}, starts e = true → blank e = false := by
    intro e he
    by_contra hne
    rw [starts_eq_false_of_blank ((Bool.not_eq_false _).mp hne)] at he
    cases he
  have hlexes : Lexes rules (l.toList ++ ([' '] ++ (operator.2.toList ++ ([' '] ++
      (r.toList ++ []))))) [(.parsed kl, l.toList), (operator.1, operator.2.toList),
        (.parsed kr, r.toList)] := by
    refine .token (hl.isNext ?_) (.skip ?_ (.token ?_ (.skip ?_ (.token (hr.isNext ?_) .nil))))
    · intro e he
      cases he
      decide
    · rw [htext]
      exact space_isNext (operators_head hoperator (c := c) (by rw [htext]; rfl)).2.2.1
    · exact operator_isNext hoperator (.inr rfl) fun _ => by decide
    · rw [hright]
      exact space_isNext (hblank hd)
    · intro e he
      cases he
  rw [tokens_of_lexes (by simpa [String.toList_append] using hlexes)]
  simp

theorem tokens_unspaced
    (hsign : ¬((operator.2 = "+" ∨ operator.2 = "-") ∧ ∃ d ∈ r.toList.head?, digit d = true)) :
    tokens (l ++ operator.2 ++ r) = some [(.parsed kl, l), operator, (.parsed kr, r)] := by
  obtain ⟨d, ds, hright, hd⟩ := hr.exists_starts
  have hlexes : Lexes rules (l.toList ++ (operator.2.toList ++ (r.toList ++ [])))
      [(.parsed kl, l.toList), (operator.1, operator.2.toList), (.parsed kr, r.toList)] := by
    refine .token (operand_isNext_operator hl hoperator _) (.token ?_ (.token (hr.isNext ?_) .nil))
    · rw [hright]
      apply operator_isNext hoperator (.inl hd)
      intro hplus
      by_contra hdigit
      exact hsign ⟨hplus, d, by rw [hright]; rfl, (Bool.not_eq_false _).mp hdigit⟩
    · intro e he
      cases he
  rw [tokens_of_lexes (by simpa [String.toList_append] using hlexes)]
  simp

/-- A sign and the digits behind it are one integer literal. -/
theorem tokens_signed (hplus : operator.2 = "+" ∨ operator.2 = "-") {d : Char}
    (hd : d ∈ r.toList.head?) (hdigit : digit d = true) :
    tokens (l ++ operator.2 ++ r) =
      some [(.parsed kl, l), (.parsed .integerLiteral, operator.2 ++ r)] := by
  have hdigits : digits r.toList = true := by
    obtain ⟨c, cs, hright, -⟩ := hr.start
    rw [hright] at hd
    obtain rfl : c = d := Option.some.inj hd
    cases hr with
    | integerLiteral hliteral =>
      have hnosign : sign c = false := by
        by_contra hne
        simp only [sign, Bool.not_eq_false, Bool.or_eq_true, beq_iff_eq] at hne
        rcases hne with rfl | rfl <;> exact absurd hdigit (by decide)
      rw [hright, integerLiteral, if_neg (by rw [hnosign]; exact Bool.false_ne_true)] at hliteral
      rw [hright]
      exact hliteral
    | identifier hidentifier _ =>
      rw [hright, identifier, Bool.and_eq_true] at hidentifier
      rw [digit_eq_false_of_letter hidentifier.1] at hdigit
      cases hdigit
  have hliteral : IsOperand .integerLiteral (operator.2 ++ r) := by
    apply IsOperand.integerLiteral
    rw [String.toList_append]
    rcases hplus with hop | hop <;> rw [hop] <;> exact hdigits
  have hlexes : Lexes rules (l.toList ++ ((operator.2 ++ r).toList ++ []))
      [(.parsed kl, l.toList), (.parsed .integerLiteral, (operator.2 ++ r).toList)] := by
    refine .token ?_ (.token (hliteral.isNext ?_) .nil)
    · rw [String.toList_append, List.append_assoc]
      exact operand_isNext_operator hl hoperator _
    · intro e he
      cases he
  rw [tokens_of_lexes (by simpa [String.toList_append] using hlexes)]
  simp

end Spacing

/-- The tokens are the same with and without spaces, unless a plus or a minus stands in front of a
digit. -/
theorem tokens_operator {l r : String} {kl kr : TokenKind} (hl : IsOperand kl l)
    (hr : IsOperand kr r) (operator : LexerKind × String) (hoperator : operator ∈ operators) :
    tokens (l ++ " " ++ operator.2 ++ " " ++ r) =
      some [(.parsed kl, l), operator, (.parsed kr, r)] ∧
    (tokens (l ++ operator.2 ++ r) = tokens (l ++ " " ++ operator.2 ++ " " ++ r) ↔
      ¬((operator.2 = "+" ∨ operator.2 = "-") ∧ ∃ d ∈ r.toList.head?, digit d = true)) := by
  have hspaced := tokens_spaced hl hr hoperator
  refine ⟨hspaced, ?_⟩
  rw [hspaced]
  constructor
  · rintro hsame ⟨hplus, d, hd, hdigit⟩
    rw [tokens_signed hl hr hoperator hplus hd hdigit] at hsame
    have hlength := congrArg List.length (Option.some.inj hsame)
    cases hlength
  · exact tokens_unspaced hl hr hoperator

/-- The operands `i` and `2` with a comparison and with a minus. -/
theorem tokens_operator_minus_two :
    tokens "i<2" = tokens "i < 2" ∧ tokens "i-2" ≠ tokens "i - 2" := by
  have hl : IsOperand .identifier "i" := .identifier (by decide) (by decide)
  have hr : IsOperand .integerLiteral "2" := .integerLiteral (by decide)
  constructor
  · exact (tokens_operator hl hr (.parsed .operatorLessThan, "<") (by decide)).2.2 (by decide)
  · intro hsame
    exact (tokens_operator hl hr (.parsed .operatorMinus, "-") (by decide)).2.1 hsame
      ⟨.inr rfl, '2', rfl, by decide⟩

/-- Without spaces `i-2` is a name and the literal `-2`. -/
theorem tokens_signed_minus_two : ¬ ∀ (l r : String) (kl kr : TokenKind), IsOperand kl l →
    IsOperand kr r → ∀ operator ∈ operators,
      tokens (l ++ operator.2 ++ r) = tokens (l ++ " " ++ operator.2 ++ " " ++ r) := by
  intro h
  have hsame := h "i" "2" .identifier .integerLiteral (.identifier (by decide) (by decide))
    (.integerLiteral (by decide)) (.parsed .operatorMinus, "-") (by decide)
  exact absurd hsame (by decide)

end Swy.GeneratedLexer
