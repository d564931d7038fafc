import Swy.Parse.GeneratedParser

/-!
# The meta statements of a parse tree

Where meta declarations, meta-ifs and meta calculations occur in a derived parse tree
(`nests_of_derives`). The stack of depths says what is above a context: it is empty outside of meta
declarations, and its top is `depthNone` in a meta calculation and in the condition of a meta-if.
-/

namespace Swy

open Library

/-- A context with the labels of the contexts above it is where it may be: a meta statement in one
meta declaration and in no computation, and a meta declaration in no other one. -/
structure NestsAt (above : List (ParseSymbol Rule Token)) (t : Context) : Prop where
  inMetaDecl : t.label = .rule .metaIfStmt ∨ t.label = .rule .metaCalculationStmt →
    above.count (.rule .metaDecl) = 1
  notInCalculation : t.label = .rule .metaIfStmt ∨ t.label = .rule .metaCalculationStmt →
    .rule .metaCalculationStmt ∉ above
  notInCondition : t.label = .rule .metaIfStmt ∨ t.label = .rule .metaCalculationStmt →
    .rule .metaCalculationExpr ∉ above
  notNested : t.label = .rule .metaDecl → .rule .metaDecl ∉ above

/-- The contexts above a rule agree with the depths the parser has entered. -/
structure Nested (r : Rule) (above : List (ParseSymbol Rule Token)) (p : BasicParser) : Prop where
  inMetaDecl : p.isInMetaDecl = true → above.count (.rule .metaDecl) = 1
  calculation : .rule .metaCalculationStmt ∈ above → p.metaDepthStack.head? = some .depthNone
  condition : .rule .metaCalculationExpr ∈ above → p.metaDepthStack.head? = some .depthNone
  topLevel : r = .compilationUnit ∨ r = .metaDecl → .rule .metaDecl ∉ above

namespace Nested

variable {r r' : Rule} {above : List (ParseSymbol Rule Token)} {p : BasicParser}

/-- A rule that is used by one which is no boundary. -/
theorem child (h : Nested r above p)
    (hr : r ≠ .metaDecl ∧ r ≠ .metaCalculationStmt ∧ r ≠ .metaCalculationExpr)
    (hr' : r' ≠ .compilationUnit ∧ (r' = .metaDecl → r = .compilationUnit)) :
    Nested r' (.rule r :: above) p := by
  obtain ⟨hdecl, hcalculation, hcondition⟩ := hr
  refine ⟨fun hd => ?_, fun hmem => ?_, fun hmem => ?_, fun htop => ?_⟩
  · rw [List.count_cons_of_ne fun heq => hdecl (ParseSymbol.rule.inj heq)]
    exact h.inMetaDecl hd
  · rcases List.mem_cons.1 hmem with heq | hmem
    · exact absurd (ParseSymbol.rule.inj heq).symm hcalculation
    · exact h.calculation hmem
  · rcases List.mem_cons.1 hmem with heq | hmem
    · exact absurd (ParseSymbol.rule.inj heq).symm hcondition
    · exact h.condition hmem
  · rcases htop with rfl | rfl
    · exact absurd rfl hr'.1
    · rintro hmem
      rcases List.mem_cons.1 hmem with heq | hmem
      · exact hdecl (ParseSymbol.rule.inj heq).symm
      · exact h.topLevel (.inl (hr'.2 rfl)) hmem

/-- The body of a function. In a meta declaration, functions are only allowed where nothing is
computed. -/
theorem functionBody (h : Nested .functionDecl above p) (hp : p.allowsFunctions = true) :
    Nested .statement (.rule .functionDecl :: above) p.enterFunctionBody := by
  by_cases hd : p.isInMetaDecl = true
  · have hdepth : p.metaDepthStack.head? ≠ some .depthNone := fun hnone => by
      have hglobal := BasicParser.depth_of_allowsFunctions hp hd
      rw [BasicParser.depth_of_head? hnone] at hglobal
      cases hglobal
    refine ⟨fun _ => ?_, fun hmem => ?_, fun hmem => ?_, fun htop => ?_⟩
    · rw [List.count_cons_of_ne (by decide)]
      exact h.inMetaDecl hd
    · rcases List.mem_cons.1 hmem with heq | hmem
      · cases heq
      · exact absurd (h.calculation hmem) hdepth
    · rcases List.mem_cons.1 hmem with heq | hmem
      · cases heq
      · exact absurd (h.condition hmem) hdepth
    · rcases htop with htop | htop <;> cases htop
  · have hbody : p.enterFunctionBody = p := by rw [BasicParser.enterFunctionBody, if_neg hd]
    rw [hbody]
    exact h.child (by decide) (by decide)

/-- The parameters of a meta declaration are read outside of it. -/
theorem metaDeclArguments (h : Nested .metaDecl above p) (hp : p.metaDepthStack = []) :
    Nested .argumentDeclList (.rule .metaDecl :: above) p := by
  have hd : p.isInMetaDecl = false := by rw [BasicParser.isInMetaDecl, hp]; rfl
  refine ⟨fun hin => ?_, fun hmem => ?_, fun hmem => ?_, fun htop => ?_⟩
  · rw [hd] at hin
    cases hin
  · rcases List.mem_cons.1 hmem with heq | hmem
    · cases heq
    · exact h.calculation hmem
  · rcases List.mem_cons.1 hmem with heq | hmem
    · cases heq
    · exact h.condition hmem
  · rcases htop with htop | htop <;> cases htop

/-- The contribution of a meta declaration, above which there is no other one. -/
theorem metaDeclContribution (h : Nested .metaDecl above p) (hp : p.metaDepthStack = []) :
    Nested .metaContribution (.rule .metaDecl :: above) p.enterMetaDecl := by
  have hhead : p.metaDepthStack.head? ≠ some .depthNone := by
    rw [hp]
    decide
  refine ⟨fun _ => ?_, fun hmem => ?_, fun hmem => ?_, fun htop => ?_⟩
  · rw [List.count_cons_self, List.count_eq_zero_of_not_mem (h.topLevel (.inr rfl))]
  · rcases List.mem_cons.1 hmem with heq | hmem
    · cases heq
    · exact absurd (h.calculation hmem) hhead
  · rcases List.mem_cons.1 hmem with heq | hmem
    · cases heq
    · exact absurd (h.condition hmem) hhead
  · rcases htop with htop | htop <;> cases htop

/-- Below a computation. -/
theorem depthNone (h : Nested r above p) (hp : p.depth.allowsMeta = true)
    (hr : r ≠ .metaDecl) (hr' : r' ≠ .compilationUnit ∧ r' ≠ .metaDecl) :
    Nested r' (.rule r :: above) (p.enterDepth .depthNone) := by
  refine ⟨fun _ => ?_, fun _ => rfl, fun _ => rfl, fun htop => ?_⟩
  · rw [List.count_cons_of_ne fun heq => hr (ParseSymbol.rule.inj heq)]
    exact h.inMetaDecl (BasicParser.isInMetaDecl_of_allowsMeta hp)
  · exact htop.elim (fun htop => absurd htop hr'.1) fun htop => absurd htop hr'.2

/-- What is allowed to contain meta statements is not in a computation. -/
theorem nests (h : Nested r above p) (hp : p.admits r = true) (cs : List Context) :
    NestsAt above (.node (.rule r) cs) := by
  have allows : r = .metaIfStmt ∨ r = .metaCalculationStmt → p.depth.allowsMeta = true := by
    rintro (rfl | rfl) <;> exact hp
  have label : ∀ r', (.rule r : ParseSymbol Rule Token) = .rule r' → r = r' :=
    fun _ heq => ParseSymbol.rule.inj heq
  have notNone : r = .metaIfStmt ∨ r = .metaCalculationStmt →
      p.metaDepthStack.head? ≠ some .depthNone := fun hr hnone => by
    have hallows := allows hr
    rw [BasicParser.depth_of_head? hnone] at hallows
    cases hallows
  refine ⟨fun hl => ?_, fun hl hmem => ?_, fun hl hmem => ?_, fun hl => ?_⟩
  · exact h.inMetaDecl
      (BasicParser.isInMetaDecl_of_allowsMeta (allows (hl.imp (label _) (label _))))
  · exact notNone (hl.imp (label _) (label _)) (h.calculation hmem)
  · exact notNone (hl.imp (label _) (label _)) (h.condition hmem)
  · exact h.topLevel (.inr (label _ hl))

end Nested

namespace GeneratedParser

open BasicParser

/-- What the contexts above a context of the rule say of the rules it uses. -/
def nestingContract (r : Rule) (above : List (ParseSymbol Rule Token)) :
    Contract Rule BasicParser where
  pre r' p := Nested r' (.rule r :: above) p
  post _ p p' := p' = p

section Contract

open Contract Ebnf

variable {r : Rule} {above : List (ParseSymbol Rule Token)} {p : BasicParser}

theorem ensures_nested {r' : Rule} {K : BasicParser → Prop} (h : Nested r' (.rule r :: above) p)
    (hK : K p) : (nestingContract r above).Ensures (T := TokenKind) (.rule r') p K :=
  ⟨h, fun _ hp => hp ▸ hK⟩

/-- The contexts of the rules agree with the depths where they are used. -/
theorem nestingContract_ensures (h : Nested r above p) (hp : p.admits r = true) :
    (nestingContract r above).Ensures (grammar.production r) p fun _ => True := by
  have call : ∀ {r' : Rule} {K : BasicParser → Prop},
      r ≠ .metaDecl ∧ r ≠ .metaCalculationStmt ∧ r ≠ .metaCalculationExpr →
      r' ≠ .compilationUnit ∧ (r' = .metaDecl → r = .compilationUnit) → K p →
      (nestingContract r above).Ensures (T := TokenKind) (.rule r') p K :=
    fun hr hr' hK => ensures_nested (h.child hr hr') hK
  cases r with
  | compilationUnit =>
    exact ensures_star ⟨call (by decide) (by decide) rfl, call (by decide) (by decide) rfl⟩ trivial
  | metaContribution => exact ensures_star (call (by decide) (by decide) rfl) trivial
  | basicCompoundStmt => exact ensures_star (call (by decide) (by decide) rfl) trivial
  | argumentDeclList =>
    exact ⟨call (by decide) (by decide)
      (ensures_star (call (by decide) (by decide) rfl) trivial), trivial⟩
  | exprList =>
    exact ⟨call (by decide) (by decide)
      (ensures_star (call (by decide) (by decide) rfl) trivial), trivial⟩
  | functionDecl =>
    exact call (by decide) (by decide) (call (by decide) (by decide)
      (ensures_nested (h.functionBody hp) trivial))
  | metaDecl =>
    have hempty : p.metaDepthStack = [] := List.isEmpty_iff.1 hp
    exact ensures_nested (h.metaDeclArguments hempty)
      (ensures_nested (h.metaDeclContribution hempty) trivial)
  | metaScopeNode =>
    simp only [grammar, production, seqs, Ensures, isInMetaDepth_of_allowsMeta hp]
    exact ⟨fun _ => call (by decide) (by decide) trivial,
      fun _ => call (by decide) (by decide) trivial⟩
  | metaCalculationStmt =>
    exact ensures_nested (h.depthNone hp (by decide) (by decide)) trivial
  | metaCalculationExpr =>
    exact ensures_nested (h.depthNone hp (by decide) (by decide)) trivial
  | statement =>
    simp only [grammar, production, seqs, oneOf, Ensures, allowsMetaStmt_eq]
    exact ⟨call (by decide) (by decide) trivial, call (by decide) (by decide) trivial,
      call (by decide) (by decide) trivial, call (by decide) (by decide) trivial,
      call (by decide) (by decide) trivial, fun _ => call (by decide) (by decide) trivial⟩
  | _ =>
    -- the other rules neither enter a depth nor repeat anything
    simp [grammar, production, seqs, opt, oneOf, Ensures, nestingContract, h.child]

end Contract

/-- Everywhere in a derived context, meta statements and meta declarations are where they may be. -/
theorem nests_of_derives {r : Rule} {p p' : BasicParser} {t : Context}
    (h : Derives grammar (.rule r) p [t] p') (hp : p.admits r = true)
    {above : List (ParseSymbol Rule Token)} (hnested : Nested r above p) :
    ∀ x ∈ t.occurrences above, NestsAt x.1 x.2 := by
  refine (h.rule_induction_rule (Q := fun r p t _ => ∀ above, Nested r above p →
    ∀ x ∈ t.occurrences above, NestsAt x.1 x.2) depthContract_keeps ?_ hp).2 above hnested
  intro r p cs p' hadmits _ hm above hnested x hx
  rcases Rose.mem_occurrences_node.1 hx with rfl | ⟨c, hc, hx⟩
  · exact hnested.nests hadmits cs
  · have hcalls := hm.ensures (c := nestingContract r above) (fun _ _ _ _ hq => hq.2.1)
      (nestingContract_ensures hnested hadmits)
    rcases hcalls.2.mem c hc with ⟨l, rfl⟩ | ⟨r', q, q', hchild, _, _, hq⟩
    · rcases Rose.mem_occurrences_node.1 hx with rfl | ⟨d, hd, _⟩
      · constructor <;> rintro (hl | hl) <;> cases hl
      · exact absurd hd List.not_mem_nil
    · exact hq _ hchild x hx

/-- In the parse tree of a source, every meta-if and every meta calculation is inside of exactly one
meta declaration and of no meta calculation or condition of a meta-if, and meta declarations are not
nested. -/
theorem nests_of_source {t : Context} {p : BasicParser}
    (h : Derives grammar (.rule .compilationUnit) .start [t] p) :
    ∀ x ∈ t.occurrences [], NestsAt x.1 x.2 := by
  refine nests_of_derives h rfl ⟨fun hin => ?_, fun hmem => ?_, fun hmem => ?_, fun _ => ?_⟩
  · cases hin
  · exact absurd hmem List.not_mem_nil
  · exact absurd hmem List.not_mem_nil
  · exact List.not_mem_nil

end GeneratedParser

end Swy
