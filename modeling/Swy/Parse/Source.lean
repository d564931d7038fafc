import Swy.Parse.SourceShape
import Swy.Parse.LayoutGrammar

/-!
# From the source to the AST

The reader accepts the layout of every program that was parsed and visited without diagnostics, and
the AST is the forest that the parse tree stands for (`consume_source`). The trees of programs that
other modules start from are the ones that are read here (`exists_program`).
-/

namespace Swy

open Library Context LocalScopeVisitor

/-! ## The layout of the source -/

/-- Each rule context of a parse tree stands for as many nodes as its rule has, of its kinds. -/
def YieldsNodes (t : Context) : Prop :=
  ∀ u ∈ t.subtrees, ∀ (r : Rule) (context : List Context), u = .node (.rule r) context →
    r.yields ((nodesOf u).map kindOf) = true

/-- What is shown of a context that is visited without diagnostics. -/
structure Silent (r : Rule) (p : BasicParser) (t : Context) : Prop where
  visited : Visited r t
  shape : diagnosticsOf t = [] → Shape p r (nodesOf t) ∧ YieldsNodes t

open GeneratedParser in
theorem silent_of_derives {r : Rule} {p p' : BasicParser} {t : Context}
    (h : Derives grammar (.rule r) p [t] p') (hp : p.admits r = true) : Silent r p t := by
  refine (h.rule_induction_rule (Q := fun r p t _ => Silent r p t) depthContract_keeps ?_ hp).2
  intro r p cs p' hadmits _ hm
  refine ⟨visited_of_matches (hm.mono fun _ _ _ _ _ hv => hv.2.2.visited), fun hd => ?_⟩
  rw [diagnosticsOf_rule, List.append_eq_nil_iff, List.flatMap_eq_nil_iff] at hd
  obtain ⟨hreports, hcs⟩ := hd
  have hjudged : MatchesRule r p cs p' := hm.mono fun r p t p' ht ⟨_, hstate, hs⟩ =>
    ⟨hstate.symm, hs.visited, (hs.shape (hcs t ht)).1⟩
  have hshape : Shape p r (nodesOf (.node (.rule r) cs)) := by
    rw [nodesOf_rule]
    exact shaped hjudged hadmits hreports
  refine ⟨hshape, fun u hu r' context hrule => ?_⟩
  rcases Rose.mem_subtrees_node.1 hu with rfl | ⟨c, hc, hin⟩
  · cases hrule
    exact hshape.yields
  · rcases hm.mem c hc with ⟨l, rfl⟩ | ⟨_, _, _, _, _, hs⟩
    · rcases Rose.mem_subtrees_node.1 hin with rfl | ⟨c, hc, _⟩
      · cases hrule
      · exact absurd hc List.not_mem_nil
    · exact (hs.shape (hcs c hc)).2 u hin r' context hrule

/-- The layout of a source that was parsed and visited without diagnostics is the encoding of a
program, with the nodes that the parse tree stands for. -/
theorem exists_program {t : Context} {p : BasicParser}
    (h : Derives GeneratedParser.grammar (.rule .compilationUnit) .start [t] p)
    (hd : diagnosticsOf t = []) :
    ∃ T : Tree, T.IsProgram ∧ T.encode = number 0 (encodeData (nodesOf t)) ∧
      nodesOf t = [T.map Node.data] := by
  obtain ⟨u, hu, hk, hw, htop⟩ := ((silent_of_derives h rfl).shape hd).1.one rfl
  obtain ⟨Ts, hencode, hdata⟩ := exists_encodeAll_number 0 (nodesOf t)
  rw [hu] at hdata
  obtain ⟨T, rfl, hT⟩ := List.map_eq_singleton_iff.1 hdata
  have hdistinct := nodup_ids_of_number hencode
  rw [List.flatMap_singleton] at hdistinct
  rw [Tree.encodeAll_cons, Tree.encodeAll_nil, List.append_nil] at hencode
  rw [← hT] at hk hw htop
  have hkind : Tree.kind T = .compilationUnit := by
    rw [kindOf, Rose.label_map] at hk
    exact eq_of_beq hk
  refine ⟨T, ⟨hkind, (Tree.wellShaped_ofData T).1 hw, fun c hc => ?_, hdistinct⟩, hencode,
    by rw [hu, hT]⟩
  rw [← Tree.derivedTopLevel_ofData]
  have hchildren : (Tree.ofData (T.map Node.data)).children =
      T.children.map fun c => Tree.ofData (c.map Node.data) := by
    obtain ⟨n, cs⟩ := T
    rw [Rose.map_node, Tree.ofData_node, Rose.children_node, Rose.children_node, List.map_map]
    rfl
  rw [Rule.derivedAt, hchildren, List.all_map, List.all_eq_true] at htop
  exact htop c hc

/-- The source is read faithfully: for every parse tree that the grammar derives from a compilation
unit the visitor finds all terminals it needs, and if it reports nothing, the reader accepts the
layout it wrote and stops at its end, and the AST has the nodes that the parse tree stands for, with
the nesting and in the order of the parse tree. There every context stands for as many nodes as its
rule has, of its kinds. -/
theorem consume_source (similarTo : ScopeChain → Identifier → Option Node) {t : Context}
    {p : BasicParser} (h : Derives GeneratedParser.grammar (.rule .compilationUnit) .start [t] p) :
    ∃ v, visit t .start = some v ∧
      (v.diagnostics = [] → YieldsNodes t ∧ ∃ a s,
        ASTLayoutReader.consume similarTo (.kind .compilationUnit) ⟨v.layout, .start .empty⟩ =
          .ok (a, s) ∧ s.rest = [] ∧ nodesOf t = [a.shape.map Node.data]) := by
  refine ⟨_, visit_derived h rfl .start, fun hd => ?_⟩
  have hsilent : diagnosticsOf t = [] := hd
  obtain ⟨T, hprogram, hencode, hnodes⟩ := exists_program h hsilent
  refine ⟨((silent_of_derives h rfl).shape hsilent).2, ?_⟩
  have hreads : (ASTLayoutReader.Production.kind .compilationUnit).Reads T :=
    ⟨hprogram.wellShaped, .inl hprogram.kind.symm⟩
  have hconsume := ASTLayoutReader.consume_complete similarTo hreads [] (.start .empty)
  have hlayout : (LocalScopeVisitor.start.write (nodesOf t) (diagnosticsOf t)).layout =
      T.encode ++ [] := by
    rw [List.append_nil, hencode]
    rfl
  refine ⟨_, _, by rw [hlayout]; exact hconsume, rfl, ?_⟩
  rw [ASTLayoutReader.readTree_shape T hprogram.wellShaped, hnodes]

/-- `f() -> return -7;` -/
def returnMinusSeven : Context :=
  .node (.rule .compilationUnit)
    [.node (.rule .runtimeGlobalScopeNode)
      [.node (.rule .functionDecl)
        [.node (.token ⟨.identifier, "f"⟩) [], .node (.token ⟨.openPar, "("⟩) [],
          .node (.rule .argumentDeclList) [], .node (.token ⟨.closePar, ")"⟩) [],
          .node (.rule .returnDecl) [], .node (.token ⟨.arrow, "->"⟩) [],
          .node (.rule .statement)
            [.node (.rule .returnStmt)
              [.node (.token ⟨.return_, "return"⟩) [],
                .node (.rule .expr)
                  [.node (.rule .integerLiteralExpr)
                    [.node (.token ⟨.integerLiteral, "-7"⟩) []]],
                .node (.token ⟨.semicolon, ";"⟩) []]]]],
      .node (.token ⟨.eof, "<EOF>"⟩) []]

theorem derives_returnMinusSeven :
    Derives GeneratedParser.grammar (.rule .compilationUnit) .start [returnMinusSeven] .start := by
  have token : ∀ (l : Token) {p : BasicParser},
      Derives GeneratedParser.grammar (.token l.kind) p [.node (.token l) []] p :=
    fun _ _ => .token
  have literal : Derives GeneratedParser.grammar (.rule .expr) .start _ .start :=
    .rule (.right (.right (.right (.right (.left (.rule (token ⟨.integerLiteral, "-7"⟩)))))))
  have body : Derives GeneratedParser.grammar (.rule .statement) .start _ .start :=
    .rule (.right (.right (.left (.rule (.seq (token ⟨.return_, "return"⟩)
      (.seq (.left literal) (.seq (token ⟨.semicolon, ";"⟩) .empty)))))))
  have function : Derives GeneratedParser.grammar (.rule .functionDecl) .start _ .start :=
    .rule (.seq (token ⟨.identifier, "f"⟩) (.seq (token ⟨.openPar, "("⟩)
      (.seq (.rule (.right .empty)) (.seq (token ⟨.closePar, ")"⟩)
        (.seq (.rule (.right .empty)) (.seq (token ⟨.arrow, "->"⟩)
          (.seq .action (.seq body (.seq .action .empty)))))))))
  exact .rule (.seq (.again (.left (.rule (.left function))) .stop)
    (.seq (token ⟨.eof, "<EOF>"⟩) .empty))

/-- The function becomes a declaration with an empty list of arguments and a return statement. -/
theorem consume_source_returnMinusSeven :
    ∃ v, visit returnMinusSeven .start = some v ∧ v.diagnostics = [] ∧
      YieldsNodes returnMinusSeven ∧ ∃ a s,
        ASTLayoutReader.consume (fun _ _ => none) (.kind .compilationUnit)
          ⟨v.layout, .start .empty⟩ = .ok (a, s) ∧ s.rest = [] ∧
        [.node .compilationUnit [.node (.functionDecl "f") [.node .argumentDeclList [],
          .node .returnStmt [.node (.integerLiteralExpr (BitVec.ofInt 32 (-7))) []]]]] =
          [a.shape.map Node.data] := by
  obtain ⟨v, hv, hread⟩ := consume_source (fun _ _ => none) derives_returnMinusSeven
  have hdiagnostics : (visit returnMinusSeven .start).map (·.diagnostics) = some [] := by decide
  rw [hv] at hdiagnostics
  have hd : v.diagnostics = [] := Option.some.inj hdiagnostics
  obtain ⟨hyields, a, s, hconsume, hrest, hnodes⟩ := hread hd
  exact ⟨v, hv, hd, hyields, a, s, hconsume, hrest, hnodes⟩

end Swy
