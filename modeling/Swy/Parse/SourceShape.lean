import Swy.Parse.SourceTree
import Swy.Parse.Grammar

/-!
# The form of the source

The forest that a derived parse tree stands for has the form that the reader's productions read:
each rule has a fixed number of nodes of fixed kinds (`Rule.yields`), and their children are those
of the node's kind (`Shape`). `shaped` says so for each rule, from what its contexts stand for.
-/

namespace Swy

open Library Context LocalScopeVisitor

/-! ## Trees with other addresses -/

namespace Tree

theorem derivedAll_map {f : Node → Node} {depth : MetaDepth} {cs : List Tree}
    (h : ∀ c ∈ cs, derived depth (c.map f) = derived depth c) :
    derivedAll depth (cs.map (Rose.map f)) = derivedAll depth cs := by
  induction cs with
  | nil => rfl
  | cons c cs ih =>
    rw [List.map_cons, derivedAll, derivedAll, h c List.mem_cons_self,
      ih fun d hd => h d (List.mem_cons_of_mem _ hd)]

section Relabel

variable {f : Node → Node} (hf : ∀ n, (f n).kind = n.kind)
include hf

theorem kind_map (t : Tree) : kind (t.map f) = t.kind := by
  rw [kind, Rose.label_map, hf]
  rfl

theorem map_kind_map (cs : List Tree) : (cs.map (Rose.map f)).map kind = cs.map kind := by
  rw [List.map_map]
  exact List.map_congr_left fun c _ => kind_map hf c

theorem wellShaped_map (t : Tree) : WellShaped (t.map f) ↔ t.WellShaped := by
  induction t using Rose.ind with
  | h n cs ih =>
    rw [Rose.map_node, wellShaped_node, wellShaped_node, hf, map_kind_map hf]
    refine and_congr_right fun _ => ⟨fun h c hc => ?_, fun h c hc => ?_⟩
    · exact (ih c hc).1 (h _ (List.mem_map_of_mem hc))
    · obtain ⟨d, hd, rfl⟩ := List.mem_map.1 hc
      exact (ih d hd).2 (h d hd)

theorem all_map (cs : List Tree) (accepts : ASTKind → Bool) :
    (cs.map (Rose.map f)).all (fun c => accepts (kind c)) = cs.all fun c => accepts c.kind := by
  rw [List.all_map]
  exact congrArg cs.all (funext fun c => congrArg accepts (kind_map hf c))

theorem derived_map (t : Tree) (depth : MetaDepth) :
    derived depth (t.map f) = t.derived depth := by
  induction t using Rose.ind generalizing depth with
  | h n cs ih =>
    have hall : ∀ depth, derivedAll depth (cs.map (Rose.map f)) = derivedAll depth cs :=
      fun depth => derivedAll_map fun c hc => ih c hc depth
    have hkinds := all_map hf cs
    rw [Rose.map_node]
    unfold derived
    rw [hf]
    cases hk : n.kind with
    | functionDecl => simp only [hall, hkinds (fun k => k != .unscopedCompoundStmt)]
    | metaContribution => simp only [hall, hkinds (fun k => depth.isMetaScopeNode k)]
    | metaIfStmt =>
      cases cs with
      | nil => rfl
      | cons expression branches =>
        have hbranches : derivedAll depth (branches.map (Rose.map f)) = derivedAll depth branches :=
          derivedAll_map fun c hc => ih c (List.mem_cons_of_mem _ hc) depth
        simp only [List.map_cons, ih expression List.mem_cons_self, hbranches]
    | metaCalculationStmt => simp only [hall, hkinds (fun k => k == .unscopedCompoundStmt)]
    | unscopedCompoundStmt | compoundStmt => simp only [hall, hkinds MetaDepth.isStatement]
    | ifStmt =>
      have htail := all_map hf cs.tail (fun k => k == .compoundStmt)
      rw [← List.map_tail]
      simp only [hall, htail]
    | callOperatorExpr =>
      cases cs with
      | nil => rfl
      | cons c cs =>
        simp only [List.map_cons, List.head?_cons, Option.all_some, kind_map hf c]
        exact congrArg _ (hall depth)
    | _ => simp only [hall]

theorem derivedTopLevel_map (t : Tree) : derivedTopLevel (t.map f) = t.derivedTopLevel := by
  obtain ⟨n, cs⟩ := t
  have hall : ∀ depth, derivedAll depth (cs.map (Rose.map f)) = derivedAll depth cs :=
    fun depth => derivedAll_map fun c _ => derived_map hf c depth
  have hkinds := all_map hf cs (fun k => k != .unscopedCompoundStmt)
  simp only [derivedTopLevel, Rose.map_node, hf]
  cases hk : n.kind with
  | functionDecl => simp only [hall, hkinds]
  | metaDecl =>
    rcases cs with _ | ⟨args, _ | ⟨contribution, _ | ⟨c, cs⟩⟩⟩
    · rfl
    · rfl
    · simp only [List.map_cons, List.map_nil, derived_map hf]
    · rfl
  | _ => rfl

end Relabel

/-- A tree with the given fields. What is said of the form of trees does not depend on the
addresses of their nodes. -/
def ofData (t : Rose NodeData) : Tree := t.map (Node.mk 0)

@[simp] theorem ofData_node (data : NodeData) (ts : List (Rose NodeData)) :
    ofData (.node data ts) = .node ⟨0, data⟩ (ts.map ofData) := Rose.map_node _ _ _

theorem ofData_map_data (t : Tree) : ofData (t.map Node.data) = t.map fun n => ⟨0, n.data⟩ := by
  induction t using Rose.ind with
  | h n cs ih =>
    rw [Rose.map_node, ofData_node, Rose.map_node, List.map_map]
    exact congrArg _ (List.map_congr_left ih)

theorem wellShaped_ofData (t : Tree) : (ofData (t.map Node.data)).WellShaped ↔ t.WellShaped := by
  rw [ofData_map_data]
  exact wellShaped_map (f := fun n => ⟨0, n.data⟩) (fun _ => rfl) t

theorem derivedTopLevel_ofData (t : Tree) :
    (ofData (t.map Node.data)).derivedTopLevel = t.derivedTopLevel := by
  rw [ofData_map_data]
  exact derivedTopLevel_map (f := fun n => ⟨0, n.data⟩) (fun _ => rfl) t

end Tree

/-! ## The form of what a rule stands for -/

/-- How many nodes the contexts of a rule stand for. -/
inductive Arity where
  | none | one | optional | many
deriving DecidableEq, Repr

namespace Rule

/-- How many nodes a context of the rule stands for. -/
def arity : Rule → Arity
  | argumentType | argumentName | varDecl | varDeclType | varDeclName | binaryOperator => .none
  | returnDecl => .optional
  | basicCompoundStmt | exprList => .many
  | _ => .one

/-- The kinds of the nodes that a context of the rule stands for. -/
def accepts : Rule → ASTKind → Bool
  | compilationUnit, k => k == .compilationUnit
  | runtimeGlobalScopeNode, k => MetaDepth.depthGlobalScope.isMetaScopeNode k
  | functionDecl, k => k == .functionDecl
  | metaDecl, k => k == .metaDecl
  | metaContribution, k | metaElseStmt, k => k == .metaContribution
  | metaScopeNode, k => k == .functionDecl || MetaDepth.isStatement k
  | metaStmt, k => k == .metaCalculationStmt || k == .metaIfStmt
  | metaCalculationStmt, k => k == .metaCalculationStmt
  | metaIfStmt, k => k == .metaIfStmt
  | returnDecl, k | argumentDecl, k => k.isArgumentDecl
  | argumentDeclList, k => k == .argumentDeclList
  | statement, k | basicCompoundStmt, k => MetaDepth.isStatement k
  | compoundStmt, k | elseStmt, k => k == .compoundStmt
  | unscopedCompoundStmt, k => k == .unscopedCompoundStmt
  | declStmt, k => k == .declStmt
  | exprStmt, k => k == .expressionStmt
  | returnStmt, k => k == .returnStmt
  | ifStmt, k => k == .ifStmt
  | metaCalculationExpr, k | expr, k | exprList, k => k.isExprNode
  | unaryExpr, k | enclosingExpr, k | callOperatorExpr, k => k == .callOperatorExpr
  | integerLiteralExpr, k => k == .integerLiteralExpr
  | booleanLiteralExpr, k => k == .booleanLiteralExpr
  | declRefExpr, k => k == .declRefExpr
  | metaInstantiationExpr, k => k == .metaInstantiationExpr
  | argumentType, _ | argumentName, _ | varDecl, _ | varDeclType, _ | varDeclName, _
  | binaryOperator, _ => false

/-- As many nodes as a context of the rule stands for, of its kinds. -/
def yields (r : Rule) (ks : List ASTKind) : Bool :=
  (match r.arity with
    | .none => ks.length == 0
    | .one => ks.length == 1
    | .optional => decide (ks.length ≤ 1)
    | .many => true) && ks.all r.accepts

/-- The node is derived where the parser was in the given state. -/
def derivedAt (p : BasicParser) : Rule → Tree → Bool
  | compilationUnit, t => t.children.all Tree.derivedTopLevel
  | metaDecl, t => t.derivedTopLevel
  | runtimeGlobalScopeNode, t | functionDecl, t =>
    if p.isInMetaDecl then t.derived p.depth else t.derivedTopLevel
  | metaScopeNode, t => p.depth.isMetaScopeNode t.kind && t.derived p.depth
  | metaCalculationExpr, t => t.derived .depthNone
  | _, t => t.derived p.depth

end Rule

/-- The kind of the root. -/
def kindOf (t : Rose NodeData) : ASTKind := t.label.kind

@[simp] theorem kindOf_node (data : NodeData) (ts : List (Rose NodeData)) :
    kindOf (.node data ts) = data.kind := rfl

@[simp] theorem kind_ofData (t : Rose NodeData) : (Tree.ofData t).kind = kindOf t := by
  rw [Tree.kind, Tree.ofData, Rose.label_map]
  rfl

/-- A node of a rule: its kind, its form, and where it is derived. -/
structure ShapedNode (p : BasicParser) (r : Rule) (t : Rose NodeData) : Prop where
  accepts : r.accepts (kindOf t) = true
  wellShaped : (Tree.ofData t).WellShaped
  derived : r.derivedAt p (Tree.ofData t) = true

/-- The forest that a context of the rule stands for, in the given state of the parser. -/
structure Shape (p : BasicParser) (r : Rule) (ts : List (Rose NodeData)) : Prop where
  yields : r.yields (ts.map kindOf) = true
  nodes : ∀ t ∈ ts, ShapedNode p r t

namespace Shape

variable {p p' : BasicParser} {r r' : Rule} {ts : List (Rose NodeData)} {t : Rose NodeData}
  {data : NodeData}

theorem one (h : Shape p r ts) (hr : r.arity = .one) : ∃ t, ts = [t] ∧ ShapedNode p r t := by
  have hy := h.yields
  rw [Rule.yields, hr, Bool.and_eq_true, beq_iff_eq, List.length_map] at hy
  obtain ⟨t, rfl⟩ := List.length_eq_one_iff.1 hy.1
  exact ⟨t, rfl, h.nodes t List.mem_cons_self⟩

theorem none (h : Shape p r ts) (hr : r.arity = .none) : ts = [] := by
  have hy := h.yields
  rw [Rule.yields, hr, Bool.and_eq_true, beq_iff_eq, List.length_map] at hy
  exact List.length_eq_zero_iff.1 hy.1

theorem optional (h : Shape p r ts) (hr : r.arity = .optional) :
    ts = [] ∨ ∃ t, ts = [t] ∧ ShapedNode p r t := by
  have hy := h.yields
  rw [Rule.yields, hr, Bool.and_eq_true, decide_eq_true_eq, List.length_map] at hy
  rcases ts with _ | ⟨t, _ | ⟨u, ts⟩⟩
  · exact .inl rfl
  · exact .inr ⟨t, rfl, h.nodes t List.mem_cons_self⟩
  · exact absurd hy.1 (by simp)

theorem of_node (h : ShapedNode p r t) (hr : r.arity = .one ∨ r.arity = .optional) :
    Shape p r [t] := by
  refine ⟨?_, fun u hu => List.mem_singleton.1 hu ▸ h⟩
  have ha := h.accepts
  rcases hr with hr | hr <;> simp [Rule.yields, hr, ha]

theorem of_nil (hr : r.arity ≠ .one) : Shape p r [] := by
  refine ⟨?_, fun u hu => absurd hu List.not_mem_nil⟩
  cases h : r.arity <;> simp_all [Rule.yields]

theorem of_many (h : ∀ t ∈ ts, ShapedNode p r t) (hr : r.arity = .many) : Shape p r ts := by
  refine ⟨?_, h⟩
  have ha : (ts.map kindOf).all r.accepts = true := by
    rw [List.all_map, List.all_eq_true]
    exact fun t ht => (h t ht).accepts
  rw [Rule.yields, hr, ha]
  rfl

/-- A context that stands for what one context in it stands for. -/
theorem forward (h : Shape p' r' ts) (hr' : r'.arity = .one) (hr : r.arity = .one)
    (hn : ∀ t, ShapedNode p' r' t → ShapedNode p r t) : Shape p r ts := by
  obtain ⟨t, rfl, ht⟩ := h.one hr'
  exact of_node (hn t ht) (.inl hr)

end Shape

/-- The children of a node that a rule stands for. -/
theorem ShapedNode.node {p : BasicParser} {r : Rule} {data : NodeData} {ts : List (Rose NodeData)}
    (hk : r.accepts data.kind = true) (hfit : data.kind.fits (ts.map kindOf) = true)
    (hs : ∀ t ∈ ts, (Tree.ofData t).WellShaped)
    (hd : r.derivedAt p (.node ⟨0, data⟩ (ts.map Tree.ofData)) = true) :
    ShapedNode p r (.node data ts) := by
  refine ⟨hk, ?_, by rwa [Tree.ofData_node]⟩
  rw [Tree.ofData_node, Tree.wellShaped_node, List.map_map]
  have hkinds : ts.map (Tree.kind ∘ Tree.ofData) = ts.map kindOf :=
    List.map_congr_left fun t _ => kind_ofData t
  rw [hkinds]
  refine ⟨hfit, fun c hc => ?_⟩
  obtain ⟨t, ht, rfl⟩ := List.mem_map.1 hc
  exact hs t ht

theorem derivedAll_ofData {depth : MetaDepth} {ts : List (Rose NodeData)}
    (h : ∀ t ∈ ts, (Tree.ofData t).derived depth = true) :
    Tree.derivedAll depth (ts.map Tree.ofData) = true := by
  rw [Tree.derivedAll_iff]
  intro c hc
  obtain ⟨t, ht, rfl⟩ := List.mem_map.1 hc
  exact h t ht

/-- What is shown of a context by induction on its derivation. -/
structure Judged (r : Rule) (p : BasicParser) (t : Context) (p' : BasicParser) : Prop where
  state : p = p'
  visited : Visited r t
  shape : Shape p r (nodesOf t)

section Rules

open GeneratedParser Ebnf

variable {p p' : BasicParser} {cs : List Context}

/-- The contexts of the rule match its production. -/
def MatchesRule (r : Rule) (p : BasicParser) (cs : List Context) (p' : BasicParser) : Prop :=
  Matches grammar.kind Judged (grammar.production r) p cs p'

/-- What a context stands for has the form of its rule. -/
def ShapedContext (r : Rule) (p : BasicParser) (cs : List Context) : Prop :=
  Shape p r (plant (nodeOf r cs) (cs.flatMap nodesOf))

/-! ### Repetitions -/

/-- The nodes of a repetition, if the parser is left as it is and each part has such nodes. -/
theorem nodes_of_iterates {M : BasicParser → List Context → BasicParser → Prop}
    {P : Rose NodeData → Prop} (h : Iterates M p cs p')
    (step : ∀ cs p', M p cs p' → p = p' ∧ ∀ t ∈ cs.flatMap nodesOf, P t) :
    p = p' ∧ ∀ t ∈ cs.flatMap nodesOf, P t := by
  have hall := h.all (I := (p = ·)) (P := fun c => ∀ t ∈ nodesOf c, P t) rfl
    fun q ds q' hq hm => by
      subst hq
      obtain ⟨hstate, hnodes⟩ := step ds q' hm
      exact ⟨hstate, fun c hc t ht => hnodes t (List.mem_flatMap.2 ⟨c, hc, ht⟩)⟩
  refine ⟨hall.1, fun t ht => ?_⟩
  obtain ⟨c, hc, ht⟩ := List.mem_flatMap.1 ht
  exact hall.2 c hc t ht

theorem nodes_of_rules {r : Rule} (h : Iterates (Matches grammar.kind Judged (.rule r)) p cs p') :
    p = p' ∧ ∀ t ∈ cs.flatMap nodesOf, ShapedNode p r t := by
  refine nodes_of_iterates h fun cs p' hm => ?_
  obtain ⟨c, rfl, rfl, _, hc⟩ := hm
  refine ⟨rfl, ?_⟩
  rw [List.flatMap_singleton]
  exact hc.nodes

theorem nodes_of_commas {r : Rule}
    (h : Iterates (Matches grammar.kind Judged (.seq (.token .comma) (.seq (.rule r) .empty)))
      p cs p') : p = p' ∧ ∀ t ∈ cs.flatMap nodesOf, ShapedNode p r t := by
  refine nodes_of_iterates h fun cs p' hm => ?_
  simp only [matches_seq_token, matches_seq_rule, matches_empty] at hm
  obtain ⟨l, _, rfl, _, c, _, _, rfl, ⟨rfl, _, hc⟩, rfl, rfl⟩ := hm
  refine ⟨rfl, ?_⟩
  rw [List.flatMap_cons, nodesOf_token, List.nil_append, List.flatMap_singleton]
  exact hc.nodes

/-- A list with commas in between, which may be empty. -/
theorem nodes_of_list {r : Rule}
    (h : Matches grammar.kind Judged
      (opt (seqs [.rule r, .star (seqs [.token .comma, .rule r])])) p cs p') :
    ∀ t ∈ cs.flatMap nodesOf, ShapedNode p r t := by
  simp only [matches_opt, seqs, matches_seq_rule, matches_seq_empty] at h
  rcases h with ⟨c, ds, _, rfl, ⟨rfl, _, hc⟩, hds⟩ | ⟨rfl, rfl⟩
  · obtain ⟨_, hds⟩ := nodes_of_commas hds
    intro t ht
    rw [List.flatMap_cons, List.mem_append] at ht
    exact ht.elim (hc.nodes t) (hds t)
  · exact fun t ht => absurd ht List.not_mem_nil

/-! ### Expressions -/

theorem shaped_expr (h : MatchesRule .expr p cs p') : ShapedContext .expr p cs := by
  simp only [MatchesRule, grammar, production, seqs, oneOf, matches_alt, matches_seq_token,
    matches_seq_rule, matches_rule, matches_empty] at h
  rcases h with ⟨c, rfl, hc⟩ | ⟨c, rfl, hc⟩ | ⟨c, rfl, hc⟩ |
    ⟨l, _, rfl, _, c, _, _, rfl, hc, l', _, rfl, _, rfl, _⟩ | ⟨c, rfl, hc⟩ | ⟨c, rfl, hc⟩ |
    ⟨c, _, _, rfl, hc, o, _, _, rfl, hop, c', _, _, rfl, hc', rfl, _⟩
  case inr.inr.inr.inr.inr.inr =>
    obtain ⟨rfl, ⟨⟨left, rfl, _⟩, _⟩, hl⟩ := hc
    obtain ⟨rfl, ⟨⟨operator, rfl, op, hop⟩, _⟩, ho⟩ := hop
    obtain ⟨rfl, _, hr⟩ := hc'
    obtain ⟨tl, htl, hl⟩ := hl.one rfl
    obtain ⟨tr, htr, hr⟩ := hr.one rfl
    have hnode : nodeOf .expr
        [.node (.rule .expr) left, .node (.rule .binaryOperator) operator, c'] =
        some (.binaryOperatorExpr op) := by
      simp [nodeOf, rule?, hop]
    have hts : [.node (.rule .expr) left, .node (.rule .binaryOperator) operator, c'].flatMap
        nodesOf = [tl, tr] := by
      simp [htl, htr, ho.none rfl]
    rw [ShapedContext, hnode, hts]
    have hkl : (kindOf tl).isExprNode = true := hl.accepts
    have hkr : (kindOf tr).isExprNode = true := hr.accepts
    have hdl : (Tree.ofData tl).derived p.depth = true := hl.derived
    have hdr : (Tree.ofData tr).derived p.depth = true := hr.derived
    refine .of_node (.node rfl ?_ ?_ ?_) (.inl rfl)
    · simp [NodeData.kind, ASTKind.fits, hkl, hkr]
    · simp [hl.wellShaped, hr.wellShaped]
    · simp [Rule.derivedAt, Tree.derived, Tree.derivedAll, Node.kind, NodeData.kind, hdl, hdr]
  all_goals
    -- the other alternatives stand for what the expression in them stands for
    obtain ⟨rfl, ⟨⟨ds, rfl, _⟩, _⟩, hs⟩ := hc
    simp only [ShapedContext, nodeOf, rule?, List.flatMap_cons, List.flatMap_nil, List.append_nil,
      nodesOf_token, List.nil_append, reduceCtorEq, ↓reduceIte, Option.bind_none, plant,
      Option.elim_none]
    refine hs.forward rfl rfl fun t ht => ⟨?_, ht.wellShaped, ht.derived⟩
    first
    | exact ht.accepts
    | rw [eq_of_beq ht.accepts]; rfl

theorem shaped_exprList (h : MatchesRule .exprList p cs p') : ShapedContext .exprList p cs :=
  .of_many (fun t ht => by
    obtain ⟨ha, hw, hd⟩ := nodes_of_list h t ht
    exact ⟨ha, hw, hd⟩) rfl

/-- A call or an instantiation: a node in front, and a list of expressions. -/
theorem exprs_fits {ts : List (Rose NodeData)} (h : Shape p .exprList ts) :
    (ts.map kindOf).all ASTKind.isExprNode = true := by
  rw [List.all_map, List.all_eq_true]
  exact fun t ht => (h.nodes t ht).accepts

theorem shaped_callOperatorExpr (h : MatchesRule .callOperatorExpr p cs p') :
    ShapedContext .callOperatorExpr p cs := by
  simp only [MatchesRule, grammar, production, seqs, matches_seq_alt, matches_seq_token,
    matches_seq_rule, matches_empty] at h
  have hcall : ∃ r c l es l', (r = .declRefExpr ∨ r = .metaInstantiationExpr) ∧
      cs = [c, .node (.token l) [], es, .node (.token l') []] ∧ Shape p r (nodesOf c) ∧
        Shape p .exprList (nodesOf es) := by
    rcases h with h | h
    · obtain ⟨c, _, _, rfl, ⟨rfl, _, hc⟩, l, _, rfl, _, es, _, _, rfl, ⟨rfl, _, hes⟩, l', _, rfl, _,
        rfl, _⟩ := h
      exact ⟨_, c, l, es, l', .inl rfl, rfl, hc, hes⟩
    · obtain ⟨c, _, _, rfl, ⟨rfl, _, hc⟩, l, _, rfl, _, es, _, _, rfl, ⟨rfl, _, hes⟩, l', _, rfl, _,
        rfl, _⟩ := h
      exact ⟨_, c, l, es, l', .inr rfl, rfl, hc, hes⟩
  obtain ⟨r, c, l, es, l', hr, rfl, hc, hes⟩ := hcall
  have hcallee : ∃ t, nodesOf c = [t] ∧
      (kindOf t = .declRefExpr ∨ kindOf t = .metaInstantiationExpr) ∧
      (Tree.ofData t).WellShaped ∧ (Tree.ofData t).derived p.depth = true := by
    rcases hr with rfl | rfl
    · obtain ⟨t, ht, ha, hw, hd⟩ := hc.one rfl
      exact ⟨t, ht, .inl (eq_of_beq ha), hw, hd⟩
    · obtain ⟨t, ht, ha, hw, hd⟩ := hc.one rfl
      exact ⟨t, ht, .inr (eq_of_beq ha), hw, hd⟩
  obtain ⟨t, ht, hk, hw, hd⟩ := hcallee
  have hts : [c, .node (.token l) [], es, .node (.token l') []].flatMap nodesOf =
      t :: nodesOf es := by
    simp [ht]
  have hes' : Tree.derivedAll p.depth ((nodesOf es).map Tree.ofData) = true :=
    derivedAll_ofData fun t ht => (hes.nodes t ht).derived
  rw [ShapedContext, hts]
  refine .of_node (.node rfl ?_ ?_ ?_) (.inl rfl)
  · rw [List.map_cons]
    show ((kindOf t).isExprNode && ((nodesOf es).map kindOf).all ASTKind.isExprNode) = true
    rw [exprs_fits hes]
    rcases hk with hk | hk <;> rw [hk] <;> rfl
  · exact List.forall_mem_cons.2 ⟨hw, fun u hu => (hes.nodes u hu).wellShaped⟩
  · rcases hk with hk | hk <;>
      simp [Rule.derivedAt, Tree.derived, Tree.derivedAll, Node.kind, NodeData.kind, hd, hes', hk]

theorem shaped_metaInstantiationExpr (h : MatchesRule .metaInstantiationExpr p cs p') :
    ShapedContext .metaInstantiationExpr p cs := by
  simp only [MatchesRule, grammar, production, seqs, matches_seq_token, matches_seq_rule,
    matches_empty] at h
  obtain ⟨c, _, _, rfl, ⟨rfl, _, hc⟩, l, _, rfl, _, es, _, _, rfl, ⟨rfl, _, hes⟩, l', _, rfl, _,
    rfl, _⟩ := h
  obtain ⟨t, ht, ha, hw, hd⟩ := hc.one rfl
  have hk : kindOf t = .declRefExpr := eq_of_beq ha
  have hderived : (Tree.ofData t).derived p.depth = true := hd
  have hts : [c, .node (.token l) [], es, .node (.token l') []].flatMap nodesOf =
      t :: nodesOf es := by
    simp [ht]
  have hes' : Tree.derivedAll p.depth ((nodesOf es).map Tree.ofData) = true :=
    derivedAll_ofData fun t ht => (hes.nodes t ht).derived
  rw [ShapedContext, hts]
  refine .of_node (.node rfl ?_ ?_ ?_) (.inl rfl)
  · rw [List.map_cons, hk]
    exact exprs_fits hes
  · exact List.forall_mem_cons.2 ⟨hw, fun u hu => (hes.nodes u hu).wellShaped⟩
  · simp [Rule.derivedAt, Tree.derived, Tree.derivedAll, Node.kind, NodeData.kind, hderived, hes']

/-- An expression that is a single terminal. -/
theorem shaped_literal {l : Token} {r : Rule} {data : NodeData}
    (hnode : nodeOf r [.node (.token l) []] = some data) (hr : r.arity = .one)
    (hk : r.accepts data.kind = true) (hfit : data.kind.fits [] = true)
    (hd : r.derivedAt p (.node ⟨0, data⟩ []) = true) : ShapedContext r p [.node (.token l) []] := by
  rw [ShapedContext, hnode, List.flatMap_singleton, nodesOf_token]
  exact .of_node (.node hk hfit (fun u hu => absurd hu List.not_mem_nil) hd) (.inl hr)

theorem shaped_integerLiteralExpr (h : MatchesRule .integerLiteralExpr p cs p')
    (hreports : reportsOf .integerLiteralExpr cs = []) :
    ShapedContext .integerLiteralExpr p cs := by
  obtain ⟨⟨l, _, rfl⟩, _⟩ := h
  simp only [reportsOf] at hreports
  split at hreports
  · cases hreports
  · rename_i hi
    rw [Option.isNone_iff_eq_none, ← ne_eq, Option.ne_none_iff_exists'] at hi
    obtain ⟨value, hi⟩ := hi
    exact shaped_literal (by rw [nodeOf, hi]) rfl rfl rfl rfl

theorem shaped_booleanLiteralExpr (h : MatchesRule .booleanLiteralExpr p cs p') :
    ShapedContext .booleanLiteralExpr p cs := by
  rcases h with ⟨⟨l, _, rfl⟩, _⟩ | ⟨⟨l, _, rfl⟩, _⟩
  · exact shaped_literal rfl rfl rfl rfl rfl
  · exact shaped_literal rfl rfl rfl rfl rfl

theorem shaped_declRefExpr (h : MatchesRule .declRefExpr p cs p') :
    ShapedContext .declRefExpr p cs := by
  obtain ⟨⟨l, _, rfl⟩, _⟩ := h
  exact shaped_literal rfl rfl rfl rfl rfl

/-! ### Statements -/

theorem shaped_ifStmt (h : MatchesRule .ifStmt p cs p') : ShapedContext .ifStmt p cs := by
  simp only [MatchesRule, grammar, production, seqs, matches_seq_token, matches_seq_rule,
    matches_seq_empty, matches_opt, matches_rule] at h
  obtain ⟨l, _, rfl, _, e, _, _, rfl, ⟨rfl, _, he⟩, b, _, _, rfl, ⟨rfl, _, hb⟩, helse⟩ := h
  obtain ⟨te, hte, he⟩ := he.one rfl
  obtain ⟨tb, htb, hb⟩ := hb.one rfl
  have hkb : kindOf tb = .compoundStmt := eq_of_beq hb.accepts
  have hke : (kindOf te).isExprNode = true := he.accepts
  have hdb : (Tree.ofData tb).derived p.depth = true := hb.derived
  have hde : (Tree.ofData te).derived p.depth = true := he.derived
  refine .of_node ?_ (.inl rfl)
  rcases helse with ⟨f, rfl, ⟨rfl, _, hf⟩⟩ | ⟨rfl, rfl⟩
  · obtain ⟨tf, htf, hf⟩ := hf.one rfl
    have hkf : kindOf tf = .compoundStmt := eq_of_beq hf.accepts
    have hdf : (Tree.ofData tf).derived p.depth = true := hf.derived
    have hts : [.node (.token l) [], e, b, f].flatMap nodesOf = [te, tb, tf] := by
      simp [hte, htb, htf]
    rw [hts]
    refine .node rfl (by simp [NodeData.kind, ASTKind.fits, hke, hkb, hkf]; decide) ?_ ?_
    · simp [he.wellShaped, hb.wellShaped, hf.wellShaped]
    · simp [Rule.derivedAt, Tree.derived, Tree.derivedAll, Node.kind, NodeData.kind, hde,
        hdb, hdf, hkb, hkf]
  · have hts : [.node (.token l) [], e, b].flatMap nodesOf = [te, tb] := by simp [hte, htb]
    rw [hts]
    refine .node rfl (by simp [NodeData.kind, ASTKind.fits, hke, hkb]; decide) ?_ ?_
    · simp [he.wellShaped, hb.wellShaped]
    · simp [Rule.derivedAt, Tree.derived, Tree.derivedAll, Node.kind, NodeData.kind, hde, hdb, hkb]

theorem shaped_declStmt (h : MatchesRule .declStmt p cs p') : ShapedContext .declStmt p cs := by
  simp only [MatchesRule, grammar, production, seqs, matches_seq_token, matches_seq_rule,
    matches_empty] at h
  obtain ⟨c, _, _, rfl, ⟨rfl, _, hc⟩, l, _, rfl, _, e, _, _, rfl, ⟨rfl, _, he⟩, l', _, rfl, _,
    rfl, _⟩ := h
  obtain ⟨t, ht, ha, hw, hd⟩ := he.one rfl
  have hts : [c, .node (.token l) [], e, .node (.token l') []].flatMap nodesOf = [t] := by
    simp [ht, hc.none rfl]
  rw [ShapedContext, hts]
  exact .of_node (.node rfl ha (by simpa using hw)
    (by simpa [Rule.derivedAt, Tree.derived, Tree.derivedAll, Node.kind, NodeData.kind] using hd))
    (.inl rfl)

theorem shaped_exprStmt (h : MatchesRule .exprStmt p cs p') : ShapedContext .exprStmt p cs := by
  simp only [MatchesRule, grammar, production, seqs, matches_seq_token, matches_seq_rule,
    matches_empty] at h
  obtain ⟨e, _, _, rfl, ⟨rfl, _, he⟩, l, _, rfl, _, rfl, _⟩ := h
  obtain ⟨t, ht, ha, hw, hd⟩ := he.one rfl
  have hts : [e, .node (.token l) []].flatMap nodesOf = [t] := by simp [ht]
  rw [ShapedContext, hts]
  exact .of_node (.node rfl ha (by simpa using hw)
    (by simpa [Rule.derivedAt, Tree.derived, Tree.derivedAll, Node.kind, NodeData.kind] using hd))
    (.inl rfl)

theorem shaped_returnStmt (h : MatchesRule .returnStmt p cs p') :
    ShapedContext .returnStmt p cs := by
  simp only [MatchesRule, grammar, production, seqs, matches_seq_token, matches_seq_opt,
    matches_rule, matches_empty] at h
  obtain ⟨l, _, rfl, _, ⟨_, _, _, rfl, ⟨e, rfl, rfl, _, he⟩, l', _, rfl, _, rfl, _⟩ |
    ⟨l', _, rfl, _, rfl, _⟩⟩ := h
  · obtain ⟨t, ht, ha, hw, hd⟩ := he.one rfl
    have hts : (.node (.token l) [] :: ([e] ++ [.node (.token l') []])).flatMap nodesOf = [t] := by
      simp [ht]
    rw [ShapedContext, hts]
    exact .of_node (.node rfl ha (by simpa using hw)
      (by simpa [Rule.derivedAt, Tree.derived, Tree.derivedAll, Node.kind, NodeData.kind] using hd))
      (.inl rfl)
  · have hts : [.node (.token l) [], .node (.token l') []].flatMap nodesOf = [] := by simp
    rw [ShapedContext, hts]
    exact .of_node (.node rfl rfl (fun u hu => absurd hu List.not_mem_nil) rfl) (.inl rfl)

/-- The statements of a compound statement. -/
theorem shaped_compound {r : Rule} {data : NodeData} {c : Context}
    (h : Shape p .basicCompoundStmt (nodesOf c)) (hnode : nodeOf r [c] = some data)
    (hr : r.arity = .one) (hk : r.accepts data.kind = true)
    (hd : ∀ cs, r.derivedAt p (.node ⟨0, data⟩ cs) =
      (cs.all (fun c => MetaDepth.isStatement (Tree.kind c)) && Tree.derivedAll p.depth cs))
    (hfit : ∀ ks, data.kind.fits ks = ks.all ASTKind.isStmtNode) : ShapedContext r p [c] := by
  rw [ShapedContext, hnode, List.flatMap_singleton]
  refine .of_node (.node hk ?_ (fun t ht => (h.nodes t ht).wellShaped) ?_) (.inl hr)
  · rw [hfit, List.all_map, List.all_eq_true]
    exact fun t ht => (Bool.and_eq_true_iff.1 (h.nodes t ht).accepts).1
  · rw [hd, Bool.and_eq_true, List.all_map, List.all_eq_true]
    refine ⟨fun t ht => ?_, derivedAll_ofData fun t ht => (h.nodes t ht).derived⟩
    rw [Function.comp_apply, kind_ofData]
    exact (h.nodes t ht).accepts

theorem shaped_compoundStmt (h : MatchesRule .compoundStmt p cs p') :
    ShapedContext .compoundStmt p cs := by
  obtain ⟨c, rfl, _, _, hc⟩ := h
  exact shaped_compound hc rfl rfl rfl (fun _ => rfl) fun ks => by cases ks <;> rfl

theorem shaped_unscopedCompoundStmt (h : MatchesRule .unscopedCompoundStmt p cs p') :
    ShapedContext .unscopedCompoundStmt p cs := by
  obtain ⟨c, rfl, _, _, hc⟩ := h
  exact shaped_compound hc rfl rfl rfl (fun _ => rfl) fun ks => by cases ks <;> rfl

theorem shaped_basicCompoundStmt (h : MatchesRule .basicCompoundStmt p cs p') :
    ShapedContext .basicCompoundStmt p cs := by
  simp only [MatchesRule, grammar, production, seqs, matches_seq_token, matches_seq_star,
    matches_empty] at h
  obtain ⟨l, _, rfl, _, ds, _, _, rfl, hds, l', _, rfl, _, rfl, _⟩ := h
  have hts : (.node (.token l) [] :: (ds ++ [.node (.token l') []])).flatMap nodesOf =
      ds.flatMap nodesOf := by
    simp
  rw [ShapedContext, hts]
  refine .of_many (fun t ht => ?_) rfl
  obtain ⟨ha, hw, hd⟩ := (nodes_of_rules hds).2 t ht
  exact ⟨ha, hw, hd⟩

theorem shaped_statement (h : MatchesRule .statement p cs p') : ShapedContext .statement p cs := by
  simp only [MatchesRule, grammar, production, seqs, oneOf, matches_alt, matches_seq_predicate,
    matches_seq_empty, matches_rule, BasicParser.allowsMetaStmt_eq] at h
  rcases h with ⟨c, rfl, _, _, hc⟩ | ⟨c, rfl, _, _, hc⟩ | ⟨c, rfl, _, _, hc⟩ | ⟨c, rfl, _, _, hc⟩ |
    ⟨c, rfl, _, _, hc⟩ | ⟨_, c, rfl, _, _, hc⟩
  case inr.inr.inr.inr.inr =>
    rw [ShapedContext, List.flatMap_singleton]
    refine hc.forward rfl rfl fun t ht => ⟨?_, ht.wellShaped, ht.derived⟩
    rcases Bool.or_eq_true_iff.1 ht.accepts with hk | hk <;> rw [eq_of_beq hk] <;> rfl
  all_goals
    rw [ShapedContext, List.flatMap_singleton]
    refine hc.forward rfl rfl fun t ht => ⟨?_, ht.wellShaped, ht.derived⟩
    rw [eq_of_beq ht.accepts]
    rfl

/-! ### Meta statements -/

theorem shaped_metaStmt (h : MatchesRule .metaStmt p cs p') : ShapedContext .metaStmt p cs := by
  rcases h with ⟨c, rfl, _, _, hc⟩ | ⟨c, rfl, _, _, hc⟩
  all_goals
    rw [ShapedContext, List.flatMap_singleton]
    refine hc.forward rfl rfl fun t ht => ⟨?_, ht.wellShaped, ht.derived⟩
    rw [eq_of_beq ht.accepts]
    rfl

theorem shaped_metaCalculationStmt (h : MatchesRule .metaCalculationStmt p cs p')
    (hp : p.depth.allowsMeta = true) : ShapedContext .metaCalculationStmt p cs := by
  simp only [MatchesRule, grammar, production, seqs, matches_seq_action, matches_seq_token,
    matches_seq_rule] at h
  obtain ⟨l, _, rfl, _, c, _, _, rfl, ⟨_, _, hc⟩, rfl, _⟩ := h
  obtain ⟨t, ht, ha, hw, hd⟩ := hc.one rfl
  have hk : kindOf t = .unscopedCompoundStmt := eq_of_beq ha
  have hderived : (Tree.ofData t).derived .depthNone = true := hd
  have hts : [.node (.token l) [], c].flatMap nodesOf = [t] := by simp [ht]
  rw [ShapedContext, hts]
  refine .of_node (.node rfl ?_ (by simpa using hw) ?_) (.inl rfl)
  · rw [List.map_singleton, hk]
    rfl
  · simp [Rule.derivedAt, Tree.derived, Tree.derivedAll, Node.kind, NodeData.kind, hderived, hk, hp]

theorem shaped_metaIfStmt (h : MatchesRule .metaIfStmt p cs p')
    (hp : p.depth.allowsMeta = true) : ShapedContext .metaIfStmt p cs := by
  simp only [MatchesRule, grammar, production, seqs, matches_seq_token, matches_seq_rule,
    matches_seq_empty, matches_opt, matches_rule] at h
  obtain ⟨l, _, rfl, _, l', _, rfl, _, e, _, _, rfl, ⟨rfl, _, he⟩, b, _, _, rfl, ⟨rfl, _, hb⟩,
    helse⟩ := h
  obtain ⟨te, hte, he⟩ := he.one rfl
  obtain ⟨tb, htb, hb⟩ := hb.one rfl
  have hkb : kindOf tb = .metaContribution := eq_of_beq hb.accepts
  have hke : (kindOf te).isExprNode = true := he.accepts
  have hdb : (Tree.ofData tb).derived p.depth = true := hb.derived
  have hde : (Tree.ofData te).derived .depthNone = true := he.derived
  refine .of_node ?_ (.inl rfl)
  rcases helse with ⟨f, rfl, ⟨rfl, _, hf⟩⟩ | ⟨rfl, _⟩
  · obtain ⟨tf, htf, hf⟩ := hf.one rfl
    have hkf : kindOf tf = .metaContribution := eq_of_beq hf.accepts
    have hdf : (Tree.ofData tf).derived p.depth = true := hf.derived
    have hts : [.node (.token l) [], .node (.token l') [], e, b, f].flatMap nodesOf =
        [te, tb, tf] := by
      simp [hte, htb, htf]
    rw [hts]
    refine .node rfl (by simp [NodeData.kind, ASTKind.fits, hke, hkb, hkf]) ?_ ?_
    · simp [he.wellShaped, hb.wellShaped, hf.wellShaped]
    · simp [Rule.derivedAt, Tree.derived, Tree.derivedAll, Node.kind, NodeData.kind,
        hde, hdb, hdf, hp]
  · have hts : [.node (.token l) [], .node (.token l') [], e, b].flatMap nodesOf = [te, tb] := by
      simp [hte, htb]
    rw [hts]
    refine .node rfl (by simp [NodeData.kind, ASTKind.fits, hke, hkb]) ?_ ?_
    · simp [he.wellShaped, hb.wellShaped]
    · simp [Rule.derivedAt, Tree.derived, Tree.derivedAll, Node.kind, NodeData.kind, hde, hdb, hp]

theorem shaped_metaContribution (h : MatchesRule .metaContribution p cs p') :
    ShapedContext .metaContribution p cs := by
  simp only [MatchesRule, grammar, production, seqs, matches_seq_token, matches_seq_star,
    matches_empty] at h
  obtain ⟨l, _, rfl, _, ds, _, _, rfl, hds, l', _, rfl, _, rfl, _⟩ := h
  have hts : (.node (.token l) [] :: (ds ++ [.node (.token l') []])).flatMap nodesOf =
      ds.flatMap nodesOf := by
    simp
  have hnodes := (nodes_of_rules hds).2
  have hderived : ∀ t ∈ ds.flatMap nodesOf, p.depth.isMetaScopeNode (Tree.ofData t).kind = true ∧
      (Tree.ofData t).derived p.depth = true :=
    fun t ht => Bool.and_eq_true_iff.1 (hnodes t ht).derived
  rw [ShapedContext, hts]
  refine .of_node (.node rfl rfl (fun t ht => (hnodes t ht).wellShaped) ?_) (.inl rfl)
  refine Bool.and_eq_true_iff.2 ⟨?_, derivedAll_ofData fun t ht => (hderived t ht).2⟩
  rw [List.all_map, List.all_eq_true]
  exact fun t ht => (hderived t ht).1

theorem shaped_metaScopeNode (h : MatchesRule .metaScopeNode p cs p')
    (hp : p.depth.allowsMeta = true) : ShapedContext .metaScopeNode p cs := by
  simp only [MatchesRule, grammar, production, seqs, matches_alt, matches_seq_predicate,
    matches_seq_empty, matches_rule, BasicParser.isInMetaDepth_of_allowsMeta hp] at h
  rcases h with ⟨hd, c, rfl, _, _, hc⟩ | ⟨hd, c, rfl, _, _, hc⟩
  · have hdepth : p.depth = .depthGlobalScope := eq_of_beq hd
    rw [ShapedContext, List.flatMap_singleton]
    refine hc.forward rfl rfl fun t ht => ⟨?_, ht.wellShaped, ?_⟩
    · have ha : MetaDepth.depthGlobalScope.isMetaScopeNode (kindOf t) = true := ht.accepts
      simp only [MetaDepth.isMetaScopeNode, Bool.or_eq_true, beq_iff_eq] at ha
      rcases ha with (hk | hk) | hk <;> rw [hk] <;> rfl
    · have hderived := ht.derived
      rw [Rule.derivedAt, if_pos (BasicParser.isInMetaDecl_of_allowsMeta hp)] at hderived
      rw [Rule.derivedAt, kind_ofData, hderived, hdepth, Bool.and_true]
      exact ht.accepts
  · have hdepth : p.depth = .depthLocalScope := eq_of_beq hd
    rw [ShapedContext, List.flatMap_singleton]
    refine hc.forward rfl rfl fun t ht => ⟨?_, ht.wellShaped, ?_⟩
    · exact Bool.or_eq_true_iff.2 (.inr ht.accepts)
    · have hderived : (Tree.ofData t).derived p.depth = true := ht.derived
      rw [Rule.derivedAt, kind_ofData, hderived, hdepth, Bool.and_true]
      exact ht.accepts

/-! ### Declarations -/

theorem shaped_argumentDecl (h : MatchesRule .argumentDecl p cs p') :
    ShapedContext .argumentDecl p cs := by
  simp only [MatchesRule, grammar, production, seqs, matches_seq_rule, matches_seq_empty,
    matches_opt, matches_rule] at h
  obtain ⟨c, ds, _, rfl, ⟨rfl, _, hc⟩, hname⟩ := h
  have hts : (c :: ds).flatMap nodesOf = [] := by
    rcases hname with ⟨d, rfl, rfl, _, hd⟩ | ⟨rfl, _⟩
    · simp [hc.none rfl, hd.none rfl]
    · simp [hc.none rfl]
  rw [ShapedContext, hts]
  -- an argument with a name has another kind than one without
  cases hn : rule? .argumentName (c :: ds) with
  | none =>
    have hnode : nodeOf .argumentDecl (c :: ds) = some .anonymousArgumentDecl := by
      rw [nodeOf, hn]
      rfl
    rw [hnode]
    exact .of_node (.node rfl rfl (fun u hu => absurd hu List.not_mem_nil) rfl) (.inl rfl)
  | some name =>
    have hnode : nodeOf .argumentDecl (c :: ds) =
        some (.namedArgumentDecl (textOf .identifier name)) := by
      rw [nodeOf, hn]
      rfl
    rw [hnode]
    exact .of_node (.node rfl rfl (fun u hu => absurd hu List.not_mem_nil) rfl) (.inl rfl)

theorem shaped_argumentDeclList (h : MatchesRule .argumentDeclList p cs p') :
    ShapedContext .argumentDeclList p cs := by
  have hnodes := nodes_of_list h
  refine .of_node (.node rfl ?_ (fun t ht => (hnodes t ht).wellShaped) ?_) (.inl rfl)
  · show ((cs.flatMap nodesOf).map kindOf).all ASTKind.isArgumentDecl = true
    rw [List.all_map, List.all_eq_true]
    exact fun t ht => (hnodes t ht).accepts
  · exact derivedAll_ofData fun t ht => (hnodes t ht).derived

theorem shaped_returnDecl (h : MatchesRule .returnDecl p cs p') :
    ShapedContext .returnDecl p cs := by
  rcases h with ⟨c, rfl, rfl, _, hc⟩ | ⟨rfl, _⟩
  · obtain ⟨t, ht, ha, hw, hd⟩ := hc.one rfl
    rw [ShapedContext, List.flatMap_singleton, ht]
    exact .of_node ⟨ha, hw, hd⟩ (.inr rfl)
  · exact .of_nil (by decide)

/-- Arguments are derived at any depth. -/
theorem derived_argument {t : Tree} (hs : t.WellShaped) (hk : t.kind.isArgumentDecl = true)
    (depth : MetaDepth) : t.derived depth = true := by
  obtain ⟨⟨id, data⟩, cs⟩ := t
  have hleaf : data.kind.hasChildren = false := by cases data <;> first | rfl | cases hk
  obtain rfl := hs.leaf hleaf
  cases data <;> first | rfl | cases hk

theorem derived_argumentDeclList {t : Tree} (hs : t.WellShaped) (hk : t.kind = .argumentDeclList)
    (depth : MetaDepth) : t.derived depth = true := by
  obtain ⟨⟨id, data⟩, cs⟩ := t
  obtain ⟨hfit, hcs⟩ := Tree.wellShaped_node.1 hs
  cases data <;> try cases hk
  exact Tree.derivedAll_iff.2 fun c hc =>
    derived_argument (hcs c hc) (List.all_eq_true.1 hfit _ (List.mem_map_of_mem hc)) depth

/-- The body of a function is derived at the depth that is entered for it. -/
theorem depth_enterFunctionBody (p : BasicParser) :
    p.enterFunctionBody.depth = if p.isInMetaDecl then .depthLocalScope else .depthNone := by
  by_cases hd : p.isInMetaDecl = true
  · rw [BasicParser.enterFunctionBody, if_pos hd, if_pos hd, BasicParser.depth_enterDepth]
  · obtain ⟨_ | ⟨d, ds⟩, fs⟩ := p
    · rfl
    · exact absurd rfl hd

theorem shaped_functionDecl (h : MatchesRule .functionDecl p cs p')
    (hp : p.allowsFunctions = true) : ShapedContext .functionDecl p cs := by
  simp only [MatchesRule, grammar, production, seqs, matches_seq_token, matches_seq_rule,
    matches_seq_action, matches_empty] at h
  obtain ⟨l₁, _, rfl, _, l₂, _, rfl, _, args, _, _, rfl, ⟨rfl, _, hargs⟩, l₃, _, rfl, _,
    ret, _, _, rfl, ⟨rfl, _, hret⟩, l₄, _, rfl, _, body, _, _, rfl, ⟨_, _, hbody⟩, rfl, _⟩ := h
  obtain ⟨ta, hta, hargs⟩ := hargs.one rfl
  obtain ⟨tb, htb, hbody⟩ := hbody.one rfl
  have hka : kindOf ta = .argumentDeclList := eq_of_beq hargs.accepts
  obtain ⟨hkb, hkb'⟩ := Bool.and_eq_true_iff.1 hbody.accepts
  have hdb : (Tree.ofData tb).derived p.enterFunctionBody.depth = true := hbody.derived
  have hda := derived_argumentDeclList hargs.wellShaped (by rw [kind_ofData, hka])
  rw [depth_enterFunctionBody p] at hdb
  -- what is returned is an argument or nothing
  have hreturn : ∃ tr, nodesOf ret = tr ∧ tr.length ≤ 1 ∧ (∀ t ∈ tr,
      (kindOf t).isArgumentDecl = true ∧ (Tree.ofData t).WellShaped ∧
        ∀ depth, (Tree.ofData t).derived depth = true) := by
    rcases hret.optional rfl with htr | ⟨t, htr, ha, hw, _⟩
    · exact ⟨[], htr, Nat.zero_le 1, fun t ht => absurd ht List.not_mem_nil⟩
    · refine ⟨[t], htr, Nat.le_refl 1, fun u hu => ?_⟩
      rw [List.mem_singleton.1 hu]
      exact ⟨ha, hw, derived_argument hw (by rw [kind_ofData]; exact ha)⟩
  obtain ⟨tr, htr, hlen, hreturn⟩ := hreturn
  have hts : [.node (.token l₁) [], .node (.token l₂) [], args, .node (.token l₃) [], ret,
      .node (.token l₄) [], body].flatMap nodesOf = ta :: (tr ++ [tb]) := by
    simp [hta, htr, htb]
  have hshaped : ∀ t ∈ ta :: (tr ++ [tb]), (Tree.ofData t).WellShaped := by
    intro t ht
    simp only [List.mem_cons, List.mem_append, List.not_mem_nil, or_false] at ht
    rcases ht with rfl | ht | rfl
    · exact hargs.wellShaped
    · exact (hreturn t ht).2.1
    · exact hbody.wellShaped
  rw [ShapedContext, hts]
  refine .of_node (.node rfl ?_ hshaped ?_) (.inl rfl)
  · rcases tr with _ | ⟨t, _ | ⟨u, tr⟩⟩
    · simp [NodeData.kind, ASTKind.fits, hka, hkb]
    · simp [NodeData.kind, ASTKind.fits, hka, hkb, (hreturn t List.mem_cons_self).1]
    · exact absurd hlen (by simp)
  · have hkinds : ((ta :: (tr ++ [tb])).map Tree.ofData).all
        (fun c => Tree.kind c != .unscopedCompoundStmt) = true := by
      rw [List.all_map, List.all_eq_true]
      intro t ht
      rw [Function.comp_apply, kind_ofData]
      simp only [List.mem_cons, List.mem_append, List.not_mem_nil, or_false] at ht
      rcases ht with rfl | ht | rfl
      · rw [hka]; rfl
      · have hk := (hreturn t ht).1
        cases hkt : kindOf t <;> rw [hkt] at hk <;> first | rfl | cases hk
      · exact hkb'
    have hderived : ∀ depth, (Tree.ofData tb).derived depth = true →
        Tree.derivedAll depth ((ta :: (tr ++ [tb])).map Tree.ofData) = true := by
      intro depth hdb
      refine derivedAll_ofData fun t ht => ?_
      simp only [List.mem_cons, List.mem_append, List.not_mem_nil, or_false] at ht
      rcases ht with rfl | ht | rfl
      · exact hda depth
      · exact (hreturn t ht).2.2 depth
      · exact hdb
    by_cases hd : p.isInMetaDecl = true
    · have hglobal : p.depth = .depthGlobalScope := BasicParser.depth_of_allowsFunctions hp hd
      rw [if_pos hd] at hdb
      rw [Rule.derivedAt, if_pos hd, hglobal]
      exact Bool.and_eq_true_iff.2 ⟨Bool.and_eq_true_iff.2 ⟨rfl, hkinds⟩, hderived _ hdb⟩
    · rw [if_neg hd] at hdb
      rw [Rule.derivedAt, if_neg hd]
      exact Bool.and_eq_true_iff.2 ⟨hkinds, hderived _ hdb⟩

theorem shaped_metaDecl (h : MatchesRule .metaDecl p cs p') : ShapedContext .metaDecl p cs := by
  simp only [MatchesRule, grammar, production, seqs, matches_seq_token, matches_seq_rule,
    matches_seq_action, matches_empty] at h
  obtain ⟨l₁, _, rfl, _, l₂, _, rfl, _, args, _, _, rfl, ⟨rfl, _, hargs⟩, l₃, _, rfl, _,
    l₄, _, rfl, _, c, _, _, rfl, ⟨_, _, hc⟩, rfl, _⟩ := h
  obtain ⟨ta, hta, hargs⟩ := hargs.one rfl
  obtain ⟨tc, htc, hc⟩ := hc.one rfl
  have hka : kindOf ta = .argumentDeclList := eq_of_beq hargs.accepts
  have hkc : kindOf tc = .metaContribution := eq_of_beq hc.accepts
  have hda := derived_argumentDeclList hargs.wellShaped (by rw [kind_ofData, hka]) .depthNone
  have hdc : (Tree.ofData tc).derived .depthGlobalScope = true := hc.derived
  have hts : [.node (.token l₁) [], .node (.token l₂) [], args, .node (.token l₃) [],
      .node (.token l₄) [], c].flatMap nodesOf = [ta, tc] := by
    simp [hta, htc]
  rw [ShapedContext, hts]
  refine .of_node (.node rfl ?_ ?_ ?_) (.inl rfl)
  · rw [List.map_cons, List.map_singleton, hka, hkc]
    rfl
  · simp [hargs.wellShaped, hc.wellShaped]
  · simp [Rule.derivedAt, Tree.derivedTopLevel, Node.kind, NodeData.kind, hda, hdc]

theorem shaped_runtimeGlobalScopeNode (h : MatchesRule .runtimeGlobalScopeNode p cs p') :
    ShapedContext .runtimeGlobalScopeNode p cs := by
  simp only [MatchesRule, grammar, production, seqs, matches_alt, matches_seq_predicate,
    matches_seq_empty, matches_rule] at h
  rcases h with ⟨c, rfl, _, _, hc⟩ | ⟨hd, c, rfl, _, _, hc⟩
  · rw [ShapedContext, List.flatMap_singleton]
    refine hc.forward rfl rfl fun t ht => ⟨?_, ht.wellShaped, ht.derived⟩
    rw [eq_of_beq ht.accepts]
    rfl
  · rw [ShapedContext, List.flatMap_singleton]
    refine hc.forward rfl rfl fun t ht => ⟨?_, ht.wellShaped, ?_⟩
    · rcases Bool.or_eq_true_iff.1 ht.accepts with hk | hk <;> rw [eq_of_beq hk] <;> rfl
    · rw [Rule.derivedAt, if_pos hd]
      exact ht.derived

theorem isTopLevelNode_of_derivedTopLevel {t : Tree} (h : t.derivedTopLevel = true) :
    t.kind.isTopLevelNode = true := by
  obtain ⟨⟨id, data⟩, cs⟩ := t
  cases data <;> first | rfl | (cases cs <;> cases h)

theorem shaped_compilationUnit (h : MatchesRule .compilationUnit p cs p')
    (hp : p.metaDepthStack.isEmpty = true) : ShapedContext .compilationUnit p cs := by
  simp only [MatchesRule, grammar, production, seqs, matches_seq_star, matches_seq_token,
    matches_empty] at h
  obtain ⟨ds, _, _, rfl, hds, l, _, rfl, _, rfl, _⟩ := h
  have hnodes : ∀ t ∈ ds.flatMap nodesOf, (Tree.ofData t).WellShaped ∧
      (Tree.ofData t).derivedTopLevel = true := by
    refine (nodes_of_iterates hds fun cs p' hm => ?_).2
    rcases hm with ⟨c, rfl, rfl, _, hc⟩ | ⟨c, rfl, rfl, _, hc⟩
    · refine ⟨rfl, fun t ht => ?_⟩
      rw [List.flatMap_singleton] at ht
      obtain ⟨_, hw, hd⟩ := hc.nodes t ht
      rw [Rule.derivedAt, BasicParser.isInMetaDecl, hp, if_neg (by decide)] at hd
      exact ⟨hw, hd⟩
    · refine ⟨rfl, fun t ht => ?_⟩
      rw [List.flatMap_singleton] at ht
      exact ⟨(hc.nodes t ht).wellShaped, (hc.nodes t ht).derived⟩
  have hts : (ds ++ [(.node (.token l) [] : Context)]).flatMap nodesOf = ds.flatMap nodesOf := by
    simp
  rw [ShapedContext, hts]
  refine .of_node (.node rfl ?_ (fun t ht => (hnodes t ht).1) ?_) (.inl rfl)
  · show ((ds.flatMap nodesOf).map kindOf).all ASTKind.isTopLevelNode = true
    rw [List.all_map, List.all_eq_true]
    intro t ht
    rw [Function.comp_apply, ← kind_ofData]
    exact isTopLevelNode_of_derivedTopLevel (hnodes t ht).2
  · rw [Rule.derivedAt, Rose.children_node, List.all_map, List.all_eq_true]
    exact fun t ht => (hnodes t ht).2

/-! ### All rules -/

/-- A context that stands for nothing. -/
theorem shaped_none {r : Rule} (hnode : nodeOf r cs = none) (hr : r.arity = .none)
    (h : cs.flatMap nodesOf = []) : ShapedContext r p cs := by
  rw [ShapedContext, hnode, h]
  exact .of_nil (by rw [hr]; decide)

theorem shaped_else {r r' : Rule}
    (h : Matches grammar.kind Judged (seqs [.token .else_, .rule r']) p cs p')
    (hnode : nodeOf r cs = none) (hr' : r'.arity = .one) (hr : r.arity = .one)
    (hn : ∀ t, ShapedNode p r' t → ShapedNode p r t) : ShapedContext r p cs := by
  simp only [seqs, matches_seq_token, matches_seq_rule, matches_empty] at h
  obtain ⟨l, _, rfl, _, c, _, _, rfl, ⟨_, _, hc⟩, rfl, _⟩ := h
  rw [ShapedContext, hnode, List.flatMap_cons, nodesOf_token, List.nil_append,
    List.flatMap_singleton]
  exact hc.forward hr' hr hn

theorem shaped_metaCalculationExpr (h : MatchesRule .metaCalculationExpr p cs p') :
    ShapedContext .metaCalculationExpr p cs := by
  simp only [MatchesRule, grammar, production, seqs, matches_seq_action, matches_seq_rule,
    matches_empty] at h
  obtain ⟨c, _, _, rfl, ⟨_, _, hc⟩, rfl, _⟩ := h
  rw [ShapedContext, List.flatMap_singleton]
  exact hc.forward rfl rfl fun t ht => ⟨ht.accepts, ht.wellShaped, ht.derived⟩

/-- What a context stands for has the form of its rule if the contexts in it do. -/
theorem shaped {r : Rule} (h : MatchesRule r p cs p') (hp : p.admits r = true)
    (hreports : reportsOf r cs = []) : ShapedContext r p cs := by
  have forward : ∀ {r'}, (∃ c, cs = [c] ∧ Judged r' p c p') → nodeOf r cs = none →
      r'.arity = .one → r.arity = .one → (∀ t, ShapedNode p r' t → ShapedNode p r t) →
      ShapedContext r p cs := by
    rintro r' ⟨c, rfl, _, _, hc⟩ hnode hr' hr hn
    rw [ShapedContext, hnode, List.flatMap_singleton]
    exact hc.forward hr' hr hn
  cases r with
  | compilationUnit => exact shaped_compilationUnit h hp
  | runtimeGlobalScopeNode => exact shaped_runtimeGlobalScopeNode h
  | functionDecl => exact shaped_functionDecl h hp
  | metaDecl => exact shaped_metaDecl h
  | metaContribution => exact shaped_metaContribution h
  | metaScopeNode => exact shaped_metaScopeNode h hp
  | metaStmt => exact shaped_metaStmt h
  | metaCalculationStmt => exact shaped_metaCalculationStmt h hp
  | metaIfStmt => exact shaped_metaIfStmt h hp
  | returnDecl => exact shaped_returnDecl h
  | argumentDeclList => exact shaped_argumentDeclList h
  | argumentDecl => exact shaped_argumentDecl h
  | statement => exact shaped_statement h
  | compoundStmt => exact shaped_compoundStmt h
  | unscopedCompoundStmt => exact shaped_unscopedCompoundStmt h
  | basicCompoundStmt => exact shaped_basicCompoundStmt h
  | declStmt => exact shaped_declStmt h
  | exprStmt => exact shaped_exprStmt h
  | returnStmt => exact shaped_returnStmt h
  | ifStmt => exact shaped_ifStmt h
  | expr => exact shaped_expr h
  | callOperatorExpr => exact shaped_callOperatorExpr h
  | exprList => exact shaped_exprList h
  | integerLiteralExpr => exact shaped_integerLiteralExpr h hreports
  | booleanLiteralExpr => exact shaped_booleanLiteralExpr h
  | declRefExpr => exact shaped_declRefExpr h
  | metaInstantiationExpr => exact shaped_metaInstantiationExpr h
  | unaryExpr => exact forward h rfl rfl rfl fun t ht => ⟨ht.accepts, ht.wellShaped, ht.derived⟩
  | enclosingExpr =>
    exact forward h rfl rfl rfl fun t ht => ⟨ht.accepts, ht.wellShaped, ht.derived⟩
  | metaElseStmt =>
    exact shaped_else h rfl rfl rfl fun t ht => ⟨ht.accepts, ht.wellShaped, ht.derived⟩
  | elseStmt =>
    exact shaped_else h rfl rfl rfl fun t ht => ⟨ht.accepts, ht.wellShaped, ht.derived⟩
  | metaCalculationExpr => exact shaped_metaCalculationExpr h
  | varDecl =>
    simp only [MatchesRule, grammar, production, seqs, matches_seq_rule, matches_empty] at h
    obtain ⟨c, _, _, rfl, ⟨_, _, hc⟩, c', _, _, rfl, ⟨_, _, hc'⟩, rfl, _⟩ := h
    exact shaped_none rfl rfl (by simp [hc.none rfl, hc'.none rfl])
  | argumentType | argumentName | varDeclType | varDeclName =>
    obtain ⟨⟨l, _, rfl⟩, _⟩ := h
    exact shaped_none rfl rfl (by simp)
  | binaryOperator =>
    rcases h with h | h | h | h | h | h | h | h | h | h | h <;> obtain ⟨⟨l, _, rfl⟩, _⟩ := h <;>
      exact shaped_none rfl rfl (by simp)

end Rules

end Swy
