import Swy.Parse.Stages

/-!
# What a meta calculation exports

The in-place scope of a meta calculation hears of every declaration that is inserted below it. What
is inserted into a scope that a nested statement opens is gone at the end of that statement, so that
the declarations it exports are the ones that stand directly in its block (`directDecls`), and these
are the names it adds to the scope around it.
-/

namespace Swy

open Library

/-- The children of an expression are expressions. -/
theorem ASTKind.isExprNode_of_fits {k : ASTKind} {ks : List ASTKind} (h : k.fits ks = true)
    (hk : k.isExprNode = true) : ∀ k' ∈ ks, k'.isExprNode = true := by
  have href : declRefExpr.isExprNode = true := rfl
  unfold fits at h
  split at h <;> first | exact absurd hk Bool.false_ne_true | simp_all [List.all_eq_true]

/-! ## Direct declarations -/

namespace Tree

/-- The declaration statements of a list of statements. -/
def declStmts (cs : List Tree) : List Node := (cs.map Rose.label).filter (·.kind == .declStmt)

/-- The declaration statements that are direct statements of the block of a meta calculation. -/
def directDecls (t : Tree) : List Node := t.children.flatMap fun block => declStmts block.children

end Tree

namespace Environment

/-- The environment of declarations that were introduced one after the other. -/
def ofDecls (ns : List Node) : Environment :=
  (ns.filterMap fun n => n.name?.map fun name => (name, n)).reverse

@[simp] theorem ofDecls_nil : ofDecls [] = [] := rfl

theorem ofDecls_append (ns ns' : List Node) : ofDecls (ns ++ ns') = ofDecls ns' ++ ofDecls ns := by
  simp [ofDecls]

theorem ofDecls_singleton {n : Node} {name : Identifier} (h : n.name? = some name) :
    ofDecls [n] = [(name, n)] := by simp [ofDecls, h]

/-- The declarations are found again. -/
theorem map_snd_ofDecls {ns : List Node} (h : ∀ n ∈ ns, n.kind.isNamedDeclContext = true) :
    (ofDecls ns).map Prod.snd = ns.reverse := by
  induction ns with
  | nil => rfl
  | cons n ns ih =>
    have hname : n.name?.isSome = true := (n.data.isSome_name?).trans (h n List.mem_cons_self)
    obtain ⟨name, hname⟩ := Option.isSome_iff_exists.1 hname
    rw [← List.singleton_append, ofDecls_append, List.map_append, ofDecls_singleton hname,
      ih fun m hm => h m (List.mem_cons_of_mem _ hm), List.reverse_append]
    rfl

end Environment

namespace Tree

theorem declStmts_append (cs ds : List Tree) :
    declStmts (cs ++ ds) = declStmts cs ++ declStmts ds := by
  simp [declStmts]

theorem named_declStmts (cs : List Tree) :
    ∀ n ∈ declStmts cs, n.kind.isNamedDeclContext = true := by
  intro n hn
  have hk : n.kind = .declStmt := eq_of_beq (List.mem_filter.1 hn).2
  rw [hk]
  rfl

theorem declStmts_sublist (cs : List Tree) :
    List.Sublist (declStmts cs) (cs.flatMap Rose.labels) := by
  refine List.filter_sublist.trans ?_
  rw [List.map_eq_flatMap]
  refine List.Sublist.flatMap_right _ fun c _ => ?_
  obtain ⟨n, cs⟩ := c
  rw [Rose.labels_node]
  exact List.singleton_sublist.2 List.mem_cons_self

/-- The direct declarations are nodes of the tree, in its order. -/
theorem directDecls_sublist (t : Tree) : List.Sublist t.directDecls t.labels := by
  obtain ⟨n, cs⟩ := t
  rw [Rose.labels_node]
  refine List.Sublist.cons _ (List.Sublist.flatMap_right _ fun block _ => ?_)
  obtain ⟨blockNode, stmts⟩ := block
  rw [Rose.labels_node]
  exact (declStmts_sublist stmts).cons _

/-- The meta calculations of a program are the ones that the grammar derives. -/
theorem IsProgram.derived_metaCalculationStmt {t : Tree} (ht : t.IsProgram) :
    ∀ u ∈ t.subtrees, Tree.kind u = .metaCalculationStmt → ∃ depth, derived depth u = true := by
  intro u hu hk
  obtain ⟨n, cs⟩ := t
  rcases Rose.mem_subtrees_node.1 hu with rfl | ⟨c, hc, hin⟩
  · exact absurd (hk.symm.trans ht.kind) (fun h => by cases h)
  have htop : derivedTopLevel c = true := ht.topLevel c hc
  obtain ⟨⟨id, data⟩, ds⟩ := c
  rcases Rose.mem_subtrees_node.1 hin with rfl | ⟨d, hd, hbelow⟩
  · cases data with
    | metaCalculationStmt => cases ds <;> cases htop
    | _ => cases hk
  · cases data with
    | functionDecl name =>
      exact derived_subtree d (derivedAll_iff.1 (Bool.and_eq_true_iff.1 htop).2 d hd) u hbelow
    | metaDecl name =>
      match ds, htop, hd with
      | [args, contribution], htop, hd =>
        obtain ⟨hargs, hcontribution⟩ := Bool.and_eq_true_iff.1 htop
        rcases List.mem_cons.1 hd with rfl | hd
        · exact derived_subtree _ hargs u hbelow
        · rw [List.mem_singleton.1 hd] at hbelow
          exact derived_subtree _ hcontribution u hbelow
    | _ => cases ds <;> cases htop

/-- The block of a meta calculation. -/
theorem derived_metaCalculationStmt {depth : MetaDepth} {t : Tree} (hs : t.WellShaped)
    (hd : derived depth t = true) (hk : t.kind = .metaCalculationStmt) :
    ∃ n block cs, t = .node n [.node block cs] ∧ n.data = .metaCalculationStmt ∧
      block.data = .unscopedCompoundStmt ∧
      (∀ c ∈ cs, MetaDepth.isStatement (kind c) = true) ∧ derivedAll .depthNone cs = true ∧
      ∀ c ∈ cs, WellShaped c := by
  obtain ⟨⟨id, data⟩, ds⟩ := t
  cases data <;> try cases hk
  obtain ⟨⟨⟨blockId, blockData⟩, cs⟩, rfl, _⟩ := hs.metaCalculationStmt rfl
  obtain ⟨hblock, hd⟩ := Bool.and_eq_true_iff.1 hd
  have hkind : blockData.kind = .unscopedCompoundStmt := by
    have := (Bool.and_eq_true_iff.1 hblock).2
    exact eq_of_beq (List.all_eq_true.1 this _ List.mem_cons_self)
  cases blockData <;> try cases hkind
  have hd : derived .depthNone (.node ⟨blockId, .unscopedCompoundStmt⟩ cs) = true :=
    derivedAll_iff.1 hd _ List.mem_cons_self
  obtain ⟨hstmts, hd⟩ := Bool.and_eq_true_iff.1 hd
  have hcs := (wellShaped_node.1 ((wellShaped_node.1 hs).2 _ List.mem_cons_self)).2
  exact ⟨_, _, cs, rfl, rfl, rfl, List.all_eq_true.1 hstmts, hd, hcs⟩

end Tree

/-! ## What the resolver adds -/

namespace Resolution

open Environment Swy.Tree

theorem env_resolveAll {cs : List Tree} {c : Bool}
    (h : ∀ t ∈ cs, ∀ r, (resolve c t r).2.env = r.env) (r : Resolution) :
    (resolveAll c cs r).2.env = r.env := by
  induction cs generalizing r with
  | nil => rfl
  | cons t ts ih =>
    calc (resolveAll c ts (resolve c t r).2).2.env
        = (resolve c t r).2.env := ih (fun u hu => h u (List.mem_cons_of_mem _ hu)) _
      _ = r.env := h t List.mem_cons_self r

/-- An expression adds no name. -/
theorem env_resolve_expr (t : Tree) (hs : t.WellShaped) (hk : t.kind.isExprNode = true) (c : Bool)
    (r : Resolution) : (resolve c t r).2.env = r.env := by
  induction t using Rose.ind generalizing r with
  | h n cs ih =>
    obtain ⟨hfit, hcs⟩ := wellShaped_node.1 hs
    have all : (∀ k ∈ cs.map Tree.kind, k.isExprNode = true) →
        ∀ r, (resolveAll c cs r).2.env = r.env := fun h r =>
      env_resolveAll (fun t ht => ih t ht (hcs t ht) (h _ (List.mem_map_of_mem ht))) r
    obtain ⟨id, data⟩ := n
    cases data with
    | declRefExpr name =>
      simp only [resolve]
      split
      · rfl
      · split <;> rfl
    | integerLiteralExpr | booleanLiteralExpr | erroneousExpr =>
      rw [show cs = [] from hs.leaf rfl]
      rfl
    | binaryOperatorExpr | callOperatorExpr | metaInstantiationExpr =>
      exact all (ASTKind.isExprNode_of_fits hfit hk) r
    | _ => cases hk

/-- A declaration that causes no error adds its name. -/
theorem env_declare_of_ok {n : Node} {r : Resolution} (hn : n.kind.isNamedDeclContext = true)
    (he : (r.declare n).errors = []) : (r.declare n).env = ofDecls [n] ++ r.env := by
  have hname : n.name?.isSome = true := (n.data.isSome_name?).trans hn
  obtain ⟨name, hname⟩ := Option.isSome_iff_exists.1 hname
  rw [ofDecls_singleton hname]
  simp only [declare, hname] at he ⊢
  split
  · rfl
  · rename_i hreject
    rw [if_neg hreject] at he
    exact absurd (List.append_eq_nil_iff.1 he).2 (List.cons_ne_nil _ _)

/-- Outside of meta statements, a statement adds the name it declares and no other one. -/
theorem env_resolve_stmt (t : Tree) (hs : t.WellShaped) (hd : t.derived .depthNone = true)
    (hk : MetaDepth.isStatement t.kind = true) (r : Resolution)
    (he : (resolve false t r).2.errors = []) :
    (resolve false t r).2.env = ofDecls (declStmts [t]) ++ r.env := by
  obtain ⟨⟨id, data⟩, cs⟩ := t
  obtain ⟨hfit, hcs⟩ := wellShaped_node.1 hs
  have exprs : (∀ c ∈ cs, (Tree.kind c).isExprNode = true) →
      ∀ r, (resolveAll false cs r).2.env = r.env := fun h =>
    env_resolveAll fun t ht r => env_resolve_expr t (hcs t ht) (h t ht) false r
  cases data with
  | compoundStmt => rfl
  | returnStmt =>
    refine exprs ?_ r
    match cs, hfit with
    | [], _ => exact fun c hc => absurd hc List.not_mem_nil
    | [expr], hfit => exact List.forall_mem_singleton.2 hfit
  | expressionStmt =>
    refine exprs ?_ r
    match cs, hfit with
    | [expr], hfit => exact List.forall_mem_singleton.2 hfit
  | declStmt name =>
    have henv : (resolveAll false cs r).2.env = r.env := by
      refine exprs ?_ r
      match cs, hfit with
      | [expr], hfit => exact List.forall_mem_singleton.2 hfit
    calc (declare ⟨id, .declStmt name⟩ (resolveAll false cs r).2).env
        = ofDecls [⟨id, .declStmt name⟩] ++ (resolveAll false cs r).2.env :=
          env_declare_of_ok rfl he
      _ = ofDecls (declStmts [.node ⟨id, .declStmt name⟩ cs]) ++ r.env := by rw [henv]; rfl
  | ifStmt =>
    have hbranches := (Bool.and_eq_true_iff.1 hd).1
    refine env_resolveAll (fun c hc r => ?_) r
    have branch : ∀ c : Tree, c.kind = .compoundStmt → (resolve false c r).2.env = r.env := by
      rintro ⟨⟨_, data⟩, _⟩ hk
      cases data <;> try cases hk
      rfl
    match cs, hfit, hbranches with
    | expr :: branches, hfit, hbranches =>
      rcases List.mem_cons.1 hc with rfl | hc
      · refine env_resolve_expr _ (hcs _ List.mem_cons_self) ?_ false r
        match branches, hfit with
        | [_], hfit => exact (Bool.and_eq_true_iff.1 hfit).1
        | [_, _], hfit => exact (Bool.and_eq_true_iff.1 (Bool.and_eq_true_iff.1 hfit).1).1
      · exact branch c (eq_of_beq (List.all_eq_true.1 hbranches c hc))
  | metaIfStmt | metaCalculationStmt => cases cs <;> cases hd
  | _ => cases hk

/-- A list of statements adds the names of its declaration statements. -/
theorem env_resolve_stmts (cs : List Tree) (hs : ∀ c ∈ cs, Tree.WellShaped c)
    (hd : derivedAll .depthNone cs = true)
    (hk : ∀ c ∈ cs, MetaDepth.isStatement (Tree.kind c) = true) (r : Resolution)
    (he : (resolveAll false cs r).2.errors = []) :
    (resolveAll false cs r).2.env = ofDecls (declStmts cs) ++ r.env := by
  induction cs generalizing r with
  | nil => rfl
  | cons t ts ih =>
    have hfirst : (resolve false t r).2.errors = [] :=
      errors_resolveAll (fun u _ => errors_resolve u) he
    have first := env_resolve_stmt t (hs t List.mem_cons_self)
      (derivedAll_iff.1 hd t List.mem_cons_self) (hk t List.mem_cons_self) r hfirst
    have rest := ih (fun c hc => hs c (List.mem_cons_of_mem _ hc))
      (derivedAll_iff.2 fun c hc => derivedAll_iff.1 hd c (List.mem_cons_of_mem _ hc))
      (fun c hc => hk c (List.mem_cons_of_mem _ hc)) (resolve false t r).2 he
    rw [← List.singleton_append (l := ts), declStmts_append, ofDecls_append, List.append_assoc,
      ← first]
    exact rest

/-- What was added on top of an environment. -/
theorem added_eq {r : Resolution} {env : Environment} {ns : List Node}
    (hn : ∀ n ∈ ns, n.kind.isNamedDeclContext = true) (h : r.env = ofDecls ns ++ env) :
    r.added env = ns := by
  rw [added, h, List.length_append, Nat.add_sub_cancel, List.take_left, map_snd_ofDecls hn,
    List.reverse_reverse]

/-- A meta calculation adds the declarations of its block, and exports what it adds. -/
theorem resolve_metaCalculationStmt {depth : MetaDepth} {t : Tree} (hs : t.WellShaped)
    (hd : derived depth t = true) (hk : t.kind = .metaCalculationStmt) (c : Bool) (r : Resolution)
    (he : (resolve c t r).2.errors = []) :
    (resolve c t r).1.label.exportedDecls = t.directDecls ∧
      (resolve c t r).2.env = ofDecls t.directDecls ++ r.env := by
  obtain ⟨⟨id, data⟩, ⟨blockId, blockData⟩, cs, rfl, hdata, hblock, hstmts, hderived, hcs⟩ :=
    derived_metaCalculationStmt hs hd hk
  cases hdata
  cases hblock
  have hdirect : directDecls (.node ⟨id, .metaCalculationStmt⟩
      [.node ⟨blockId, .unscopedCompoundStmt⟩ cs]) = declStmts cs := List.append_nil _
  have henv : (resolveAll false cs r).2.env = ofDecls (declStmts cs) ++ r.env :=
    env_resolve_stmts cs hcs hderived hstmts r he
  rw [hdirect]
  exact ⟨added_eq (named_declStmts cs) henv, henv⟩

/-! ## What the calculations of a tree export -/

/-- Every meta calculation exports its direct declarations. -/
def ExportsDirect (a : AST) : Prop :=
  ∀ m ∈ a.subtrees, AST.kind m = .metaCalculationStmt →
    m.label.exportedDecls = (AST.shape m).directDecls

theorem exportsDirect_node {n : ASTNode} {cs : List AST} (hn : n.node.kind ≠ .metaCalculationStmt)
    (h : ∀ c ∈ cs, ExportsDirect c) : ExportsDirect (.node n cs) := by
  intro m hm hk
  rcases Rose.mem_subtrees_node.1 hm with rfl | ⟨c, hc, hm⟩
  · exact absurd hk hn
  · exact h c hc m hm hk

theorem exportsDirect_resolveAll {cs : List Tree} {c : Bool} {r : Resolution}
    (h : ∀ t ∈ cs, ∀ c r, (resolve c t r).2.errors = [] → ExportsDirect (resolve c t r).1)
    (he : (resolveAll c cs r).2.errors = []) : ∀ a ∈ (resolveAll c cs r).1, ExportsDirect a := by
  induction cs generalizing r with
  | nil => exact fun _ h => absurd h List.not_mem_nil
  | cons t ts ih =>
    intro a ha
    rcases List.mem_cons.1 ha with rfl | ha
    · exact h t List.mem_cons_self c r (errors_resolveAll (fun u _ => errors_resolve u) he)
    · exact ih (fun u hu => h u (List.mem_cons_of_mem t hu)) he a ha

/-- Resolving a tree of the grammar without an error makes its meta calculations export their direct
declarations. -/
theorem exportsDirect_resolve (t : Tree) (hs : t.WellShaped)
    (hd : ∀ u ∈ t.subtrees, Tree.kind u = .metaCalculationStmt → ∃ depth, derived depth u = true)
    (c : Bool) (r : Resolution) (he : (resolve c t r).2.errors = []) :
    ExportsDirect (resolve c t r).1 := by
  induction t using Rose.ind generalizing c r with
  | h n cs ih =>
    obtain ⟨hfit, hcs⟩ := wellShaped_node.1 hs
    have below : ∀ t ∈ cs, ∀ c r, (resolve c t r).2.errors = [] →
        ExportsDirect (resolve c t r).1 := fun t ht =>
      ih t ht (hcs t ht) fun u hu => hd u (Rose.mem_subtrees_node.2 (.inr ⟨t, ht, hu⟩))
    have all : ∀ c r, (resolveAll c cs r).2.errors = [] →
        ∀ a ∈ (resolveAll c cs r).1, ExportsDirect a := fun c r => exportsDirect_resolveAll below
    have none : ∀ a ∈ ([] : List AST), ExportsDirect a := fun _ h => absurd h List.not_mem_nil
    have split : ∀ {d ds}, cs = d :: ds → ∀ c c' r,
        (resolveAll c' ds (resolve c d r).2).2.errors = [] →
        ∀ a ∈ (resolve c d r).1 :: (resolveAll c' ds (resolve c d r).2).1, ExportsDirect a := by
      rintro d ds rfl c c' r he a ha
      rcases List.mem_cons.1 ha with rfl | ha
      · exact below d List.mem_cons_self c r (errors_resolveAll (fun u _ => errors_resolve u) he)
      · exact exportsDirect_resolveAll (fun t ht => below t (List.mem_cons_of_mem _ ht)) he a ha
    have hroot := hd _ (Rose.mem_subtrees_self _)
    obtain ⟨id, data⟩ := n
    cases data with
    | namedArgumentDecl name => exact exportsDirect_node (fun hk => by cases hk) none
    | metaDecl name =>
      cases cs with
      | nil => exact exportsDirect_node (fun hk => by cases hk) none
      | cons args contribution =>
        exact exportsDirect_node (fun hk => by cases hk) (split rfl c true r he)
    | declStmt name =>
      refine exportsDirect_node (fun hk => by cases hk) (all c r ?_)
      simp only [resolve] at he
      split at he
      · exact he
      · exact errors_declare he
    | metaIfStmt =>
      cases cs with
      | nil => exact exportsDirect_node (fun hk => by cases hk) none
      | cons expression branches =>
        exact exportsDirect_node (fun hk => by cases hk) (split rfl false c r he)
    | metaCalculationStmt =>
      obtain ⟨depth, hderived⟩ := hroot rfl
      intro m hm hk
      rcases Rose.mem_subtrees_node.1 hm with rfl | ⟨a, ha, hm⟩
      · have hshape := resolve_shape _ hs c r
        have hexports := (resolve_metaCalculationStmt hs hderived rfl c r he).1
        simp only [resolve] at hshape hexports ⊢
        rw [hshape]
        exact hexports
      · exact all false r he a ha m hm hk
    | declRefExpr name =>
      simp only [resolve]
      split
      · exact exportsDirect_node (fun hk => by cases hk) none
      · split <;> exact exportsDirect_node (fun hk => by cases hk) none
    | _ => exact exportsDirect_node (fun hk => by cases hk) (all _ _ he)

end Resolution

/-! ## What the reader records -/

namespace ASTLayoutReader

open BasicASTBuilder

/-- Reading a meta calculation without an error. -/
theorem readTree_metaCalculationStmt {similarTo : ScopeChain → Identifier → Option Node}
    {depth : MetaDepth} {t : Tree} (hs : t.WellShaped) (hd : t.derived depth = true)
    (hk : t.kind = .metaCalculationStmt) {b : BasicASTBuilder} (hok : (readTree similarTo t b).2.Ok)
    (he : hasErrors (readTree similarTo t b).2.diagnostics = false) :
    (readTree similarTo t b).1.label.exportedDecls = t.directDecls ∧
      (readTree similarTo t b).2.currentScope.env =
        Environment.ofDecls t.directDecls ++ b.currentScope.env := by
  have sim := readTree_resolve t hs b hok
  have herrors : (b.resolution.resolve b.isInMetaDeclMode t).2.errors = [] := by
    rw [← sim.state]
    refine List.filter_eq_nil_iff.2 fun d hd herror => ?_
    exact Bool.false_ne_true (he.symm.trans (List.any_eq_true.2 ⟨d, hd, herror⟩))
  obtain ⟨hexports, henv⟩ := Resolution.resolve_metaCalculationStmt hs hd hk _ _ herrors
  rw [← sim.ast] at hexports
  rw [← sim.state] at henv
  exact ⟨hexports, henv⟩

/-- Meta calculations export their own variables. In every program that is accepted, every meta
calculation exports the declaration statements that stand directly in its block, in their order and
each of them once. Wherever a meta calculation is read without an error, exactly these are visible
afterwards, on top of what was visible before. -/
theorem metaCalculationStmt_exports (similarTo : ScopeChain → Identifier → Option Node) :
    (∀ (t : Tree) (a : AST) (s : State), t.IsProgram →
      AcceptsUnit similarTo .compilationUnit t.encode .empty a s →
      ∀ m ∈ a.subtrees, AST.kind m = .metaCalculationStmt →
        m.label.exportedDecls = (AST.shape m).directDecls ∧ m.label.exportedDecls.Nodup) ∧
    (∀ (depth : MetaDepth) (t : Tree) (b : BasicASTBuilder), t.WellShaped →
      t.derived depth = true → t.kind = .metaCalculationStmt → (readTree similarTo t b).2.Ok →
      hasErrors (readTree similarTo t b).2.diagnostics = false →
        (readTree similarTo t b).1.label.exportedDecls = t.directDecls ∧
        (readTree similarTo t b).2.currentScope.env =
          Environment.ofDecls t.directDecls ++ b.currentScope.env) := by
  constructor
  · intro t a s ht haccept m hm hk
    obtain ⟨hresolve, herrors⟩ := haccept.resolve
    have hshape := haccept.shape ht.wellShaped ht.kind
    rw [hshape] at hresolve herrors
    have hexports := Resolution.exportsDirect_resolve t ht.wellShaped
      ht.derived_metaCalculationStmt false _ herrors m (by rwa [hresolve]) hk
    have hnodup : (AST.shape m).labels.Nodup := by
      have hprogram : a.shape.labels.Nodup := hshape ▸ ht.distinct.of_map
      rw [AST.shape, Rose.labels_map] at hprogram ⊢
      exact ((Rose.labels_sublist hm).map ASTNode.node).nodup hprogram
    exact ⟨hexports, hexports ▸ (Tree.directDecls_sublist _).nodup hnodup⟩
  · exact fun depth t b hs hd hk hok he => readTree_metaCalculationStmt hs hd hk hok he

/-- `m<int n> -> { meta { int x = n; { int y = x; } } m() int -> return x; }` exports `x` only. -/
theorem metaCalculationStmt_exports_nested :
    (∃ (t : Tree) (a : AST) (s : State), t.IsProgram ∧
      AcceptsUnit (fun _ _ => none) .compilationUnit t.encode .empty a s ∧
      ∀ m ∈ a.subtrees, AST.kind m = .metaCalculationStmt →
        m.label.exportedDecls = (AST.shape m).directDecls ∧ m.label.exportedDecls.Nodup) ∧
    ∃ (t : Tree) (b : BasicASTBuilder), t.directDecls.map Node.name? = [some "x"] ∧
      (readTree (fun _ _ => none) t b).1.label.exportedDecls = t.directDecls ∧
      (readTree (fun _ _ => none) t b).2.currentScope.env =
        Environment.ofDecls t.directDecls ++ b.currentScope.env := by
  let calculation : Tree := .node ⟨5, .metaCalculationStmt⟩ [.node ⟨6, .unscopedCompoundStmt⟩
    [.node ⟨7, .declStmt "x"⟩ [.node ⟨8, .declRefExpr "n"⟩ []],
      .node ⟨9, .compoundStmt⟩ [.node ⟨10, .declStmt "y"⟩ [.node ⟨11, .declRefExpr "x"⟩ []]]]]
  let t : Tree := .node ⟨0, .compilationUnit⟩ [.node ⟨1, .metaDecl "m"⟩
    [.node ⟨2, .argumentDeclList⟩ [.node ⟨3, .namedArgumentDecl "n"⟩ []],
      .node ⟨4, .metaContribution⟩ [calculation,
        .node ⟨12, .functionDecl "m"⟩ [.node ⟨13, .argumentDeclList⟩ [],
          .node ⟨14, .anonymousArgumentDecl⟩ [],
          .node ⟨15, .returnStmt⟩ [.node ⟨16, .declRefExpr "x"⟩ []]]]]]
  let b : BasicASTBuilder := { BasicASTBuilder.start .empty with
    currentScope := [.allocated false [("n", ⟨3, .namedArgumentDecl "n"⟩)]]
    metaDeclMode := [.insideMetaDecl] }
  have hread := consume_complete (fun _ _ => none) (p := .kind .compilationUnit) (t := t)
    ⟨by decide, .inl rfl⟩ [] (.start .empty)
  rw [List.append_nil] at hread
  have haccept := AcceptsUnit.mk hread (by decide) (by decide)
  have hprogram : t.IsProgram := ⟨rfl, by decide, by decide, by decide⟩
  obtain ⟨hunit, hcalculation⟩ := metaCalculationStmt_exports fun _ _ => none
  exact ⟨⟨t, _, _, hprogram, haccept, hunit t _ _ hprogram haccept⟩, calculation, b, by decide,
    hcalculation .depthGlobalScope calculation b (by decide) (by decide) rfl
      (by decide) (by decide)⟩

end ASTLayoutReader

end Swy
