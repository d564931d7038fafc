import Swy.AST.Node

/-!
# The trees of a program

Which trees the parser writes: `LocalScopeVisitor` writes one node for every node of the parse tree,
so the trees are given by the productions of `GeneratedParser.g4`. What the grammar allows depends
on the depth in a meta declaration (`MetaDepth`): functions and meta statements at its global scope,
statements and meta statements inside of a contributed function, and no meta statement in the
condition of a meta-if, in a meta calculation or outside of a meta declaration.
-/

namespace Swy

open Library

/-- `MetaDepth`. -/
inductive MetaDepth where
  | depthGlobalScope
  | depthLocalScope
  | depthNone
deriving DecidableEq, Repr

namespace MetaDepth

/-- A meta statement is allowed. -/
def allowsMeta : MetaDepth → Bool
  | depthGlobalScope | depthLocalScope => true
  | depthNone => false

/-- The nodes of `statement`. -/
def isStatement (k : ASTKind) : Bool := k.isStmtNode && k != .unscopedCompoundStmt

/-- The nodes of `metaScopeNode`. -/
def isMetaScopeNode : MetaDepth → ASTKind → Bool
  | depthGlobalScope, k => k == .functionDecl || k == .metaCalculationStmt || k == .metaIfStmt
  | depthLocalScope, k => isStatement k
  | depthNone, _ => false

end MetaDepth

namespace Tree

open MetaDepth

mutual
/-- The tree is derived inside of a meta declaration at the given depth, or at `depthNone` outside
of any. Read together with `WellShaped`, which says what the children of a node are. -/
def derived (depth : MetaDepth) : Tree → Bool
  | .node n cs =>
    match n.kind with
    | .compilationUnit | .metaUnit | .metaDecl | .globalConstantDecl | .erroneousExpr => false
    | .functionDecl =>
      depth == .depthGlobalScope && cs.all (fun c => Tree.kind c != .unscopedCompoundStmt) &&
        derivedAll .depthLocalScope cs
    | .metaContribution =>
      cs.all (fun c => depth.isMetaScopeNode (Tree.kind c)) && derivedAll depth cs
    | .metaIfStmt =>
      depth.allowsMeta &&
        match cs with
        | [] => true
        | expression :: branches => derived .depthNone expression && derivedAll depth branches
    | .metaCalculationStmt =>
      depth.allowsMeta && cs.all (fun c => Tree.kind c == .unscopedCompoundStmt) &&
        derivedAll .depthNone cs
    | .unscopedCompoundStmt | .compoundStmt =>
      cs.all (fun c => isStatement (Tree.kind c)) && derivedAll depth cs
    | .ifStmt => cs.tail.all (fun c => Tree.kind c == .compoundStmt) && derivedAll depth cs
    | .callOperatorExpr =>
      cs.head?.all (fun c => Tree.kind c == .declRefExpr || Tree.kind c == .metaInstantiationExpr)
        && derivedAll depth cs
    | _ => derivedAll depth cs
/-- Every tree of the list is derived at the given depth. -/
def derivedAll (depth : MetaDepth) : List Tree → Bool
  | [] => true
  | c :: cs => derived depth c && derivedAll depth cs
end

theorem derivedAll_iff {depth : MetaDepth} {cs : List Tree} :
    derivedAll depth cs = true ↔ ∀ c ∈ cs, derived depth c = true := by
  induction cs with
  | nil => simp [derivedAll]
  | cons c cs ih => rw [derivedAll, Bool.and_eq_true, ih, List.forall_mem_cons]

/-- A function or a meta declaration of a compilation unit. -/
def derivedTopLevel : Tree → Bool
  | .node n cs =>
    match n.kind, cs with
    | .functionDecl, cs =>
      cs.all (fun c => Tree.kind c != .unscopedCompoundStmt) && derivedAll .depthNone cs
    | .metaDecl, [args, contribution] =>
      derived .depthNone args && derived .depthGlobalScope contribution
    | _, _ => false

/-- The tree of a program: one compilation unit of functions and meta declarations. Every node was
allocated on its own. -/
structure IsProgram (t : Tree) : Prop where
  kind : t.kind = .compilationUnit
  wellShaped : t.WellShaped
  topLevel : ∀ c ∈ t.children, derivedTopLevel c = true
  distinct : (t.labels.map Node.id).Nodup

/-- Every subtree of a derived tree is derived, at some depth. -/
theorem derived_subtree {depth : MetaDepth} (t : Tree) (h : derived depth t = true) :
    ∀ u ∈ t.subtrees, ∃ depth', derived depth' u = true := by
  induction t using Rose.ind generalizing depth with
  | h n cs ih =>
    have all : ∀ {d}, derivedAll d cs = true →
        ∀ u, (∃ c ∈ cs, u ∈ c.subtrees) → ∃ depth', derived depth' u = true :=
      fun hd u ⟨c, hc, hu⟩ => ih c hc (derivedAll_iff.1 hd c hc) u hu
    intro u hu
    obtain ⟨id, data⟩ := n
    rcases Rose.mem_subtrees_node.1 hu with rfl | hbelow
    · exact ⟨depth, h⟩
    · cases data with
      | compilationUnit | metaUnit | metaDecl | globalConstantDecl | erroneousExpr => cases h
      | functionDecl | metaCalculationStmt => exact all (Bool.and_eq_true_iff.1 h).2 u hbelow
      | metaContribution | unscopedCompoundStmt | compoundStmt | ifStmt | callOperatorExpr =>
        exact all (Bool.and_eq_true_iff.1 h).2 u hbelow
      | metaIfStmt =>
        obtain ⟨c, hc, hsub⟩ := hbelow
        match cs, h with
        | expression :: branches, h =>
          obtain ⟨he, hb⟩ := Bool.and_eq_true_iff.1 (Bool.and_eq_true_iff.1 h).2
          rcases List.mem_cons.1 hc with rfl | hc
          · exact ih _ List.mem_cons_self he u hsub
          · exact ih c (List.mem_cons_of_mem _ hc) (derivedAll_iff.1 hb c hc) u hsub
      | _ => exact all h u hbelow

/-- Units and meta declarations only occur at the top. -/
theorem derived_label {depth : MetaDepth} (t : Tree) (h : derived depth t = true) :
    ∀ n ∈ t.labels, n.kind.isUnitNode = false ∧ n.kind ≠ .metaDecl := by
  induction t using Rose.ind generalizing depth with
  | h n cs ih =>
    have all : ∀ {d}, derivedAll d cs = true →
        ∀ m, (∃ c ∈ cs, m ∈ c.labels) → m.kind.isUnitNode = false ∧ m.kind ≠ .metaDecl :=
      fun hd m ⟨c, hc, hm⟩ => ih c hc (derivedAll_iff.1 hd c hc) m hm
    intro m hm
    obtain ⟨id, data⟩ := n
    rcases Rose.mem_labels_node.1 hm with rfl | hbelow
    · cases data <;> first | cases h | exact ⟨rfl, fun hk => by cases hk⟩
    · cases data with
      | compilationUnit | metaUnit | metaDecl | globalConstantDecl | erroneousExpr => cases h
      | functionDecl | metaCalculationStmt => exact all (Bool.and_eq_true_iff.1 h).2 m hbelow
      | metaContribution | unscopedCompoundStmt | compoundStmt | ifStmt | callOperatorExpr =>
        exact all (Bool.and_eq_true_iff.1 h).2 m hbelow
      | metaIfStmt =>
        obtain ⟨c, hc, hlabel⟩ := hbelow
        match cs, h with
        | expression :: branches, h =>
          obtain ⟨he, hb⟩ := Bool.and_eq_true_iff.1 (Bool.and_eq_true_iff.1 h).2
          rcases List.mem_cons.1 hc with rfl | hc
          · exact ih _ List.mem_cons_self he m hlabel
          · exact ih c (List.mem_cons_of_mem _ hc) (derivedAll_iff.1 hb c hc) m hlabel
      | _ => exact all h m hbelow

/-- There is no unit in a function or a meta declaration. -/
theorem derivedTopLevel_label {t : Tree} (h : derivedTopLevel t = true) :
    ∀ n ∈ t.labels, n.kind.isUnitNode = false := by
  obtain ⟨⟨id, data⟩, cs⟩ := t
  intro n hn
  rcases Rose.mem_labels_node.1 hn with rfl | ⟨c, hc, hin⟩
  · cases data <;> first | rfl | (cases cs <;> cases h)
  · cases data with
    | functionDecl name =>
      exact (derived_label c (derivedAll_iff.1 (Bool.and_eq_true_iff.1 h).2 c hc) n hin).1
    | metaDecl name =>
      match cs, h with
      | [args, contribution], h =>
        obtain ⟨hargs, hcontribution⟩ := Bool.and_eq_true_iff.1 h
        rcases List.mem_cons.1 hc with rfl | hc
        · exact (derived_label _ hargs n hin).1
        · rw [List.mem_singleton.1 hc] at hin
          exact (derived_label _ hcontribution n hin).1
    | _ => cases cs <;> cases h

end Tree

/-! ## Statements and expressions -/

namespace ASTKind

/-- A statement or an expression. -/
def isCodeNode (k : ASTKind) : Bool := k.isStmtNode || k.isExprNode

theorem isCodeNode_of_stmt {k : ASTKind} (h : k.isStmtNode = true) : k.isCodeNode = true := by
  rw [isCodeNode, h, Bool.true_or]

theorem isCodeNode_of_expr {k : ASTKind} (h : k.isExprNode = true) : k.isCodeNode = true := by
  rw [isCodeNode, h, Bool.or_true]

/-- The children of statements and expressions are statements and expressions, except for the
contributions of a meta-if. -/
theorem isCodeNode_of_fits {k : ASTKind} {ks : List ASTKind} (h : k.fits ks = true)
    (hk : k.isCodeNode = true) (hm : k ≠ .metaIfStmt) : ∀ k' ∈ ks, k'.isCodeNode = true := by
  have hstmt := @isCodeNode_of_stmt
  have hexpr := @isCodeNode_of_expr
  have href : declRefExpr.isCodeNode = true := rfl
  unfold fits at h
  split at h <;> first | exact absurd hk Bool.false_ne_true | simp_all [List.all_eq_true]

theorem isExprNode_of_fits_metaIfStmt {k : ASTKind} {ks : List ASTKind}
    (h : metaIfStmt.fits (k :: ks) = true) : k.isExprNode = true := by
  match ks, h with
  | [_], h => exact (Bool.and_eq_true_iff.1 h).1
  | [_, _], h => exact (Bool.and_eq_true_iff.1 (Bool.and_eq_true_iff.1 h).1).1

end ASTKind

namespace Tree

/-- Without meta-ifs, all that is below statements and expressions is statements and
expressions. -/
theorem derived_depthNone (t : Tree) (hs : t.WellShaped) (h : derived .depthNone t = true)
    (hk : t.kind.isCodeNode = true) : ∀ n ∈ t.labels, n.kind.isCodeNode = true := by
  induction t using Rose.ind with
  | h n cs ih =>
    obtain ⟨hfit, hcs⟩ := wellShaped_node.1 hs
    intro m hm
    obtain ⟨id, data⟩ := n
    have all : data.kind ≠ .metaIfStmt → derivedAll .depthNone cs = true →
        ∀ m, (∃ c ∈ cs, m ∈ c.labels) → m.kind.isCodeNode = true := fun hn hd m ⟨c, hc, hm⟩ =>
      ih c hc (hcs c hc) (derivedAll_iff.1 hd c hc)
        (ASTKind.isCodeNode_of_fits hfit hk hn _ (List.mem_map_of_mem hc)) m hm
    rcases Rose.mem_labels_node.1 hm with rfl | hbelow
    · exact hk
    · cases data with
      | metaIfStmt => cases cs <;> cases h
      | metaCalculationStmt => cases h
      | unscopedCompoundStmt | compoundStmt | ifStmt | callOperatorExpr =>
        exact all (fun hk => by cases hk) (Bool.and_eq_true_iff.1 h).2 m hbelow
      | returnStmt | expressionStmt | declStmt | declRefExpr | integerLiteralExpr
      | booleanLiteralExpr | binaryOperatorExpr | metaInstantiationExpr =>
        exact all (fun hk => by cases hk) h m hbelow
      | _ => first | exact absurd hk Bool.false_ne_true | exact absurd h Bool.false_ne_true

/-- Below an argument list there are only arguments. -/
theorem labels_argumentDeclList {t : Tree} (hs : t.WellShaped) (hk : t.kind = .argumentDeclList) :
    ∀ n ∈ t.labels, n.kind = .argumentDeclList ∨ n.kind.isArgumentDecl = true := by
  obtain ⟨⟨id, data⟩, cs⟩ := t
  cases data <;> try cases hk
  obtain ⟨hfit, hcs⟩ := wellShaped_node.1 hs
  intro m hm
  rcases Rose.mem_labels_node.1 hm with rfl | ⟨c, hc, hm⟩
  · exact .inl rfl
  · have harg : (kind c).isArgumentDecl = true :=
      List.all_eq_true.1 hfit _ (List.mem_map_of_mem hc)
    have hw := hcs c hc
    obtain ⟨⟨id', data'⟩, ds⟩ := c
    cases data' <;> try cases harg
    all_goals
      match ds, (wellShaped_node.1 hw).1 with
      | [], _ =>
        rw [List.mem_singleton.1 hm]
        exact .inr rfl

end Tree

end Swy
