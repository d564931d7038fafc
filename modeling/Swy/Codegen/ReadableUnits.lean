import Swy.Codegen.Instantiation
import Swy.Parse.LayoutGrammar
import Swy.Parse.Stages
import Swy.Parse.VisibleDecls

/-!
# Which instantiations are readable

The reader accepts what an instantiation writes iff every function that was contributed has exactly
one body (`instantiatedLayout_readable_iff`). At every other place the splicing of meta statements
leaves what the productions of the reader describe, whatever the outcomes of the conditions are. The
only place where it may not is the body of a function: the grammar lets it be a meta statement,
which stands for any number of statements. Where no body is one, every instantiation is readable
(`instantiatedLayout_readable`).
-/

namespace Swy

open Library

/-! ## Spliced functions -/

namespace ASTKind

/-- The children of a node where a function may have any number of statements as its body. -/
def fitsSpliced : ASTKind → List ASTKind → Bool
  | functionDecl, args :: ks =>
    args == argumentDeclList &&
      (ks.all isStmtNode || ks.head?.any isArgumentDecl && ks.tail.all isStmtNode)
  | k, ks => k.fits ks

/-- Among the children of a function there is one statement. -/
def hasOneBody (k : ASTKind) (ks : List ASTKind) : Bool :=
  k != functionDecl || (ks.filter isStmtNode).length == 1

theorem fitsSpliced_of_ne {k : ASTKind} (h : k ≠ .functionDecl) (ks : List ASTKind) :
    k.fitsSpliced ks = k.fits ks := by
  cases k <;> first | exact absurd rfl h | rfl

theorem not_stmt_of_argument {k : ASTKind} (h : k.isArgumentDecl = true) :
    k.isStmtNode = false := by
  cases k <;> first | rfl | cases h

theorem not_intermediate_of_expr {k : ASTKind} (h : k.isExprNode = true) :
    k.isIntermediateNode = false := by
  cases k <;> first | rfl | cases h

/-- A node has the children of its production iff a function has one body. -/
theorem fits_iff_spliced {k : ASTKind} {ks : List ASTKind} :
    k.fits ks = true ↔ k.fitsSpliced ks = true ∧ k.hasOneBody ks = true := by
  by_cases hk : k = .functionDecl
  · subst hk
    have hlist : argumentDeclList.isStmtNode = false := rfl
    constructor
    · intro h
      match ks, h with
      | [args, body], h =>
        obtain ⟨hargs, hbody⟩ := Bool.and_eq_true_iff.1 h
        obtain rfl := eq_of_beq hargs
        simp [fitsSpliced, hasOneBody, hbody, hlist]
      | [args, ret, body], h =>
        obtain ⟨h, hbody⟩ := Bool.and_eq_true_iff.1 h
        obtain ⟨hargs, hret⟩ := Bool.and_eq_true_iff.1 h
        obtain rfl := eq_of_beq hargs
        simp [fitsSpliced, hasOneBody, hbody, hret, hlist, not_stmt_of_argument hret]
    · rintro ⟨h, hone⟩
      cases ks with
      | nil => cases h
      | cons args ks =>
        obtain ⟨hargs, h⟩ := Bool.and_eq_true_iff.1 h
        obtain rfl := eq_of_beq hargs
        have hcount : (ks.filter isStmtNode).length = 1 := by
          simpa [hasOneBody, hlist] using hone
        rcases Bool.or_eq_true_iff.1 h with hall | hret
        · rw [List.filter_eq_self.2 (List.all_eq_true.1 hall)] at hcount
          obtain ⟨body, rfl⟩ := List.length_eq_one_iff.1 hcount
          simpa [fits] using hall
        · cases ks with
          | nil => cases hret
          | cons ret ks =>
            obtain ⟨hhead, htail⟩ := Bool.and_eq_true_iff.1 hret
            have hargument : ret.isArgumentDecl = true := hhead
            have hall : ∀ k ∈ ks, k.isStmtNode = true := List.all_eq_true.1 htail
            rw [List.filter_cons_of_neg (by simp [not_stmt_of_argument hargument]),
              List.filter_eq_self.2 hall] at hcount
            obtain ⟨body, rfl⟩ := List.length_eq_one_iff.1 hcount
            simp [fits, hargument, hall body List.mem_cons_self]
  · rw [fitsSpliced_of_ne hk, hasOneBody, bne_iff_ne.2 hk]
    simp

/-- A node without a reduce marker has as many children as its kind says. -/
theorem length_of_fitsSpliced {k : ASTKind} {ks : List ASTKind} (h : k.fitsSpliced ks = true) :
    (k.isRequiringReduceMarker || ks.length == k.getKnownAmountOfChildren) = true := by
  by_cases hk : k = .functionDecl
  · rw [hk]
    rfl
  · rw [fitsSpliced_of_ne hk] at h
    unfold fits at h
    split at h <;> first | rfl | cases h

end ASTKind

/-! ## Forests of fields -/

/-- A tree with the children of its productions, up to the bodies of functions. -/
def IsSpliced (t : Rose NodeData) : Prop :=
  t.all (fun d cs => d.kind.fitsSpliced (cs.map fun c => c.label.kind)) = true

/-- Every function of the tree has one body. -/
def HasOneBody (t : Rose NodeData) : Prop :=
  t.all (fun d cs => d.kind.hasOneBody (cs.map fun c => c.label.kind)) = true

instance (t : Rose NodeData) : Decidable (HasOneBody t) := inferInstanceAs (Decidable (_ = true))

theorem isSpliced_node {d : NodeData} {cs : List (Rose NodeData)} :
    IsSpliced (.node d cs) ↔ d.kind.fitsSpliced (cs.map fun c => c.label.kind) = true ∧
      ∀ c ∈ cs, IsSpliced c := Rose.all_node

theorem hasOneBody_node {d : NodeData} {cs : List (Rose NodeData)} :
    HasOneBody (.node d cs) ↔ d.kind.hasOneBody (cs.map fun c => c.label.kind) = true ∧
      ∀ c ∈ cs, HasOneBody c := Rose.all_node

theorem kinds_map_data (cs : List Tree) :
    (cs.map (Rose.map Node.data)).map (fun c => c.label.kind) = cs.map Tree.kind := by
  rw [List.map_map]
  exact List.map_congr_left fun c _ => congrArg NodeData.kind (Rose.label_map Node.data c)

/-- A tree is well shaped iff it is spliced, and every function has one body. -/
theorem wellShaped_iff_spliced {t : Tree} :
    t.WellShaped ↔ IsSpliced (t.map Node.data) ∧ HasOneBody (t.map Node.data) := by
  induction t using Rose.ind with
  | h n cs ih =>
    have hkind : n.data.kind = n.kind := rfl
    rw [Rose.map_node, isSpliced_node, hasOneBody_node, Tree.wellShaped_node, kinds_map_data,
      hkind, ASTKind.fits_iff_spliced]
    simp only [List.forall_mem_map]
    constructor
    · rintro ⟨⟨hspliced, hone⟩, hcs⟩
      exact ⟨⟨hspliced, fun c hc => ((ih c hc).1 (hcs c hc)).1⟩,
        ⟨hone, fun c hc => ((ih c hc).1 (hcs c hc)).2⟩⟩
    · rintro ⟨⟨hspliced, hcs⟩, ⟨hone, hcs'⟩⟩
      exact ⟨⟨hspliced, hone⟩, fun c hc => (ih c hc).2 ⟨hcs c hc, hcs' c hc⟩⟩

/-- The encoding of a spliced tree is the encoding of no other one. -/
theorem ranked_of_spliced (t : Tree) (h : IsSpliced (t.map Node.data)) :
    t.Ranked Node.isNodeRequiringReduceMarker fun n => n.kind.getKnownAmountOfChildren := by
  induction t using Rose.ind with
  | h n cs ih =>
    rw [Rose.map_node, isSpliced_node, kinds_map_data] at h
    obtain ⟨hroot, hcs⟩ := h
    have hlength := ASTKind.length_of_fitsSpliced hroot
    rw [List.length_map] at hlength
    exact Rose.all_node.2 ⟨hlength, fun c hc => ih c hc (hcs _ (List.mem_map_of_mem hc))⟩

/-! ## What the nodes of a function stand for -/

section Expansion

variable {ctx : IRContext} {rt : Runtime}

/-- The fields of the nodes. -/
def AST.data (a : AST) : Rose NodeData := a.map fun n => n.node.data

theorem AST.map_data_shape (a : AST) : a.shape.map Node.data = a.data := by
  induction a using Rose.ind with
  | h n cs ih =>
    rw [AST.shape_node, Rose.map_node, AST.data, Rose.map_node, List.map_map]
    exact congrArg _ (List.map_congr_left ih)

/-- A tree without intermediate nodes stands for itself. -/
theorem expandAll_runtime {level : DepthLevel} {cs : List AST}
    (h : ∀ c ∈ cs, ∀ μ, expand ctx rt level c μ = ([c.data], μ)) (μ : Memory) :
    expandAll ctx rt level cs μ = (cs.map AST.data, μ) := by
  induction cs with
  | nil => rfl
  | cons c cs ih =>
    simp only [expandAll, h c List.mem_cons_self, ih fun d hd => h d (List.mem_cons_of_mem _ hd)]
    rfl

theorem expand_runtime (a : AST) (h : ∀ n ∈ a.labels, n.node.kind.isIntermediateNode = false)
    (level : DepthLevel) (μ : Memory) : expand ctx rt level a μ = ([a.data], μ) := by
  induction a using Rose.ind generalizing level μ with
  | h n cs ih =>
    have hroot := h n (Rose.mem_labels_node.2 (.inl rfl))
    have hcs (level : DepthLevel) (c : AST) (hc : c ∈ cs) (μ : Memory) :=
      ih c hc (fun m hm => h m (Rose.mem_labels_node.2 (.inr ⟨c, hc, hm⟩))) level μ
    obtain ⟨⟨id, data⟩, decl, exportedDecls⟩ := n
    have hself : (fun x : List (Rose NodeData) × Memory => ([Rose.node data x.1], x.2))
        (expandAll ctx rt (.below data.kind level) cs μ) =
          ([AST.data (.node ⟨⟨id, data⟩, decl, exportedDecls⟩ cs)], μ) := by
      rw [expandAll_runtime (hcs _), AST.data, Rose.map_node]
      rfl
    cases data with
    | metaDecl | metaUnit | metaContribution | metaIfStmt | metaCalculationStmt => cases hroot
    | _ => exact hself

/-- What a node of a function stands for: itself, or any number of statements. -/
structure ExpandsLocally (a : AST) (ts : List (Rose NodeData)) : Prop where
  spliced : ∀ t ∈ ts, IsSpliced t
  oneBody : ∀ t ∈ ts, HasOneBody t
  runtime : (AST.kind a).isIntermediateNode = false →
    ts.map (fun t => t.label.kind) = [AST.kind a]
  intermediate : (AST.kind a).isIntermediateNode = true → ∀ t ∈ ts, t.label.kind.isStmtNode = true

theorem ExpandsLocally.isStmtNode {a : AST} {ts : List (Rose NodeData)} (h : ExpandsLocally a ts)
    (ha : (AST.kind a).isIntermediateNode = true ∨ (AST.kind a).isStmtNode = true) :
    ∀ t ∈ ts, t.label.kind.isStmtNode = true := by
  intro t ht
  by_cases hk : (AST.kind a).isIntermediateNode = true
  · exact h.intermediate hk t ht
  · have hmem : t.label.kind ∈ ts.map fun t => t.label.kind := List.mem_map_of_mem ht
    rw [h.runtime (Bool.eq_false_iff.2 hk), List.mem_singleton] at hmem
    rw [hmem]
    exact ha.resolve_left hk

/-- The nodes of a list stand for what each of them stands for. -/
theorem mem_expandAll {level : DepthLevel} {cs : List AST} {μ : Memory} {t : Rose NodeData}
    (h : t ∈ (expandAll ctx rt level cs μ).1) :
    ∃ c ∈ cs, ∃ μ', t ∈ (expand ctx rt level c μ').1 := by
  induction cs generalizing μ with
  | nil => exact absurd h List.not_mem_nil
  | cons c cs ih =>
    rcases List.mem_append.1 h with h | h
    · exact ⟨c, List.mem_cons_self, μ, h⟩
    · obtain ⟨d, hd, hμ⟩ := ih h
      exact ⟨d, List.mem_cons_of_mem _ hd, hμ⟩

/-- Nodes that stand for one node each keep their kinds. -/
theorem kinds_expandAll {level : DepthLevel} {cs : List AST}
    (h : ∀ c ∈ cs, ∀ μ, (expand ctx rt level c μ).1.map (fun t => t.label.kind) = [AST.kind c])
    (μ : Memory) :
    (expandAll ctx rt level cs μ).1.map (fun t => t.label.kind) = cs.map AST.kind := by
  induction cs generalizing μ with
  | nil => rfl
  | cons c cs ih =>
    have hc := h c List.mem_cons_self μ
    have hcs := ih (fun d hd => h d (List.mem_cons_of_mem _ hd)) (expand ctx rt level c μ).2
    show ((expand ctx rt level c μ).1 ++ (expandAll ctx rt level cs _).1).map _ = _
    rw [List.map_append, hc, hcs]
    rfl

/-- The statements with statements below them. -/
def ASTKind.nestsStmts (k : ASTKind) : Bool :=
  k == .unscopedCompoundStmt || k == .compoundStmt || k == .ifStmt

/-- The children of other statements and of expressions are expressions. -/
theorem isExprNode_of_fits {k : ASTKind} {ks : List ASTKind} (h : k.fits ks = true)
    (hk : k.isCodeNode = true) (hinter : k.isIntermediateNode = false)
    (hstmts : k.nestsStmts = false) : ∀ k' ∈ ks, k'.isExprNode = true := by
  have href : ASTKind.declRefExpr.isExprNode = true := rfl
  unfold ASTKind.fits at h
  split at h
  all_goals
    first
      | exact absurd hk Bool.false_ne_true
      | exact absurd hinter.symm Bool.false_ne_true
      | exact absurd hstmts.symm Bool.false_ne_true
      | simp_all [List.all_eq_true]

theorem kinds_shape (cs : List AST) : (cs.map AST.shape).map Tree.kind = cs.map AST.kind := by
  rw [List.map_map]
  exact List.map_congr_left fun c _ => AST.kind_shape c

/-- The branches of a meta-if are contributions. -/
theorem kind_branch {branches : List Tree}
    (h : (∃ t : Tree, branches = [t] ∧ t.kind = .metaContribution) ∨
      ∃ t f : Tree, branches = [t, f] ∧ t.kind = .metaContribution ∧ f.kind = .metaContribution)
    {c : AST} (hc : c.shape ∈ branches) : AST.kind c = .metaContribution := by
  rw [← AST.kind_shape]
  rcases h with ⟨b, rfl, hb⟩ | ⟨b, b', rfl, hb, hb'⟩
  · rwa [List.mem_singleton.1 hc]
  · rcases List.mem_pair.1 hc with hc | hc
    · rwa [hc]
    · rwa [hc]

/-- A node of the runtime stage stands for itself. -/
theorem ExpandsLocally.contributed {n : ASTNode} {cs : List AST} {ts : List (Rose NodeData)}
    (hinter : n.node.kind.isIntermediateNode = false) (hne : n.node.kind ≠ .functionDecl)
    (hfit : n.node.kind.fits (ts.map fun t => t.label.kind) = true)
    (hts : ∀ t ∈ ts, IsSpliced t ∧ HasOneBody t) :
    ExpandsLocally (.node n cs) [.node n.node.data ts] := by
  have hkind : n.node.data.kind = n.node.kind := rfl
  have hspliced : IsSpliced (.node n.node.data ts) := by
    rw [isSpliced_node, hkind, ASTKind.fitsSpliced_of_ne hne]
    exact ⟨hfit, fun t ht => (hts t ht).1⟩
  have hone : HasOneBody (.node n.node.data ts) := by
    rw [hasOneBody_node, hkind, ASTKind.hasOneBody, bne_iff_ne.2 hne]
    exact ⟨rfl, fun t ht => (hts t ht).2⟩
  refine ⟨List.forall_mem_singleton.2 hspliced, List.forall_mem_singleton.2 hone, fun _ => rfl,
    fun h => ?_⟩
  rw [AST.kind_node, hinter] at h
  cases h

/-- The declaration of an exported variable in a function. -/
theorem introducedTree_local {μ : Memory} {decl : Node} {t : Rose NodeData}
    (h : introducedTree .insideFunctionDecl μ decl = some t) :
    IsSpliced t ∧ HasOneBody t ∧ t.label.kind = .declStmt := by
  obtain ⟨name, -, rfl⟩ := Option.map_eq_some_iff.1 h
  exact ⟨rfl, rfl, rfl⟩

/-- What stands in a function for a node: whatever the conditions are, splicing the meta statements
leaves statements where statements are, and every other node as it is. -/
theorem expand_local (a : AST) (hs : a.shape.WellShaped)
    (hd : Tree.derived .depthLocalScope a.shape = true)
    (hk : (AST.kind a).isCodeNode = true ∨ AST.kind a = .metaContribution) (μ : Memory) :
    ExpandsLocally a (expand ctx rt .insideFunctionDecl a μ).1 := by
  induction a using Rose.ind generalizing μ with
  | h n cs ih =>
    rw [AST.shape_node] at hs hd
    obtain ⟨hfit, hcs⟩ := Tree.wellShaped_node.1 hs
    rw [kinds_shape] at hfit
    have hstmt {k : ASTKind} (h : k.isStmtNode = true) :
        k.isCodeNode = true ∨ k = .metaContribution := .inl (ASTKind.isCodeNode_of_stmt h)
    have each {c : AST} (hc : c ∈ cs) (hd : Tree.derived .depthLocalScope c.shape = true) :=
      ih c hc (hcs _ (List.mem_map_of_mem hc)) hd
    have hall (hd : Tree.derivedAll .depthLocalScope (cs.map AST.shape) = true) (c : AST)
        (hc : c ∈ cs) : Tree.derived .depthLocalScope c.shape = true :=
      Tree.derivedAll_iff.1 hd _ (List.mem_map_of_mem hc)
    obtain ⟨⟨id, data⟩, decl, exportedDecls⟩ := n
    have hbelow : DepthLevel.below data.kind .insideFunctionDecl = .insideFunctionDecl := ite_self _
    -- Children that are statements may be spliced.
    have statements (hd : Tree.derivedAll .depthLocalScope (cs.map AST.shape) = true)
        (hcs : ∀ c ∈ cs, (AST.kind c).isStmtNode = true) (μ : Memory) :
        ∀ t ∈ (expandAll ctx rt .insideFunctionDecl cs μ).1,
          IsSpliced t ∧ HasOneBody t ∧ t.label.kind.isStmtNode = true := by
      intro t ht
      obtain ⟨c, hc, μ', ht⟩ := mem_expandAll ht
      have hchild := each hc (hall hd c hc) (hstmt (hcs c hc)) μ'
      exact ⟨hchild.spliced t ht, hchild.oneBody t ht, hchild.isStmtNode (.inr (hcs c hc)) t ht⟩
    -- Children that are no meta statements keep their kinds.
    have fixed (hd : Tree.derivedAll .depthLocalScope (cs.map AST.shape) = true)
        (hinter : ∀ c ∈ cs, (AST.kind c).isIntermediateNode = false ∧
          (AST.kind c).isCodeNode = true) (μ : Memory) :
        (∀ t ∈ (expandAll ctx rt .insideFunctionDecl cs μ).1, IsSpliced t ∧ HasOneBody t) ∧
        (expandAll ctx rt .insideFunctionDecl cs μ).1.map (fun t => t.label.kind) =
          cs.map AST.kind := by
      have hchild (c : AST) (hc : c ∈ cs) := each hc (hall hd c hc) (.inl (hinter c hc).2)
      refine ⟨fun t ht => ?_, kinds_expandAll (fun c hc μ =>
        (hchild c hc μ).runtime (hinter c hc).1) μ⟩
      obtain ⟨c, hc, μ', ht⟩ := mem_expandAll ht
      exact ⟨(hchild c hc μ').spliced t ht, (hchild c hc μ').oneBody t ht⟩
    -- A node of the runtime stage whose children are expressions.
    have expressions (hinter : data.kind.isIntermediateNode = false)
        (hcode : data.kind.isCodeNode = true)
        (hstmts : data.kind.nestsStmts = false)
        (hd : Tree.derivedAll .depthLocalScope (cs.map AST.shape) = true) (μ : Memory) :
        ExpandsLocally (.node ⟨⟨id, data⟩, decl, exportedDecls⟩ cs)
          [.node data (expandAll ctx rt (.below data.kind .insideFunctionDecl) cs μ).1] := by
      have hchildren := isExprNode_of_fits hfit hcode hinter hstmts
      obtain ⟨hts, hkinds⟩ := fixed hd (fun c hc => by
        have hc := hchildren _ (List.mem_map_of_mem hc)
        exact ⟨ASTKind.not_intermediate_of_expr hc, ASTKind.isCodeNode_of_expr hc⟩) μ
      rw [hbelow]
      refine .contributed hinter (fun hk => ?_) ?_ hts
      · have hk : data.kind = .functionDecl := hk
        rw [hk] at hcode
        cases hcode
      · rw [hkinds]
        exact hfit
    cases data with
    | compilationUnit | metaUnit | functionDecl | metaDecl | argumentDeclList
    | anonymousArgumentDecl | namedArgumentDecl | globalConstantDecl =>
      rcases hk with hk | hk
      · cases hk
      · cases hk
    | erroneousExpr => cases hd
    | metaContribution =>
      obtain ⟨hscope, hd⟩ := Bool.and_eq_true_iff.1 hd
      have hchildren (c : AST) (hc : c ∈ cs) : (AST.kind c).isStmtNode = true := by
        have hscope := List.all_eq_true.1 hscope _ (List.mem_map_of_mem hc)
        rw [← AST.kind_shape]
        exact (Bool.and_eq_true_iff.1 hscope).1
      have hts := statements hd hchildren μ
      exact ⟨fun t ht => (hts t ht).1, fun t ht => (hts t ht).2.1, (by intro h; cases h),
        fun _ t ht => (hts t ht).2.2⟩
    | metaIfStmt =>
      obtain ⟨condition, branches, hbranches, -, hkinds⟩ :=
        Tree.WellShaped.metaIfStmt hs (n := ⟨id, .metaIfStmt⟩) rfl
      rw [hbranches] at hd
      have hd : (Tree.derived .depthNone condition &&
          Tree.derivedAll .depthLocalScope branches) = true := hd
      have hd := Tree.derivedAll_iff.1 (Bool.and_eq_true_iff.1 hd).2
      -- What a branch that is taken stands for.
      have branch {c : AST} (hc : c ∈ cs) (hmem : AST.shape c ∈ branches) (μ : Memory) :
          ∀ t ∈ (expand ctx rt .insideFunctionDecl c μ).1,
            IsSpliced t ∧ HasOneBody t ∧ t.label.kind.isStmtNode = true := by
        have hkind := kind_branch hkinds hmem
        have hbranch := each hc (hd _ hmem) (.inr hkind) μ
        intro t ht
        refine ⟨hbranch.spliced t ht, hbranch.oneBody t ht, hbranch.intermediate ?_ t ht⟩
        rw [hkind]
        rfl
      have hts : ∀ t ∈ (expand ctx rt .insideFunctionDecl
          (.node ⟨⟨id, .metaIfStmt⟩, decl, exportedDecls⟩ cs) μ).1,
            IsSpliced t ∧ HasOneBody t ∧ t.label.kind.isStmtNode = true := by
        rcases cs with _ | ⟨c, _ | ⟨b, _ | ⟨b', _ | ⟨d, cs⟩⟩⟩⟩
        · exact fun t ht => absurd ht List.not_mem_nil
        · exact fun t ht => absurd ht List.not_mem_nil
        · obtain ⟨-, rfl⟩ := List.cons.inj hbranches
          intro t ht
          simp only [expand] at ht
          split at ht
          · exact branch (by simp) (by simp) _ t ht
          · exact absurd ht List.not_mem_nil
        · obtain ⟨-, rfl⟩ := List.cons.inj hbranches
          intro t ht
          simp only [expand] at ht
          split at ht
          · exact branch (by simp) (by simp) _ t ht
          · exact branch (by simp) (by simp) _ t ht
        · exact fun t ht => absurd ht List.not_mem_nil
      exact ⟨fun t ht => (hts t ht).1, fun t ht => (hts t ht).2.1, (by intro h; cases h),
        fun _ t ht => (hts t ht).2.2⟩
    | metaCalculationStmt =>
      have hts : ∀ t ∈ (expand ctx rt .insideFunctionDecl
          (.node ⟨⟨id, .metaCalculationStmt⟩, decl, exportedDecls⟩ cs) μ).1,
            IsSpliced t ∧ HasOneBody t ∧ t.label.kind = .declStmt := by
        rcases cs with _ | ⟨stmt, _ | ⟨c, cs⟩⟩
        · exact fun t ht => absurd ht List.not_mem_nil
        · intro t ht
          obtain ⟨d, -, hd⟩ := List.mem_filterMap.1 ht
          exact introducedTree_local hd
        · exact fun t ht => absurd ht List.not_mem_nil
      refine ⟨fun t ht => (hts t ht).1, fun t ht => (hts t ht).2.1, (by intro h; cases h),
        fun _ t ht => ?_⟩
      rw [(hts t ht).2.2]
      rfl
    | unscopedCompoundStmt | compoundStmt =>
      have hd := (Bool.and_eq_true_iff.1 hd).2
      have hts := statements hd (List.forall_mem_map.1 (List.all_eq_true.1 hfit)) μ
      refine .contributed rfl (by intro h; cases h) ?_ fun t ht => ⟨(hts t ht).1, (hts t ht).2.1⟩
      exact List.all_eq_true.2 (List.forall_mem_map.2 fun t ht => (hts t ht).2.2)
    | ifStmt =>
      obtain ⟨hbranches, hd⟩ := Bool.and_eq_true_iff.1 hd
      have hinter (c : AST) (hc : c ∈ cs) : (AST.kind c).isIntermediateNode = false ∧
          (AST.kind c).isCodeNode = true := by
        have hkind : (AST.kind c).isExprNode = true ∨ AST.kind c = .compoundStmt := by
          rcases cs with _ | ⟨expr, branches⟩
          · exact absurd hc List.not_mem_nil
          · rcases List.mem_cons.1 hc with rfl | hc
            · rcases branches with _ | ⟨b, _ | ⟨b', _ | ⟨d, branches⟩⟩⟩
              · cases hfit
              · exact .inl (Bool.and_eq_true_iff.1 hfit).1
              · exact .inl (Bool.and_eq_true_iff.1 (Bool.and_eq_true_iff.1 hfit).1).1
              · cases hfit
            · have hbranch := List.all_eq_true.1 hbranches _ (List.mem_map_of_mem hc)
              rw [← AST.kind_shape]
              exact .inr (eq_of_beq hbranch)
        rcases hkind with hkind | hkind
        · exact ⟨ASTKind.not_intermediate_of_expr hkind, ASTKind.isCodeNode_of_expr hkind⟩
        · rw [hkind]
          exact ⟨rfl, rfl⟩
      obtain ⟨hts, hkinds⟩ := fixed hd hinter μ
      refine .contributed rfl (by intro h; cases h) ?_ hts
      rw [hbelow, hkinds]
      exact hfit
    | callOperatorExpr => exact expressions rfl rfl rfl (Bool.and_eq_true_iff.1 hd).2 μ
    | _ => exact expressions rfl rfl rfl hd μ

/-! ## What the nodes of a contribution stand for -/

/-- No function has a meta statement as its body. -/
def AST.HasRuntimeBodies (a : AST) : Prop :=
  ∀ f ∈ a.subtrees, AST.kind f = .functionDecl →
    ∀ body ∈ f.children, (AST.kind body).isIntermediateNode = false

theorem AST.HasRuntimeBodies.child {n : ASTNode} {cs : List AST} {c : AST} (hc : c ∈ cs)
    (h : AST.HasRuntimeBodies (.node n cs)) : AST.HasRuntimeBodies c :=
  fun f hf => h f (Rose.mem_subtrees_node.2 (.inr ⟨c, hc, hf⟩))

/-- A node at the top level of a unit that is written. -/
structure Contributes (a : AST) (t : Rose NodeData) : Prop where
  spliced : IsSpliced t
  topLevel : t.label.kind.isTopLevelNode = true
  oneBody : a.HasRuntimeBodies → HasOneBody t

/-- The declaration of a parameter or of an exported variable at the top level. -/
theorem introducedTree_topLevel {a : AST} {μ : Memory} {decl : Node} {t : Rose NodeData}
    (h : introducedTree .topLevel μ decl = some t) : Contributes a t := by
  obtain ⟨name, -, rfl⟩ := Option.map_eq_some_iff.1 h
  exact ⟨rfl, rfl, fun _ => rfl⟩

theorem isIntermediateNode_argument {k : ASTKind}
    (h : k = .argumentDeclList ∨ k.isArgumentDecl = true) : k.isIntermediateNode = false := by
  rcases h with rfl | h
  · rfl
  · cases k <;> first | rfl | cases h

/-- A tree without intermediate nodes is well shaped as before. -/
theorem spliced_of_wellShaped {a : AST} (h : a.shape.WellShaped) :
    IsSpliced a.data ∧ HasOneBody a.data := by
  rw [← AST.map_data_shape]
  exact wellShaped_iff_spliced.1 h

/-- Nodes that stand for themselves, in front of another one. -/
theorem expandAll_concat {level : DepthLevel} {cs : List AST}
    (h : ∀ c ∈ cs, ∀ n ∈ c.labels, n.node.kind.isIntermediateNode = false) (body : AST)
    (μ : Memory) : (expandAll ctx rt level (cs ++ [body]) μ).1 =
      cs.map AST.data ++ (expand ctx rt level body μ).1 := by
  induction cs with
  | nil => exact List.append_nil _
  | cons c cs ih =>
    have hc : expand ctx rt level c μ = ([c.data], μ) :=
      expand_runtime c (h c List.mem_cons_self) level μ
    have ih := ih fun d hd => h d (List.mem_cons_of_mem _ hd)
    simp only [List.cons_append, expandAll, hc, ih]
    rfl

theorem isIntermediateNode_ret {ret : AST} (hs : ret.shape.WellShaped)
    (hk : (AST.kind ret).isArgumentDecl = true) :
    ∀ n ∈ ret.labels, n.node.kind.isIntermediateNode = false := by
  obtain ⟨n, cs⟩ := ret
  rw [AST.shape_node] at hs
  have hleaf := hs.leaf (by cases hn : n.node.kind <;> rw [AST.kind_node, hn] at hk <;>
    first | rfl | cases hk)
  obtain rfl := List.map_eq_nil_iff.1 hleaf
  intro m hm
  obtain rfl : m = n := List.mem_singleton.1 hm
  exact isIntermediateNode_argument (.inr hk)

theorem isIntermediateNode_args {args : AST} (hs : args.shape.WellShaped)
    (hk : AST.kind args = .argumentDeclList) :
    ∀ n ∈ args.labels, n.node.kind.isIntermediateNode = false := by
  rw [← AST.kind_shape] at hk
  exact fun n hn => isIntermediateNode_argument
    (Tree.labels_argumentDeclList hs hk n.node (AST.node_mem_shape hn))

/-- The children of a function: what stands in front of its body stands for itself, and with
statements in place of the body it is spliced. -/
structure IsFront (name : Identifier) (front : List AST) : Prop where
  runtime : ∀ c ∈ front, ∀ n ∈ c.labels, n.node.kind.isIntermediateNode = false
  spliced : ∀ ts : List (Rose NodeData),
    (∀ t ∈ ts, IsSpliced t ∧ HasOneBody t ∧ t.label.kind.isStmtNode = true) →
      IsSpliced (.node (.functionDecl name) (front.map AST.data ++ ts)) ∧
      (HasOneBody (.node (.functionDecl name) (front.map AST.data ++ ts)) ↔ ts.length = 1)

theorem kinds_data (cs : List AST) :
    (cs.map AST.data).map (fun t => t.label.kind) = cs.map AST.kind := by
  rw [List.map_map]
  exact List.map_congr_left fun c _ => congrArg NodeData.kind (Rose.label_map _ c)

/-- What stands in front of the body is a list of arguments, and a return argument perhaps. -/
theorem IsFront.of_kinds {front : List AST} {name : Identifier}
    (hwell : ∀ c ∈ front, c.shape.WellShaped)
    (hruntime : ∀ c ∈ front, ∀ n ∈ c.labels, n.node.kind.isIntermediateNode = false)
    (hkinds : ∀ ks : List ASTKind, (∀ k ∈ ks, k.isStmtNode = true) →
      ASTKind.fitsSpliced .functionDecl (front.map AST.kind ++ ks) = true)
    (hnone : (front.map AST.kind).filter ASTKind.isStmtNode = []) : IsFront name front := by
  refine ⟨hruntime, fun ts hts => ⟨?_, ?_⟩⟩
  · rw [isSpliced_node, List.map_append, kinds_data]
    refine ⟨hkinds _ (List.forall_mem_map.2 fun t ht => (hts t ht).2.2), fun t ht => ?_⟩
    rcases List.mem_append.1 ht with ht | ht
    · obtain ⟨c, hc, rfl⟩ := List.mem_map.1 ht
      exact (spliced_of_wellShaped (hwell c hc)).1
    · exact (hts t ht).1
  · have hcount : ((ts.map fun t => t.label.kind).filter ASTKind.isStmtNode).length =
        ts.length := by
      rw [List.filter_eq_self.2 (List.forall_mem_map.2 fun t ht => (hts t ht).2.2),
        List.length_map]
    rw [hasOneBody_node, List.map_append, kinds_data]
    have hone : ASTKind.hasOneBody .functionDecl
        (front.map AST.kind ++ ts.map fun t => t.label.kind) = true ↔ ts.length = 1 := by
      rw [ASTKind.hasOneBody, List.filter_append, hnone, List.nil_append, hcount]
      exact beq_iff_eq
    refine ⟨fun h => hone.1 h.1, fun h => ⟨hone.2 h, fun t ht => ?_⟩⟩
    rcases List.mem_append.1 ht with ht | ht
    · obtain ⟨c, hc, rfl⟩ := List.mem_map.1 ht
      exact (spliced_of_wellShaped (hwell c hc)).2
    · exact (hts t ht).2.1

/-- The children of a function are what stands in front of its body, and the body. -/
theorem functionDecl_children {n : ASTNode} {cs : List AST} {name : Identifier}
    (hs : (AST.shape (.node n cs)).WellShaped) (hk : n.node.data = .functionDecl name) :
    ∃ front body, cs = front ++ [body] ∧ IsFront name front ∧
      (AST.kind body).isStmtNode = true := by
  obtain ⟨⟨id, data⟩, decl, exportedDecls⟩ := n
  obtain rfl : data = .functionDecl name := hk
  rw [AST.shape_node] at hs
  obtain ⟨hfit, hcs⟩ := Tree.wellShaped_node.1 hs
  rw [kinds_shape] at hfit
  have hwell (c : AST) (hc : c ∈ cs) : c.shape.WellShaped := hcs _ (List.mem_map_of_mem hc)
  have hlist : ASTKind.argumentDeclList.isStmtNode = false := rfl
  rcases cs with _ | ⟨args, _ | ⟨c, _ | ⟨body, _ | ⟨d, cs⟩⟩⟩⟩
  · cases hfit
  · cases hfit
  · obtain ⟨hargs, hbody⟩ := Bool.and_eq_true_iff.1 hfit
    have hargs := eq_of_beq hargs
    refine ⟨[args], c, rfl, .of_kinds (fun c hc => hwell c (List.mem_append_left _ hc))
      (List.forall_mem_singleton.2 (isIntermediateNode_args (hwell _ List.mem_cons_self) hargs))
      (fun ks hks => ?_) (by simp [hargs, hlist]), hbody⟩
    have hall : ks.all ASTKind.isStmtNode = true := List.all_eq_true.2 hks
    simp [ASTKind.fitsSpliced, hargs, hall]
  · obtain ⟨hfit, hbody⟩ := Bool.and_eq_true_iff.1 hfit
    obtain ⟨hargs, hret⟩ := Bool.and_eq_true_iff.1 hfit
    have hargs := eq_of_beq hargs
    have hnot := ASTKind.not_stmt_of_argument hret
    refine ⟨[args, c], body, rfl, .of_kinds (fun c hc => hwell c (List.mem_append_left [body] hc))
      (List.forall_mem_cons.2 ⟨isIntermediateNode_args (hwell _ List.mem_cons_self) hargs,
        List.forall_mem_singleton.2 (isIntermediateNode_ret (hwell _ (by simp)) hret)⟩)
      (fun ks hks => ?_) (by simp [hargs, hlist, hnot]), hbody⟩
    have hall : ks.all ASTKind.isStmtNode = true := List.all_eq_true.2 hks
    simp [ASTKind.fitsSpliced, hargs, hret, hall]
  · cases hfit

variable (ctx rt) in
/-- What a body stands for: any number of statements. -/
theorem expand_body {body : AST} (hs : body.shape.WellShaped)
    (hd : Tree.derived .depthLocalScope body.shape = true)
    (hk : (AST.kind body).isStmtNode = true) (μ : Memory) :
    ExpandsLocally body (expand ctx rt .insideFunctionDecl body μ).1 ∧
      ∀ t ∈ (expand ctx rt .insideFunctionDecl body μ).1,
        IsSpliced t ∧ HasOneBody t ∧ t.label.kind.isStmtNode = true := by
  have hlocal : ExpandsLocally body (expand ctx rt .insideFunctionDecl body μ).1 :=
    expand_local body hs hd (.inl (ASTKind.isCodeNode_of_stmt hk)) μ
  exact ⟨hlocal, fun t ht =>
    ⟨hlocal.spliced t ht, hlocal.oneBody t ht, hlocal.isStmtNode (.inr hk) t ht⟩⟩

/-- A function stands for itself, with what its body stands for. -/
theorem expand_functionDecl {id : NodeId} {name : Identifier} {decl : Option Node}
    {exportedDecls : List Node} {cs : List AST}
    (hs : (AST.shape (.node ⟨⟨id, .functionDecl name⟩, decl, exportedDecls⟩ cs)).WellShaped)
    (hd : Tree.derivedAll .depthLocalScope (cs.map AST.shape) = true) (μ : Memory) :
    ∃ t, (expand ctx rt .topLevel (.node ⟨⟨id, .functionDecl name⟩, decl, exportedDecls⟩ cs) μ).1 =
      [t] ∧ Contributes (.node ⟨⟨id, .functionDecl name⟩, decl, exportedDecls⟩ cs) t := by
  obtain ⟨front, body, rfl, hfront, hbody⟩ := functionDecl_children hs rfl
  rw [AST.shape_node] at hs
  have hwell := (Tree.wellShaped_node.1 hs).2 body.shape (List.mem_map_of_mem (by simp))
  have hderived := Tree.derivedAll_iff.1 hd body.shape (List.mem_map_of_mem (by simp))
  obtain ⟨hlocal, hstmts⟩ := expand_body ctx rt hwell hderived hbody μ
  obtain ⟨hspliced, hone⟩ := hfront.spliced _ hstmts
  refine ⟨.node (.functionDecl name) (front.map AST.data ++
    (expand ctx rt .insideFunctionDecl body μ).1), ?_, hspliced, rfl, fun hruntime => hone.2 ?_⟩
  · rw [← expandAll_concat hfront.runtime]
    rfl
  · have hkinds := hlocal.runtime (hruntime _ (Rose.mem_subtrees_self _) rfl body (by simp))
    exact (List.length_map _).symm.trans (congrArg List.length hkinds)

/-- What a part of a contribution stands for. -/
theorem expand_topLevel (a : AST) (hs : a.shape.WellShaped)
    (hd : Tree.derived .depthGlobalScope a.shape = true)
    (hk : AST.kind a = .metaContribution ∨
      MetaDepth.depthGlobalScope.isMetaScopeNode (AST.kind a) = true) (μ : Memory) :
    ∀ t ∈ (expand ctx rt .topLevel a μ).1, Contributes a t := by
  induction a using Rose.ind generalizing μ with
  | h n cs ih =>
    have each {c : AST} (hc : c ∈ cs) (hd : Tree.derived .depthGlobalScope c.shape = true)
        (hk : AST.kind c = .metaContribution ∨
          MetaDepth.depthGlobalScope.isMetaScopeNode (AST.kind c) = true) (μ : Memory) :
        ∀ t ∈ (expand ctx rt .topLevel c μ).1, Contributes (.node n cs) t := by
      have hshape := hs
      rw [AST.shape_node] at hshape
      intro t ht
      obtain ⟨hspliced, htop, hone⟩ := ih c hc
        ((Tree.wellShaped_node.1 hshape).2 _ (List.mem_map_of_mem hc)) hd hk μ t ht
      exact ⟨hspliced, htop, fun h => hone (h.child hc)⟩
    obtain ⟨⟨id, data⟩, decl, exportedDecls⟩ := n
    rw [AST.shape_node] at hd
    cases data with
    | metaContribution =>
      obtain ⟨hscope, hd⟩ := Bool.and_eq_true_iff.1 hd
      intro t ht
      obtain ⟨c, hc, μ', ht⟩ := mem_expandAll ht
      have hkind := List.all_eq_true.1 hscope _ (List.mem_map_of_mem hc)
      rw [AST.kind_shape] at hkind
      exact each hc (Tree.derivedAll_iff.1 hd _ (List.mem_map_of_mem hc)) (.inr hkind) μ' t ht
    | functionDecl name =>
      obtain ⟨t, hexpand, hcontributes⟩ := expand_functionDecl hs (Bool.and_eq_true_iff.1 hd).2 μ
      rw [hexpand]
      exact List.forall_mem_singleton.2 hcontributes
    | metaIfStmt =>
      rw [AST.shape_node] at hs
      obtain ⟨condition, branches, hbranches, -, hkinds⟩ :=
        Tree.WellShaped.metaIfStmt hs (n := ⟨id, .metaIfStmt⟩) rfl
      rw [hbranches] at hd
      have hd : (Tree.derived .depthNone condition &&
          Tree.derivedAll .depthGlobalScope branches) = true := hd
      have hd := Tree.derivedAll_iff.1 (Bool.and_eq_true_iff.1 hd).2
      have branch {c : AST} (hc : c ∈ cs) (hmem : AST.shape c ∈ branches) (μ : Memory) :=
        each hc (hd _ hmem) (.inl (kind_branch hkinds hmem)) μ
      rcases cs with _ | ⟨c, _ | ⟨b, _ | ⟨b', _ | ⟨d, cs⟩⟩⟩⟩
      · exact fun t ht => absurd ht List.not_mem_nil
      · exact fun t ht => absurd ht List.not_mem_nil
      · obtain ⟨-, rfl⟩ := List.cons.inj hbranches
        intro t ht
        simp only [expand] at ht
        split at ht
        · exact branch (by simp) (by simp) _ t ht
        · exact absurd ht List.not_mem_nil
      · obtain ⟨-, rfl⟩ := List.cons.inj hbranches
        intro t ht
        simp only [expand] at ht
        split at ht
        · exact branch (by simp) (by simp) _ t ht
        · exact branch (by simp) (by simp) _ t ht
      · exact fun t ht => absurd ht List.not_mem_nil
    | metaCalculationStmt =>
      rcases cs with _ | ⟨stmt, _ | ⟨c, cs⟩⟩
      · exact fun t ht => absurd ht List.not_mem_nil
      · intro t ht
        obtain ⟨d, -, hd⟩ := List.mem_filterMap.1 ht
        exact introducedTree_topLevel hd
      · exact fun t ht => absurd ht List.not_mem_nil
    | _ =>
      rcases hk with hk | hk
      · cases hk
      · cases hk

end Expansion

/-! ## What is read of an instantiation -/

section Instantiation

variable {ctx : IRContext} {similarTo : ScopeChain → Identifier → Option Node}

theorem parameterTrees_contributes {args : List AST} {arguments : List Word} {t : Rose NodeData}
    (h : t ∈ parameterTrees args arguments) :
    IsSpliced t ∧ HasOneBody t ∧ t.label.kind.isTopLevelNode = true := by
  obtain ⟨⟨arg, value⟩, -, h⟩ := List.mem_filterMap.1 h
  dsimp only at h
  split at h
  · cases h
    exact ⟨rfl, rfl, rfl⟩
  · cases h

/-- The parts of a meta declaration of a program. -/
theorem metaDecl_parts {program : AST} (hp : program.shape.IsProgram) {n : ASTNode}
    {args contribution : AST} (hdecl : .node n [args, contribution] ∈ program.children)
    (hk : n.node.kind = .metaDecl) :
    (args.children.map fun arg => arg.label.node.id).Nodup ∧ contribution.shape.WellShaped ∧
      Tree.derived .depthGlobalScope contribution.shape = true ∧
      AST.kind contribution = .metaContribution := by
  obtain ⟨root, decls⟩ := program
  have hmem : AST.shape (.node n [args, contribution]) ∈ decls.map AST.shape :=
    List.mem_map_of_mem hdecl
  obtain ⟨-, hwell, htop, hdistinct⟩ := hp
  rw [AST.shape_node] at hwell htop hdistinct
  have hwell := (Tree.wellShaped_node.1 hwell).2 _ hmem
  have htop := htop _ hmem
  have hnodup := hdistinct.sublist
    ((Rose.labels_sublist (Rose.child_mem_subtrees hmem)).map Node.id)
  obtain ⟨⟨id, data⟩, decl, exportedDecls⟩ := n
  cases data <;> try cases hk
  rename_i name
  rw [AST.shape_node] at hwell htop hnodup
  obtain ⟨args', contribution', hcs, hargs, hcontribution⟩ := hwell.metaDecl rfl
  have hparts := (Tree.wellShaped_node.1 hwell).2
  cases hcs
  rw [AST.kind_shape] at hcontribution
  refine ⟨?_, hparts _ (by simp), (Bool.and_eq_true_iff.1 htop).2, hcontribution⟩
  -- The parameters are nodes below the list of them.
  obtain ⟨m, ds⟩ := args
  have hsub : AST.shape (.node m ds) ∈ (AST.shape (.node ⟨⟨id, .metaDecl name⟩, decl,
      exportedDecls⟩ [.node m ds, contribution])).subtrees := by
    rw [AST.shape_node]
    exact Rose.child_mem_subtrees (by simp)
  have hlabels := (ASTLayoutReader.labels_children (ds.map AST.shape)).trans
    (List.sublist_cons_self m.node _)
  rw [← Rose.labels_node, ← AST.shape_node] at hlabels
  have hids := hnodup.sublist ((hlabels.trans (Rose.labels_sublist hsub)).map Node.id)
  have heq : ((ds.map AST.shape).map Rose.label).map Node.id = ds.map fun d => d.label.node.id := by
    rw [List.map_map, List.map_map]
    exact List.map_congr_left fun d _ => congrArg Node.id (Rose.label_map ASTNode.node d)
  rw [Rose.children_node, ← heq]
  exact hids

/-- Spliced trees are spliced in the meta unit, behind the parameters. -/
theorem isSpliced_metaUnit (inst : Instantiation) (args : List AST) (values : List Word)
    {ts : List (Rose NodeData)}
    (hts : ∀ t ∈ ts, IsSpliced t ∧ t.label.kind.isTopLevelNode = true) :
    IsSpliced (.node (.metaUnit inst) (parameterTrees args values ++ ts)) := by
  have htop : ∀ t ∈ parameterTrees args values ++ ts,
      IsSpliced t ∧ t.label.kind.isTopLevelNode = true := by
    intro t ht
    rcases List.mem_append.1 ht with ht | ht
    · obtain ⟨hspliced, -, htop⟩ := parameterTrees_contributes ht
      exact ⟨hspliced, htop⟩
    · exact hts t ht
  refine isSpliced_node.2 ⟨?_, fun t ht => (htop t ht).1⟩
  exact List.all_eq_true.2 (List.forall_mem_map.2 fun t ht => (htop t ht).2)

variable (ctx rt) in
/-- What a meta declaration of a program contributes, with the parameters in front of it, has the
children of the productions up to the bodies of functions. -/
theorem contributes_of_isProgram {program : AST} (hp : program.shape.IsProgram) {n : ASTNode}
    {args contribution : AST} (hdecl : .node n [args, contribution] ∈ program.children)
    (hk : n.node.kind = .metaDecl) (values : List Word) (μ : Memory) :
    (∀ t ∈ (expand ctx rt .topLevel contribution μ).1, Contributes contribution t) ∧
      ∀ inst, IsSpliced (.node (.metaUnit inst) (parameterTrees args.children values ++
        (expand ctx rt .topLevel contribution μ).1)) := by
  obtain ⟨-, hwell, hderived, hkind⟩ := metaDecl_parts hp hdecl hk
  have hcontributes : ∀ t ∈ (expand ctx rt .topLevel contribution μ).1,
      Contributes contribution t := expand_topLevel contribution hwell hderived (.inl hkind) _
  exact ⟨hcontributes, fun inst => isSpliced_metaUnit inst args.children values fun t ht =>
    ⟨(hcontributes t ht).spliced, (hcontributes t ht).topLevel⟩⟩

/-- A layout with spliced trees in the meta unit is the encoding of a tree that is spliced. -/
theorem exists_tree_metaUnit (inst : Instantiation) (args : List AST) (values : List Word)
    {ts : List (Rose NodeData)}
    (hts : ∀ t ∈ ts, IsSpliced t ∧ t.label.kind.isTopLevelNode = true) (nextId : NodeId) :
    ∃ T : Tree, number nextId (encodeData [.node (.metaUnit inst)
        (parameterTrees args values ++ ts)]) = T.encode ∧ T.kind = .metaUnit ∧
      IsSpliced (T.map Node.data) ∧
      (HasOneBody (T.map Node.data) ↔ ∀ t ∈ ts, HasOneBody t) := by
  obtain ⟨Ts, hencode, hdata⟩ := exists_encodeAll_number nextId
    [.node (.metaUnit inst) (parameterTrees args values ++ ts)]
  obtain ⟨T, rfl, hT⟩ := List.map_eq_singleton_iff.1 hdata
  rw [Tree.encodeAll_cons, Tree.encodeAll_nil, List.append_nil] at hencode
  have hlabel := congrArg (fun t => t.label.kind) hT
  rw [Rose.label_map] at hlabel
  refine ⟨T, hencode.symm, hlabel, hT ▸ isSpliced_metaUnit inst args values hts, ?_⟩
  rw [hT, hasOneBody_node]
  constructor
  · exact fun h t ht => h.2 t (List.mem_append_right _ ht)
  · refine fun h => ⟨rfl, fun t ht => ?_⟩
    rcases List.mem_append.1 ht with ht | ht
    · exact (parameterTrees_contributes ht).2.1
    · exact h t ht

/-- What an instantiation writes is the encoding of a tree that is spliced. -/
theorem instantiatedLayout_tree {program : AST} (hp : program.shape.IsProgram) {n : ASTNode}
    {args contribution : AST} (hdecl : .node n [args, contribution] ∈ program.children)
    (hk : n.node.kind = .metaDecl) (hreturn : contribution.CalculatesWithoutReturn)
    {metaFunction : CodegenState}
    (hmeta : MetaCodegen.codegen ctx (.node n [args, contribution]) (.initial .insideMetaDecl) =
      .ok ((), metaFunction))
    (inst : Instantiation) (instArgs : List AST) (values : List Word)
    (hvalues : instArgs.map (fun arg => arg.label.node.data) = values.map .integerLiteralExpr)
    (hlength : values.length = args.children.length) (rt : Runtime) (nextId : NodeId) :
    ∃ pad, MetaCodegen.codegenJumpPad ctx args.children.length instArgs
        (.initial .insideMetaDecl) = .ok ((), pad) ∧
      ∃ bound, ∀ fuel, bound ≤ fuel → ∃ contributor,
        CodeExecutor.instantiatedLayout rt fuel pad.blocks metaFunction.blocks inst nextId =
          some contributor ∧
        ∃ T : Tree, contributor.layout = T.encode ∧ T.kind = .metaUnit ∧
          IsSpliced (T.map Node.data) ∧
          (HasOneBody (T.map Node.data) ↔ ∀ t ∈ (expand ctx rt .topLevel contribution
            (Interpreter.bindArguments values 0 args.children rt.memory).memory).1, HasOneBody t) ∧
          (contribution.HasRuntimeBodies → HasOneBody (T.map Node.data)) := by
  obtain ⟨hids, -, -, -⟩ := metaDecl_parts hp hdecl hk
  obtain ⟨pad, hpad, bound, hbound⟩ := instantiate_expands ctx n args contribution hreturn hids
    hmeta inst instArgs values hvalues hlength rt nextId
  refine ⟨pad, hpad, bound, fun fuel hfuel => ?_⟩
  obtain ⟨contributor, hcontributor, hlayout⟩ := hbound fuel hfuel
  obtain ⟨hcontributes, -⟩ := contributes_of_isProgram ctx rt hp hdecl hk values
    (Interpreter.bindArguments values 0 args.children rt.memory).memory
  obtain ⟨T, hencode, hunit, hspliced, hone⟩ := exists_tree_metaUnit inst args.children values
    (fun t ht => ⟨(hcontributes t ht).spliced, (hcontributes t ht).topLevel⟩) nextId
  exact ⟨contributor, hcontributor, T, hlayout.trans hencode, hunit, hspliced, hone,
    fun hruntime => hone.2 fun t ht => (hcontributes t ht).oneBody hruntime⟩

variable (similarTo) in
/-- A tree that is spliced is read from its encoding iff every function has one body, and then it is
read to the end. -/
theorem consume_spliced {T : Tree} (hk : T.kind = .metaUnit)
    (hspliced : IsSpliced (T.map Node.data)) (b : BasicASTBuilder) :
    (HasOneBody (T.map Node.data) → ∃ unit b', ASTLayoutReader.consume similarTo (.kind .metaUnit)
      ⟨T.encode, b⟩ = .ok (unit, ⟨[], b'⟩) ∧ unit.shape = T) ∧
    (∀ unit s, ASTLayoutReader.consume similarTo (.kind .metaUnit) ⟨T.encode, b⟩ = .ok (unit, s) →
      HasOneBody (T.map Node.data)) := by
  constructor
  · intro hone
    have hwell : T.WellShaped := wellShaped_iff_spliced.2 ⟨hspliced, hone⟩
    have hread := ASTLayoutReader.consume_unit similarTo hwell [] b
    rw [List.append_nil, hk] at hread
    exact ⟨_, _, hread, ASTLayoutReader.readTree_shape T hwell b⟩
  · intro unit s h
    obtain ⟨hreads, hencode, -⟩ := ASTLayoutReader.consume_eq_readTree h
    obtain ⟨hunit, hone⟩ := wellShaped_iff_spliced.1 hreads.1
    have hread := Rose.Ranked.uniquelyRead T (ranked_of_spliced T hspliced) unit.shape [] s.rest
      (ranked_of_spliced _ hunit)
    obtain ⟨hsame, -⟩ := hread ((List.append_nil _).trans hencode)
    rw [hsame]
    exact hone

variable (similarTo) in
/-- The reader accepts the layout of an instantiation iff the functions that were contributed have
one body each. This depends on the outcomes of the conditions, and on nothing else: at every other
place the splicing of the meta statements leaves what the productions describe. -/
theorem instantiatedLayout_readable_iff {program : AST} (hp : program.shape.IsProgram) {n : ASTNode}
    {args contribution : AST} (hdecl : .node n [args, contribution] ∈ program.children)
    (hk : n.node.kind = .metaDecl) (hreturn : contribution.CalculatesWithoutReturn)
    {metaFunction : CodegenState}
    (hmeta : MetaCodegen.codegen ctx (.node n [args, contribution]) (.initial .insideMetaDecl) =
      .ok ((), metaFunction))
    (inst : Instantiation) (instArgs : List AST) (values : List Word)
    (hvalues : instArgs.map (fun arg => arg.label.node.data) = values.map .integerLiteralExpr)
    (hlength : values.length = args.children.length) (rt : Runtime) (nextId : NodeId) :
    ∃ pad, MetaCodegen.codegenJumpPad ctx args.children.length instArgs
        (.initial .insideMetaDecl) = .ok ((), pad) ∧
      ∃ bound, ∀ fuel, bound ≤ fuel → ∃ contributor,
        CodeExecutor.instantiatedLayout rt fuel pad.blocks metaFunction.blocks inst nextId =
          some contributor ∧
        ∀ b, (∃ unit s, ASTLayoutReader.consume similarTo (.kind .metaUnit)
            ⟨contributor.layout, b⟩ = .ok (unit, s)) ↔
          ∀ t ∈ (expand ctx rt .topLevel contribution
            (Interpreter.bindArguments values 0 args.children rt.memory).memory).1,
              HasOneBody t := by
  obtain ⟨pad, hpad, bound, hbound⟩ := instantiatedLayout_tree hp hdecl hk hreturn hmeta inst
    instArgs values hvalues hlength rt nextId
  refine ⟨pad, hpad, bound, fun fuel hfuel => ?_⟩
  obtain ⟨contributor, hcontributor, T, hlayout, hkind, hspliced, hone, -⟩ := hbound fuel hfuel
  refine ⟨contributor, hcontributor, fun b => ?_⟩
  obtain ⟨haccept, hreject⟩ := consume_spliced similarTo hkind hspliced b
  rw [hlayout, ← hone]
  constructor
  · rintro ⟨unit, s, h⟩
    exact hreject unit s h
  · intro h
    obtain ⟨unit, b', h, -⟩ := haccept h
    exact ⟨unit, _, h⟩

variable (similarTo) in
/-- If no function of a meta declaration has a meta statement as its body, every instantiation is
read to the end of its layout, whatever its arguments and the outcomes of the conditions are. -/
theorem instantiatedLayout_readable {program : AST} (hp : program.shape.IsProgram) {n : ASTNode}
    {args contribution : AST} (hdecl : .node n [args, contribution] ∈ program.children)
    (hk : n.node.kind = .metaDecl) (hreturn : contribution.CalculatesWithoutReturn)
    (hruntime : contribution.HasRuntimeBodies) {metaFunction : CodegenState}
    (hmeta : MetaCodegen.codegen ctx (.node n [args, contribution]) (.initial .insideMetaDecl) =
      .ok ((), metaFunction))
    (inst : Instantiation) (instArgs : List AST) (values : List Word)
    (hvalues : instArgs.map (fun arg => arg.label.node.data) = values.map .integerLiteralExpr)
    (hlength : values.length = args.children.length) (rt : Runtime) (nextId : NodeId) :
    ∃ pad, MetaCodegen.codegenJumpPad ctx args.children.length instArgs
        (.initial .insideMetaDecl) = .ok ((), pad) ∧
      ∃ bound, ∀ fuel, bound ≤ fuel → ∃ contributor,
        CodeExecutor.instantiatedLayout rt fuel pad.blocks metaFunction.blocks inst nextId =
          some contributor ∧
        ∀ b, ∃ unit b', ASTLayoutReader.consume similarTo (.kind .metaUnit)
            ⟨contributor.layout, b⟩ = .ok (unit, ⟨[], b'⟩) ∧
          unit.shape.encode = contributor.layout := by
  obtain ⟨pad, hpad, bound, hbound⟩ := instantiatedLayout_tree hp hdecl hk hreturn hmeta inst
    instArgs values hvalues hlength rt nextId
  refine ⟨pad, hpad, bound, fun fuel hfuel => ?_⟩
  obtain ⟨contributor, hcontributor, T, hlayout, hkind, hspliced, -, hone⟩ := hbound fuel hfuel
  refine ⟨contributor, hcontributor, fun b => ?_⟩
  obtain ⟨unit, b', h, hshape⟩ := (consume_spliced similarTo hkind hspliced b).1 (hone hruntime)
  refine ⟨unit, b', ?_, ?_⟩
  · rw [hlayout]
    exact h
  · rw [hshape, hlayout]

end Instantiation

/-! ## A body that is a meta-if -/

namespace ConditionalBody

/-- `n < 1` -/
def condition : AST :=
  .node ⟨⟨9, .binaryOperatorExpr .lessThan⟩, none, []⟩
    [.node ⟨⟨10, .declRefExpr "n"⟩, some ⟨3, .namedArgumentDecl "n"⟩, []⟩ [],
      .node ⟨⟨11, .integerLiteralExpr 1⟩, none, []⟩ []]

def args : AST :=
  .node ⟨⟨2, .argumentDeclList⟩, none, []⟩ [.node ⟨⟨3, .namedArgumentDecl "n"⟩, none, []⟩ []]

/-- A function with the body. -/
def contribution (body : AST) : AST :=
  .node ⟨⟨4, .metaContribution⟩, none, []⟩ [.node ⟨⟨5, .functionDecl "g"⟩, none, []⟩
    [.node ⟨⟨6, .argumentDeclList⟩, none, []⟩ [], body]]

/-- `f<n> -> { g() -> body }` -/
def program (body : AST) : AST :=
  .node ⟨⟨0, .compilationUnit⟩, none, []⟩
    [.node ⟨⟨1, .metaDecl "f"⟩, none, []⟩ [args, contribution body]]

/-- `{ }` -/
def block : AST := .node ⟨⟨7, .compoundStmt⟩, none, []⟩ []

/-- `meta if n < 1 { }`, with a block in the branch. -/
def conditional : AST :=
  .node ⟨⟨8, .metaIfStmt⟩, none, []⟩
    [condition, .node ⟨⟨12, .metaContribution⟩, none, []⟩ [block]]

def inst : Instantiation := ⟨20, "f", some (1, .metaDecl)⟩

def ctx : IRContext := ⟨fun _ => none, fun _ => none⟩

theorem isProgram_conditional : (program conditional).shape.IsProgram :=
  ⟨rfl, by decide, by decide, by decide⟩

theorem isProgram_block : (program block).shape.IsProgram :=
  ⟨rfl, by decide, by decide, by decide⟩

theorem returns_conditional : (contribution conditional).CalculatesWithoutReturn := by
  unfold AST.CalculatesWithoutReturn
  decide +kernel

theorem returns_block : (contribution block).CalculatesWithoutReturn := by
  unfold AST.CalculatesWithoutReturn
  decide +kernel

theorem hasRuntimeBodies_block : (contribution block).HasRuntimeBodies := by
  unfold AST.HasRuntimeBodies
  decide +kernel

end ConditionalBody

open ConditionalBody in
/-- The instantiation is readable if the branch is taken, and is not if it is not taken. -/
theorem instantiatedLayout_readable_iff_conditional : ∃ metaFunction,
    MetaCodegen.codegen ctx (.node ⟨⟨1, .metaDecl "f"⟩, none, []⟩
      [args, contribution conditional]) (.initial .insideMetaDecl) = .ok ((), metaFunction) ∧
    ∃ pad fuel taken, CodeExecutor.instantiatedLayout (.ofOutcomes [true]) fuel pad
        metaFunction.blocks inst 30 = some taken ∧
      ∃ fuel' skipped, CodeExecutor.instantiatedLayout (.ofOutcomes [false]) fuel' pad
        metaFunction.blocks inst 30 = some skipped ∧
      (∃ unit s, ASTLayoutReader.consume (fun _ _ => none) (.kind .metaUnit)
        ⟨taken.layout, .start .empty⟩ = .ok (unit, s)) ∧
      ¬ ∃ unit s, ASTLayoutReader.consume (fun _ _ => none) (.kind .metaUnit)
        ⟨skipped.layout, .start .empty⟩ = .ok (unit, s) := by
  obtain ⟨metaFunction, hmeta⟩ := exists_of_isOk (c := MetaCodegen.codegen ctx
    (.node ⟨⟨1, .metaDecl "f"⟩, none, []⟩ [args, contribution conditional]))
    (s := .initial .insideMetaDecl) (by decide +kernel)
  have hiff := instantiatedLayout_readable_iff (fun _ _ => none) isProgram_conditional
    List.mem_cons_self rfl returns_conditional hmeta inst
    [.node ⟨⟨21, .integerLiteralExpr 0⟩, none, []⟩ []] [0] rfl rfl
  obtain ⟨pad, hpad, fuel, hfuel⟩ := hiff (.ofOutcomes [true]) 30
  obtain ⟨pad', hpad', fuel', hfuel'⟩ := hiff (.ofOutcomes [false]) 30
  obtain ⟨taken, htaken, hread⟩ := hfuel fuel (Nat.le_refl _)
  obtain ⟨skipped, hskipped, hread'⟩ := hfuel' fuel' (Nat.le_refl _)
  obtain ⟨-, rfl⟩ := Prod.mk.inj (Except.ok.inj (hpad.symm.trans hpad'))
  refine ⟨metaFunction, hmeta, pad.blocks, fuel, taken, htaken, fuel', skipped, hskipped,
    (hread _).2 (by decide +kernel), fun h => ?_⟩
  have hone := (hread' _).1 h
  revert hone
  decide +kernel

open ConditionalBody in
/-- With a block as its body the function is readable. -/
theorem instantiatedLayout_readable_block : ∃ pad metaFunction fuel contributor,
    CodeExecutor.instantiatedLayout default fuel pad metaFunction inst 30 = some contributor ∧
      ∃ unit b', ASTLayoutReader.consume (fun _ _ => none) (.kind .metaUnit)
        ⟨contributor.layout, .start .empty⟩ = .ok (unit, ⟨[], b'⟩) := by
  obtain ⟨metaFunction, hmeta⟩ := exists_of_isOk (c := MetaCodegen.codegen ctx
    (.node ⟨⟨1, .metaDecl "f"⟩, none, []⟩ [args, contribution block]))
    (s := .initial .insideMetaDecl) (by decide +kernel)
  obtain ⟨pad, -, fuel, hfuel⟩ := instantiatedLayout_readable (fun _ _ => none)
    isProgram_block List.mem_cons_self rfl returns_block hasRuntimeBodies_block hmeta inst
    [.node ⟨⟨21, .integerLiteralExpr 0⟩, none, []⟩ []] [0] rfl rfl default 30
  obtain ⟨contributor, hcontributor, hread⟩ := hfuel fuel (Nat.le_refl _)
  obtain ⟨unit, b', h, -⟩ := hread (.start .empty)
  exact ⟨pad.blocks, metaFunction.blocks, fuel, contributor, hcontributor, unit, b', h⟩

end Swy
