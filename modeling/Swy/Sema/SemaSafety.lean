import Swy.Sema.SemaAnalysis

/-!
# Where the semantic analysis is safe

The analysis reads the declaration of a call's callee only if it is resolved, but that of an
instantiation always, and it goes on with it if it is no meta declaration. So it ends on a unit that
was read without an error exactly if every instantiation was resolved to a meta declaration, and an
instantiation that a meta declaration contributes never was.
-/

namespace Swy

open Library

/-! ## Declarations -/

namespace AST

/-- An instantiation is the name it instantiates, and its arguments. -/
theorem children_metaInstantiationExpr {n : ASTNode} {cs : List AST}
    (h : (shape (.node n cs)).WellShaped) (hk : n.node.kind = .metaInstantiationExpr) :
    ∃ decl arguments, cs = decl :: arguments ∧ decl.kind = .declRefExpr := by
  have hfit := (wellShaped_node.1 h).1
  rw [hk] at hfit
  cases cs with
  | nil => cases hfit
  | cons decl arguments =>
    exact ⟨decl, arguments, rfl, eq_of_beq (Bool.and_eq_true_iff.1 hfit).1⟩

/-- The name of an instantiation was resolved to a meta declaration. -/
def instantiatesMetaDecl : AST → Bool
  | .node _ [] => false
  | .node _ (decl :: _) => decl.label.decl.any fun d => d.kind == .metaDecl

end AST

theorem getFunctionTypeOf_of_wellShaped {a : AST} (h : a.shape.WellShaped)
    (hk : a.kind = .functionDecl) : ∃ type, getFunctionTypeOf a = some type := by
  obtain ⟨⟨⟨id, data⟩, decl, exportedDecls⟩, cs⟩ := a
  have hfit := (AST.wellShaped_node.1 h).1
  cases data <;> try cases hk
  cases cs with
  | nil => cases hfit
  | cons args cs => exact ⟨_, rfl⟩

theorem getMetaArgCountOf_of_wellShaped {a : AST} (h : a.shape.WellShaped)
    (hk : a.kind = .metaDecl) : ∃ count, getMetaArgCountOf a = some count := by
  obtain ⟨⟨⟨id, data⟩, decl, exportedDecls⟩, cs⟩ := a
  have hfit := (AST.wellShaped_node.1 h).1
  cases data <;> try cases hk
  rcases cs with _ | ⟨args, _ | ⟨contribution, _ | ⟨c, cs⟩⟩⟩
  · cases hfit
  · cases hfit
  · exact ⟨_, rfl⟩
  · cases hfit

/-- The declarations that the references of a tree were resolved to: they are named, and their trees
are at hand as the reader returned them. -/
structure IRContext.Covers (ctx : IRContext) (a : AST) : Prop where
  named : ∀ n ∈ a.labels, ∀ d, n.decl = some d → d.kind.isNamedDeclContext = true
  declaringNode : ∀ n ∈ a.labels, ∀ d, n.decl = some d →
    ∃ b, ctx.declaringNode d.id = some b ∧ b.label.node = d ∧ b.shape.WellShaped

/-- The context of units that are at hand. -/
def IRContext.ofUnits (units : List AST) (exportedNode : NodeId → Option NodeId) : IRContext where
  declaringNode id := (units.flatMap Rose.subtrees).find? fun b => b.label.node.id == id
  exportedNode := exportedNode

/-- A node of the units is found at its address, as every node was allocated on its own. -/
theorem IRContext.declaringNode_ofUnits {units : List AST} {exportedNode : NodeId → Option NodeId}
    (hids : ((units.flatMap Rose.labels).map fun n => n.node.id).Nodup) {u b : AST} (hu : u ∈ units)
    (hb : b ∈ u.subtrees) :
    (IRContext.ofUnits units exportedNode).declaringNode b.label.node.id = some b := by
  have hlabels : ((units.flatMap Rose.subtrees).map fun b => b.label.node.id) =
      (units.flatMap Rose.labels).map fun n => n.node.id := by
    rw [List.map_flatMap, List.map_flatMap]
    refine List.flatMap_congr fun u _ => ?_
    rw [← Rose.map_label_subtrees, List.map_map]
    rfl
  rw [← hlabels] at hids
  have hmem : b ∈ units.flatMap Rose.subtrees := List.mem_flatMap.2 ⟨u, hu, hb⟩
  have hfound : ((units.flatMap Rose.subtrees).find? fun b' =>
      b'.label.node.id == b.label.node.id).isSome = true := by
    rw [List.find?_isSome]
    exact ⟨b, hmem, beq_self_eq_true _⟩
  obtain ⟨b', hb'⟩ := Option.isSome_iff_exists.1 hfound
  have hfind := List.find?_some hb'
  have hid : b'.label.node.id = b.label.node.id := eq_of_beq hfind
  rw [List.inj_on_of_nodup_map hids (List.mem_of_find?_eq_some hb') hmem hid] at hb'
  exact hb'

/-- What is found among some units is found there among more of them. -/
theorem IRContext.declaringNode_append {units : List AST}
    {exportedNode : NodeId → Option NodeId} {id : NodeId} {b : AST}
    (h : (IRContext.ofUnits units exportedNode).declaringNode id = some b) (more : List AST)
    (exportedNode' : NodeId → Option NodeId) :
    (IRContext.ofUnits (units ++ more) exportedNode').declaringNode id = some b := by
  simp only [IRContext.ofUnits] at h ⊢
  rw [List.flatMap_append, List.find?_append, h]
  rfl

/-- References to nodes of the units are covered. -/
theorem IRContext.covers_ofUnits {units : List AST} {exportedNode : NodeId → Option NodeId}
    {a : AST} (hshape : ∀ u ∈ units, u.shape.WellShaped)
    (hids : ((units.flatMap Rose.labels).map fun n => n.node.id).Nodup)
    (hrefs : ∀ n ∈ a.labels, ∀ d, n.decl = some d →
      d.name?.isSome = true ∧ ∃ u ∈ units, d ∈ u.shape.labels) :
    (IRContext.ofUnits units exportedNode).Covers a := by
  refine ⟨fun n hn d hd => ?_, fun n hn d hd => ?_⟩
  · rw [← (hrefs n hn d hd).1]
    exact (NodeData.isSome_name? d.data).symm
  · obtain ⟨-, u, hu, hin⟩ := hrefs n hn d hd
    rw [AST.shape, Rose.labels_map] at hin
    obtain ⟨x, hx, rfl⟩ := List.mem_map.1 hin
    obtain ⟨b, hb, rfl⟩ := Rose.exists_subtree hx
    exact ⟨b, declaringNode_ofUnits hids hu hb, rfl, AST.wellShaped_subtree (hshape u hu) hb⟩

/-- The unit of a program covers the references in it. -/
theorem IRContext.covers_program {similarTo : ScopeChain → Identifier → Option Node} {t : Tree}
    (ht : t.IsProgram) {a : AST} {s : ASTLayoutReader.State}
    (haccept : ASTLayoutReader.AcceptsUnit similarTo .compilationUnit t.encode .empty a s)
    (exportedNode : NodeId → Option NodeId) : (IRContext.ofUnits [a] exportedNode).Covers a := by
  have hshape := haccept.shape ht.wellShaped ht.kind
  have hids : (([a].flatMap Rose.labels).map fun n => n.node.id).Nodup := by
    have hdistinct := ht.distinct
    rw [← hshape, AST.shape, Rose.labels_map, List.map_map] at hdistinct
    rw [List.flatMap_singleton]
    exact hdistinct
  refine covers_ofUnits (fun u hu => ?_) hids fun n hn d hd => ?_
  · rw [List.mem_singleton.1 hu, hshape]
    exact ht.wellShaped
  · let P (d : Node) : Prop := d.name?.isSome = true ∧ d ∈ a.shape.labels
    have hstart : Resolution.Knows P (BasicASTBuilder.start .empty).resolution :=
      ⟨fun _ he => absurd he List.not_mem_nil, fun _ _ he => by cases he⟩
    obtain ⟨-, hto⟩ := hstart.resolve a.shape (fun n hn hname => ⟨hname, hn⟩) false
    rw [haccept.resolve.1] at hto
    obtain ⟨hname, hin⟩ := hto a List.mem_cons_self n hn d hd
    exact ⟨hname, a, List.mem_cons_self, hin⟩

namespace SemaAnalysis

variable {ctx : IRContext} {a : AST}

theorem lookupGlobal_of_covers (h : ctx.Covers a) {n : ASTNode} (hn : n ∈ a.labels) {d : Node}
    (hd : n.decl = some d) (hk : d.kind = .functionDecl) :
    ∃ type, ctx.lookupGlobal d.id = some type := by
  obtain ⟨b, hb, rfl, hs⟩ := h.declaringNode n hn d hd
  obtain ⟨type, htype⟩ := getFunctionTypeOf_of_wellShaped hs hk
  exact ⟨type, by rw [IRContext.lookupGlobal, hb, Option.bind_some, htype]⟩

/-- The check of a call always ends: an unresolved callee is not looked at. -/
theorem visitCallOperatorExpr_ok (h : ctx.Covers a) {depth : List ASTNode} {callee : AST}
    {expressions : List AST} (hcallee : callee.label ∈ a.labels)
    (hdepth : ∃ n, depth[1]? = some n) :
    ∃ ds, visitCallOperatorExpr ctx depth callee expressions = .ok ds := by
  obtain ⟨parent, hparent⟩ := hdepth
  obtain ⟨⟨⟨id, data⟩, decl, exportedDecls⟩, cs⟩ := callee
  cases data <;> try exact ⟨[], rfl⟩
  cases decl with
  | none => exact ⟨[], rfl⟩
  | some d =>
    by_cases hk : d.kind = .functionDecl
    · obtain ⟨type, htype⟩ := lookupGlobal_of_covers h hcallee rfl hk
      simp only [visitCallOperatorExpr, Rose.label_node, hk, visitFunctionCall, htype, behind,
        hparent]
      exact ⟨_, rfl⟩
    · have hnamed := h.named _ hcallee d rfl
      simp only [visitCallOperatorExpr, Rose.label_node, hnamed, if_true]
      exact ⟨_, rfl⟩

/-- The check of an instantiation ends exactly if the name was resolved to a meta declaration. -/
theorem visitMetaInstantiationExpr_ok_iff (h : ctx.Covers a) {decl : AST} {arguments : List AST}
    (hdecl : decl.label ∈ a.labels) (hk : decl.kind = .declRefExpr) :
    (∃ ds, visitMetaInstantiationExpr ctx decl arguments = .ok ds) ↔
      decl.label.decl.any (fun d => d.kind == .metaDecl) = true := by
  obtain ⟨⟨⟨id, data⟩, target, exportedDecls⟩, cs⟩ := decl
  cases data <;> try cases hk
  cases target with
  | none => exact ⟨fun ⟨_, hds⟩ => (by cases hds), fun hd => (by cases hd)⟩
  | some d =>
    by_cases hd : d.kind = .metaDecl
    · obtain ⟨b, hb, rfl, hs⟩ := h.declaringNode _ hdecl d rfl
      obtain ⟨count, hcount⟩ := getMetaArgCountOf_of_wellShaped hs hd
      refine iff_of_true ?_ (beq_iff_eq.2 hd)
      simp only [visitMetaInstantiationExpr, Rose.label_node, visitInstantiated, hd, hb,
        Option.bind_some, hcount]
      exact ⟨_, rfl⟩
    · refine iff_of_false ?_ fun hk' => hd (beq_iff_eq.1 hk')
      rintro ⟨ds, hds⟩
      simp only [visitMetaInstantiationExpr, Rose.label_node, visitInstantiated] at hds
      cases hds

/-- The analysis of an accepted unit ends exactly if every instantiation in it is one of a meta
declaration, and none is contributed. -/
theorem checkAST_ok_iff (ctx : IRContext) (similarTo : ScopeChain → Identifier → Option Node)
    {k : ASTKind} (hk : k.isUnitNode = true) {layout : Layout} {heap : ASTHeap}
    {s : ASTLayoutReader.State} (haccept : ASTLayoutReader.AcceptsUnit similarTo k layout heap a s)
    (hcovers : ctx.Covers a) :
    (∃ ds, checkAST ctx a = .ok ds) ↔
      ∀ v ∈ a.visited false [], v.base.kind = .metaInstantiationExpr →
        v.contributed = false ∧ v.base.instantiatesMetaDecl = true := by
  have hshape := haccept.reads.1
  have hroot : a.kind = k := by
    rw [← AST.kind_shape]
    exact haccept.reads.unit hk
  have hbelow : ∀ v ∈ a.visited false [], v.base.kind.isUnitNode = false → v.above ≠ [] := by
    intro v hv hunit
    obtain ⟨n, cs⟩ := a
    rcases AST.mem_visited_node.1 hv with rfl | ⟨p, hp, hv⟩
    · rw [hroot, hk] at hunit
      cases hunit
    · exact AST.above_ne_nil hv (List.cons_ne_nil _ _)
  have hlabel : ∀ v ∈ a.visited false [], ∀ c ∈ v.base.children, c.label ∈ a.labels := by
    intro v hv c hc
    obtain ⟨contributed, above, n, cs⟩ := v
    exact Rose.label_mem_labels
      (Rose.subtrees_trans (Rose.child_mem_subtrees hc) (AST.base_mem_subtrees hv))
  constructor
  · rintro ⟨ds, hds⟩ v hv hkind
    obtain ⟨ds', hcheck, -⟩ := accept_reports ctx hds v hv
    obtain ⟨contributed, above, ⟨⟨id, data⟩, target, exportedDecls⟩, cs⟩ := v
    cases data <;> try cases hkind
    obtain ⟨decl, arguments, rfl, hdecl⟩ := AST.children_metaInstantiationExpr
      (AST.wellShaped_subtree hshape (AST.base_mem_subtrees hv)) rfl
    have hin := hlabel _ hv decl List.mem_cons_self
    have htarget := (visitMetaInstantiationExpr_ok_iff hcovers hin hdecl).1 ⟨ds', hcheck⟩
    refine ⟨?_, htarget⟩
    -- the name stands at the stage of the instantiation, and it is resolved
    have hname := AST.visited_trans hv (AST.mem_visited_node.2 (.inr
      ⟨(contributed, decl), List.mem_cons_self, AST.mem_visited_self⟩))
    have hstage := (haccept.stagedRefs _ (AST.mem_staged hname) hdecl).2
    cases contributed with
    | false => rfl
    | true =>
      have hnone : decl.label.decl = none := hstage rfl
      rw [hnone] at htarget
      cases htarget
  · intro h
    have hchecks : ∀ v ∈ a.visited false [], ∃ ds, v.check ctx = .ok ds := ?_
    exact accept_ok ctx hchecks
    intro v hv
    have hkind := h v hv
    have hup := hbelow v hv
    have hchild := hlabel v hv
    obtain ⟨contributed, above, ⟨⟨id, data⟩, target, exportedDecls⟩, cs⟩ := v
    cases data with
    | callOperatorExpr =>
      cases cs with
      | nil => exact ⟨[], rfl⟩
      | cons callee expressions =>
        obtain ⟨parent, above', rfl⟩ := List.exists_cons_of_ne_nil (hup rfl)
        exact visitCallOperatorExpr_ok hcovers (hchild callee List.mem_cons_self) ⟨parent, rfl⟩
    | metaInstantiationExpr =>
      obtain ⟨decl, arguments, rfl, hdecl⟩ := AST.children_metaInstantiationExpr
        (AST.wellShaped_subtree hshape (AST.base_mem_subtrees hv)) rfl
      exact (visitMetaInstantiationExpr_ok_iff hcovers (hchild decl List.mem_cons_self) hdecl).2
        (hkind rfl).2
    | ifStmt => cases cs <;> exact ⟨_, rfl⟩
    | _ => exact ⟨_, rfl⟩

/-- `f() -> { m<1>(); } m<int> -> { m() -> { } }`. -/
theorem checkAST_ok_iff_instantiation :
    ∃ (t : Tree) (a : AST) (s : ASTLayoutReader.State),
      ASTLayoutReader.AcceptsUnit (fun _ _ => none) .compilationUnit t.encode .empty a s ∧
      ∃ ds, checkAST (.ofUnits [a] fun _ => none) a = .ok ds := by
  let t : Tree := .node ⟨0, .compilationUnit⟩
    [.node ⟨1, .functionDecl "f"⟩ [.node ⟨2, .argumentDeclList⟩ [],
      .node ⟨3, .compoundStmt⟩ [.node ⟨4, .expressionStmt⟩ [.node ⟨5, .callOperatorExpr⟩
        [.node ⟨6, .metaInstantiationExpr⟩
          [.node ⟨7, .declRefExpr "m"⟩ [], .node ⟨8, .integerLiteralExpr 1⟩ []]]]]],
    .node ⟨9, .metaDecl "m"⟩
      [.node ⟨10, .argumentDeclList⟩ [.node ⟨11, .anonymousArgumentDecl⟩ []],
      .node ⟨12, .metaContribution⟩
        [.node ⟨13, .functionDecl "m"⟩ [.node ⟨14, .argumentDeclList⟩ [],
          .node ⟨15, .compoundStmt⟩ []]]]]
  have hprogram : t.IsProgram := ⟨rfl, by decide, by decide, by decide⟩
  have hread := ASTLayoutReader.consume_complete (fun _ _ => none) (p := .kind .compilationUnit)
    (t := t) ⟨by decide, .inl rfl⟩ [] (.start .empty)
  rw [List.append_nil] at hread
  have haccept := ASTLayoutReader.AcceptsUnit.mk hread (by decide) (by decide)
  have hcovers := IRContext.covers_program hprogram haccept fun _ => none
  exact ⟨t, _, _, haccept, (checkAST_ok_iff _ _ rfl haccept hcovers).2 (by decide)⟩

/-- `m<int> -> { m() -> { m<1>(); } }`: the name of the contributed instantiation is unresolved. And
`f() -> { f<1>(); }`: the name is the one of a function. -/
theorem checkAST_nullDereference :
    (∃ (t : Tree) (a : AST) (s : ASTLayoutReader.State), t.IsProgram ∧
      ASTLayoutReader.AcceptsUnit (fun _ _ => none) .compilationUnit t.encode .empty a s ∧
      (IRContext.ofUnits [a] fun _ => none).Covers a ∧
      checkAST (.ofUnits [a] fun _ => none) a = .error .nullDereference ∧
      ∃ v ∈ a.visited false [], v.base.kind = .metaInstantiationExpr ∧ v.contributed = true) ∧
    (∃ (t : Tree) (a : AST) (s : ASTLayoutReader.State), t.IsProgram ∧
      ASTLayoutReader.AcceptsUnit (fun _ _ => none) .compilationUnit t.encode .empty a s ∧
      (IRContext.ofUnits [a] fun _ => none).Covers a ∧
      checkAST (.ofUnits [a] fun _ => none) a = .error .nullDereference ∧
      ∀ v ∈ a.visited false [], v.contributed = false) := by
  let call (name : Identifier) (n : Nat) : Tree :=
    .node ⟨n, .compoundStmt⟩ [.node ⟨n + 1, .expressionStmt⟩ [.node ⟨n + 2, .callOperatorExpr⟩
      [.node ⟨n + 3, .metaInstantiationExpr⟩
        [.node ⟨n + 4, .declRefExpr name⟩ [], .node ⟨n + 5, .integerLiteralExpr 1⟩ []]]]]
  let t : Tree := .node ⟨0, .compilationUnit⟩ [.node ⟨1, .metaDecl "m"⟩
    [.node ⟨2, .argumentDeclList⟩ [.node ⟨3, .anonymousArgumentDecl⟩ []],
      .node ⟨4, .metaContribution⟩
        [.node ⟨5, .functionDecl "m"⟩ [.node ⟨6, .argumentDeclList⟩ [], call "m" 7]]]]
  let t' : Tree := .node ⟨0, .compilationUnit⟩ [.node ⟨1, .functionDecl "f"⟩
    [.node ⟨2, .argumentDeclList⟩ [], call "f" 3]]
  have hread := ASTLayoutReader.consume_complete (fun _ _ => none) (p := .kind .compilationUnit)
    (t := t) ⟨by decide, .inl rfl⟩ [] (.start .empty)
  have hread' := ASTLayoutReader.consume_complete (fun _ _ => none) (p := .kind .compilationUnit)
    (t := t') ⟨by decide, .inl rfl⟩ [] (.start .empty)
  rw [List.append_nil] at hread hread'
  have haccept := ASTLayoutReader.AcceptsUnit.mk hread (by decide) (by decide)
  have haccept' := ASTLayoutReader.AcceptsUnit.mk hread' (by decide) (by decide)
  have hprogram : t.IsProgram := ⟨rfl, by decide, by decide, by decide⟩
  have hprogram' : t'.IsProgram := ⟨rfl, by decide, by decide, by decide⟩
  exact ⟨⟨t, _, _, hprogram, haccept, IRContext.covers_program hprogram haccept _, rfl, by decide⟩,
    t', _, _, hprogram', haccept', IRContext.covers_program hprogram' haccept' _, rfl, by decide⟩

end SemaAnalysis

end Swy
