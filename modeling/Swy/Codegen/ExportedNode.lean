import Swy.Codegen.Instantiation
import Swy.Parse.LayoutGrammar
import Swy.Parse.UnitNames

/-!
# What a meta unit exports

`CodegenInstance::lookupGlobal` casts the node that a meta unit exports to a function. It is one,
because the name of a meta declaration is visible while the declaration itself is read: no parameter
and no exported variable has that name, so that the only child of a unit that can have it is a
function of the contribution.
-/

namespace Swy

open Library

/-- Fields that do not take the name away from a function: those of a node that is no unit, no meta
declaration and no constant of that name. -/
def NodeData.SparesExport (name : Identifier) (d : NodeData) : Prop :=
  d.kind.isUnitNode = false ∧ d.kind ≠ .metaDecl ∧
    (d.kind = .globalConstantDecl → d.name? ≠ some name)

theorem NodeData.sparesExport_of_kind {name : Identifier} {d : NodeData}
    (h : (d.kind.isUnitNode || d.kind == .metaDecl || d.kind == .globalConstantDecl) = false) :
    d.SparesExport name := by
  simp only [Bool.or_eq_false_iff, beq_eq_false_iff_ne] at h
  exact ⟨h.1.1, h.1.2, fun hk => absurd hk h.2⟩

theorem NodeData.sparesExport_globalConstantDecl {name name' : Identifier}
    (h : some name' ≠ some name) : (globalConstantDecl name').SparesExport name := by
  refine ⟨rfl, ?_, fun _ => h⟩
  simp [NodeData.kind]

/-- What has the name then is a function. -/
theorem NodeData.SparesExport.functionDecl {name : Identifier} {n : Node}
    (h : n.data.SparesExport name) (hk : n.kind.isTopLevelNode = true)
    (hname : n.name? = some name) : n.kind = .functionDecl := by
  obtain ⟨hunit, hmetaDecl, hconstant⟩ := h
  obtain ⟨id, data⟩ := n
  cases data with
  | functionDecl name' => rfl
  | metaUnit inst => cases hunit
  | metaDecl name' => exact absurd rfl hmetaDecl
  | globalConstantDecl name' => exact absurd hname (hconstant rfl)
  | _ => cases hk

/-- There are no constants in what is derived. -/
theorem Tree.derived_ne_globalConstantDecl {depth : MetaDepth} (t : Tree)
    (h : derived depth t = true) : ∀ n ∈ t.labels, n.kind ≠ .globalConstantDecl := by
  intro n hn
  obtain ⟨u, hu, rfl⟩ := Rose.exists_subtree hn
  obtain ⟨depth', hd⟩ := derived_subtree t h u hu
  obtain ⟨⟨id, data⟩, cs⟩ := u
  cases data with
  | globalConstantDecl => cases hd
  | _ => exact nofun

/-- Among nodes with distinct names at most one has the name. -/
theorem length_filter_name {ns : List Node} (h : (ns.filterMap Node.name?).Nodup)
    (name : Identifier) : (ns.filter fun n => n.name? = some name).length ≤ 1 := by
  have hname : (ns.filter fun n => n.name? = some name).filterMap Node.name? =
      List.replicate (ns.filter fun n => n.name? = some name).length name := by
    clear h
    induction ns with
    | nil => rfl
    | cons n ns ih =>
      by_cases hn : n.name? = some name
      · rw [List.filter_cons_of_pos (by simpa using hn), List.filterMap_cons_some hn, ih]
        rfl
      · rw [List.filter_cons_of_neg (by simpa using hn), ih]
  rw [← List.nodup_replicate (a := name), ← hname]
  exact h.sublist (List.filter_sublist.filterMap _)

theorem getLast?_eq_some_iff_mem {α : Type} {l : List α} (h : l.length ≤ 1) {x : α} :
    l.getLast? = some x ↔ x ∈ l := by
  match l, h with
  | [], _ => simp
  | [y], _ => simp [eq_comm]

namespace ASTLayoutReader

open BasicASTBuilder

variable {similarTo : ScopeChain → Identifier → Option Node}

/-- The arguments of a list are resolved like the list. -/
theorem mem_staged_argument {c : Bool} {args arg : AST} (hk : args.kind = .argumentDeclList)
    (h : arg ∈ args.children) : (c, arg.label) ∈ AST.staged c args := by
  have root : ∀ a : AST, (c, a.label) ∈ AST.staged c a := by
    rintro ⟨n, cs⟩
    unfold AST.staged
    exact List.mem_cons_self
  obtain ⟨⟨⟨id, data⟩, decl, exportedDecls⟩, cs⟩ := args
  cases data <;> try cases hk
  refine List.mem_cons_of_mem _ ?_
  have all : ∀ cs : List AST, arg ∈ cs → (c, arg.label) ∈ AST.stagedAll c cs := by
    intro cs
    induction cs with
    | nil => exact fun h => absurd h List.not_mem_nil
    | cons d ds ih =>
      intro h
      rcases List.mem_cons.1 h with rfl | h
      · exact List.mem_append_left _ (root _)
      · exact List.mem_append_right _ (ih h)
  exact all cs h

/-- A meta declaration of an accepted program is read where its name is visible. -/
theorem metaDecl_spares {t : Tree} {a : AST} {s : State} (ht : t.IsProgram)
    (haccept : AcceptsUnit similarTo .compilationUnit t.encode .empty a s) {decl : AST}
    (hdecl : decl ∈ a.children) {name : Identifier}
    (hdata : decl.label.node.data = .metaDecl name) :
    ∃ env r, Resolution.Spares name env (AST.staged false decl) r := by
  obtain ⟨hresolve, herrors⟩ := haccept.resolve
  rw [haccept.shape ht.wellShaped ht.kind] at hresolve herrors
  obtain ⟨⟨id, data⟩, cs⟩ := t
  have hkind := ht.kind
  cases data <;> try cases hkind
  rw [← hresolve] at hdecl
  obtain ⟨u, hu, r, hr, hres, he⟩ := Resolution.mem_resolveAll
    (fun u hu r => Resolution.env_resolve_topLevel ((Tree.wellShaped_node.1 ht.wellShaped).2 u hu)
      (ht.topLevel u hu) r) herrors decl hdecl
  have hunit := Resolution.errors_resolveAll (fun u _ => Resolution.errors_resolve u) herrors
  have hlabel : u.label = decl.label.node := by
    have hshape := Resolution.resolve_shape u
      ((Tree.wellShaped_node.1 ht.wellShaped).2 u hu) false r
    rw [hres] at hshape
    rw [← hshape, AST.shape, Rose.label_map]
  obtain ⟨previous, hlookup, -⟩ := (Resolution.nodup_enterUnit (.inl rfl) hunit).2 u.label
    (List.mem_map_of_mem hu) name (by rw [hlabel, Node.name?, hdata]; rfl)
  have hvisible : r.Visible name := by
    rw [Resolution.Visible, hr, hlookup]
    rfl
  have hspares := Resolution.spares_resolve u
    (Tree.derivedTopLevel_label (ht.topLevel u hu)) false r hvisible he
  rw [hres] at hspares
  exact ⟨_, _, hspares⟩

/-- What the meta function of a declaration of an accepted program writes. -/
theorem instantiatedLayout_spares {t : Tree} {a : AST} {s : State} (ht : t.IsProgram)
    (haccept : AcceptsUnit similarTo .compilationUnit t.encode .empty a s) {decl : AST}
    (hdecl : decl ∈ a.children) {name : Identifier} (hdata : decl.label.node.data = .metaDecl name)
    {ctx : IRContext} {metaFunction : CodegenState}
    (hmeta : MetaCodegen.codegen ctx decl (.initial .insideMetaDecl) = .ok ((), metaFunction))
    {rt : Runtime} {fuel : Nat} {pad : Blocks Instruction} {inst : Instantiation}
    {nextId : NodeId} {contributor : NodeContributor}
    (h : CodeExecutor.instantiatedLayout rt fuel pad metaFunction.blocks inst nextId =
      some contributor) :
    ∃ l, contributor.layout = some ⟨nextId, .metaUnit inst⟩ :: l ∧
      ∀ n, some n ∈ l → n.data.SparesExport name := by
  obtain ⟨l, hl, hevents⟩ := instantiatedLayout_eq hmeta h
  refine ⟨l, hl, fun node hnode => ?_⟩
  obtain ⟨n, args, contribution, arguments, event, rfl, hevent, hwritten⟩ := hevents node hnode
  obtain ⟨env, r, hspares⟩ := metaDecl_spares ht haccept hdecl hdata
  have hshape := haccept.shape ht.wellShaped ht.kind
  have htop : Tree.derivedTopLevel (AST.shape (.node n [args, contribution])) = true := by
    refine ht.topLevel _ ?_
    rw [← hshape, AST.shape, Rose.children_map]
    exact List.mem_map_of_mem hdecl
  obtain ⟨⟨id, data⟩, d, exportedDecls⟩ := n
  obtain rfl : data = .metaDecl name := hdata
  have hargs : AST.kind args = .argumentDeclList := by
    have hwell : Tree.WellShaped (AST.shape (.node ⟨⟨id, .metaDecl name⟩, d, exportedDecls⟩
        [args, contribution])) := by
      rw [← hshape] at ht
      obtain ⟨m, cs⟩ := a
      have hroot := ht.wellShaped
      rw [AST.shape_node, Tree.wellShaped_node] at hroot
      exact hroot.2 _ (List.mem_map_of_mem hdecl)
    rw [← AST.kind_shape]
    exact eq_of_beq (Bool.and_eq_true_iff.1 (Tree.wellShaped_node.1 hwell).1).1
  have hcontribution : Tree.derived .depthGlobalScope (AST.shape contribution) = true :=
    (Bool.and_eq_true_iff.1 htop).2
  have hstaged : ∀ x, x ∈ AST.staged false args ∨ x ∈ AST.staged true contribution →
      x ∈ AST.staged false
        (.node ⟨⟨id, .metaDecl name⟩, d, exportedDecls⟩ [args, contribution]) := by
    intro x hx
    simpa [AST.staged, AST.stagedAll] using .inr hx
  refine Exec.WritesOnly.execMetaFunction (P := NodeData.SparesExport name) ctx rt arguments
    (fun m hm hk => ?_) (fun m hm hk d hd name' hname' level => ?_) (fun d hd name' hname' => ?_)
    (fun value => NodeData.sparesExport_of_kind rfl) rt.memory event hevent _ hwritten
  · have hlabel := AST.node_mem_shape hm
    obtain ⟨hunit, hmetaDecl⟩ := Tree.derived_label _ hcontribution _ hlabel
    exact ⟨hunit, hmetaDecl,
      fun h => absurd h (Tree.derived_ne_globalConstantDecl _ hcontribution _ hlabel)⟩
  · rw [← AST.snd_staged true contribution] at hm
    obtain ⟨x, hx, rfl⟩ := List.mem_map.1 hm
    have hne := hspares.exported x (hstaged x (.inr hx)) d hd
    rw [hname'] at hne
    cases level with
    | insideFunctionDecl => exact NodeData.sparesExport_of_kind rfl
    | topLevel => exact NodeData.sparesExport_globalConstantDecl hne
  · obtain ⟨hnode, hk⟩ := List.mem_filter.1 hd
    obtain ⟨arg, harg, rfl⟩ := List.mem_map.1 hnode
    have hne := hspares.declared (false, arg.label)
      (hstaged _ (.inl (mem_staged_argument hargs harg))) rfl (.inr (of_decide_eq_true hk))
    rw [hname'] at hne
    exact NodeData.sparesExport_globalConstantDecl hne

/-- The root of a unit that was written for an instantiation is the meta unit of that instantiation,
and nothing below takes the name away from a function. -/
theorem metaUnit_spares {t : Tree} {a : AST} {s : State} (ht : t.IsProgram)
    (haccept : AcceptsUnit similarTo .compilationUnit t.encode .empty a s) {decl : AST}
    (hdecl : decl ∈ a.children) {name : Identifier} (hdata : decl.label.node.data = .metaDecl name)
    {ctx : IRContext} {metaFunction : CodegenState}
    (hmeta : MetaCodegen.codegen ctx decl (.initial .insideMetaDecl) = .ok ((), metaFunction))
    {rt : Runtime} {fuel : Nat} {pad : Blocks Instruction} {inst : Instantiation}
    {nextId : NodeId} {contributor : NodeContributor}
    (hlayout : CodeExecutor.instantiatedLayout rt fuel pad metaFunction.blocks inst nextId =
      some contributor) {heap : ASTHeap} {root : ASTNode} {cs : List AST} {s' : State}
    (hunit : AcceptsUnit similarTo .metaUnit contributor.layout heap (.node root cs) s') :
    root.node = ⟨nextId, .metaUnit inst⟩ ∧
      ∀ c ∈ cs.map AST.shape, ∀ n ∈ c.labels, n.data.SparesExport name := by
  obtain ⟨-, hencode, -⟩ := consume_resolve hunit.read hunit.ok
  obtain ⟨l, hl, hspares⟩ := instantiatedLayout_spares ht haccept hdecl hdata hmeta hlayout
  rw [AST.shape_node, Tree.encode_node, hl] at hencode
  obtain ⟨hroot, htail⟩ := List.cons.inj hencode
  refine ⟨(Option.some.inj hroot).symm, fun c hc n hn => hspares n ?_⟩
  rw [htail]
  refine List.mem_append_left _ (List.mem_append_left _ ?_)
  rw [Tree.encodeAll, Rose.encodeAll_eq_flatMap]
  exact List.mem_flatMap.2 ⟨c, hc, (Rose.mem_encode _).2 hn⟩

/-- What a meta unit exports. A meta unit that is written for an instantiation of a meta declaration
of an accepted program, and that is read without an error, exports a node iff one of its children
has the name of the meta declaration. That child is the only one with the name, and it is a
function, so that `CodegenInstance::lookupGlobal` takes its branch for functions. -/
theorem exportedNode_functionDecl {t : Tree} {a : AST} {s : State} (ht : t.IsProgram)
    (haccept : AcceptsUnit similarTo .compilationUnit t.encode .empty a s) {decl : AST}
    (hdecl : decl ∈ a.children) {name : Identifier} (hdata : decl.label.node.data = .metaDecl name)
    {ctx : IRContext} {metaFunction : CodegenState}
    (hmeta : MetaCodegen.codegen ctx decl (.initial .insideMetaDecl) = .ok ((), metaFunction))
    {rt : Runtime} {fuel : Nat} {pad : Blocks Instruction} {inst : Instantiation}
    (hinst : inst.name = name) {nextId : NodeId} {contributor : NodeContributor}
    (hlayout : CodeExecutor.instantiatedLayout rt fuel pad metaFunction.blocks inst nextId =
      some contributor) {heap : ASTHeap} (hfresh : heap.exportedNode nextId = none) {unit : AST}
    {s' : State} (hunit : AcceptsUnit similarTo .metaUnit contributor.layout heap unit s') :
    (∀ e, s'.builder.heap.exportedNode unit.label.node.id = some e ↔
      ∃ c ∈ unit.children, c.label.node = e ∧ e.name? = some name) ∧
    ((unit.children.map fun c => c.label.node).filter fun n => n.name? = some name).length ≤ 1 ∧
    ∀ c ∈ unit.children, c.label.node.name? = some name → AST.kind c = .functionDecl := by
  subst hinst
  obtain ⟨hreads, -, sim⟩ := consume_resolve hunit.read hunit.ok
  obtain ⟨hresolve, herrors⟩ := hunit.resolve
  obtain ⟨root, cs⟩ := unit
  obtain ⟨hroot, hbelow⟩ := metaUnit_spares ht haccept hdecl hdata hmeta hlayout hunit
  have hshape : AST.shape (.node root cs) = .node root.node (cs.map AST.shape) := AST.shape_node ..
  rw [hshape] at hreads hresolve herrors
  have hchild : ∀ c ∈ cs, c.label.node.data.SparesExport inst.name := fun c hc =>
    hbelow _ (List.mem_map_of_mem hc) _ (AST.node_mem_shape
      (Rose.label_mem_labels (Rose.mem_subtrees_self c)))
  have hnounit : ∀ c ∈ cs.map AST.shape, ∀ n ∈ c.labels, n.kind.isUnitNode = false :=
    fun c hc n hn => (hbelow c hc n hn).1
  have hlabels : (cs.map AST.shape).map Rose.label = cs.map fun c => c.label.node := by
    rw [List.map_map]
    exact List.map_congr_left fun c _ => Rose.label_map ASTNode.node c
  have hnodes : ∀ n ∈ (cs.map AST.shape).map Rose.label, n.kind ≠ .metaDecl := by
    rw [hlabels]
    intro n hn
    obtain ⟨c, hc, rfl⟩ := List.mem_map.1 hn
    exact (hchild c hc).2.1
  rw [hroot] at herrors
  obtain ⟨hnodup, hexported⟩ := Resolution.resolve_metaUnit hnounit hnodes herrors
  rw [hlabels] at hnodup hexported
  have hlength := length_filter_name hnodup inst.name
  have hfresh : (BasicASTBuilder.start heap).resolution.units.exportedNode nextId = none := hfresh
  have hstate : s'.builder.heap.exportedNode root.node.id = _ :=
    congrArg (fun r : Resolution => r.units.exportedNode root.node.id) sim.state
  rw [hshape, hroot] at hstate
  refine ⟨fun e => ?_, hlength, fun c hc hname => ?_⟩
  · have hlast : s'.builder.heap.exportedNode root.node.id =
        ((cs.map fun c => c.label.node).filter fun n => n.name? = some inst.name).getLast? := by
      rw [hroot]
      refine (hstate.trans hexported).trans ?_
      rw [hfresh, Option.or_none]
    rw [show (Rose.node root cs).label.node.id = root.node.id from rfl, hlast,
      getLast?_eq_some_iff_mem hlength, List.mem_filter, List.mem_map]
    constructor
    · rintro ⟨⟨c, hc, hnode⟩, hname⟩
      exact ⟨c, hc, hnode, of_decide_eq_true hname⟩
    · rintro ⟨c, hc, hnode, hname⟩
      exact ⟨⟨c, hc, hnode⟩, decide_eq_true hname⟩
  · refine (hchild c hc).functionDecl ?_ hname
    have hfit := (Tree.wellShaped_node.1 hreads.1).1
    rw [hroot] at hfit
    have htop := all_map_kind hfit _ (List.mem_map_of_mem hc)
    rwa [AST.kind_shape] at htop

/-- `m<int n> -> { m() -> {} }`, and the unit of `m<7>`, which has a constant and a function. -/
theorem exportedNode_functionDecl_parameter :
    let inst : Instantiation := ⟨20, "m", some (1, .metaDecl)⟩
    ∃ (heap : ASTHeap) (contributor : NodeContributor) (unit : AST) (s : State),
      contributor.layout.filterMap (Option.map Node.name?) =
        [none, some "n", none, some "m", none, none] ∧
      AcceptsUnit (fun _ _ => none) .metaUnit contributor.layout heap unit s ∧
      (∀ e, s.builder.heap.exportedNode unit.label.node.id = some e ↔
        ∃ c ∈ unit.children, c.label.node = e ∧ e.name? = some inst.name) ∧
      ((unit.children.map fun c => c.label.node).filter fun n =>
        n.name? = some inst.name).length ≤ 1 ∧
      ∀ c ∈ unit.children, c.label.node.name? = some inst.name → AST.kind c = .functionDecl := by
  intro inst
  let root : Node := ⟨0, .compilationUnit⟩
  let t : Tree := .node root [.node ⟨1, .metaDecl "m"⟩
    [.node ⟨2, .argumentDeclList⟩ [.node ⟨3, .namedArgumentDecl "n"⟩ []],
      .node ⟨4, .metaContribution⟩ [.node ⟨5, .functionDecl "m"⟩
        [.node ⟨6, .argumentDeclList⟩ [], .node ⟨7, .compoundStmt⟩ []]]]]
  let decl : AST := .node { node := ⟨1, .metaDecl "m"⟩ }
    [.node { node := ⟨2, .argumentDeclList⟩ } [.node { node := ⟨3, .namedArgumentDecl "n"⟩ } []],
      .node { node := ⟨4, .metaContribution⟩ } [.node { node := ⟨5, .functionDecl "m"⟩ }
        [.node { node := ⟨6, .argumentDeclList⟩ } [], .node { node := ⟨7, .compoundStmt⟩ } []]]]
  let ctx : IRContext := ⟨fun _ => none, fun _ => none⟩
  let result := MetaCodegen.codegen ctx decl (.initial .insideMetaDecl)
  let metaFunction := (result.toOption.getD ((), .initial .insideMetaDecl)).2
  let pad : Blocks Instruction := [[.operation (.callMeta [.constant 7]), .terminator .retVoid]]
  let unit : Tree := .node ⟨30, .metaUnit inst⟩
    [.node ⟨31, .globalConstantDecl "n"⟩ [.node ⟨32, .integerLiteralExpr 7⟩ []],
      .node ⟨33, .functionDecl "m"⟩ [.node ⟨34, .argumentDeclList⟩ [],
        .node ⟨35, .compoundStmt⟩ []]]
  let heap : ASTHeap :=
    { containingUnit := fun _ => some root
      scope := fun _ => some [.allocated true [("m", ⟨1, .metaDecl "m"⟩)]]
      exportedNode := fun _ => none }
  have hprogram : t.IsProgram := ⟨rfl, by decide, by decide, by decide⟩
  have hread := consume_complete (fun _ _ => none) (p := .kind .compilationUnit) (t := t)
    ⟨by decide, .inl rfl⟩ [] (.start .empty)
  have hread' := consume_complete (fun _ _ => none) (p := .kind .metaUnit) (t := unit)
    ⟨by decide, .inl rfl⟩ [] (.start heap)
  rw [List.append_nil] at hread hread'
  have haccept := AcceptsUnit.mk hread (by decide) (by decide)
  have haccept' := AcceptsUnit.mk hread' (by decide) (by decide)
  have hmeta : result = .ok ((), metaFunction) :=
    eq_ok_of_isOk (c := MetaCodegen.codegen ctx decl) (s := .initial .insideMetaDecl)
      (by decide +kernel)
  have hlayout : CodeExecutor.instantiatedLayout default 20 pad metaFunction.blocks inst 30 =
      some ⟨unit.encode, 36⟩ := by decide +kernel
  refine ⟨heap, ⟨unit.encode, 36⟩, _, _, by decide, haccept', ?_⟩
  exact exportedNode_functionDecl hprogram haccept List.mem_cons_self rfl hmeta rfl hlayout
    rfl haccept'

end ASTLayoutReader

end Swy
