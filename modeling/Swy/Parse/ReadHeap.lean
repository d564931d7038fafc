import Swy.Parse.ExportedDecls
import Swy.Parse.References
import Swy.Parse.UnitNames

/-!
# What reading leaves on the heap

The units that were read before are only known by the names at their top level, which belong to
functions, constants and meta declarations (`ReadHeap.topLevelNames`). So these are the names that
are visible where the functions of a unit are resolved (`mem_children_resolve`).
-/

namespace Swy

open Library

/-- The children of a well shaped tree are well shaped. -/
theorem Tree.WellShaped.child {t u : Tree} (h : t.WellShaped) (hu : u ∈ t.children) :
    u.WellShaped := by
  obtain ⟨n, cs⟩ := t
  exact (Tree.wellShaped_node.1 h).2 u hu

namespace Resolution

/-- The names at the top level of units belong to functions, constants and meta declarations. -/
def TopLevelNames (r : Resolution) : Prop :=
  ∀ id env, r.units.names id = some env → ∀ entry ∈ env, entry.2.kind.isTopLevelNode = true

theorem TopLevelNames.knows {r : Resolution} (h : r.TopLevelNames) {env : Environment}
    (henv : ∀ entry ∈ env, entry.2.kind.isTopLevelNode = true) :
    Knows (fun n => n.kind.isTopLevelNode = true) { r with env := env } := ⟨henv, h⟩

/-- The names that are visible at the top level of a unit are entered for it. -/
theorem TopLevelNames.enterUnit {r : Resolution} (h : r.TopLevelNames) (c : Bool)
    {outer : Environment} (houter : ∀ entry ∈ outer, entry.2.kind.isTopLevelNode = true)
    (unit : Node) {ns : List Node} (hns : ∀ n ∈ ns, n.kind.isTopLevelNode = true) :
    (r.enterUnit c outer unit ns).TopLevelNames ∧
      ∀ entry ∈ (r.enterUnit c outer unit ns).env, entry.2.kind.isTopLevelNode = true := by
  have hentered := (h.knows houter).enterUnit c houter unit fun n hn _ => hns n hn
  exact ⟨hentered.names, hentered.env⟩

theorem TopLevelNames.enterMetaUnit {r : Resolution} (h : r.TopLevelNames) (node : Node)
    (inst : Instantiation) : (r.enterMetaUnit node inst).1.TopLevelNames ∧
      ∀ entry ∈ (r.enterMetaUnit node inst).2, entry.2.kind.isTopLevelNode = true := by
  unfold Resolution.enterMetaUnit
  cases inst.decl.bind fun decl => r.units.containingUnit decl.1 with
  | none => exact ⟨h, fun entry he => absurd he List.not_mem_nil⟩
  | some unit =>
    refine ⟨h, fun entry he => ?_⟩
    cases hnames : r.units.names unit.id with
    | none =>
      simp only [hnames] at he
      exact absurd he List.not_mem_nil
    | some env =>
      simp only [hnames] at he
      exact h _ _ hnames entry he

theorem topLevelNames_resolveAll {cs : List Tree} {c : Bool} {r : Resolution}
    (h : ∀ t ∈ cs, ∀ r : Resolution, r.TopLevelNames → (resolve c t r).2.TopLevelNames)
    (hr : r.TopLevelNames) : (resolveAll c cs r).2.TopLevelNames := by
  induction cs generalizing r with
  | nil => exact hr
  | cons t ts ih =>
    exact ih (fun u hu => h u (List.mem_cons_of_mem t hu)) (h t List.mem_cons_self r hr)

/-- The children of a unit are at its top level. -/
theorem topLevel_of_fits {n : Node} {cs : List Tree} (hk : n.kind.isUnitNode = true)
    (hfit : n.kind.fits (cs.map Tree.kind) = true) :
    ∀ m ∈ cs.map Rose.label, m.kind.isTopLevelNode = true := by
  intro m hm
  obtain ⟨c, hc, rfl⟩ := List.mem_map.1 hm
  have hall : (cs.map Tree.kind).all ASTKind.isTopLevelNode = true := by
    cases hn : n.kind <;> rw [hn] at hk hfit <;> first | exact hfit | cases hk
  exact List.all_eq_true.1 hall _ (List.mem_map_of_mem hc)

/-- Resolving a tree only enters names of top level nodes for units. -/
theorem topLevelNames_resolve (t : Tree) (hs : t.WellShaped) (c : Bool) {r : Resolution}
    (hr : r.TopLevelNames) : (resolve c t r).2.TopLevelNames := by
  induction t using Rose.ind generalizing c r with
  | h n cs ih =>
    obtain ⟨hfit, hcs⟩ := Tree.wellShaped_node.1 hs
    have below : ∀ t ∈ cs, ∀ c (r : Resolution), r.TopLevelNames →
        (resolve c t r).2.TopLevelNames := fun t ht c r hr => ih t ht (hcs t ht) c hr
    have all : ∀ c (r : Resolution), r.TopLevelNames → (resolveAll c cs r).2.TopLevelNames :=
      fun c r hr => topLevelNames_resolveAll (fun t ht => below t ht c) hr
    have split : ∀ {d ds}, cs = d :: ds → ∀ c c',
        (resolveAll c' ds (resolve c d r).2).2.TopLevelNames := by
      rintro d ds rfl c c'
      exact topLevelNames_resolveAll (fun t ht => below t (List.mem_cons_of_mem _ ht) c')
        (below d List.mem_cons_self c r hr)
    have declared (n : Node) {r : Resolution} (hr : r.TopLevelNames) :
        (if c then r else declare n r).TopLevelNames := by
      cases c with
      | true => exact hr
      | false =>
        intro id env henv
        rw [if_neg Bool.false_ne_true, units_declare] at henv
        exact hr id env henv
    obtain ⟨id, data⟩ := n
    cases data with
    | compilationUnit =>
      exact all c _ (hr.enterUnit c (fun _ he => absurd he List.not_mem_nil) _
        (topLevel_of_fits rfl hfit)).1
    | metaUnit inst =>
      obtain ⟨hentered, houter⟩ := hr.enterMetaUnit ⟨id, .metaUnit inst⟩ inst
      exact all c _ (hentered.enterUnit c houter _ (topLevel_of_fits rfl hfit)).1
    | functionDecl | compoundStmt => exact all c r hr
    | namedArgumentDecl name => exact declared _ hr
    | metaDecl name =>
      cases cs with
      | nil => exact hr
      | cons args contribution => exact split rfl c true
    | declStmt name => exact declared _ (all c r hr)
    | metaIfStmt =>
      cases cs with
      | nil => exact hr
      | cons expression branches => exact split rfl false c
    | metaCalculationStmt => exact all false r hr
    | declRefExpr name =>
      simp only [resolve]
      split
      · exact hr
      · split <;> exact hr
    | _ => exact all c r hr

/-- What is at the top level of a unit adds no name. -/
theorem env_resolve_topLevelNode {t : Tree} (hs : t.WellShaped)
    (hk : t.kind.isTopLevelNode = true) (r : Resolution) : (resolve false t r).2.env = r.env := by
  obtain ⟨⟨id, data⟩, cs⟩ := t
  cases data with
  | functionDecl name | metaUnit inst => rfl
  | metaDecl name =>
    obtain ⟨args, contribution, rfl, -⟩ := hs.metaDecl rfl
    rfl
  | globalConstantDecl name =>
    obtain ⟨expr, rfl, hexpr⟩ := hs.globalConstantDecl rfl
    have hkind : expr.kind.isExprNode = true := by
      cases hk : Tree.kind expr <;> rw [hk] at hexpr <;> first | rfl | cases hexpr
    exact env_resolve_expr expr
      ((Tree.wellShaped_node.1 hs).2 expr List.mem_cons_self) hkind false r
  | _ => cases hk

/-- The children of a unit are resolved where only top level names are visible. -/
theorem mem_children_resolve {t : Tree} (hs : t.WellShaped) (hk : t.kind.isUnitNode = true)
    {r : Resolution} (hr : r.TopLevelNames) (he : (resolve false t r).2.errors = []) :
    ∀ f ∈ (resolve false t r).1.children, ∃ u ∈ t.children, ∃ r' : Resolution,
      (∀ entry ∈ r'.env, entry.2.kind.isTopLevelNode = true) ∧ (resolve false u r').1 = f ∧
        (resolve false u r').2.errors = [] := by
  obtain ⟨⟨id, data⟩, cs⟩ := t
  obtain ⟨hfit, hcs⟩ := Tree.wellShaped_node.1 hs
  have htop := topLevel_of_fits hk hfit
  have henv (u : Tree) (hu : u ∈ cs) (r : Resolution) : (resolve false u r).2.env = r.env :=
    env_resolve_topLevelNode (hcs u hu) (htop _ (List.mem_map_of_mem hu)) r
  have children {entered : Resolution} (he : (resolveAll false cs entered).2.errors = [])
      (hentered : ∀ entry ∈ entered.env, entry.2.kind.isTopLevelNode = true) :
      ∀ f ∈ (resolveAll false cs entered).1, ∃ u ∈ cs, ∃ r' : Resolution,
        (∀ entry ∈ r'.env, entry.2.kind.isTopLevelNode = true) ∧ (resolve false u r').1 = f ∧
          (resolve false u r').2.errors = [] := by
    intro f hf
    obtain ⟨u, hu, r', hr', hres, herrors⟩ := mem_resolveAll henv he f hf
    exact ⟨u, hu, r', hr' ▸ hentered, hres, herrors⟩
  cases data with
  | compilationUnit =>
    exact children he (hr.enterUnit false (fun _ he => absurd he List.not_mem_nil) _ htop).2
  | metaUnit inst =>
    obtain ⟨hentered, houter⟩ := hr.enterMetaUnit ⟨id, .metaUnit inst⟩ inst
    exact children he (hentered.enterUnit false houter _ htop).2
  | _ => cases hk

end Resolution

namespace ASTLayoutReader

/-- The heaps that reading layouts one after the other leaves, while the assertions of the builder
hold. -/
inductive ReadHeap (similarTo : ScopeChain → Identifier → Option Node) : ASTHeap → Prop
  | empty : ReadHeap similarTo .empty
  | read {heap : ASTHeap} {k : ASTKind} {layout : Layout} {a : AST} {s : State} :
    ReadHeap similarTo heap → consume similarTo (.kind k) ⟨layout, .start heap⟩ = .ok (a, s) →
    s.builder.Ok → ReadHeap similarTo s.builder.heap

variable {similarTo : ScopeChain → Identifier → Option Node}

theorem ReadHeap.topLevelNames {heap : ASTHeap} (h : ReadHeap similarTo heap) :
    (BasicASTBuilder.start heap).resolution.TopLevelNames := by
  induction h with
  | empty =>
    intro id env henv
    cases henv
  | @read heap k layout a s _ hread hok ih =>
    obtain ⟨hreads, -, sim⟩ := consume_resolve hread hok
    have hnames := Resolution.topLevelNames_resolve a.shape hreads.1
      (BasicASTBuilder.start heap).isInMetaDeclMode ih
    rw [← sim.state] at hnames
    exact hnames

end ASTLayoutReader

end Swy
