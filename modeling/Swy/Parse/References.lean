import Swy.Parse.Stages

/-!
# References of an accepted unit

What a reference is resolved to after a unit was read without an error: nothing if a meta
declaration contributes it (`StagedRefs`), and otherwise to a named node of the unit or one that was
visible before (`Knows`).
-/

namespace Swy

open Library

/-! ## Trees of nodes -/

namespace AST

theorem wellShaped_node {n : ASTNode} {cs : List AST} :
    (shape (.node n cs)).WellShaped ↔
      n.node.kind.fits (cs.map kind) = true ∧ ∀ c ∈ cs, c.shape.WellShaped := by
  have hkinds : (cs.map shape).map Tree.kind = cs.map kind := by
    rw [List.map_map]
    exact List.map_congr_left fun c _ => kind_shape c
  rw [shape_node, Tree.wellShaped_node, hkinds, List.forall_mem_map]

theorem wellShaped_subtree {a b : AST} (h : a.shape.WellShaped) (hb : b ∈ a.subtrees) :
    b.shape.WellShaped := by
  induction a using Rose.ind with
  | h n cs ih =>
    rcases Rose.mem_subtrees_node.1 hb with rfl | ⟨c, hc, hb⟩
    · exact h
    · exact ih c hc ((wellShaped_node.1 h).2 c hc) hb

end AST

/-! ## What references are resolved to -/

namespace Resolution

/-- The names that are visible, here or at the top level of a unit, belong to nodes of which `P`
holds. -/
structure Knows (P : Node → Prop) (r : Resolution) : Prop where
  env : ∀ entry ∈ r.env, P entry.2
  names : ∀ id env, r.units.names id = some env → ∀ entry ∈ env, P entry.2

section Knows

variable {P : Node → Prop} {r : Resolution}

theorem Knows.declare (h : Knows P r) {n : Node} (hn : n.name?.isSome = true → P n) :
    Knows P (r.declare n) := by
  unfold Resolution.declare
  cases hname : n.name? with
  | none => exact h
  | some name =>
    simp only
    split
    · refine ⟨fun entry he => ?_, h.names⟩
      rcases List.mem_cons.1 he with rfl | he
      · exact hn (by rw [hname]; rfl)
      · exact h.env entry he
    · exact ⟨h.env, h.names⟩

theorem Knows.enterTopLevel (h : Knows P r) (c : Bool) (unit : Node) {n : Node}
    (hn : n.name?.isSome = true → P n) : Knows P (r.enterTopLevel c unit n) := by
  unfold Resolution.enterTopLevel
  have hentered : ∀ r' : Resolution, r'.env = r.env → r'.units.names = r.units.names →
      Knows P (if c then r' else r'.declare n) := by
    intro r' henv hnames
    have hr' : Knows P r' := ⟨henv ▸ h.env, hnames ▸ h.names⟩
    cases c with
    | true => exact hr'
    | false => exact hr'.declare hn
  cases unit.data with
  | metaUnit inst =>
    by_cases hname : n.name? = some inst.name
    · simp only [hname, if_true]
      exact hentered _ rfl rfl
    · simp only [hname, if_false]
      exact hentered _ rfl rfl
  | _ => exact hentered _ rfl rfl

theorem Knows.enterUnit (h : Knows P r) (c : Bool) {outer : Environment}
    (houter : ∀ entry ∈ outer, P entry.2) (unit : Node) {ns : List Node}
    (hns : ∀ n ∈ ns, n.name?.isSome = true → P n) : Knows P (r.enterUnit c outer unit ns) := by
  have fold : ∀ (ns : List Node) (r : Resolution), Knows P r →
      (∀ n ∈ ns, n.name?.isSome = true → P n) →
        Knows P (ns.foldl (Resolution.enterTopLevel c unit) r) := by
    intro ns
    induction ns with
    | nil => exact fun r h _ => h
    | cons n ns ih =>
      intro r h hns
      exact ih _ (h.enterTopLevel c unit (hns n List.mem_cons_self))
        fun m hm => hns m (List.mem_cons_of_mem _ hm)
  have hfold := fold ns { r with env := outer } ⟨houter, h.names⟩ hns
  refine ⟨hfold.env, fun id env henv => ?_⟩
  have henv : Function.update (ns.foldl (Resolution.enterTopLevel c unit)
      { r with env := outer }).units.names unit.id _ id = some env := henv
  by_cases hid : id = unit.id
  · subst hid
    rw [Function.update_self] at henv
    cases henv
    exact hfold.env
  · rw [Function.update_of_ne hid] at henv
    exact hfold.names id env henv

theorem Knows.enterMetaUnit (h : Knows P r) (node : Node) (inst : Instantiation) :
    Knows P (r.enterMetaUnit node inst).1 ∧ ∀ entry ∈ (r.enterMetaUnit node inst).2, P entry.2 := by
  unfold Resolution.enterMetaUnit
  split
  · exact ⟨h, fun entry he => absurd he List.not_mem_nil⟩
  · rename_i unit _
    refine ⟨⟨h.env, h.names⟩, fun entry he => ?_⟩
    cases hnames : r.units.names unit.id with
    | none =>
      rw [hnames] at he
      exact absurd he List.not_mem_nil
    | some env =>
      rw [hnames] at he
      exact h.names _ _ hnames entry he

/-- The references of the trees are resolved to nodes of which `P` holds. -/
def ResolvesTo (P : Node → Prop) (as : List AST) : Prop :=
  ∀ a ∈ as, ∀ n ∈ a.labels, ∀ d, n.decl = some d → P d

theorem resolvesTo_node {n : ASTNode} {cs : List AST} (hn : n.decl = none)
    (h : ResolvesTo P cs) : ResolvesTo P [.node n cs] := by
  intro a ha x hx d hd
  rw [List.mem_singleton.1 ha] at hx
  rcases Rose.mem_labels_node.1 hx with rfl | ⟨c, hc, hx⟩
  · rw [hn] at hd
    cases hd
  · exact h c hc x hx d hd

theorem resolvesTo_cons {a : AST} {as : List AST} (h : ResolvesTo P [a]) (h' : ResolvesTo P as) :
    ResolvesTo P (a :: as) := by
  intro b hb
  rcases List.mem_cons.1 hb with rfl | hb
  · exact h b List.mem_cons_self
  · exact h' b hb

/-- Names are only resolved to what was known before, and to named nodes of the tree. -/
theorem Knows.resolve (t : Tree) (ht : ∀ n ∈ t.labels, n.name?.isSome = true → P n) (c : Bool)
    {r : Resolution} (h : Knows P r) :
    Knows P (resolve c t r).2 ∧ ResolvesTo P [(resolve c t r).1] := by
  induction t using Rose.ind generalizing c r with
  | h n cs ih =>
    have hself := ht n (Rose.mem_labels_node.2 (.inl rfl))
    have hbelow : ∀ t ∈ cs, ∀ n ∈ t.labels, n.name?.isSome = true → P n := fun t hmem n hn =>
      ht n (Rose.mem_labels_node.2 (.inr ⟨t, hmem, hn⟩))
    have hroots : ∀ n ∈ cs.map Rose.label, n.name?.isSome = true → P n := by
      intro n hn
      obtain ⟨t, hmem, rfl⟩ := List.mem_map.1 hn
      exact hbelow t hmem _ (Rose.label_mem_labels (Rose.mem_subtrees_self t))
    have all (ds : List Tree) (hds : ∀ d ∈ ds, d ∈ cs) (c : Bool) {r : Resolution}
        (h : Knows P r) : Knows P (resolveAll c ds r).2 ∧ ResolvesTo P (resolveAll c ds r).1 := by
      induction ds generalizing r with
      | nil => exact ⟨h, fun a ha => absurd ha List.not_mem_nil⟩
      | cons d ds ih' =>
        have hd := hds d List.mem_cons_self
        obtain ⟨hknows, hto⟩ := ih d hd (hbelow d hd) c h
        obtain ⟨hknows', hto'⟩ := ih' (fun x hx => hds x (List.mem_cons_of_mem _ hx)) hknows
        exact ⟨hknows', resolvesTo_cons hto hto'⟩
    have hnil : ResolvesTo P [] := fun a ha => absurd ha List.not_mem_nil
    obtain ⟨id, data⟩ := n
    cases data with
    | compilationUnit =>
      obtain ⟨hknows, hto⟩ := all cs (fun _ hd => hd) c
        (h.enterUnit c (fun _ he => absurd he List.not_mem_nil) ⟨id, .compilationUnit⟩ hroots)
      exact ⟨⟨h.env, hknows.names⟩, resolvesTo_node rfl hto⟩
    | metaUnit inst =>
      obtain ⟨hentered, houter⟩ := h.enterMetaUnit ⟨id, .metaUnit inst⟩ inst
      obtain ⟨hknows, hto⟩ := all cs (fun _ hd => hd) c
        (hentered.enterUnit c houter ⟨id, .metaUnit inst⟩ hroots)
      exact ⟨⟨h.env, hknows.names⟩, resolvesTo_node rfl hto⟩
    | functionDecl name | compoundStmt =>
      obtain ⟨hknows, hto⟩ := all cs (fun _ hd => hd) c h
      exact ⟨⟨h.env, hknows.names⟩, resolvesTo_node rfl hto⟩
    | namedArgumentDecl name =>
      refine ⟨?_, resolvesTo_node rfl hnil⟩
      cases c with
      | true => exact h
      | false => exact h.declare hself
    | metaDecl name =>
      cases cs with
      | nil => exact ⟨h, resolvesTo_node rfl hnil⟩
      | cons args contribution =>
        obtain ⟨hknows, hto⟩ := ih args List.mem_cons_self (hbelow _ List.mem_cons_self) c h
        obtain ⟨hknows', hto'⟩ :=
          all contribution (fun _ hd => List.mem_cons_of_mem _ hd) true hknows
        exact ⟨⟨h.env, hknows'.names⟩, resolvesTo_node rfl (resolvesTo_cons hto hto')⟩
    | declStmt name =>
      obtain ⟨hknows, hto⟩ := all cs (fun _ hd => hd) c h
      refine ⟨?_, resolvesTo_node rfl hto⟩
      cases c with
      | true => exact hknows
      | false => exact hknows.declare hself
    | metaIfStmt =>
      cases cs with
      | nil => exact ⟨h, resolvesTo_node rfl hnil⟩
      | cons expression branches =>
        obtain ⟨hknows, hto⟩ :=
          ih expression List.mem_cons_self (hbelow _ List.mem_cons_self) false h
        obtain ⟨hknows', hto'⟩ := all branches (fun _ hd => List.mem_cons_of_mem _ hd) c hknows
        exact ⟨hknows', resolvesTo_node rfl (resolvesTo_cons hto hto')⟩
    | metaCalculationStmt =>
      obtain ⟨hknows, hto⟩ := all cs (fun _ hd => hd) false h
      exact ⟨hknows, resolvesTo_node rfl hto⟩
    | declRefExpr name =>
      cases c with
      | true => exact ⟨h, resolvesTo_node rfl hnil⟩
      | false =>
        simp only [Resolution.resolve, Bool.false_eq_true, ↓reduceIte]
        cases hname : r.env.lookup name with
        | none => exact ⟨⟨h.env, h.names⟩, resolvesTo_node rfl hnil⟩
        | some decl =>
          refine ⟨h, fun a ha x hx d hd => ?_⟩
          rw [List.mem_singleton.1 ha] at hx
          rw [List.mem_singleton.1 hx] at hd
          cases hd
          obtain ⟨l₁, l₂, hl, _⟩ := List.lookup_eq_some_iff.1 hname
          exact h.env (name, decl) (by rw [hl]; exact List.mem_append_right _ List.mem_cons_self)
    | _ =>
      obtain ⟨hknows, hto⟩ := all cs (fun _ hd => hd) c h
      exact ⟨hknows, resolvesTo_node rfl hto⟩

end Knows

/-- A reference is unresolved exactly if a meta declaration contributes it. -/
def StagedRefs (ns : List (Bool × ASTNode)) : Prop :=
  ∀ x ∈ ns, x.2.node.kind = .declRefExpr → (x.2.decl = none ↔ x.1 = true)

theorem StagedRefs.nil : StagedRefs [] := fun _ hx => absurd hx List.not_mem_nil

theorem StagedRefs.append {ns ns' : List (Bool × ASTNode)} (h : StagedRefs ns)
    (h' : StagedRefs ns') : StagedRefs (ns ++ ns') := by
  intro x hx
  exact (List.mem_append.1 hx).elim (h x) (h' x)

theorem StagedRefs.cons {ns : List (Bool × ASTNode)} {c : Bool} {n : ASTNode} (h : StagedRefs ns)
    (hn : n.node.kind ≠ .declRefExpr) : StagedRefs ((c, n) :: ns) := by
  intro x hx hk
  rcases List.mem_cons.1 hx with rfl | hx
  · exact absurd hk hn
  · exact h x hx hk

theorem stagedRefs_resolveAll {cs : List Tree} {c : Bool} {r : Resolution}
    (h : ∀ t ∈ cs, ∀ r, (resolve c t r).2.errors = [] → StagedRefs (AST.staged c (resolve c t r).1))
    (he : (resolveAll c cs r).2.errors = []) :
    StagedRefs (AST.stagedAll c (resolveAll c cs r).1) := by
  induction cs generalizing r with
  | nil => exact .nil
  | cons t ts ih =>
    have hfirst : (resolve c t r).2.errors = [] :=
      errors_resolveAll (fun u _ => errors_resolve u) he
    have hrest := ih (fun u hu => h u (List.mem_cons_of_mem t hu)) he
    exact (h t List.mem_cons_self r hfirst).append hrest

/-- What is resolved without an error leaves exactly the contributed references unresolved. -/
theorem stagedRefs_resolve (t : Tree) (c : Bool) (r : Resolution)
    (he : (resolve c t r).2.errors = []) : StagedRefs (AST.staged c (resolve c t r).1) := by
  induction t using Rose.ind generalizing c r with
  | h n cs ih =>
    have all : ∀ c r, (resolveAll c cs r).2.errors = [] →
        StagedRefs (AST.stagedAll c (resolveAll c cs r).1) := fun c r =>
      stagedRefs_resolveAll fun t ht r => ih t ht c r
    obtain ⟨id, data⟩ := n
    cases data with
    | namedArgumentDecl name => exact StagedRefs.nil.cons (fun hk => by cases hk)
    | metaDecl name | metaIfStmt =>
      cases cs with
      | nil => exact StagedRefs.nil.cons (fun hk => by cases hk)
      | cons first rest =>
        have hrest (c : Bool) (r : Resolution) (he : (resolveAll c rest r).2.errors = []) :=
          stagedRefs_resolveAll (fun t ht r => ih t (List.mem_cons_of_mem _ ht) c r) he
        refine ((ih first List.mem_cons_self _ r ?_).append (hrest _ _ he)).cons
          (fun hk => by cases hk)
        exact errors_resolveAll (fun u _ => errors_resolve u) he
    | declStmt name =>
      have he' : (resolveAll c cs r).2.errors = [] := by
        simp only [resolve] at he
        split at he
        · exact he
        · exact errors_declare he
      exact (all c r he').cons (n := ⟨⟨id, .declStmt name⟩, none, []⟩) (fun hk => by cases hk)
    | metaCalculationStmt => exact (all false r he).cons (fun hk => by cases hk)
    | declRefExpr name =>
      intro x hx _
      cases c with
      | true =>
        rw [List.mem_singleton.1 hx]
        exact iff_of_true rfl rfl
      | false =>
        simp only [resolve, Bool.false_eq_true, ↓reduceIte] at he hx
        cases hname : r.env.lookup name with
        | none =>
          simp only [hname] at he
          exact absurd (List.append_eq_nil_iff.1 he).2 (List.cons_ne_nil _ _)
        | some decl =>
          simp only [hname] at hx
          rw [List.mem_singleton.1 hx]
          exact iff_of_false (Option.some_ne_none decl) Bool.false_ne_true
    | _ => exact (all c _ he).cons (fun hk => by cases hk)

end Resolution

namespace ASTLayoutReader

variable {similarTo : ScopeChain → Identifier → Option Node} {k : ASTKind} {layout : Layout}
  {heap : ASTHeap} {a : AST} {s : State}

/-- In an accepted unit exactly the contributed references are unresolved. -/
theorem AcceptsUnit.stagedRefs (h : AcceptsUnit similarTo k layout heap a s) :
    Resolution.StagedRefs (a.staged false) := by
  obtain ⟨hresolve, herrors⟩ := h.resolve
  have hrefs := Resolution.stagedRefs_resolve _ _ _ herrors
  rwa [hresolve] at hrefs

theorem AcceptsUnit.reads (h : AcceptsUnit similarTo k layout heap a s) :
    Production.Reads (.kind k) a.shape := (consume_resolve h.read h.ok).1

end ASTLayoutReader

end Swy
