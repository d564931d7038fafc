import Swy.Parse.Stages
import Mathlib.Data.List.Pairwise

/-!
# The names of a unit

Which names a unit may have, as far as the resolver accepts it. The children of a unit have distinct
names (`nodup_enterUnit`), the one that a meta unit exports is the last one with the name of its
instantiation (`exportedNode_enterUnit`), and nothing below a unit is declared under a name that is
visible already (`spares_resolve`).
-/

namespace Swy

open Library

namespace Resolution

/-- The name is visible. -/
def Visible (name : Identifier) (r : Resolution) : Prop := (r.env.lookup name).isSome = true

theorem Visible.append {name : Identifier} {r r' : Resolution} {entries : Environment}
    (h : r.Visible name) (he : r'.env = entries ++ r.env) : r'.Visible name := by
  rw [Visible, he, List.lookup_append]
  cases entries.lookup name with
  | none => exact h
  | some n => rfl

/-- What declaring a node can do. -/
theorem declare_cases (n : Node) (r : Resolution) :
    (n.name? = none ∧ r.declare n = r) ∨ ∃ name, n.name? = some name ∧
      ((r.env.lookup name).all (r.units.exports n) = true ∧
          r.declare n = { r with env := (name, n) :: r.env } ∨
        (r.env.lookup name).all (r.units.exports n) = false ∧ (r.declare n).errors ≠ []) := by
  cases hname : n.name? with
  | none => exact .inl ⟨rfl, by simp only [declare, hname]⟩
  | some name =>
    refine .inr ⟨name, rfl, ?_⟩
    simp only [declare, hname]
    cases haccept : (r.env.lookup name).all (r.units.exports n) with
    | true => exact .inl ⟨rfl, by simp⟩
    | false => exact .inr ⟨rfl, by simp⟩

/-- A declaration that causes no error has a name that was not visible, or exports it. -/
theorem exports_of_declare {n : Node} {r : Resolution} {name : Identifier} {previous : Node}
    (he : (r.declare n).errors = []) (hname : n.name? = some name)
    (hvisible : r.env.lookup name = some previous) : r.units.exports n previous = true := by
  obtain ⟨hnone, -⟩ | ⟨name', hname', ⟨haccept, -⟩ | ⟨-, herror⟩⟩ := declare_cases n r
  · rw [hname] at hnone
    cases hnone
  · rw [hname] at hname'
    cases hname'
    rwa [hvisible] at haccept
  · exact absurd he herror

/-- Parameters and variables never have a name that is visible. -/
theorem name_ne_of_declare {n : Node} {r : Resolution} {name : Identifier}
    (hn : n.kind.isTopLevelNode = false) (he : (r.declare n).errors = []) (h : r.Visible name) :
    n.name? ≠ some name := by
  intro hname
  obtain ⟨previous, hprevious⟩ := Option.isSome_iff_exists.1 h
  have hexports := exports_of_declare he hname hprevious
  rw [Units.exports, hn, Bool.and_false, Bool.false_and] at hexports
  cases hexports

/-! ## Below a unit -/

/-- The nodes were resolved without declaring anything under the name. -/
structure Spares (name : Identifier) (env : Environment) (ns : List (Bool × ASTNode))
    (r : Resolution) : Prop where
  added : ∃ entries, r.env = entries ++ env ∧ ∀ entry ∈ entries, entry.2.name? ≠ some name
  declared : ∀ x ∈ ns, x.1 = false →
    x.2.node.kind = .declStmt ∨ x.2.node.kind = .namedArgumentDecl → x.2.node.name? ≠ some name
  exported : ∀ x ∈ ns, ∀ decl ∈ x.2.exportedDecls, decl.name? ≠ some name

section Spares

variable {name : Identifier} {env : Environment} {ns ns' : List (Bool × ASTNode)}
  {r r' : Resolution} {n : ASTNode} {c : Bool}

theorem Spares.nil : Spares name r.env [] r :=
  ⟨⟨[], rfl, fun _ h => absurd h List.not_mem_nil⟩, fun _ h => absurd h List.not_mem_nil,
    fun _ h => absurd h List.not_mem_nil⟩

theorem Spares.visible (h : Spares name r.env ns r') (hv : r.Visible name) : r'.Visible name := by
  obtain ⟨entries, henv, -⟩ := h.added
  exact hv.append henv

theorem Spares.append (h : Spares name env ns r) (h' : Spares name r.env ns' r') :
    Spares name env (ns ++ ns') r' := by
  obtain ⟨entries, henv, hentries⟩ := h.added
  obtain ⟨entries', henv', hentries'⟩ := h'.added
  refine ⟨⟨entries' ++ entries, by rw [henv', henv, List.append_assoc], fun entry he => ?_⟩,
    fun x hx => ?_, fun x hx => ?_⟩
  · rcases List.mem_append.1 he with he | he
    · exact hentries' entry he
    · exact hentries entry he
  · rcases List.mem_append.1 hx with hx | hx
    · exact h.declared x hx
    · exact h'.declared x hx
  · rcases List.mem_append.1 hx with hx | hx
    · exact h.exported x hx
    · exact h'.exported x hx

/-- A node that declares no variable is put in front. -/
theorem Spares.cons (h : Spares name env ns r)
    (hn : ¬ (n.node.kind = .declStmt ∨ n.node.kind = .namedArgumentDecl))
    (hexported : ∀ decl ∈ n.exportedDecls, decl.name? ≠ some name) :
    Spares name env ((c, n) :: ns) r := by
  refine ⟨h.added, fun x hx hc hk => ?_, fun x hx => ?_⟩
  · rcases List.mem_cons.1 hx with rfl | hx
    · exact absurd hk hn
    · exact h.declared x hx hc hk
  · rcases List.mem_cons.1 hx with rfl | hx
    · exact hexported
    · exact h.exported x hx

/-- The names that were added are dropped. -/
theorem Spares.restore (h : Spares name env ns r) : Spares name env ns { r with env := env } :=
  ⟨⟨[], rfl, fun _ h => absurd h List.not_mem_nil⟩, h.declared, h.exported⟩

/-- A parameter or variable is declared. -/
theorem Spares.declare (h : Spares name env ns r) (hv : r.Visible name)
    (hk : n.node.kind = .declStmt ∨ n.node.kind = .namedArgumentDecl) (hn : n.exportedDecls = [])
    (he : (if c then r else r.declare n.node).errors = []) :
    Spares name env ((c, n) :: ns) (if c then r else r.declare n.node) := by
  have hexported : ∀ x ∈ (c, n) :: ns, ∀ decl ∈ x.2.exportedDecls, decl.name? ≠ some name := by
    intro x hx
    rcases List.mem_cons.1 hx with rfl | hx
    · rw [hn]
      exact fun _ h => absurd h List.not_mem_nil
    · exact h.exported x hx
  cases c with
  | true =>
    refine ⟨h.added, fun x hx hc hk => ?_, hexported⟩
    rcases List.mem_cons.1 hx with rfl | hx
    · cases hc
    · exact h.declared x hx hc hk
  | false =>
    simp only [Bool.false_eq_true, ↓reduceIte] at he ⊢
    have htop : n.node.kind.isTopLevelNode = false := by rcases hk with hk | hk <;> rw [hk] <;> rfl
    have hne := name_ne_of_declare htop he hv
    obtain ⟨entries, henv, hentries⟩ := h.added
    refine ⟨?_, fun x hx hc hk => ?_, hexported⟩
    · obtain ⟨-, heq⟩ | ⟨name', -, ⟨-, heq⟩ | ⟨-, herror⟩⟩ := declare_cases n.node r
      · exact ⟨entries, by rw [heq, henv], hentries⟩
      · refine ⟨(name', n.node) :: entries, by rw [heq, henv]; rfl, fun entry hentry => ?_⟩
        rcases List.mem_cons.1 hentry with rfl | hentry
        · exact hne
        · exact hentries entry hentry
      · exact absurd he herror
    · rcases List.mem_cons.1 hx with rfl | hx
      · exact hne
      · exact h.declared x hx hc hk

end Spares

theorem spares_resolveAll {name : Identifier} {cs : List Tree} {c : Bool}
    (h : ∀ t ∈ cs, ∀ r, r.Visible name → (resolve c t r).2.errors = [] →
      Spares name r.env (AST.staged c (resolve c t r).1) (resolve c t r).2)
    {r : Resolution} (hv : r.Visible name) (he : (resolveAll c cs r).2.errors = []) :
    Spares name r.env (AST.stagedAll c (resolveAll c cs r).1) (resolveAll c cs r).2 := by
  induction cs generalizing r with
  | nil => exact .nil
  | cons t ts ih =>
    have first := h t List.mem_cons_self r hv (errors_resolveAll (fun u _ => errors_resolve u) he)
    exact first.append (ih (fun u hu => h u (List.mem_cons_of_mem t hu)) (first.visible hv) he)

/-- Resolving a tree without an error declares nothing under a name that is visible. -/
theorem spares_resolve {name : Identifier} (t : Tree)
    (hu : ∀ n ∈ t.labels, n.kind.isUnitNode = false) (c : Bool) (r : Resolution)
    (hv : r.Visible name) (he : (resolve c t r).2.errors = []) :
    Spares name r.env (AST.staged c (resolve c t r).1) (resolve c t r).2 := by
  induction t using Rose.ind generalizing c r with
  | h n cs ih =>
    have each : ∀ t ∈ cs, ∀ c r, r.Visible name → (resolve c t r).2.errors = [] →
        Spares name r.env (AST.staged c (resolve c t r).1) (resolve c t r).2 := fun t ht =>
      ih t ht fun n hn => hu n (Rose.mem_labels_node.2 (.inr ⟨t, ht, hn⟩))
    have all : ∀ c r, r.Visible name → (resolveAll c cs r).2.errors = [] →
        Spares name r.env (AST.stagedAll c (resolveAll c cs r).1) (resolveAll c cs r).2 :=
      fun c r => spares_resolveAll fun t ht => each t ht c
    have split : ∀ {d ds}, cs = d :: ds → ∀ c c' r, r.Visible name →
        (resolveAll c' ds (resolve c d r).2).2.errors = [] →
        Spares name r.env (AST.staged c (resolve c d r).1 ++
            AST.stagedAll c' (resolveAll c' ds (resolve c d r).2).1)
          (resolveAll c' ds (resolve c d r).2).2 := by
      rintro d ds rfl c c' r hv he
      have first := each d List.mem_cons_self c r hv
        (errors_resolveAll (fun u _ => errors_resolve u) he)
      exact first.append (spares_resolveAll (fun t ht => each t (List.mem_cons_of_mem _ ht) c')
        (first.visible hv) he)
    have hroot := hu n (Rose.mem_labels_node.2 (.inl rfl))
    have none : ∀ decl ∈ ([] : List Node), decl.name? ≠ some name :=
      fun _ h => absurd h List.not_mem_nil
    have undeclared {k : ASTKind} (h : (k == .declStmt || k == .namedArgumentDecl) = false) :
        ¬ (k = .declStmt ∨ k = .namedArgumentDecl) := by
      rintro (rfl | rfl) <;> cases h
    obtain ⟨id, data⟩ := n
    cases data with
    | compilationUnit | metaUnit => cases hroot
    | functionDecl _ | compoundStmt =>
      exact (all c r hv he).restore.cons (undeclared rfl) none
    | namedArgumentDecl name' =>
      exact Spares.nil.declare (n := { node := ⟨id, .namedArgumentDecl name'⟩ })
        hv (.inr rfl) rfl he
    | metaDecl name' =>
      cases cs with
      | nil => exact Spares.nil.cons (undeclared rfl) none
      | cons args contribution =>
        exact (split rfl c true r hv he).restore.cons (undeclared rfl) none
    | declStmt name' =>
      have he' : (resolveAll c cs r).2.errors = [] := by
        simp only [resolve] at he
        split at he
        · exact he
        · exact errors_declare he
      have children := all c r hv he'
      exact children.declare (n := { node := ⟨id, .declStmt name'⟩ }) (children.visible hv)
        (.inl rfl) rfl he
    | metaIfStmt =>
      cases cs with
      | nil => exact Spares.nil.cons (undeclared rfl) none
      | cons expression branches =>
        exact (split rfl false c r hv he).cons (undeclared rfl) none
    | metaCalculationStmt =>
      have children := all false r hv he
      obtain ⟨entries, henv, hentries⟩ := children.added
      refine children.cons (undeclared rfl) fun decl hdecl => ?_
      have hadded : (resolveAll false cs r).2.added r.env = (entries.map Prod.snd).reverse := by
        rw [added, henv, List.length_append, Nat.add_sub_cancel, List.take_left]
      have hmem : decl ∈ (entries.map Prod.snd).reverse := hadded ▸ hdecl
      obtain ⟨entry, hentry, rfl⟩ := List.mem_map.1 (List.mem_reverse.1 hmem)
      exact hentries entry hentry
    | declRefExpr name' =>
      have reference : ∀ d : Option Node,
          Spares name r.env [(c, { node := ⟨id, .declRefExpr name'⟩, decl := d })] r :=
        fun d => Spares.nil.cons (undeclared rfl) none
      simp only [resolve] at he ⊢
      split
      · exact reference _
      · rename_i hc
        rw [if_neg hc] at he
        cases hlookup : r.env.lookup name' with
        | some d => exact reference _
        | none =>
          rw [hlookup] at he
          exact absurd (List.append_eq_nil_iff.1 he).2 (List.cons_ne_nil _ _)
    | _ => exact (all c r hv he).cons (undeclared rfl) none

/-! ## The children of a unit -/

theorem units_declare (n : Node) (r : Resolution) : (r.declare n).units = r.units := by
  unfold declare
  split
  · rfl
  · split <;> rfl

/-- Entering a child records where it is and whether it is exported, and then declares it. -/
theorem enterTopLevel_spec (unit n : Node) (r : Resolution) :
    ∃ units, r.enterTopLevel false unit n = declare n { r with units := units } ∧
      units.containingUnit n.id = some unit ∧
      ∀ inst, unit.data = .metaUnit inst → units.exportedNode unit.id =
        if n.name? = some inst.name then some n else r.units.exportedNode unit.id := by
  unfold enterTopLevel
  cases hdata : unit.data with
  | metaUnit inst =>
    by_cases hn : n.name? = some inst.name
    · simp only [hn, ↓reduceIte]
      refine ⟨_, rfl, Function.update_self .., fun inst' h => ?_⟩
      cases h
      rw [if_pos rfl]
      exact Function.update_self ..
    · simp only [hn, ↓reduceIte]
      refine ⟨_, rfl, Function.update_self .., fun inst' h => ?_⟩
      cases h
      rw [if_neg hn]
  | _ => exact ⟨_, rfl, Function.update_self .., fun inst h => by cases h⟩

/-- The name is taken by something that no child of the unit may shadow. -/
def Taken (unit : Node) (name : Identifier) (r : Resolution) : Prop :=
  ∃ previous, r.env.lookup name = some previous ∧
    (unit.kind = .compilationUnit ∨ previous.kind ≠ .metaDecl)

theorem not_exports {units : Units} {unit n previous : Node}
    (hunit : units.containingUnit n.id = some unit)
    (h : unit.kind = .compilationUnit ∨ previous.kind ≠ .metaDecl) :
    units.exports n previous = false := by
  unfold Units.exports
  rw [hunit]
  rcases h with h | h
  · obtain ⟨id, data⟩ := unit
    cases data with
    | compilationUnit => exact Bool.and_false _
    | _ => cases h
  · rw [beq_eq_false_iff_ne.2 h, Bool.false_and, Bool.false_and]

/-- A name that is taken is not declared again, and stays taken. -/
theorem Taken.step {unit n : Node} {name : Identifier} {r : Resolution} (h : r.Taken unit name)
    (he : (r.enterTopLevel false unit n).errors = []) :
    n.name? ≠ some name ∧ (r.enterTopLevel false unit n).Taken unit name := by
  obtain ⟨units, heq, hunit, -⟩ := enterTopLevel_spec unit n r
  obtain ⟨previous, hlookup, hprevious⟩ := h
  rw [heq] at he ⊢
  have hne : n.name? ≠ some name := fun hname => by
    have hexports := exports_of_declare he hname hlookup
    rw [not_exports hunit hprevious] at hexports
    cases hexports
  refine ⟨hne, previous, ?_, hprevious⟩
  obtain ⟨-, hsame⟩ | ⟨name', hname', ⟨-, hadd⟩ | ⟨-, herror⟩⟩ := declare_cases n { r with units }
  · rw [hsame]
    exact hlookup
  · have hne' : name ≠ name' := fun h => hne (h ▸ hname')
    rw [hadd, List.lookup_cons, beq_false_of_ne hne']
    exact hlookup
  · exact absurd he herror

theorem Taken.foldl {unit : Node} {name : Identifier} {ns : List Node} {r : Resolution}
    (h : r.Taken unit name) (he : (ns.foldl (enterTopLevel false unit) r).errors = []) :
    (∀ n ∈ ns, n.name? ≠ some name) ∧ (ns.foldl (enterTopLevel false unit) r).Taken unit name := by
  induction ns generalizing r with
  | nil => exact ⟨fun _ h => absurd h List.not_mem_nil, h⟩
  | cons n ns ih =>
    obtain ⟨hne, hstep⟩ := h.step (errors_foldl_enterTopLevel he)
    obtain ⟨hrest, htaken⟩ := ih hstep he
    exact ⟨List.forall_mem_cons.2 ⟨hne, hrest⟩, htaken⟩

/-- The name of a child that was entered is taken. -/
theorem taken_enterTopLevel {unit n : Node} {name : Identifier} {r : Resolution}
    (hn : n.name? = some name) (hk : unit.kind = .compilationUnit ∨ n.kind ≠ .metaDecl)
    (he : (r.enterTopLevel false unit n).errors = []) :
    (r.enterTopLevel false unit n).Taken unit name := by
  obtain ⟨units, heq, -, -⟩ := enterTopLevel_spec unit n r
  rw [heq] at he ⊢
  obtain ⟨hnone, -⟩ | ⟨name', hname', ⟨-, hadd⟩ | ⟨-, herror⟩⟩ := declare_cases n { r with units }
  · rw [hn] at hnone
    cases hnone
  · rw [hn] at hname'
    cases hname'
    exact ⟨n, by rw [hadd]; exact List.lookup_cons_self, hk⟩
  · exact absurd he herror

/-- The children of a unit that is entered without an error have distinct names, and they are taken
afterwards. -/
theorem nodup_enterUnit {outer : Environment} {unit : Node} {ns : List Node} {r : Resolution}
    (hk : unit.kind = .compilationUnit ∨ ∀ n ∈ ns, n.kind ≠ .metaDecl)
    (he : (r.enterUnit false outer unit ns).errors = []) :
    (ns.filterMap Node.name?).Nodup ∧
      ∀ n ∈ ns, ∀ name, n.name? = some name →
        (r.enterUnit false outer unit ns).Taken unit name := by
  have fold : ∀ (ns : List Node) (r : Resolution),
      (unit.kind = .compilationUnit ∨ ∀ n ∈ ns, n.kind ≠ .metaDecl) →
      (ns.foldl (enterTopLevel false unit) r).errors = [] →
      (ns.filterMap Node.name?).Nodup ∧ ∀ n ∈ ns, ∀ name, n.name? = some name →
        (ns.foldl (enterTopLevel false unit) r).Taken unit name := by
    intro ns
    induction ns with
    | nil => exact fun _ _ _ => ⟨List.nodup_nil, fun _ h => absurd h List.not_mem_nil⟩
    | cons n ns ih =>
      intro r hk he
      obtain ⟨hnodup, htaken⟩ := ih (r.enterTopLevel false unit n)
        (hk.imp id fun h m hm => h m (List.mem_cons_of_mem _ hm)) he
      have first : ∀ name, n.name? = some name →
          (r.enterTopLevel false unit n).Taken unit name := fun name hname =>
        taken_enterTopLevel hname (hk.imp id fun h => h n List.mem_cons_self)
          (errors_foldl_enterTopLevel he)
      refine ⟨?_, List.forall_mem_cons.2
        ⟨fun name hname => ((first name hname).foldl he).2, htaken⟩⟩
      cases hname : n.name? with
      | none => rwa [List.filterMap_cons_none hname]
      | some name =>
        rw [List.filterMap_cons_some hname]
        refine List.nodup_cons.2 ⟨fun hmem => ?_, hnodup⟩
        obtain ⟨m, hm, hmname⟩ := List.mem_filterMap.1 hmem
        exact ((first name hname).foldl he).1 m hm hmname
  exact fold ns { r with env := outer } hk he

/-- A meta unit exports its last child with the name of the instantiation. -/
theorem exportedNode_enterUnit {outer : Environment} {unit : Node} {inst : Instantiation}
    {ns : List Node} {r : Resolution} (hdata : unit.data = .metaUnit inst) :
    (r.enterUnit false outer unit ns).units.exportedNode unit.id =
      ((ns.filter fun n => n.name? = some inst.name).getLast?).or
        (r.units.exportedNode unit.id) := by
  have fold : ∀ (ns : List Node) (r : Resolution),
      (ns.foldl (enterTopLevel false unit) r).units.exportedNode unit.id =
        ((ns.filter fun n => n.name? = some inst.name).getLast?).or
          (r.units.exportedNode unit.id) := by
    intro ns
    induction ns with
    | nil => exact fun _ => rfl
    | cons n ns ih =>
      intro r
      obtain ⟨units, heq, -, hexported⟩ := enterTopLevel_spec unit n r
      rw [List.foldl_cons, ih, heq, units_declare]
      dsimp only
      rw [hexported inst hdata]
      by_cases hn : n.name? = some inst.name
      · rw [if_pos hn, List.filter_cons_of_pos (by simpa using hn), List.getLast?_cons]
        cases (ns.filter fun n => n.name? = some inst.name).getLast? <;> rfl
      · rw [if_neg hn, List.filter_cons_of_neg (by simpa using hn)]
  exact fold ns { r with env := outer }

theorem units_resolveAll {cs : List Tree} {c : Bool}
    (h : ∀ t ∈ cs, ∀ c r, (resolve c t r).2.units = r.units) (r : Resolution) :
    (resolveAll c cs r).2.units = r.units := by
  induction cs generalizing r with
  | nil => rfl
  | cons t ts ih =>
    calc (resolveAll c ts (resolve c t r).2).2.units
        = (resolve c t r).2.units := ih (fun u hu => h u (List.mem_cons_of_mem _ hu)) _
      _ = r.units := h t List.mem_cons_self c r

/-- What is known of the units only changes where a unit is entered. -/
theorem units_resolve (t : Tree) (hu : ∀ n ∈ t.labels, n.kind.isUnitNode = false) (c : Bool)
    (r : Resolution) : (resolve c t r).2.units = r.units := by
  induction t using Rose.ind generalizing c r with
  | h n cs ih =>
    have each : ∀ t ∈ cs, ∀ c r, (resolve c t r).2.units = r.units := fun t ht =>
      ih t ht fun n hn => hu n (Rose.mem_labels_node.2 (.inr ⟨t, ht, hn⟩))
    have all : ∀ c r, (resolveAll c cs r).2.units = r.units := fun c => units_resolveAll each
    have split : ∀ {d ds}, cs = d :: ds → ∀ c c' r,
        (resolveAll c' ds (resolve c d r).2).2.units = r.units := by
      rintro d ds rfl c c' r
      rw [units_resolveAll fun t ht => each t (List.mem_cons_of_mem _ ht),
        each d List.mem_cons_self]
    have hroot := hu n (Rose.mem_labels_node.2 (.inl rfl))
    have declared : ∀ n r, (if c then r else declare n r).units = r.units := fun n r => by
      split
      · rfl
      · exact units_declare n r
    obtain ⟨id, data⟩ := n
    cases data with
    | compilationUnit | metaUnit => cases hroot
    | functionDecl | compoundStmt => exact all c r
    | namedArgumentDecl name => exact declared _ r
    | metaDecl name =>
      cases cs with
      | nil => rfl
      | cons args contribution => exact split rfl c true r
    | declStmt name => exact (declared _ _).trans (all c r)
    | metaIfStmt =>
      cases cs with
      | nil => rfl
      | cons expression branches => exact split rfl false c r
    | metaCalculationStmt => exact all false r
    | declRefExpr name =>
      simp only [resolve]
      split
      · rfl
      · split <;> rfl
    | _ => exact all c r

/-- The children of a meta unit that is resolved without an error have distinct names, and what it
exports is the last one with the name of the instantiation. -/
theorem resolve_metaUnit {id : NodeId} {inst : Instantiation} {cs : List Tree} {r : Resolution}
    (hu : ∀ c ∈ cs, ∀ n ∈ c.labels, n.kind.isUnitNode = false)
    (hk : ∀ n ∈ cs.map Rose.label, n.kind ≠ .metaDecl)
    (he : (resolve false (.node ⟨id, .metaUnit inst⟩ cs) r).2.errors = []) :
    ((cs.map Rose.label).filterMap Node.name?).Nodup ∧
      (resolve false (.node ⟨id, .metaUnit inst⟩ cs) r).2.units.exportedNode id =
        (((cs.map Rose.label).filter fun n => n.name? = some inst.name).getLast?).or
          (r.units.exportedNode id) := by
  let unit : Node := ⟨id, .metaUnit inst⟩
  let entered := (r.enterMetaUnit unit inst).1.enterUnit false (r.enterMetaUnit unit inst).2 unit
    (cs.map Rose.label)
  have hentered : entered.errors = [] := errors_resolveAll (fun u _ => errors_resolve u) he
  have hunits : (resolveAll false cs entered).2.units = entered.units :=
    units_resolveAll (fun u hc c r => units_resolve u (hu u hc) c r) entered
  have hkept : (r.enterMetaUnit unit inst).1.units.exportedNode = r.units.exportedNode := by
    unfold enterMetaUnit
    split <;> rfl
  refine ⟨(nodup_enterUnit (.inr hk) hentered).1, ?_⟩
  calc (resolveAll false cs entered).2.units.exportedNode id
      = entered.units.exportedNode id := by rw [hunits]
    _ = _ := by rw [exportedNode_enterUnit (show unit.data = .metaUnit inst from rfl), hkept]

end Resolution

end Swy
