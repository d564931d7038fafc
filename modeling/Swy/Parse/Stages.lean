import Swy.Parse.LexicalScoping
import Swy.Parse.Grammar
import Mathlib.Data.List.Nodup
import Mathlib.Data.List.Pairwise

/-!
# The two stages of a meta declaration

What a meta declaration computes while it is instantiated (the conditions of its meta-ifs and its
meta calculations) is resolved where the declaration is read, and only to names that exist at that
time. What it contributes is left unresolved, until it is read again as a part of a meta unit.

`staged` labels every node with whether it is contributed. What is shown about the resolver
(`Separated`) holds of the reader, since the reader resolves names lexically.
-/

namespace Swy

open Library

/-! ## Stages -/

namespace AST

mutual
/-- The nodes of a tree, each with whether it is contributed by a meta declaration. -/
def staged (contributed : Bool) : AST → List (Bool × ASTNode)
  | .node n cs => (contributed, n) ::
    match n.node.data with
    | .metaDecl _ =>
      match cs with
      | [] => []
      | args :: contribution => staged contributed args ++ stagedAll true contribution
    | .metaIfStmt =>
      match cs with
      | [] => []
      | expression :: branches => staged false expression ++ stagedAll contributed branches
    | .metaCalculationStmt => stagedAll false cs
    | _ => stagedAll contributed cs
/-- `staged` of each tree of a list. -/
def stagedAll (contributed : Bool) : List AST → List (Bool × ASTNode)
  | [] => []
  | c :: cs => staged contributed c ++ stagedAll contributed cs
end

end AST

/-- One of the nodes declares `n` outside of contributed code, as a parameter or a variable. -/
def Declares (ns : List (Bool × ASTNode)) (n : Node) : Prop :=
  (n.kind = .declStmt ∨ n.kind = .namedArgumentDecl) ∧ ∃ x ∈ ns, x.1 = false ∧ x.2.node = n

theorem Declares.mono {ns ns' : List (Bool × ASTNode)} {n : Node} (h : Declares ns n)
    (hsub : ∀ x ∈ ns, x ∈ ns') : Declares ns' n := by
  obtain ⟨hk, x, hx, hc, hn⟩ := h
  exact ⟨hk, x, hsub x hx, hc, hn⟩

namespace Resolution

/-- The nodes were resolved in an environment: names were only added for what they declare, a
contributed reference is unresolved, and every other one is resolved to something visible. -/
structure Separated (env : Environment) (ns : List (Bool × ASTNode)) (r : Resolution) : Prop where
  added : ∀ entry ∈ r.env, entry ∈ env ∨ Declares ns entry.2
  contributed : ∀ x ∈ ns, x.2.node.kind = .declRefExpr → x.1 = true → x.2.decl = none
  computed : ∀ x ∈ ns, x.2.node.kind = .declRefExpr → x.1 = false →
    ∃ d, x.2.decl = some d ∧ ((∃ name, (name, d) ∈ env) ∨ Declares ns d)

section Separated

variable {env : Environment} {ns ns' : List (Bool × ASTNode)} {r r' : Resolution} {n : ASTNode}
  {c : Bool}

theorem Separated.nil : Separated r.env [] r :=
  ⟨fun _ h => .inl h, fun _ h => absurd h List.not_mem_nil, fun _ h => absurd h List.not_mem_nil⟩

theorem Separated.append (h : Separated env ns r) (h' : Separated r.env ns' r') :
    Separated env (ns ++ ns') r' := by
  have left : ∀ x ∈ ns, x ∈ ns ++ ns' := fun _ hx => List.mem_append_left _ hx
  have right : ∀ x ∈ ns', x ∈ ns ++ ns' := fun _ hx => List.mem_append_right _ hx
  refine ⟨fun entry he => ?_, fun x hx => ?_, fun x hx hk hc => ?_⟩
  · rcases h'.added entry he with he | hd
    · exact (h.added entry he).imp id (·.mono left)
    · exact .inr (hd.mono right)
  · exact (List.mem_append.1 hx).elim (h.contributed x) (h'.contributed x)
  · rcases List.mem_append.1 hx with hx | hx
    · obtain ⟨d, hd, hfrom⟩ := h.computed x hx hk hc
      exact ⟨d, hd, hfrom.imp id (·.mono left)⟩
    · obtain ⟨d, hd, ⟨name, hname⟩ | hfrom⟩ := h'.computed x hx hk hc
      · refine ⟨d, hd, ?_⟩
        rcases h.added _ hname with hname | hfrom
        · exact .inl ⟨name, hname⟩
        · exact .inr (hfrom.mono left)
      · exact ⟨d, hd, .inr (hfrom.mono right)⟩

/-- A node that is no reference is put in front. -/
theorem Separated.cons (h : Separated env ns r) (hn : n.node.kind ≠ .declRefExpr) :
    Separated env ((c, n) :: ns) r := by
  have tail : ∀ x ∈ ns, x ∈ (c, n) :: ns := fun _ hx => List.mem_cons_of_mem _ hx
  refine ⟨fun entry he => (h.added entry he).imp id (·.mono tail), fun x hx hk => ?_,
    fun x hx hk hc => ?_⟩
  · rcases List.mem_cons.1 hx with rfl | hx
    · exact absurd hk hn
    · exact h.contributed x hx hk
  · rcases List.mem_cons.1 hx with rfl | hx
    · exact absurd hk hn
    · obtain ⟨d, hd, hfrom⟩ := h.computed x hx hk hc
      exact ⟨d, hd, hfrom.imp id (·.mono tail)⟩

/-- The names that were added are dropped. -/
theorem Separated.restore (h : Separated env ns r) : Separated env ns { r with env := env } :=
  ⟨fun _ he => .inl he, h.contributed, h.computed⟩

/-- A parameter or variable is declared after the nodes. -/
theorem Separated.declare (h : Separated env ((c, n) :: ns) r)
    (hk : n.node.kind = .declStmt ∨ n.node.kind = .namedArgumentDecl) :
    Separated env ((c, n) :: ns) (if c then r else r.declare n.node) := by
  cases c with
  | true => exact h
  | false =>
    refine ⟨fun entry he => ?_, h.contributed, h.computed⟩
    simp only [Bool.false_eq_true, ↓reduceIte, Resolution.declare] at he
    split at he
    · exact h.added entry he
    · split at he
      · rcases List.mem_cons.1 he with rfl | he
        · exact .inr ⟨hk, _, List.mem_cons_self, rfl, rfl⟩
        · exact h.added entry he
      · exact h.added entry he

end Separated

/-! ## The resolver separates the stages -/

theorem errors_declare {r : Resolution} {n : Node} (h : (r.declare n).errors = []) :
    r.errors = [] := by
  unfold Resolution.declare at h
  split at h
  · exact h
  · split at h
    · exact h
    · exact (List.append_eq_nil_iff.1 h).1

theorem errors_resolveAll {cs : List Tree} {c : Bool}
    (h : ∀ t ∈ cs, ∀ c r, (resolve c t r).2.errors = [] → r.errors = []) {r : Resolution}
    (he : (resolveAll c cs r).2.errors = []) : r.errors = [] := by
  induction cs generalizing r with
  | nil => exact he
  | cons t ts ih =>
    exact h t List.mem_cons_self c r (ih (fun u hu => h u (List.mem_cons_of_mem _ hu)) he)

/-- Entering a child of a unit records where it is, and declares it outside of contributed code. -/
theorem enterTopLevel_eq (c : Bool) (unit n : Node) (r : Resolution) :
    ∃ units, r.enterTopLevel c unit n =
      if c then { r with units := units } else declare n { r with units := units } := by
  unfold enterTopLevel
  cases unit.data with
  | metaUnit inst =>
    by_cases hn : n.name? = some inst.name <;> simp only [hn, ↓reduceIte] <;> exact ⟨_, rfl⟩
  | _ => exact ⟨_, rfl⟩

theorem errors_enterTopLevel {c : Bool} {unit n : Node} {r : Resolution}
    (h : (r.enterTopLevel c unit n).errors = []) : r.errors = [] := by
  obtain ⟨units, heq⟩ := enterTopLevel_eq c unit n r
  rw [heq] at h
  cases c with
  | true => exact h
  | false =>
    have he := errors_declare h
    exact he

theorem errors_foldl_enterTopLevel {c : Bool} {unit : Node} {ns : List Node} {r : Resolution}
    (h : (ns.foldl (enterTopLevel c unit) r).errors = []) : r.errors = [] := by
  induction ns generalizing r with
  | nil => exact h
  | cons n ns ih => exact errors_enterTopLevel (ih h)

theorem errors_enterUnit {c : Bool} {outer : Environment} {unit : Node} {ns : List Node}
    {r : Resolution} (h : (r.enterUnit c outer unit ns).errors = []) : r.errors = [] :=
  errors_foldl_enterTopLevel (r := { r with env := outer }) h

theorem errors_enterMetaUnit {unit : Node} {inst : Instantiation} {r : Resolution} :
    (r.enterMetaUnit unit inst).1.errors = r.errors := by
  unfold enterMetaUnit
  split <;> rfl

/-- The resolver never forgets an error. -/
theorem errors_resolve (t : Tree) (c : Bool) (r : Resolution)
    (h : (resolve c t r).2.errors = []) : r.errors = [] := by
  induction t using Rose.ind generalizing c r with
  | h n cs ih =>
    have all : ∀ c r, (resolveAll c cs r).2.errors = [] → r.errors = [] := fun c r =>
      errors_resolveAll fun t ht c r => ih t ht c r
    obtain ⟨id, data⟩ := n
    cases data with
    | compilationUnit => exact errors_enterUnit (all c _ h)
    | metaUnit inst => exact errors_enterMetaUnit ▸ errors_enterUnit (all c _ h)
    | namedArgumentDecl name =>
      simp only [resolve] at h
      split at h
      · exact h
      · exact errors_declare h
    | metaDecl name =>
      cases cs with
      | nil => exact h
      | cons args contribution =>
        refine ih args List.mem_cons_self c r ?_
        exact errors_resolveAll (fun t ht c r => ih t (List.mem_cons_of_mem _ ht) c r) h
    | declStmt name =>
      refine all c r ?_
      simp only [resolve] at h
      split at h
      · exact h
      · exact errors_declare h
    | metaIfStmt =>
      cases cs with
      | nil => exact h
      | cons expression branches =>
        refine ih expression List.mem_cons_self false r ?_
        exact errors_resolveAll (fun t ht c r => ih t (List.mem_cons_of_mem _ ht) c r) h
    | metaCalculationStmt => exact all false r h
    | declRefExpr name =>
      simp only [resolve] at h
      split at h
      · exact h
      · split at h
        · exact h
        · exact (List.append_eq_nil_iff.1 h).1
    | _ => exact all c r h

theorem separated_resolveAll {cs : List Tree} {c : Bool}
    (h : ∀ t ∈ cs, ∀ r, (resolve c t r).2.errors = [] →
      Separated r.env (AST.staged c (resolve c t r).1) (resolve c t r).2)
    {r : Resolution} (he : (resolveAll c cs r).2.errors = []) :
    Separated r.env (AST.stagedAll c (resolveAll c cs r).1) (resolveAll c cs r).2 := by
  induction cs generalizing r with
  | nil => exact .nil
  | cons t ts ih =>
    have hts := fun u hu => h u (List.mem_cons_of_mem t hu)
    refine (h t List.mem_cons_self r ?_).append (ih hts he)
    exact errors_resolveAll (fun u _ => errors_resolve u) he

/-- Resolving a tree without an error separates the stages. -/
theorem separated_resolve (t : Tree) (hu : ∀ n ∈ t.labels, n.kind.isUnitNode = false) (c : Bool)
    (r : Resolution) (he : (resolve c t r).2.errors = []) :
    Separated r.env (AST.staged c (resolve c t r).1) (resolve c t r).2 := by
  induction t using Rose.ind generalizing c r with
  | h n cs ih =>
    have below : ∀ t ∈ cs, ∀ n ∈ t.labels, n.kind.isUnitNode = false := fun t ht n hn =>
      hu n (Rose.mem_labels_node.2 (.inr ⟨t, ht, hn⟩))
    have all : ∀ c r, (resolveAll c cs r).2.errors = [] →
        Separated r.env (AST.stagedAll c (resolveAll c cs r).1) (resolveAll c cs r).2 := fun c r =>
      separated_resolveAll fun t ht r => ih t ht (below t ht) c r
    have tail : ∀ {d ds}, cs = d :: ds → ∀ c r, (resolveAll c ds r).2.errors = [] →
        Separated r.env (AST.stagedAll c (resolveAll c ds r).1) (resolveAll c ds r).2 := by
      rintro d ds rfl c r
      exact separated_resolveAll fun t ht r => ih t (List.mem_cons_of_mem _ ht)
        (below t (List.mem_cons_of_mem _ ht)) c r
    have first : ∀ {d ds}, cs = d :: ds → ∀ c' c r, (resolveAll c' ds (resolve c d r).2).2.errors =
        [] → Separated r.env (AST.staged c (resolve c d r).1) (resolve c d r).2 := by
      rintro d ds rfl c' c r h
      refine ih d List.mem_cons_self (below d List.mem_cons_self) c r ?_
      exact errors_resolveAll (fun t _ => errors_resolve t) h
    have hroot := hu n (Rose.mem_labels_node.2 (.inl rfl))
    obtain ⟨id, data⟩ := n
    cases data with
    | compilationUnit | metaUnit => cases hroot
    | functionDecl name => exact (all c r he).restore.cons (fun hk => by cases hk)
    | compoundStmt => exact (all c r he).restore.cons (fun hk => by cases hk)
    | namedArgumentDecl name =>
      exact (Separated.nil.cons (fun hk => by cases hk)).declare (.inr rfl)
    | metaDecl name =>
      cases cs with
      | nil => exact Separated.nil.cons (fun hk => by cases hk)
      | cons args contribution =>
        exact ((first rfl true c r he).append (tail rfl true _ he)).restore.cons
          (fun hk => by cases hk)
    | declStmt name =>
      have he' : (resolveAll c cs r).2.errors = [] := by
        simp only [resolve] at he
        split at he
        · exact he
        · exact errors_declare he
      exact ((all c r he').cons (n := ⟨⟨id, .declStmt name⟩, none, []⟩)
        (fun hk => by cases hk)).declare (.inl rfl)
    | metaIfStmt =>
      cases cs with
      | nil => exact Separated.nil.cons (fun hk => by cases hk)
      | cons expression branches =>
        exact ((first rfl c false r he).append (tail rfl c _ he)).cons (fun hk => by cases hk)
    | metaCalculationStmt => exact (all false r he).cons (fun hk => by cases hk)
    | declRefExpr name =>
      cases c with
      | true =>
        refine ⟨fun _ h => .inl h, fun x hx _ _ => ?_, fun x hx _ hc => ?_⟩
        · rw [List.mem_singleton.1 hx]
        · rw [List.mem_singleton.1 hx] at hc
          cases hc
      | false =>
        simp only [resolve, Bool.false_eq_true, ↓reduceIte] at he ⊢
        cases hname : r.env.lookup name with
        | none =>
          simp only [hname] at he
          exact absurd (List.append_eq_nil_iff.1 he).2 (List.cons_ne_nil _ _)
        | some decl =>
          have hmem : (name, decl) ∈ r.env := by
            obtain ⟨l₁, l₂, hl, _⟩ := List.lookup_eq_some_iff.1 hname
            rw [hl]
            exact List.mem_append_right _ List.mem_cons_self
          simp only
          refine ⟨fun _ h => .inl h, fun x hx _ hc => ?_, fun x hx _ _ => ?_⟩
          · rw [List.mem_singleton.1 hx] at hc
            cases hc
          · rw [List.mem_singleton.1 hx]
            exact ⟨decl, rfl, .inl ⟨name, hmem⟩⟩
    | _ => exact (all c r he).cons (fun hk => by cases hk)

/-- A reference of a resolved tree is resolved, unless a meta declaration in the tree contributes
it. -/
def ResolvedRefs (a : AST) : Prop :=
  ∀ n ∈ a.labels, n.node.kind = .declRefExpr →
    (∃ d, n.decl = some d) ∨ ∃ m ∈ a.subtrees, AST.kind m = .metaDecl ∧ n ∈ m.labels

theorem resolvedRefs_node {n : ASTNode} {cs : List AST} (hn : n.node.kind ≠ .declRefExpr)
    (h : ∀ c ∈ cs, ResolvedRefs c) : ResolvedRefs (.node n cs) := by
  intro x hx hk
  rcases Rose.mem_labels_node.1 hx with rfl | ⟨c, hc, hx⟩
  · exact absurd hk hn
  · rcases h c hc x hx hk with hd | ⟨m, hm, hkind, hmem⟩
    · exact .inl hd
    · exact .inr ⟨m, Rose.mem_subtrees_node.2 (.inr ⟨c, hc, hm⟩), hkind, hmem⟩

theorem resolvedRefs_resolveAll {cs : List Tree} {r : Resolution}
    (h : ∀ t ∈ cs, ∀ r, (resolve false t r).2.errors = [] → ResolvedRefs (resolve false t r).1)
    (he : (resolveAll false cs r).2.errors = []) :
    ∀ a ∈ (resolveAll false cs r).1, ResolvedRefs a := by
  induction cs generalizing r with
  | nil => exact fun _ h => absurd h List.not_mem_nil
  | cons t ts ih =>
    intro a ha
    rcases List.mem_cons.1 ha with rfl | ha
    · exact h t List.mem_cons_self r (errors_resolveAll (fun u _ => errors_resolve u) he)
    · exact ih (fun u hu => h u (List.mem_cons_of_mem t hu)) he a ha

/-- Outside of meta declarations, every reference that causes no error is resolved. -/
theorem resolvedRefs_resolve (t : Tree) (r : Resolution) (he : (resolve false t r).2.errors = []) :
    ResolvedRefs (resolve false t r).1 := by
  induction t using Rose.ind generalizing r with
  | h n cs ih =>
    have all : ∀ r, (resolveAll false cs r).2.errors = [] →
        ∀ a ∈ (resolveAll false cs r).1, ResolvedRefs a := fun r => resolvedRefs_resolveAll ih
    have none : ∀ a ∈ ([] : List AST), ResolvedRefs a := fun _ h => absurd h List.not_mem_nil
    obtain ⟨id, data⟩ := n
    cases data with
    | namedArgumentDecl name => exact resolvedRefs_node (fun hk => by cases hk) none
    | metaDecl name =>
      cases cs with
      | nil => exact resolvedRefs_node (fun hk => by cases hk) none
      | cons args contribution =>
        exact fun x hx _ => .inr ⟨_, Rose.mem_subtrees_node.2 (.inl rfl), rfl, hx⟩
    | declStmt name =>
      exact resolvedRefs_node (fun hk => by cases hk)
        (all r (errors_declare (n := ⟨id, .declStmt name⟩) he))
    | metaIfStmt =>
      cases cs with
      | nil => exact resolvedRefs_node (fun hk => by cases hk) none
      | cons expression branches =>
        refine resolvedRefs_node (fun hk => by cases hk) fun a ha => ?_
        rcases List.mem_cons.1 ha with rfl | ha
        · exact ih expression List.mem_cons_self r
            (errors_resolveAll (fun u _ => errors_resolve u) he)
        · exact resolvedRefs_resolveAll (fun t ht => ih t (List.mem_cons_of_mem _ ht)) he a ha
    | declRefExpr name =>
      simp only [resolve, Bool.false_eq_true, ↓reduceIte] at he ⊢
      cases hname : r.env.lookup name with
      | none =>
        simp only [hname] at he
        exact absurd (List.append_eq_nil_iff.1 he).2 (List.cons_ne_nil _ _)
      | some decl =>
        simp only
        intro x hx _
        rcases Rose.mem_labels_node.1 hx with rfl | ⟨c, hc, _⟩
        · exact .inl ⟨decl, rfl⟩
        · exact absurd hc List.not_mem_nil
    | _ => exact resolvedRefs_node (fun hk => by cases hk) (all _ he)

/-! ## The declarations of a program -/

theorem env_declare {n : Node} {r : Resolution} {entry : Identifier × Node}
    (h : entry ∈ (r.declare n).env) : entry ∈ r.env ∨ entry.2 = n := by
  unfold Resolution.declare at h
  split at h
  · exact .inl h
  · split at h
    · exact (List.mem_cons.1 h).symm.imp id fun h => by rw [h]
    · exact .inl h

/-- The names at the top level of a compilation unit are the ones of its children. -/
theorem env_enterUnit {unit : Node} {ns : List Node} {r : Resolution} :
    ∀ entry ∈ (r.enterUnit false [] unit ns).env, entry.2 ∈ ns := by
  have step : ∀ (n : Node) (r : Resolution), ∀ entry ∈ (r.enterTopLevel false unit n).env,
      entry ∈ r.env ∨ entry.2 = n := by
    intro n r entry h
    obtain ⟨units, heq⟩ := enterTopLevel_eq false unit n r
    rw [heq] at h
    have he := env_declare h
    exact he
  have fold : ∀ (ns : List Node) (r : Resolution),
      ∀ entry ∈ (ns.foldl (enterTopLevel false unit) r).env, entry ∈ r.env ∨ entry.2 ∈ ns := by
    intro ns
    induction ns with
    | nil => exact fun r entry h => .inl h
    | cons n ns ih =>
      intro r entry h
      rcases ih _ entry h with h | h
      · exact (step n r entry h).imp id fun h => by rw [h]; exact List.mem_cons_self
      · exact .inr (List.mem_cons_of_mem _ h)
  exact fun entry h => (fold ns { r with env := [] } entry h).elim
    (fun h => absurd h List.not_mem_nil) id

theorem resolveAll_shape (cs : List Tree) {c : Bool}
    (h : ∀ t ∈ cs, t.WellShaped → ∀ c r, (resolve c t r).1.shape = t)
    (hs : ∀ t ∈ cs, t.WellShaped) (r : Resolution) :
    (resolveAll c cs r).1.map AST.shape = cs := by
  induction cs generalizing r with
  | nil => rfl
  | cons t ts ih =>
    have ht := h t List.mem_cons_self (hs t List.mem_cons_self) c r
    have hts := ih (fun u hu => h u (List.mem_cons_of_mem _ hu))
      (fun u hu => hs u (List.mem_cons_of_mem _ hu)) (resolve c t r).2
    simp only [resolveAll, List.map_cons, ht, hts]

/-- Resolving keeps the tree. -/
theorem resolve_shape (t : Tree) (hs : t.WellShaped) (c : Bool) (r : Resolution) :
    (resolve c t r).1.shape = t := by
  induction t using Rose.ind generalizing c r with
  | h n cs ih =>
    obtain ⟨hfit, hcs⟩ := Tree.wellShaped_node.1 hs
    have all := fun c => resolveAll_shape cs (c := c) (fun t ht hs => ih t ht hs) hcs
    have tail : ∀ {d ds}, cs = d :: ds → ∀ c r, (resolveAll c ds r).1.map AST.shape = ds := by
      rintro d ds rfl c
      exact resolveAll_shape ds (fun t ht hs => ih t (List.mem_cons_of_mem _ ht) hs)
        fun t ht => hcs t (List.mem_cons_of_mem _ ht)
    obtain ⟨id, data⟩ := n
    cases data with
    | namedArgumentDecl name =>
      rw [hs.leaf rfl]
      rfl
    | metaDecl name =>
      obtain ⟨args, contribution, rfl, _⟩ := hs.metaDecl rfl
      simp only [resolve, AST.shape_node, List.map_cons, tail rfl]
      rw [ih args List.mem_cons_self (hcs args List.mem_cons_self)]
    | metaIfStmt =>
      obtain ⟨expression, branches, rfl, _⟩ := hs.metaIfStmt rfl
      simp only [resolve, AST.shape_node, List.map_cons, tail rfl]
      rw [ih expression List.mem_cons_self (hcs expression List.mem_cons_self)]
    | declRefExpr name =>
      rw [hs.leaf rfl]
      simp only [resolve]
      split
      · rfl
      · split <;> rfl
    | _ => simp only [resolve, AST.shape_node, all]

theorem mem_resolveAll {cs : List Tree} {c : Bool} {r : Resolution}
    (henv : ∀ t ∈ cs, ∀ r, (resolve c t r).2.env = r.env)
    (he : (resolveAll c cs r).2.errors = []) :
    ∀ a ∈ (resolveAll c cs r).1, ∃ t ∈ cs, ∃ r', r'.env = r.env ∧ (resolve c t r').1 = a ∧
      (resolve c t r').2.errors = [] := by
  induction cs generalizing r with
  | nil => exact fun _ h => absurd h List.not_mem_nil
  | cons t ts ih =>
    intro a ha
    rcases List.mem_cons.1 ha with rfl | ha
    · exact ⟨t, List.mem_cons_self, r, rfl, rfl,
        errors_resolveAll (fun u _ => errors_resolve u) he⟩
    · obtain ⟨u, hu, r', hr', h⟩ := ih (fun u hu => henv u (List.mem_cons_of_mem t hu)) he a ha
      exact ⟨u, List.mem_cons_of_mem t hu, r', hr'.trans (henv t List.mem_cons_self r), h⟩

/-- A function or meta declaration leaves the environment as it was. -/
theorem env_resolve_topLevel {t : Tree} (hs : t.WellShaped) (h : t.derivedTopLevel = true)
    (r : Resolution) : (resolve false t r).2.env = r.env := by
  obtain ⟨⟨id, data⟩, cs⟩ := t
  cases data with
  | functionDecl name => rfl
  | metaDecl name =>
    obtain ⟨args, contribution, rfl, _⟩ := hs.metaDecl rfl
    rfl
  | _ => cases cs <;> cases h

end Resolution

/-! ## What is computed and what is contributed -/

namespace AST

theorem snd_stagedAll {c : Bool} {cs : List AST}
    (h : ∀ a ∈ cs, ∀ c, (staged c a).map Prod.snd = a.labels) :
    (stagedAll c cs).map Prod.snd = cs.flatMap Rose.labels := by
  induction cs with
  | nil => rfl
  | cons a cs ih =>
    rw [stagedAll, List.map_append, h a List.mem_cons_self,
      ih fun b hb => h b (List.mem_cons_of_mem _ hb), List.flatMap_cons]

/-- Every node of the tree has a stage. -/
theorem snd_staged (c : Bool) (a : AST) : (staged c a).map Prod.snd = a.labels := by
  induction a using Rose.ind generalizing c with
  | h n cs ih =>
    have all : ∀ c, (stagedAll c cs).map Prod.snd = cs.flatMap Rose.labels :=
      fun c => snd_stagedAll ih
    have tail : ∀ {d ds}, cs = d :: ds → ∀ c,
        (stagedAll c ds).map Prod.snd = ds.flatMap Rose.labels := by
      rintro d ds rfl c
      exact snd_stagedAll fun a ha => ih a (List.mem_cons_of_mem _ ha)
    obtain ⟨⟨id, data⟩, decl, exportedDecls⟩ := n
    rw [Rose.labels_node]
    cases data with
    | metaDecl name =>
      cases cs with
      | nil => rfl
      | cons args contribution =>
        simp only [staged, List.map_cons, List.map_append, tail rfl, List.flatMap_cons,
          ih args List.mem_cons_self]
    | metaIfStmt =>
      cases cs with
      | nil => rfl
      | cons expression branches =>
        simp only [staged, List.map_cons, List.map_append, tail rfl, List.flatMap_cons,
          ih expression List.mem_cons_self]
    | _ => simp only [staged, List.map_cons, all]

theorem mem_labels_of_mem_staged {c : Bool} {a : AST} {x : Bool × ASTNode} (h : x ∈ staged c a) :
    x.2 ∈ a.labels := by
  rw [← snd_staged c a]
  exact List.mem_map_of_mem h

theorem isCodeNode_stagedAll {cs : List AST}
    (h : ∀ a ∈ cs, ∀ x ∈ staged true a, x.1 = false → x.2.node.kind.isCodeNode = true) :
    ∀ x ∈ stagedAll true cs, x.1 = false → x.2.node.kind.isCodeNode = true := by
  induction cs with
  | nil => exact fun _ h => absurd h List.not_mem_nil
  | cons a cs ih =>
    intro x hx
    rcases List.mem_append.1 hx with hx | hx
    · exact h a List.mem_cons_self x hx
    · exact ih (fun b hb => h b (List.mem_cons_of_mem _ hb)) x hx

/-- A computed statement or expression has nothing else below it. -/
theorem isCodeNode_of_depthNone {c : Bool} {a : AST} (hs : a.shape.WellShaped)
    (hd : a.shape.derived .depthNone = true) (hk : a.kind.isCodeNode = true) :
    ∀ x ∈ staged c a, x.2.node.kind.isCodeNode = true := by
  intro x hx
  have hx := List.mem_map_of_mem (f := ASTNode.node) (mem_labels_of_mem_staged hx)
  rw [← Rose.labels_map] at hx
  exact Tree.derived_depthNone a.shape hs hd (by rwa [kind_shape]) _ hx

/-- What is computed in contributed code is statements and expressions. -/
theorem isCodeNode_staged {depth : MetaDepth} (a : AST) (hs : a.shape.WellShaped)
    (hd : a.shape.derived depth = true) :
    ∀ x ∈ staged true a, x.1 = false → x.2.node.kind.isCodeNode = true := by
  induction a using Rose.ind generalizing depth with
  | h n cs ih =>
    rw [shape_node] at hs hd
    obtain ⟨hfit, hcs⟩ := Tree.wellShaped_node.1 hs
    have hcs' : ∀ c ∈ cs, (shape c).WellShaped := fun c hc => hcs _ (List.mem_map_of_mem hc)
    have hall : ∀ {d}, Tree.derivedAll d (cs.map shape) = true →
        ∀ c ∈ cs, (shape c).derived d = true := fun hd c hc =>
      Tree.derivedAll_iff.1 hd _ (List.mem_map_of_mem hc)
    have below : ∀ {d}, Tree.derivedAll d (cs.map shape) = true →
        ∀ x ∈ stagedAll true cs, x.1 = false → x.2.node.kind.isCodeNode = true := fun hd =>
      isCodeNode_stagedAll fun c hc => ih c hc (hcs' c hc) (hall hd c hc)
    obtain ⟨⟨id, data⟩, decl, exportedDecls⟩ := n
    intro x hx hc
    have tail : ∀ {n} {l : List (Bool × ASTNode)}, x ∈ (true, n) :: l → x ∈ l := fun hx => by
      rcases List.mem_cons.1 hx with rfl | hx
      · cases hc
      · exact hx
    cases data with
    | compilationUnit | metaUnit | metaDecl | globalConstantDecl | erroneousExpr => cases hd
    | functionDecl | metaContribution | unscopedCompoundStmt | compoundStmt | ifStmt
    | callOperatorExpr => exact below (Bool.and_eq_true_iff.1 hd).2 x (tail hx) hc
    | metaIfStmt =>
      match cs, hfit, hd with
      | expression :: branches, hfit, hd =>
        obtain ⟨he, hb⟩ := Bool.and_eq_true_iff.1 (Bool.and_eq_true_iff.1 hd).2
        rcases List.mem_append.1 (tail hx) with hx | hx
        · refine isCodeNode_of_depthNone (hcs' _ List.mem_cons_self) he ?_ x hx
          rw [← kind_shape]
          exact ASTKind.isCodeNode_of_expr (ASTKind.isExprNode_of_fits_metaIfStmt hfit)
        · refine isCodeNode_stagedAll (fun c hc => ?_) x hx hc
          exact ih c (List.mem_cons_of_mem _ hc) (hcs' c (List.mem_cons_of_mem _ hc))
            (Tree.derivedAll_iff.1 hb _ (List.mem_map_of_mem hc))
    | metaCalculationStmt =>
      match cs, hfit, hd with
      | [stmt], hfit, hd =>
        have hstmt := (Tree.derivedAll_iff.1 (Bool.and_eq_true_iff.1 hd).2) _ List.mem_cons_self
        refine isCodeNode_of_depthNone (c := false) (hcs' stmt List.mem_cons_self) hstmt ?_ x ?_
        · rw [← kind_shape]
          exact ASTKind.isCodeNode_of_stmt hfit
        · exact (List.mem_append.1 (tail hx)).elim (fun h => h) fun h => absurd h List.not_mem_nil
    | _ => exact below hd x (tail hx) hc

/-! ## Meta declarations of a program -/

/-- What the stages of a meta declaration of the unit `a` may refer to: a reference that it
contributes is unresolved. Every other one is resolved to a top level declaration, to a parameter of
the meta declaration or to a variable of its meta calculations, and never to a contributed node. -/
def StagesSeparated (a m : AST) : Prop :=
  ∃ args contribution : AST, m.children = [args, contribution] ∧
    ∀ x ∈ staged true contribution, x.2.node.kind = .declRefExpr →
      (x.1 = true → x.2.decl = none) ∧
      (x.1 = false → ∃ d, x.2.decl = some d ∧
        (d ∈ a.children.map (fun c => c.label.node) ∨
          d.kind = .namedArgumentDecl ∧ d ∈ args.shape.labels ∨
          d.kind = .declStmt ∧ ∃ y ∈ staged true contribution, y.1 = false ∧ y.2.node = d) ∧
        ∀ y ∈ staged true contribution, y.1 = true → y.2.node ≠ d)

theorem node_mem_shape {a : AST} {n : ASTNode} (h : n ∈ a.labels) : n.node ∈ a.shape.labels := by
  rw [shape, Rose.labels_map]
  exact List.mem_map_of_mem h

/-- The meta declarations of a program are the ones at its top level. -/
theorem metaDecl_mem_children {a m : AST} (ha : a.shape.IsProgram) (hm : m ∈ a.subtrees)
    (hk : m.kind = .metaDecl) : m ∈ a.children := by
  obtain ⟨n, cs⟩ := a
  rcases Rose.mem_subtrees_node.1 hm with rfl | ⟨c, hc, hsub⟩
  · have hroot := ha.kind
    rw [kind_shape, hk] at hroot
    cases hroot
  have htop : Tree.derivedTopLevel (shape c) = true :=
    ha.topLevel _ (by rw [shape_node]; exact List.mem_map_of_mem hc)
  have below : ∀ {depth} {d : AST}, d.shape.derived depth = true → m ∈ d.subtrees → False :=
    fun hd hm => (Tree.derived_label _ hd _ (node_mem_shape (Rose.label_mem_labels hm))).2 hk
  obtain ⟨⟨⟨id, data⟩, decl, exportedDecls⟩, ds⟩ := c
  rcases Rose.mem_subtrees_node.1 hsub with rfl | ⟨d, hd, hin⟩
  · exact hc
  rw [shape_node] at htop
  cases data with
  | functionDecl name =>
    exact (below (Tree.derivedAll_iff.1 (Bool.and_eq_true_iff.1 htop).2 _
      (List.mem_map_of_mem hd)) hin).elim
  | metaDecl name =>
    match ds, htop with
    | [args, contribution], htop =>
      obtain ⟨hargs, hcontribution⟩ := Bool.and_eq_true_iff.1 htop
      rcases List.mem_cons.1 hd with rfl | hd
      · exact (below hargs hin).elim
      · rw [List.mem_singleton.1 hd] at hin
        exact (below hcontribution hin).elim
  | _ => cases ds <;> cases htop

/-- A tree that was resolved with the top level names in the environment has its stages
separated. -/
theorem stagesSeparated_of_separated {a m : AST} (ha : a.shape.IsProgram) (hm : m ∈ a.children)
    (hk : m.kind = .metaDecl) {env : Environment}
    (henv : ∀ entry ∈ env, entry.2 ∈ a.children.map (fun c => c.label.node)) {r : Resolution}
    (hsep : Resolution.Separated env (staged false m) r) : StagesSeparated a m := by
  obtain ⟨n, cs⟩ := a
  have hshape : shape m ∈ (shape (.node n cs)).children := by
    rw [shape_node]
    exact List.mem_map_of_mem hm
  have htop := ha.topLevel _ hshape
  have hwell : m.shape.WellShaped := by
    have := ha.wellShaped
    rw [shape_node, Tree.wellShaped_node] at this
    exact this.2 _ (List.mem_map_of_mem hm)
  have hnodup : ((Rose.labels (.node n cs)).map ASTNode.node).Nodup := by
    rw [← Rose.labels_map]
    exact ha.distinct.of_map
  rw [Rose.labels_node, List.map_cons, List.map_flatMap] at hnodup
  obtain ⟨hnodup, hdisjoint⟩ := List.nodup_flatMap.1 (List.nodup_cons.1 hnodup).2
  have hnodup := hnodup m hm
  obtain ⟨⟨⟨id, data⟩, decl, exportedDecls⟩, ds⟩ := m
  cases data <;> try cases hk
  rename_i name
  rw [shape_node] at htop hwell
  match ds, htop, hwell, hnodup, hdisjoint, hsep, hm with
  | [args, contribution], htop, hwell, hnodup, hdisjoint, hsep, hm =>
    obtain ⟨hargs, hcontribution⟩ := Bool.and_eq_true_iff.1 htop
    obtain ⟨hfit, hwell⟩ := Tree.wellShaped_node.1 hwell
    have hwargs := hwell _ (List.mem_map_of_mem (f := shape) (a := args) (by simp))
    have hwcontribution := hwell _ (List.mem_map_of_mem (f := shape) (a := contribution) (by simp))
    have hkargs : (shape args).kind = .argumentDeclList :=
      eq_of_beq (Bool.and_eq_true_iff.1 hfit).1
    have hstaged : ∀ x, x ∈ staged false (.node ⟨⟨id, .metaDecl name⟩, decl, exportedDecls⟩
        [args, contribution]) ↔ x = (false, ⟨⟨id, .metaDecl name⟩, decl, exportedDecls⟩) ∨
          x ∈ staged false args ∨ x ∈ staged true contribution := fun x => by
      simp [staged, stagedAll]
    have hin : ∀ x ∈ staged true contribution, x.2.node ∈ contribution.labels.map ASTNode.node :=
      fun x hx => List.mem_map_of_mem (mem_labels_of_mem_staged hx)
    simp only [Rose.labels_node, List.flatMap_cons, List.flatMap_nil, List.append_nil,
      List.map_cons, List.map_append] at hnodup
    obtain ⟨hself, hnodup⟩ := List.nodup_cons.1 hnodup
    obtain ⟨_, hncontribution, hargsdisjoint⟩ := List.nodup_append.1 hnodup
    refine ⟨args, contribution, rfl, fun x hx hkx => ⟨hsep.contributed x
      ((hstaged x).2 (.inr (.inr hx))) hkx, fun hc => ?_⟩⟩
    obtain ⟨d, hd, hfrom⟩ := hsep.computed x ((hstaged x).2 (.inr (.inr hx))) hkx hc
    have htarget : d ∈ cs.map (fun c => c.label.node) ∨
        d.kind = .namedArgumentDecl ∧ d ∈ (shape args).labels ∨
        d.kind = .declStmt ∧ ∃ y ∈ staged true contribution, y.1 = false ∧ y.2.node = d := by
      rcases hfrom with ⟨name, hname⟩ | ⟨hkind, y, hy, hyc, rfl⟩
      · exact .inl (henv _ hname)
      rcases (hstaged y).1 hy with rfl | hy | hy
      · rcases hkind with hkind | hkind <;> cases hkind
      · have hlabel := node_mem_shape (mem_labels_of_mem_staged hy)
        refine .inr (.inl ⟨?_, hlabel⟩)
        rcases hkind with hkind | hkind
        · have := Tree.labels_argumentDeclList hwargs hkargs _ hlabel
          rw [hkind] at this
          rcases this with h | h <;> cases h
        · exact hkind
      · refine .inr (.inr ⟨?_, y, hy, hyc, rfl⟩)
        rcases hkind with hkind | hkind
        · exact hkind
        · have := isCodeNode_staged contribution hwcontribution hcontribution y hy hyc
          rw [hkind] at this
          cases this
    refine ⟨d, hd, htarget, fun y hy hyc hnode => ?_⟩
    have hyin := hin y hy
    rw [hnode] at hyin
    rcases htarget with htop | ⟨_, harg⟩ | ⟨_, z, hz, hzc, hznode⟩
    · obtain ⟨c, hc, hlabel⟩ := List.mem_map.1 htop
      by_cases hcm : c = .node ⟨⟨id, .metaDecl name⟩, decl, exportedDecls⟩ [args, contribution]
      · subst hcm
        rw [← hlabel] at hyin
        exact hself (List.mem_append_right _ hyin)
      · have hsymm : Std.Symm (Function.onFun List.Disjoint
            fun c : AST => c.labels.map ASTNode.node) := ⟨fun _ _ h _ hx hy => h hy hx⟩
        have hdc : d ∈ c.labels.map ASTNode.node := by
          rw [← hlabel]
          exact List.mem_map_of_mem (Rose.label_mem_labels (Rose.mem_subtrees_self c))
        exact hdisjoint.forall hc hm hcm hdc (by simp [hyin])
    · rw [shape, Rose.labels_map] at harg
      exact hargsdisjoint _ harg _ hyin rfl
    · have hinj := List.inj_on_of_nodup_map (f := fun x : Bool × ASTNode => x.2.node)
        (l := staged true contribution) ?_ hy hz (hnode.trans hznode.symm)
      · rw [hinj, hzc] at hyc
        cases hyc
      · have hmap : (staged true contribution).map (fun x => x.2.node) =
            contribution.labels.map ASTNode.node := by
          rw [← snd_staged true contribution, List.map_map]
          rfl
        rwa [hmap]

end AST

/-! ## The reader separates the stages -/

namespace ASTLayoutReader

open BasicASTBuilder

/-- The reader accepts a unit: it returns, every assertion holds and no error was reported. -/
structure AcceptsUnit (similarTo : ScopeChain → Identifier → Option Node) (k : ASTKind)
    (layout : Layout) (heap : ASTHeap) (a : AST) (s : State) : Prop where
  read : consume similarTo (.kind k) ⟨layout, .start heap⟩ = .ok (a, s)
  ok : s.builder.Ok
  noErrors : hasErrors s.builder.diagnostics = false

variable {similarTo : ScopeChain → Identifier → Option Node} {k : ASTKind} {layout : Layout}
  {heap : ASTHeap} {a : AST} {s : State}

/-- An accepted unit is what the resolver gives for it without an error. -/
theorem AcceptsUnit.resolve (h : AcceptsUnit similarTo k layout heap a s) :
    ((BasicASTBuilder.start heap).resolution.resolve false a.shape).1 = a ∧
      ((BasicASTBuilder.start heap).resolution.resolve false a.shape).2.errors = [] := by
  obtain ⟨_, _, sim⟩ := consume_resolve h.read h.ok
  have hstate := sim.state
  refine ⟨sim.ast.symm, ?_⟩
  rw [show (BasicASTBuilder.start heap).isInMetaDeclMode = false from rfl] at hstate
  rw [← hstate]
  refine List.filter_eq_nil_iff.2 fun d hd herror => ?_
  exact Bool.false_ne_true (h.noErrors.symm.trans (List.any_eq_true.2 ⟨d, hd, herror⟩))

theorem AcceptsUnit.shape {t : Tree} (h : AcceptsUnit similarTo k t.encode heap a s)
    (hs : t.WellShaped) (hk : t.kind = k) : a.shape = t := by
  have hread := consume_complete similarTo (p := .kind k) (t := t) ⟨hs, .inl hk.symm⟩ []
    (.start heap)
  rw [List.append_nil, h.read] at hread
  cases hread
  exact readTree_shape t hs _

/-- Stage separation of names. In every program that is accepted, every meta declaration has its
stages separated, and in every meta unit that is accepted, every reference is resolved that no meta
declaration inside of the unit contributes. -/
theorem accepted_stages_separated (similarTo : ScopeChain → Identifier → Option Node) :
    (∀ (t : Tree) (a : AST) (s : State), t.IsProgram →
      AcceptsUnit similarTo .compilationUnit t.encode .empty a s →
      ∀ m ∈ a.subtrees, AST.kind m = .metaDecl → a.StagesSeparated m) ∧
    (∀ (layout : Layout) (heap : ASTHeap) (a : AST) (s : State),
      AcceptsUnit similarTo .metaUnit layout heap a s → Resolution.ResolvedRefs a) := by
  constructor
  · intro t a s ht haccept m hm hk
    have hshape := haccept.shape ht.wellShaped ht.kind
    obtain ⟨hresolve, herrors⟩ := haccept.resolve
    have hprogram : a.shape.IsProgram := by rwa [hshape]
    have hm := AST.metaDecl_mem_children hprogram hm hk
    rw [hshape] at hresolve herrors
    obtain ⟨⟨id, data⟩, cs⟩ := t
    have hkind := ht.kind
    cases data <;> try cases hkind
    have hchildren : a.children.map AST.shape = cs := by
      obtain ⟨n, as⟩ := a
      rw [AST.shape_node] at hshape
      exact (Rose.node.inj hshape).2
    have hlabels : cs.map Rose.label = a.children.map (fun c => c.label.node) := by
      rw [← hchildren, List.map_map]
      exact List.map_congr_left fun c _ => Rose.label_map ASTNode.node c
    rw [← hresolve] at hm
    obtain ⟨u, hu, r, hr, hres, he⟩ := Resolution.mem_resolveAll
      (fun u hu r => Resolution.env_resolve_topLevel ((Tree.wellShaped_node.1 ht.wellShaped).2 u hu)
        (ht.topLevel u hu) r) herrors m hm
    have hsep := Resolution.separated_resolve u
      (Tree.derivedTopLevel_label (ht.topLevel u hu)) false r he
    rw [hres] at hsep
    refine AST.stagesSeparated_of_separated hprogram (by rwa [hresolve] at hm) hk ?_ hsep
    intro entry hentry
    rw [hr] at hentry
    rw [← hlabels]
    exact Resolution.env_enterUnit entry hentry
  · intro layout heap a s haccept
    obtain ⟨hresolve, herrors⟩ := haccept.resolve
    have hrefs := Resolution.resolvedRefs_resolve _ _ herrors
    rwa [hresolve] at hrefs

/-- `m<int n> -> { meta { int x = n; } m() int -> return x; }`, and the unit of `m<7>`. -/
theorem accepted_stages_separated_meta :
    (∃ (t : Tree) (a : AST) (s : State),
      AcceptsUnit (fun _ _ => none) .compilationUnit t.encode .empty a s ∧
      ∀ m ∈ a.subtrees, AST.kind m = .metaDecl → a.StagesSeparated m) ∧
    (∃ (t : Tree) (heap : ASTHeap) (a : AST) (s : State),
      AcceptsUnit (fun _ _ => none) .metaUnit t.encode heap a s ∧ Resolution.ResolvedRefs a) := by
  let unit : Node := ⟨0, .compilationUnit⟩
  let body (n : Nat) : Tree := .node ⟨n, .functionDecl "m"⟩ [.node ⟨n + 1, .argumentDeclList⟩ [],
    .node ⟨n + 2, .anonymousArgumentDecl⟩ [],
    .node ⟨n + 3, .returnStmt⟩ [.node ⟨n + 4, .declRefExpr "x"⟩ []]]
  let t : Tree := .node unit [.node ⟨1, .metaDecl "m"⟩
    [.node ⟨2, .argumentDeclList⟩ [.node ⟨3, .namedArgumentDecl "n"⟩ []],
      .node ⟨4, .metaContribution⟩
        [.node ⟨5, .metaCalculationStmt⟩ [.node ⟨6, .unscopedCompoundStmt⟩
          [.node ⟨7, .declStmt "x"⟩ [.node ⟨8, .declRefExpr "n"⟩ []]]], body 9]]]
  let t' : Tree := .node ⟨20, .metaUnit ⟨19, "m", some (1, .metaDecl)⟩⟩
    [.node ⟨21, .globalConstantDecl "x"⟩ [.node ⟨22, .integerLiteralExpr 7⟩ []], body 23]
  let heap : ASTHeap :=
    { containingUnit := fun _ => some unit
      scope := fun _ => some [.allocated true [("m", ⟨1, .metaDecl "m"⟩)]]
      exportedNode := fun _ => none }
  have hread := consume_complete (fun _ _ => none) (p := .kind .compilationUnit) (t := t)
    ⟨by decide, .inl rfl⟩ [] (.start .empty)
  have hread' := consume_complete (fun _ _ => none) (p := .kind .metaUnit) (t := t')
    ⟨by decide, .inl rfl⟩ [] (.start heap)
  rw [List.append_nil] at hread hread'
  have haccept := AcceptsUnit.mk hread (by decide) (by decide)
  have haccept' := AcceptsUnit.mk hread' (by decide) (by decide)
  obtain ⟨hprogram, hunit⟩ := accepted_stages_separated fun _ _ => none
  exact ⟨⟨t, _, _, haccept, hprogram t _ _ ⟨rfl, by decide, by decide, by decide⟩ haccept⟩,
    t', heap, _, _, haccept', hunit _ _ _ _ haccept'⟩

end ASTLayoutReader

end Swy
