import Swy.Parse.DeclarationCrawl
import Swy.Parse.LayoutGrammar
import Swy.Parse.Resolver

/-!
# The reader resolves names lexically

The scope objects of the reader are abstracted to the environment their chain stands for
(`ScopeChain.env`), and the reader on a tree (`readTree`) then is the resolver, as long as the
assertions of the builder hold: a chain only ever grows in its innermost scope (`Extends`), and
leaving a scope restores the chain.
-/

namespace Swy

open Library

/-! ## The environment of a scope chain -/

namespace ScopeChain

/-- The environment a chain stands for. -/
def env : ScopeChain → Environment
  | [] => []
  | .allocated _ lookupMap :: parents => lookupMap ++ env parents
  | .inplace _ :: parents => env parents

/-- The chain after the entries were inserted, the last one first. -/
def insertAll : ScopeChain → Environment → ScopeChain
  | [], _ => []
  | .allocated isConsistent lookupMap :: parents, entries =>
    .allocated isConsistent (entries ++ lookupMap) :: parents
  | .inplace listened :: parents, entries =>
    .inplace (listened ++ (entries.map Prod.snd).reverse) :: insertAll parents entries

theorem lookupIdentifier_eq (c : ScopeChain) (name : Identifier) :
    c.lookupIdentifier name = c.env.lookup name := by
  induction c with
  | nil => rfl
  | cons scope parents ih =>
    cases scope with
    | allocated isConsistent lookupMap =>
      rw [lookupIdentifier, env, List.lookup_append, ← ih]
      cases lookupMap.lookup name <;> rfl
    | inplace listened => exact ih

@[simp] theorem insertAll_nil (c : ScopeChain) : c.insertAll [] = c := by
  induction c with
  | nil => rfl
  | cons scope parents ih => cases scope <;> simp [insertAll, ih]

theorem insertAll_insertAll (c : ScopeChain) (e e' : Environment) :
    (c.insertAll e).insertAll e' = c.insertAll (e' ++ e) := by
  induction c with
  | nil => rfl
  | cons scope parents ih => cases scope <;> simp [insertAll, ih]

/-- An insertion whose assertion holds adds one entry. -/
theorem insert_eq {c : ScopeChain} {name : Identifier} (n : Node) (h : c.isInsertable name = true) :
    c.insert name n = c.insertAll [(name, n)] ∧ (c.insert name n).env = (name, n) :: c.env := by
  induction c with
  | nil => cases h
  | cons scope parents ih =>
    cases scope with
    | allocated isConsistent lookupMap =>
      have hnone : lookupMap.lookup name = none := by simpa [isInsertable] using h
      simp [insert, hnone, insertAll, env]
    | inplace listened =>
      obtain ⟨hc, he⟩ := ih h
      exact ⟨by simp [insert, insertAll, hc], he⟩

/-- The second chain is the first one after some insertions. -/
def Extends (c c' : ScopeChain) : Prop :=
  ∃ entries, c' = c.insertAll entries ∧ c'.env = entries ++ c.env

theorem Extends.refl (c : ScopeChain) : c.Extends c := ⟨[], (insertAll_nil c).symm, rfl⟩

theorem Extends.trans {c c' c'' : ScopeChain} (h : c.Extends c') (h' : c'.Extends c'') :
    c.Extends c'' := by
  obtain ⟨e, rfl, he⟩ := h
  obtain ⟨e', rfl, he'⟩ := h'
  exact ⟨e' ++ e, insertAll_insertAll c e e', by rw [he', he, List.append_assoc]⟩

/-- Leaving an allocated scope restores the chain below it. -/
theorem Extends.tail_allocated {isConsistent : Bool} {m : List (Identifier × Node)}
    {c c' : ScopeChain} (h : Extends (.allocated isConsistent m :: c) c') : c'.tail = c := by
  obtain ⟨e, rfl, _⟩ := h
  rfl

/-- Leaving an in-place scope keeps the insertions, and its listener was told all of them. -/
theorem Extends.tail_inplace {c c' : ScopeChain} (h : Extends (.inplace [] :: c) c') :
    c.Extends c'.tail ∧ env c'.tail = c'.env ∧
      c'.listened = ((c'.env.take (c'.env.length - c.env.length)).map Prod.snd).reverse := by
  obtain ⟨e, rfl, he⟩ := h
  simp only [insertAll, env, List.nil_append, List.tail_cons, listened] at he ⊢
  refine ⟨⟨e, rfl, he⟩, trivial, ?_⟩
  rw [he, List.length_append, Nat.add_sub_cancel, List.take_left]

end ScopeChain

/-! ## The builder as a resolver -/

namespace BasicASTBuilder

/-- Every assertion held so far. -/
def Ok (b : BasicASTBuilder) : Prop := b.failedAssertions = []

instance (b : BasicASTBuilder) : Decidable b.Ok := inferInstanceAs (Decidable (_ = _))

/-- The resolver's state that a builder stands for. -/
def resolution (b : BasicASTBuilder) : Resolution where
  env := b.currentScope.env
  units :=
    { containingUnit := b.heap.containingUnit
      exportedNode := b.heap.exportedNode
      names := fun unit => (b.heap.scope unit).map ScopeChain.env }
  errors := b.diagnostics.filter Diagnostic.isError

section Ok

variable {b : BasicASTBuilder}

theorem ok_require {c : Bool} {a : BuilderAssertion} :
    (b.require c a).Ok ↔ b.Ok ∧ c = true := by
  cases c <;> simp [require, fail, Ok]

theorem require_of_ok {c : Bool} {a : BuilderAssertion} (h : (b.require c a).Ok) :
    b.require c a = b := by
  rw [require, if_pos (ok_require.1 h).2]

theorem not_ok_fail {a : BuilderAssertion} : ¬ (b.fail a).Ok := by simp [fail, Ok]

theorem ok_rejectDecl {name : Identifier} {n previous : Node}
    (h : (b.rejectDecl name n previous).Ok) : b.Ok := (ok_require.1 h).1

/-- The state of the resolver after a declaration was rejected. -/
theorem resolution_rejectDecl {name : Identifier} {n previous : Node}
    (h : (b.rejectDecl name n previous).Ok) :
    (b.rejectDecl name n previous).resolution =
        { b.resolution with
          errors := b.resolution.errors ++ [.errorNameTypeDeclaredAlready n.kind name] } ∧
      (b.rejectDecl name n previous).currentScope = b.currentScope ∧
      (b.rejectDecl name n previous).metaDeclMode = b.metaDeclMode := by
  have hb : b.require (previous.id != n.id) .introducedTwice = b := require_of_ok h
  refine ⟨?_, ?_, ?_⟩ <;>
    simp [rejectDecl, hb, diagnose, resolution, Diagnostic.isError, Diagnostic.severity]

theorem ok_insert {name : Identifier} {n : Node} (h : (b.insert name n).Ok) : b.Ok :=
  (ok_require.1 h).1

/-- The state of the resolver after a declaration was accepted. -/
theorem resolution_insert {name : Identifier} {n : Node} (h : (b.insert name n).Ok) :
    (b.insert name n).resolution =
        { b.resolution with env := (name, n) :: b.resolution.env } ∧
      b.currentScope.Extends (b.insert name n).currentScope ∧
      (b.insert name n).metaDeclMode = b.metaDeclMode := by
  have hins : b.currentScope.isInsertable name = true := (ok_require.1 h).2
  have hb : b.require (b.currentScope.isInsertable name) .entryExists = b := require_of_ok h
  obtain ⟨hc, he⟩ := ScopeChain.insert_eq n hins
  have hs : (b.insert name n).currentScope = b.currentScope.insert name n := by
    simp only [insert, hb, setScope]
  refine ⟨?_, ⟨[(name, n)], hs ▸ hc, hs ▸ he⟩, ?_⟩
  · simp only [resolution, hs, he]
    simp only [insert, hb, setScope]
  · simp only [insert, hb, setScope]

/-- The check of the resolver is the check of the builder, where its null checks hold. -/
theorem exports_eq {heap : ASTHeap} {n previous : Node} {shadows : Bool}
    (h : isAllowedToShadowDecl heap n previous = .ok shadows)
    (names : NodeId → Option Environment) :
    Units.exports ⟨heap.containingUnit, heap.exportedNode, names⟩ n previous = shadows := by
  unfold isAllowedToShadowDecl isShadowingDeclFromExportedNode at h
  unfold Units.exports
  by_cases hprevious : previous.kind = .metaDecl
  · by_cases hn : n.kind.isTopLevelNode = true
    · simp only [hprevious, hn] at h ⊢
      cases hunit : heap.containingUnit n.id with
      | none => simp [hunit] at h
      | some unit =>
        obtain ⟨id, data⟩ := unit
        cases data with
        | metaUnit inst =>
          cases hd : inst.decl with
          | none => simp [hunit, hd] at h
          | some decl =>
            by_cases hid : decl.1 = previous.id <;> simp_all
        | _ => simp_all
    · simp_all
  · simp_all

/-- What introducing a node can do while the assertions hold. -/
theorem introduce_cases {n : Node} (h : (b.introduce n).Ok) :
    ((n.name? = none ∨ b.isInMetaDeclMode = true) ∧ b.introduce n = b) ∨
    b.isInMetaDeclMode = false ∧ ∃ name, n.name? = some name ∧
      ((b.resolution.env.lookup name).all (b.resolution.units.exports n) = true ∧
          b.introduce n = b.insert name n ∨
        (b.resolution.env.lookup name).all (b.resolution.units.exports n) = false ∧
          ∃ previous, b.introduce n = b.rejectDecl name n previous) := by
  cases hname : n.name? with
  | none => exact .inl ⟨.inl rfl, by simp only [introduce, hname]⟩
  | some name =>
    cases hmode : b.isInMetaDeclMode with
    | true =>
      exact .inl ⟨.inr rfl, by simp [introduce, hname, isAllowedToIntroduceDecls, hmode]⟩
    | false =>
      refine .inr ⟨rfl, name, rfl, ?_⟩
      simp only [introduce, hname, isAllowedToIntroduceDecls, hmode, Bool.not_false, Bool.not_true,
        Bool.false_eq_true, ↓reduceIte] at h ⊢
      have hlookup : b.resolution.env.lookup name = b.directLookup name :=
        (ScopeChain.lookupIdentifier_eq _ _).symm
      have scope : b.requireScope.Ok → b.requireScope = b := require_of_ok
      have lookup : b.requireScope.directLookup name = b.directLookup name := by
        simp only [requireScope, require]; split <;> rfl
      have heap : b.requireScope.heap = b.heap := by
        simp only [requireScope, require]; split <;> rfl
      rw [lookup, heap] at h
      rw [hlookup, lookup, heap]
      cases hprevious : b.directLookup name with
      | none =>
        simp only [hprevious] at h ⊢
        exact .inl ⟨rfl, by rw [scope (ok_insert h)]⟩
      | some previous =>
        simp only [hprevious] at h ⊢
        cases hs : isAllowedToShadowDecl b.heap n previous with
        | error a =>
          simp only [hs] at h
          exact absurd (ok_rejectDecl h) not_ok_fail
        | ok shadows =>
          have hex : b.resolution.units.exports n previous = shadows := exports_eq hs _
          cases shadows with
          | true =>
            simp only [hs] at h ⊢
            exact .inl ⟨hex, by rw [scope (ok_insert h)]⟩
          | false =>
            simp only [hs] at h ⊢
            exact .inr ⟨hex, previous, by rw [scope (ok_rejectDecl h)]⟩

theorem ok_introduce {n : Node} (h : (b.introduce n).Ok) : b.Ok := by
  obtain ⟨_, hb⟩ | ⟨_, name, _, ⟨_, hb⟩ | ⟨_, previous, hb⟩⟩ := introduce_cases h
  · rwa [hb] at h
  · rw [hb] at h; exact ok_insert h
  · rw [hb] at h; exact ok_rejectDecl h

/-- Introducing a declaration is what the resolver does, outside of meta decl mode. -/
theorem resolution_introduce {n : Node} (h : (b.introduce n).Ok) :
    (b.introduce n).resolution =
        (if b.isInMetaDeclMode then b.resolution else b.resolution.declare n) ∧
      b.currentScope.Extends (b.introduce n).currentScope ∧
      (b.introduce n).metaDeclMode = b.metaDeclMode := by
  obtain ⟨hn, hb⟩ | ⟨hmode, name, hname, ⟨haccept, hb⟩ | ⟨hreject, previous, hb⟩⟩ :=
    introduce_cases h
  · rw [hb]
    refine ⟨?_, .refl _, rfl⟩
    rcases hn with hn | hn
    · simp only [Resolution.declare, hn, ite_self]
    · rw [if_pos hn]
  · rw [hb] at h ⊢
    obtain ⟨hr, hs, hm⟩ := resolution_insert h
    refine ⟨?_, hs, hm⟩
    simp only [hr, hmode, Resolution.declare, hname, haccept, Bool.false_eq_true, ↓reduceIte]
  · rw [hb] at h ⊢
    obtain ⟨hr, hs, hm⟩ := resolution_rejectDecl h
    refine ⟨?_, hs ▸ .refl _, hm⟩
    simp only [hr, hmode, Resolution.declare, hname, hreject, Bool.false_eq_true, ↓reduceIte]

/-! ### Scopes and modes -/

theorem ok_enterTemporaryScope (h : b.enterTemporaryScope.Ok) : b.Ok := (ok_require.1 h).1

theorem enterTemporaryScope_eq (h : b.enterTemporaryScope.Ok) :
    b.enterTemporaryScope = b.setScope (.allocated false [] :: b.currentScope) := by
  have hb : b.requireScope = b := require_of_ok h
  simp only [enterTemporaryScope, hb]

theorem ok_enterInplaceScope (h : b.enterInplaceScope.Ok) : b.Ok := (ok_require.1 h).1

theorem enterInplaceScope_eq (h : b.enterInplaceScope.Ok) :
    b.enterInplaceScope = b.setScope (.inplace [] :: b.currentScope) := by
  have hb : b.requireScope = b := require_of_ok h
  simp only [enterInplaceScope, hb]

theorem ok_enterConsistentScope {parent : ScopeChain} (h : (b.enterConsistentScope parent).Ok) :
    b.Ok := (ok_require.1 h).1

theorem enterConsistentScope_eq {parent : ScopeChain} (h : (b.enterConsistentScope parent).Ok) :
    b.enterConsistentScope parent = b.setScope (.allocated true [] :: parent) := by
  have hb : b.require (!b.isInAnyScope || b.currentScope.isConsistent)
    .consistentScopeOnTemporary = b := require_of_ok h
  simp only [enterConsistentScope, hb]

theorem ok_enterMetaDeclMode (h : b.enterMetaDeclMode.Ok) : b.Ok := (ok_require.1 h).1

theorem enterMetaDeclMode_eq (h : b.enterMetaDeclMode.Ok) :
    b.enterMetaDeclMode = { b with metaDeclMode := .insideMetaDecl :: b.metaDeclMode } := by
  have hb : b.require (b.currentMode == .outside) .enterMetaDeclMode = b := require_of_ok h
  simp only [enterMetaDeclMode, hb]

theorem ok_enterMetaComputationMode (h : b.enterMetaComputationMode.Ok) : b.Ok :=
  (ok_require.1 h).1

theorem enterMetaComputationMode_eq (h : b.enterMetaComputationMode.Ok) :
    b.enterMetaComputationMode =
      { b with metaDeclMode := .insideComputation :: b.metaDeclMode } := by
  have hb : b.require (b.currentMode == .insideMetaDecl) .enterMetaComputationMode = b :=
    require_of_ok h
  simp only [enterMetaComputationMode, hb]

/-! Entering a scope or mode leaves the state of the resolver alone, up to whether it is in
contributed code. -/

theorem resolution_enterTemporaryScope (h : b.enterTemporaryScope.Ok) :
    b.enterTemporaryScope.resolution = b.resolution := by
  rw [enterTemporaryScope_eq h]
  rfl

theorem isInMetaDeclMode_enterTemporaryScope (h : b.enterTemporaryScope.Ok) :
    b.enterTemporaryScope.isInMetaDeclMode = b.isInMetaDeclMode := by
  rw [enterTemporaryScope_eq h]
  rfl

theorem resolution_enterInplaceScope (h : b.enterInplaceScope.Ok) :
    b.enterInplaceScope.resolution = b.resolution := by
  rw [enterInplaceScope_eq h]
  rfl

theorem resolution_enterMetaDeclMode (h : b.enterMetaDeclMode.Ok) :
    b.enterMetaDeclMode.resolution = b.resolution := by
  rw [enterMetaDeclMode_eq h]
  rfl

theorem isInMetaDeclMode_enterMetaDeclMode (h : b.enterMetaDeclMode.Ok) :
    b.enterMetaDeclMode.isInMetaDeclMode = true := by
  rw [enterMetaDeclMode_eq h]
  rfl

theorem resolution_enterMetaComputationMode (h : b.enterMetaComputationMode.Ok) :
    b.enterMetaComputationMode.resolution = b.resolution := by
  rw [enterMetaComputationMode_eq h]
  rfl

theorem isInMetaDeclMode_enterMetaComputationMode (h : b.enterMetaComputationMode.Ok) :
    b.enterMetaComputationMode.isInMetaDeclMode = false := by
  rw [enterMetaComputationMode_eq h]
  rfl

/-! ### Names -/

variable {similarTo : ScopeChain → Identifier → Option Node} {name : Identifier}

theorem ok_lookup (h : (b.lookup similarTo name).2.Ok) : b.Ok := by
  refine (ok_require.1 (?_ : b.requireScope.Ok)).1
  unfold lookup at h
  dsimp only at h
  split at h
  · exact h
  · split at h <;> exact h

/-- A lookup finds what the environment has, and reports one unknown declaration otherwise. -/
theorem lookup_spec (h : (b.lookup similarTo name).2.Ok) :
    (b.lookup similarTo name).1 = b.resolution.env.lookup name ∧
      (b.lookup similarTo name).2.resolution =
        (match b.resolution.env.lookup name with
        | some _ => b.resolution
        | none => { b.resolution with
            errors := b.resolution.errors ++ [.errorDeclarationUnknown name] }) ∧
      (b.lookup similarTo name).2.currentScope = b.currentScope ∧
      (b.lookup similarTo name).2.metaDeclMode = b.metaDeclMode := by
  have hb : b.requireScope = b := by
    refine require_of_ok ?_
    unfold lookup at h
    dsimp only at h
    split at h
    · exact h
    · split at h <;> exact h
  have hlookup : b.directLookup name = b.resolution.env.lookup name :=
    ScopeChain.lookupIdentifier_eq _ _
  simp only [lookup, hb, hlookup]
  cases b.resolution.env.lookup name with
  | some decl => exact ⟨rfl, rfl, rfl, rfl⟩
  | none =>
    simp only [diagnose]
    cases similarTo b.currentScope name <;>
      simp [resolution, Diagnostic.isError, Diagnostic.severity]

end Ok

end BasicASTBuilder

/-! ## Units -/

namespace ASTLayoutReader

open BasicASTBuilder

section Units

variable {b : BasicASTBuilder} {unit child : Node} {cs : List Tree}

/-- A node that neither is a top level node nor declares a name is left alone. -/
theorem introduceChild_other (hk : child.kind.isTopLevelNode = false)
    (hn : child.kind.isNamedDeclContext = false) : introduceChild unit b child = b := by
  have hname : child.name? = none := by
    obtain ⟨id, data⟩ := child
    cases data <;> first | rfl | cases hn
  simp only [introduceChild, hk, Bool.false_eq_true, ↓reduceIte, hname]

/-- The nodes that the crawl meets below a top level node are left alone. -/
theorem foldl_introduceChild_unframed {c : Tree} (hk : c.kind.isTopLevelNode = true)
    (hs : c.WellShaped) :
    (Rose.unframed Node.isNodeRequiringReduceMarker c).foldl (introduceChild unit) b =
      introduceChild unit b c.label := by
  obtain ⟨others, hothers, hall⟩ := unframed_topLevel hs hk
  have hnone : others.foldl (introduceChild unit) (introduceChild unit b c.label) =
      introduceChild unit b c.label := by
    clear hothers
    induction others with
    | nil => rfl
    | cons n others ih =>
      have hdeclares := (hall n List.mem_cons_self).2
      rw [ASTKind.isDeclaration, Bool.or_eq_false_iff] at hdeclares
      rw [List.foldl_cons, introduceChild_other (hall n List.mem_cons_self).1 hdeclares.1]
      exact ih fun x hx => hall x (List.mem_cons_of_mem _ hx)
  rw [hothers, List.foldl_cons, hnone]

theorem foldl_introduceChild_crawled (unit : Node) (h : ∀ c ∈ cs, c.kind.isTopLevelNode = true)
    (hs : ∀ c ∈ cs, c.WellShaped) (b : BasicASTBuilder) :
    (crawled cs).foldl (introduceChild unit) b =
      (cs.map Rose.label).foldl (introduceChild unit) b := by
  induction cs generalizing b with
  | nil => rfl
  | cons c cs ih =>
    rw [crawled, Rose.unframedAll_eq, List.flatMap_cons, List.foldl_append, ← Rose.unframedAll_eq,
      foldl_introduceChild_unframed (h c List.mem_cons_self) (hs c List.mem_cons_self)]
    exact ih (fun d hd => h d (List.mem_cons_of_mem _ hd))
      (fun d hd => hs d (List.mem_cons_of_mem _ hd)) _

/-- What is recorded about a child of a unit before its name is introduced. -/
def recordChild (unit child : Node) (b : BasicASTBuilder) : BasicASTBuilder :=
  let b := if child.kind.isTopLevelNode then b.setContainingUnit child.id unit else b
  match unit.data with
  | .metaUnit inst =>
    if child.name? = some inst.name then b.setExportedNode unit.id child else b
  | _ => b

theorem introduceChild_eq : introduceChild unit b child =
    (recordChild unit child b).introduce child := by
  unfold introduceChild recordChild
  cases hname : child.name? with
  | none => cases unit.data <;> simp [introduce, hname]
  | some name => cases unit.data <;> simp

theorem recordChild_spec (unit child : Node) (b : BasicASTBuilder) :
    (recordChild unit child b).failedAssertions = b.failedAssertions ∧
    (recordChild unit child b).currentScope = b.currentScope ∧
    (recordChild unit child b).metaDeclMode = b.metaDeclMode := by
  unfold recordChild setContainingUnit setExportedNode
  cases unit.data <;> (dsimp only; split <;> try split) <;> exact ⟨rfl, rfl, rfl⟩

theorem ok_introduceChild (h : (introduceChild unit b child).Ok) : b.Ok := by
  rw [introduceChild_eq] at h
  exact (recordChild_spec unit child b).1.symm.trans (ok_introduce h)

theorem resolution_introduceChild (hk : child.kind.isTopLevelNode = true)
    (h : (introduceChild unit b child).Ok) :
    (introduceChild unit b child).resolution =
        b.resolution.enterTopLevel b.isInMetaDeclMode unit child ∧
      b.currentScope.Extends (introduceChild unit b child).currentScope ∧
      (introduceChild unit b child).metaDeclMode = b.metaDeclMode := by
  rw [introduceChild_eq] at h ⊢
  obtain ⟨_, hscope, hmode⟩ := recordChild_spec unit child b
  obtain ⟨hr, hs, hm⟩ := resolution_introduce h
  have hmode' : (recordChild unit child b).isInMetaDeclMode = b.isInMetaDeclMode := by
    simp only [isInMetaDeclMode, currentMode, hmode]
  refine ⟨?_, hscope ▸ hs, hm.trans hmode⟩
  rw [hr, hmode']
  unfold Resolution.enterTopLevel recordChild
  rw [if_pos hk]
  cases unit.data with
  | metaUnit inst =>
    by_cases hn : child.name? = some inst.name <;> simp only [hn, ↓reduceIte] <;> rfl
  | _ => rfl

theorem ok_foldl_introduceChild {ns : List Node} (h : (ns.foldl (introduceChild unit) b).Ok) :
    b.Ok := by
  induction ns generalizing b with
  | nil => exact h
  | cons n ns ih => exact ok_introduceChild (ih h)

theorem resolution_foldl_introduceChild {ns : List Node}
    (hk : ∀ n ∈ ns, n.kind.isTopLevelNode = true) (h : (ns.foldl (introduceChild unit) b).Ok) :
    (ns.foldl (introduceChild unit) b).resolution =
        ns.foldl (Resolution.enterTopLevel b.isInMetaDeclMode unit) b.resolution ∧
      (ns.foldl (introduceChild unit) b).metaDeclMode = b.metaDeclMode := by
  induction ns generalizing b with
  | nil => exact ⟨rfl, rfl⟩
  | cons n ns ih =>
    obtain ⟨hr, _, hm⟩ := resolution_introduceChild (hk n List.mem_cons_self)
      (ok_foldl_introduceChild (b := introduceChild unit b n) h)
    obtain ⟨hr', hm'⟩ := ih (fun x hx => hk x (List.mem_cons_of_mem _ hx)) h
    have hmode : (introduceChild unit b n).isInMetaDeclMode = b.isInMetaDeclMode := by
      simp only [isInMetaDeclMode, currentMode, hm]
    exact ⟨by rw [List.foldl_cons, hr', hr, hmode, List.foldl_cons], hm'.trans hm⟩

theorem ok_enterUnit {parent : ScopeChain} (h : (enterUnit parent unit cs b).Ok) : b.Ok :=
  ok_enterConsistentScope (ok_foldl_introduceChild (b := b.enterConsistentScope parent) h)

theorem resolution_setUnitScope (b : BasicASTBuilder) (id : NodeId) :
    (b.setUnitScope id b.currentScope).resolution = { b.resolution with
      units.names := Function.update b.resolution.units.names id (some b.resolution.env) } := by
  simp only [setUnitScope, resolution]
  congr 2
  funext id'
  by_cases hid : id' = id
  · subst hid; simp
  · simp [hid]

/-- Entering a unit enters its children in order on top of the outer names. -/
theorem resolution_enterUnit {parent : ScopeChain} (hk : ∀ c ∈ cs, c.kind.isTopLevelNode = true)
    (hs : ∀ c ∈ cs, c.WellShaped) (h : (enterUnit parent unit cs b).Ok) :
    (enterUnit parent unit cs b).resolution =
        b.resolution.enterUnit b.isInMetaDeclMode parent.env unit (cs.map Rose.label) ∧
      (enterUnit parent unit cs b).metaDeclMode = b.metaDeclMode := by
  have hcrawl := foldl_introduceChild_crawled unit hk hs (b.enterConsistentScope parent)
  have henter := enterConsistentScope_eq (ok_foldl_introduceChild
    (b := b.enterConsistentScope parent) h)
  rw [henter] at hcrawl
  have hfold : ((cs.map Rose.label).foldl (introduceChild unit)
      (b.setScope (.allocated true [] :: parent))).Ok := by
    rw [← hcrawl, ← henter]
    exact h
  have hlabels : ∀ n ∈ cs.map Rose.label, n.kind.isTopLevelNode = true := fun n hn => by
    obtain ⟨c, hc, rfl⟩ := List.mem_map.1 hn
    exact hk c hc
  obtain ⟨hr, hm⟩ := resolution_foldl_introduceChild hlabels hfold
  rw [enterUnit, henter, hcrawl]
  refine ⟨?_, hm⟩
  rw [resolution_setUnitScope, hr]
  rfl

theorem ok_enterMetaUnit (h : (enterMetaUnit unit b).1.Ok) : b.Ok := by
  unfold enterMetaUnit at h
  split at h
  · split at h
    · exact absurd h not_ok_fail
    · dsimp only at h
      split at h
      · exact absurd h not_ok_fail
      · split at h
        · exact absurd h not_ok_fail
        · exact (ok_require.1 h).1
  · exact h

/-- Entering a meta unit looks up the names of the unit its meta declaration is in. -/
theorem resolution_enterMetaUnit {inst : Instantiation} (hdata : unit.data = .metaUnit inst)
    (h : (enterMetaUnit unit b).1.Ok) :
    (enterMetaUnit unit b).1.resolution = (b.resolution.enterMetaUnit unit inst).1 ∧
      (enterMetaUnit unit b).2.env = (b.resolution.enterMetaUnit unit inst).2 ∧
      (enterMetaUnit unit b).1.currentScope = b.currentScope ∧
      (enterMetaUnit unit b).1.metaDeclMode = b.metaDeclMode := by
  simp only [enterMetaUnit, hdata, Resolution.enterMetaUnit] at h ⊢
  cases hdecl : inst.decl with
  | none => simp only [hdecl] at h; exact absurd h not_ok_fail
  | some decl =>
    obtain ⟨decl, kind⟩ := decl
    simp only [hdecl] at h ⊢
    have hheap : (b.require (kind == .metaDecl) .instantiationOfNonMetaDecl).heap = b.heap := by
      simp only [require]; split <;> rfl
    rw [hheap] at h ⊢
    cases hunit : b.heap.containingUnit decl with
    | none => simp only [hunit] at h; exact absurd h not_ok_fail
    | some declaring =>
      simp only [hunit] at h ⊢
      have hset : ∀ b : BasicASTBuilder, (b.setContainingUnit unit.id declaring).heap.scope =
          b.heap.scope := fun _ => rfl
      rw [hset, hheap] at h ⊢
      cases hscope : b.heap.scope declaring.id with
      | none => simp only [hscope] at h; exact absurd h not_ok_fail
      | some scope =>
        simp only [hscope] at h ⊢
        have hb : b.require (kind == .metaDecl) .instantiationOfNonMetaDecl = b := require_of_ok h
        have hcontaining : b.resolution.units.containingUnit decl = some declaring := hunit
        have hnames : b.resolution.units.names declaring.id = some scope.env := by
          simp only [resolution, hscope, Option.map_some]
        rw [hb]
        simp only [Option.bind_some, hcontaining, hnames, Option.getD_some]
        exact ⟨rfl, trivial, rfl, rfl⟩

end Units

/-! ## Trees -/

section Trees

variable {similarTo : ScopeChain → Identifier → Option Node} {α : Type}

theorem ok_readTrees (cs : List Tree)
    (h : ∀ c ∈ cs, ∀ b, (readTree similarTo c b).2.Ok → b.Ok) {b : BasicASTBuilder}
    (hok : (readTrees similarTo cs b).2.Ok) : b.Ok := by
  induction cs generalizing b with
  | nil => exact hok
  | cons c cs ih =>
    exact h c List.mem_cons_self b (ih (fun d hd => h d (List.mem_cons_of_mem _ hd)) hok)

/-- Reading a tree never removes a failed assertion. -/
theorem ok_readTree (t : Tree) (b : BasicASTBuilder)
    (h : (readTree similarTo t b).2.Ok) : b.Ok := by
  induction t using Rose.ind generalizing b with
  | h n cs ih =>
    have all : ∀ b, (readTrees similarTo cs b).2.Ok → b.Ok := fun b => ok_readTrees cs ih
    obtain ⟨id, data⟩ := n
    cases data with
    | compilationUnit => exact ok_enterUnit (all (enterUnit [] ⟨id, .compilationUnit⟩ cs b) h)
    | metaUnit inst =>
      let entered := enterMetaUnit ⟨id, .metaUnit inst⟩ b
      exact ok_enterMetaUnit (ok_enterUnit
        (all (enterUnit entered.2 ⟨id, .metaUnit inst⟩ cs entered.1) h))
    | functionDecl name => exact ok_enterTemporaryScope (all b.enterTemporaryScope h)
    | compoundStmt => exact ok_enterTemporaryScope (all b.enterTemporaryScope h)
    | namedArgumentDecl name => exact ok_introduce h
    | metaDecl name =>
      cases cs with
      | nil => exact h
      | cons args contribution =>
        refine ok_enterTemporaryScope (ih args List.mem_cons_self _ (ok_enterMetaDeclMode ?_))
        exact ok_readTrees contribution (fun c hc => ih c (List.mem_cons_of_mem _ hc)) h
    | declStmt name => exact all b (ok_introduce h)
    | metaIfStmt =>
      cases cs with
      | nil => exact h
      | cons expression branches =>
        refine ok_enterMetaComputationMode (ih expression List.mem_cons_self _ ?_)
        exact ok_readTrees branches
          (b := (readTree similarTo expression b.enterMetaComputationMode).2.leaveMode)
          (fun c hc => ih c (List.mem_cons_of_mem _ hc)) h
    | metaCalculationStmt =>
      exact ok_enterInplaceScope (ok_enterMetaComputationMode
        (all b.enterInplaceScope.enterMetaComputationMode h))
    | declRefExpr name =>
      simp only [readTree] at h
      split at h
      · exact ok_lookup h
      · exact h
    | _ => exact all b h

/-- What was read is what was resolved, and the scopes and modes are left as they were entered. -/
structure Simulates (b : BasicASTBuilder) (read : α × BasicASTBuilder) (resolved : α × Resolution) :
    Prop where
  ast : read.1 = resolved.1
  state : read.2.resolution = resolved.2
  mode : read.2.metaDeclMode = b.metaDeclMode
  scope : b.currentScope.Extends read.2.currentScope

theorem isInMetaDeclMode_congr {b b' : BasicASTBuilder} (h : b.metaDeclMode = b'.metaDeclMode) :
    b.isInMetaDeclMode = b'.isInMetaDeclMode := by
  simp only [isInMetaDeclMode, currentMode, h]

theorem readTrees_resolve {cs : List Tree}
    (h : ∀ c ∈ cs, ∀ b, (readTree similarTo c b).2.Ok →
      Simulates b (readTree similarTo c b) (b.resolution.resolve b.isInMetaDeclMode c))
    {b : BasicASTBuilder} (hok : (readTrees similarTo cs b).2.Ok) :
    Simulates b (readTrees similarTo cs b) (b.resolution.resolveAll b.isInMetaDeclMode cs) := by
  induction cs generalizing b with
  | nil => exact ⟨rfl, rfl, rfl, .refl _⟩
  | cons c cs ih =>
    have hcs := fun d hd => h d (List.mem_cons_of_mem _ hd)
    have first := h c List.mem_cons_self b
      (ok_readTrees cs (fun d _ b => ok_readTree d b) hok)
    have rest := ih hcs (b := (readTree similarTo c b).2) hok
    rw [first.state, isInMetaDeclMode_congr first.mode] at rest
    refine ⟨?_, rest.state, rest.mode.trans first.mode, first.scope.trans rest.scope⟩
    exact congr (congrArg List.cons first.ast) rest.ast

/-- Leaving a temporary scope drops what was added in it. -/
theorem Simulates.temporary {b : BasicASTBuilder} {read : α × BasicASTBuilder}
    {resolved : α × Resolution} (hok : b.enterTemporaryScope.Ok)
    (h : Simulates b.enterTemporaryScope read resolved) :
    Simulates b (read.1, read.2.leaveScope)
      (resolved.1, { resolved.2 with env := b.resolution.env }) := by
  rw [enterTemporaryScope_eq hok] at h
  have htail : read.2.currentScope.tail = b.currentScope := h.scope.tail_allocated
  refine ⟨h.ast, ?_, h.mode, ?_⟩
  · rw [← h.state]
    simp only [BasicASTBuilder.leaveScope, setScope, resolution, htail]
  · simp only [BasicASTBuilder.leaveScope, setScope, htail]
    exact .refl _

/-- Leaving an in-place scope keeps what was added in it, and knows all of it. -/
theorem Simulates.inplace {b : BasicASTBuilder} {read : α × BasicASTBuilder}
    {resolved : α × Resolution} (hok : b.enterInplaceScope.Ok)
    (h : Simulates b.enterInplaceScope read resolved) :
    Simulates b ((read.1, read.2.currentScope.listened), read.2.leaveScope)
      ((resolved.1, resolved.2.added b.resolution.env), resolved.2) := by
  rw [enterInplaceScope_eq hok] at h
  obtain ⟨hextends, henv, hlistened⟩ := ScopeChain.Extends.tail_inplace h.scope
  have hadded : read.2.currentScope.listened = resolved.2.added b.resolution.env := by
    rw [hlistened, ← h.state]
    rfl
  refine ⟨by rw [h.ast, hadded], ?_, h.mode, hextends⟩
  rw [← h.state]
  simp only [BasicASTBuilder.leaveScope, setScope, resolution]
  rw [henv]

/-- Leaving the meta decl mode restores the previous one. -/
theorem Simulates.metaDeclMode {b : BasicASTBuilder} {read : α × BasicASTBuilder}
    {resolved : α × Resolution} (hok : b.enterMetaDeclMode.Ok)
    (h : Simulates b.enterMetaDeclMode read resolved) :
    Simulates b (read.1, read.2.leaveMode) resolved := by
  rw [enterMetaDeclMode_eq hok] at h
  exact ⟨h.ast, h.state, congrArg List.tail h.mode, h.scope⟩

/-- Leaving the meta computation mode restores the previous one. -/
theorem Simulates.metaComputationMode {b : BasicASTBuilder} {read : α × BasicASTBuilder}
    {resolved : α × Resolution} (hok : b.enterMetaComputationMode.Ok)
    (h : Simulates b.enterMetaComputationMode read resolved) :
    Simulates b (read.1, read.2.leaveMode) resolved := by
  rw [enterMetaComputationMode_eq hok] at h
  exact ⟨h.ast, h.state, congrArg List.tail h.mode, h.scope⟩

/-- One thing after the other. -/
theorem Simulates.trans {β : Type} {b : BasicASTBuilder} {first : α × BasicASTBuilder}
    {x : α × Resolution}
    {second : β × BasicASTBuilder} {y : β × Resolution} (h : Simulates b first x)
    (h' : Simulates first.2 second y) : Simulates b ((first.1, second.1), second.2)
    ((x.1, y.1), y.2) :=
  ⟨by rw [h.ast, h'.ast], h'.state, h'.mode.trans h.mode, h.scope.trans h'.scope⟩

/-- The node of the children that were read. -/
theorem Simulates.node {β : Type} {b : BasicASTBuilder} {read : α × BasicASTBuilder}
    {resolved : α × Resolution} (h : Simulates b read resolved) (f : α → β) :
    Simulates b (f read.1, read.2) (f resolved.1, resolved.2) :=
  ⟨congrArg f h.ast, h.state, h.mode, h.scope⟩

/-- A declaration is introduced after something was read. -/
theorem Simulates.introduce {b : BasicASTBuilder} {read : α × BasicASTBuilder}
    {resolved : α × Resolution} {n : Node} (h : Simulates b read resolved)
    (hok : (read.2.introduce n).Ok) :
    Simulates b (read.1, read.2.introduce n)
      (resolved.1, if b.isInMetaDeclMode then resolved.2 else resolved.2.declare n) := by
  obtain ⟨hr, hscope, hmode⟩ := resolution_introduce hok
  rw [h.state, isInMetaDeclMode_congr h.mode] at hr
  exact ⟨h.ast, hr, hmode.trans h.mode, h.scope.trans hscope⟩

/-- Reading a tree resolves it lexically, as long as every assertion holds. -/
theorem readTree_resolve (t : Tree) (hs : t.WellShaped) (b : BasicASTBuilder)
    (hok : (readTree similarTo t b).2.Ok) :
    Simulates b (readTree similarTo t b) (b.resolution.resolve b.isInMetaDeclMode t) := by
  induction t using Rose.ind generalizing b with
  | h n cs ih =>
    obtain ⟨hfit, hcs⟩ := Tree.wellShaped_node.1 hs
    have all : ∀ b, (readTrees similarTo cs b).2.Ok →
        Simulates b (readTrees similarTo cs b) (b.resolution.resolveAll b.isInMetaDeclMode cs) :=
      fun b => readTrees_resolve fun c hc b => ih c hc (hcs c hc) b
    have ok : ∀ cs b, (readTrees similarTo cs b).2.Ok → b.Ok :=
      fun cs b => ok_readTrees cs fun c _ b => ok_readTree c b
    have temporary : (readTrees similarTo cs b.enterTemporaryScope).2.Ok →
        Simulates b ((readTrees similarTo cs b.enterTemporaryScope).1,
            (readTrees similarTo cs b.enterTemporaryScope).2.leaveScope)
          ((b.resolution.resolveAll b.isInMetaDeclMode cs).1,
            { (b.resolution.resolveAll b.isInMetaDeclMode cs).2 with env := b.resolution.env }) :=
      fun h => by
        have sim := all _ h
        rw [resolution_enterTemporaryScope (ok cs _ h),
          isInMetaDeclMode_enterTemporaryScope (ok cs _ h)] at sim
        exact sim.temporary (ok cs _ h)
    obtain ⟨id, data⟩ := n
    cases data with
    | compilationUnit =>
      have sim := all (enterUnit [] ⟨id, .compilationUnit⟩ cs b) hok
      obtain ⟨hr, hm⟩ := resolution_enterUnit (all_map_kind hfit) hcs (ok cs _ hok)
      rw [hr, isInMetaDeclMode_congr hm] at sim
      refine ⟨congrArg (Rose.node _) sim.ast, ?_, sim.mode.trans hm, .refl _⟩
      exact congrArg (fun r : Resolution => { r with env := b.resolution.env }) sim.state
    | metaUnit inst =>
      let entered := enterMetaUnit ⟨id, .metaUnit inst⟩ b
      have hunit : (enterUnit entered.2 ⟨id, .metaUnit inst⟩ cs entered.1).Ok := ok cs _ hok
      have sim := all (enterUnit entered.2 ⟨id, .metaUnit inst⟩ cs entered.1) hok
      obtain ⟨hr, hm⟩ := resolution_enterUnit (all_map_kind hfit) hcs hunit
      obtain ⟨hr', henv, hscope, hm'⟩ := resolution_enterMetaUnit rfl (ok_enterUnit hunit)
      rw [hr, isInMetaDeclMode_congr hm, hr', henv, isInMetaDeclMode_congr hm'] at sim
      refine ⟨congrArg (Rose.node _) sim.ast, ?_, (sim.mode.trans hm).trans hm', ?_⟩
      · have hstate := congrArg (fun r : Resolution => { r with env := b.resolution.env }) sim.state
        refine Eq.trans ?_ hstate
        simp only [readTree, setScope, resolution]
        rw [show (enterMetaUnit ⟨id, .metaUnit inst⟩ b).1.currentScope = b.currentScope from hscope]
      · simp only [readTree, setScope]
        rw [hscope]
        exact .refl _
    | functionDecl name => exact (temporary hok).node _
    | compoundStmt => exact (temporary hok).node _
    | namedArgumentDecl name =>
      obtain ⟨hr, hscope, hmode⟩ := resolution_introduce hok
      exact ⟨rfl, hr, hmode, hscope⟩
    | metaDecl name =>
      obtain ⟨args, contribution, rfl, _, _⟩ := hs.metaDecl rfl
      let read := readTree similarTo args b.enterTemporaryScope
      have hmode : read.2.enterMetaDeclMode.Ok := ok [contribution] _ hok
      have htemporary : b.enterTemporaryScope.Ok := ok_readTree args _ (ok_enterMetaDeclMode hmode)
      have hargs := ih args (by simp) (hcs args (by simp)) _ (ok_enterMetaDeclMode hmode)
      rw [resolution_enterTemporaryScope htemporary,
        isInMetaDeclMode_enterTemporaryScope htemporary] at hargs
      have hcontribution := readTrees_resolve (fun c hc =>
        ih c (List.mem_cons_of_mem args hc) (hcs c (List.mem_cons_of_mem args hc))) hok
      rw [resolution_enterMetaDeclMode hmode, isInMetaDeclMode_enterMetaDeclMode hmode,
        hargs.state] at hcontribution
      exact ((hargs.trans (hcontribution.metaDeclMode hmode)).temporary htemporary).node
        fun x => Rose.node { node := ⟨id, .metaDecl name⟩ } (x.1 :: x.2)
    | declStmt name => exact ((all b (ok_introduce hok)).node _).introduce hok
    | metaIfStmt =>
      obtain ⟨expression, branches, rfl, _⟩ := hs.metaIfStmt rfl
      let read := readTree similarTo expression b.enterMetaComputationMode
      have hread : read.2.leaveMode.Ok := ok branches _ hok
      have hmode : b.enterMetaComputationMode.Ok := ok_readTree expression _ hread
      have hexpression := ih expression (by simp) (hcs expression (by simp)) _ hread
      rw [resolution_enterMetaComputationMode hmode,
        isInMetaDeclMode_enterMetaComputationMode hmode] at hexpression
      have hbranches := readTrees_resolve (fun c hc =>
        ih c (List.mem_cons_of_mem expression hc) (hcs c (List.mem_cons_of_mem expression hc))) hok
      have sim := hexpression.metaComputationMode hmode
      rw [sim.state, isInMetaDeclMode_congr sim.mode] at hbranches
      exact (sim.trans hbranches).node
        fun x => Rose.node { node := ⟨id, .metaIfStmt⟩ } (x.1 :: x.2)
    | metaCalculationStmt =>
      have hcomputation := ok cs b.enterInplaceScope.enterMetaComputationMode hok
      have hinplace := ok_enterMetaComputationMode hcomputation
      have sim := all b.enterInplaceScope.enterMetaComputationMode hok
      rw [resolution_enterMetaComputationMode hcomputation,
        isInMetaDeclMode_enterMetaComputationMode hcomputation,
        resolution_enterInplaceScope hinplace] at sim
      exact ((sim.metaComputationMode hcomputation).inplace hinplace).node
        fun x => Rose.node { node := ⟨id, .metaCalculationStmt⟩, exportedDecls := x.2 } x.1
    | declRefExpr name =>
      simp only [readTree, Resolution.resolve] at hok ⊢
      have hmode : b.isAllowedToResolveDecls = !b.isInMetaDeclMode := rfl
      cases hm : b.isInMetaDeclMode with
      | true =>
        simp only [hmode, hm, Bool.not_true, Bool.false_eq_true, ↓reduceIte]
        exact ⟨rfl, rfl, rfl, .refl _⟩
      | false =>
        simp only [hmode, hm, Bool.not_false, ↓reduceIte] at hok
        simp only [hmode, hm, Bool.not_false, Bool.false_eq_true, ↓reduceIte]
        obtain ⟨hdecl, hr, hscope, hmode⟩ := lookup_spec hok
        cases hname : b.resolution.env.lookup name with
        | none =>
          simp only [hname] at hdecl hr
          exact ⟨by rw [hdecl], hr, hmode, hscope ▸ .refl _⟩
        | some decl =>
          simp only [hname] at hdecl hr
          exact ⟨by rw [hdecl], hr, hmode, hscope ▸ .refl _⟩
    | _ => exact (all b hok).node _

/-- What the reader reads of a layout is resolved lexically, as long as every assertion holds. -/
theorem consume_resolve {p : Production} {layout : Layout} {b : BasicASTBuilder} {a : AST}
    {s : State} (hread : consume similarTo p ⟨layout, b⟩ = .ok (a, s)) (hok : s.builder.Ok) :
    p.Reads a.shape ∧ layout = a.shape.encode ++ s.rest ∧
      Simulates b (a, s.builder) (b.resolution.resolve b.isInMetaDeclMode a.shape) := by
  obtain ⟨ht, hl⟩ := consumeWith_sound hread
  have hl' : layout = a.shape.encode ++ s.rest := hl
  have hcomplete := consume_complete similarTo ht s.rest b
  rw [← hl', hread] at hcomplete
  simp only [Except.ok.injEq, Prod.mk.injEq] at hcomplete
  obtain ⟨ha, hbuilder⟩ := hcomplete
  have heq : (a, s.builder) = readTree similarTo a.shape b :=
    Prod.ext ha (congrArg State.builder hbuilder)
  refine ⟨ht, hl', heq ▸ readTree_resolve a.shape ht.1 b ?_⟩
  rw [← heq]
  exact hok

theorem Production.Reads.unit {k : ASTKind} (hk : k.isUnitNode = true) {t : Tree}
    (h : Production.Reads (.kind k) t) : t.kind = k := by
  refine readsKind.eq h.2 ?_
  rintro rfl
  cases hk

/-- Reading a unit resolves its names lexically. Every unit layout that is read while the assertions
of the builder hold gives the AST, the errors and the names of its units that the resolver gives for
the tree in the layout, with the units read before as they are on the heap. -/
theorem consume_unit_lexical (similarTo : ScopeChain → Identifier → Option Node) {k : ASTKind}
    (hk : k.isUnitNode = true) (layout : Layout) (heap : ASTHeap) {a : AST} {s : State}
    (hread : consume similarTo (.kind k) ⟨layout, .start heap⟩ = .ok (a, s))
    (hok : s.builder.Ok) :
    layout = a.shape.encode ++ s.rest ∧ a.kind = k ∧
      (a, s.builder.resolution) =
        (BasicASTBuilder.start heap).resolution.resolve false a.shape := by
  obtain ⟨ht, hl, sim⟩ := consume_resolve hread hok
  refine ⟨hl, ?_, Prod.ext sim.ast sim.state⟩
  rw [← AST.kind_shape]
  exact Production.Reads.unit hk ht

/-- `f(x) { y = x; z; }`: the last name is unknown. -/
theorem consume_unit_lexical_function : ∃ (t : Tree) (a : AST) (s : State),
    consume (fun _ _ => none) (.kind .compilationUnit) ⟨t.encode, .start .empty⟩ = .ok (a, s) ∧
      s.builder.resolution.errors = [.errorDeclarationUnknown "z"] ∧
      (a, s.builder.resolution) =
        (BasicASTBuilder.start .empty).resolution.resolve false a.shape := by
  let t : Tree := .node ⟨0, .compilationUnit⟩ [.node ⟨1, .functionDecl "f"⟩
    [.node ⟨2, .argumentDeclList⟩ [.node ⟨3, .namedArgumentDecl "x"⟩ []],
      .node ⟨4, .compoundStmt⟩ [.node ⟨5, .declStmt "y"⟩ [.node ⟨6, .declRefExpr "x"⟩ []],
        .node ⟨7, .expressionStmt⟩ [.node ⟨8, .declRefExpr "z"⟩ []]]]]
  have hread := consume_complete (fun _ _ => none) (p := .kind .compilationUnit) (t := t)
    ⟨by decide, .inl rfl⟩ [] (.start .empty)
  rw [List.append_nil] at hread
  exact ⟨t, _, _, hread, by decide,
    (consume_unit_lexical (fun _ _ => none) rfl _ _ hread (by decide)).2.2⟩

end Trees

end ASTLayoutReader

end Swy
