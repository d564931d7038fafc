import Swy.Parse.LexicalScoping
import Swy.Parse.MetaModes
import Swy.Parse.ReadFrame
import Mathlib.Data.List.Nodup

/-!
# The declarations that are visible

In every state of the reader each name is visible once, apart from the one that a meta unit exports:
it may have the name of the meta declaration that the unit was instantiated from (`Shadows`). So an
insertion never meets an entry in its own map, and no assertion of the builder fails, whatever units
are read one after the other (`readUnits_visible`).
-/

namespace Swy

open Library

/-! ## Scopes that are entered -/

namespace ScopeChain

/-- Some scope of the chain is allocated. -/
def hasMap : ScopeChain → Bool
  | [] => false
  | .allocated _ _ :: _ => true
  | .inplace _ :: parents => hasMap parents

theorem hasMap_insertAll (c : ScopeChain) (entries : Environment) :
    (c.insertAll entries).hasMap = c.hasMap := by
  induction c with
  | nil => rfl
  | cons scope parents ih =>
    cases scope with
    | allocated isConsistent lookupMap => rfl
    | inplace listened => exact ih

theorem Extends.hasMap {c c' : ScopeChain} (h : c.Extends c') : c'.hasMap = c.hasMap := by
  obtain ⟨entries, rfl, -⟩ := h
  exact c.hasMap_insertAll entries

theorem isEmpty_of_hasMap {c : ScopeChain} (h : c.hasMap = true) : c.isEmpty = false := by
  cases c with
  | nil => cases h
  | cons scope parents => rfl

/-- A name that is not visible can be inserted. -/
theorem isInsertable_of_lookup {c : ScopeChain} {name : Identifier} (h : c.hasMap = true)
    (hname : c.env.lookup name = none) : c.isInsertable name = true := by
  induction c with
  | nil => cases h
  | cons scope parents ih =>
    cases scope with
    | allocated isConsistent lookupMap =>
      rw [env, List.lookup_append, Option.or_eq_none_iff] at hname
      rw [isInsertable, hname.1]
      rfl
    | inplace listened => exact ih h hname

end ScopeChain

/-! ## What is visible -/

/-- The declaration is exported from the unit, and shadows the meta declaration that the unit was
instantiated from. -/
def Shadows (unit current previous : Node) : Prop :=
  previous.kind = .metaDecl ∧ ∃ inst kind, unit.data = .metaUnit inst ∧
    inst.decl = some (previous.id, kind) ∧ current.name? = some inst.name

/-- Every name is visible once, up to what the unit exports. -/
def Environment.Distinct (unit : Node) (env : Environment) : Prop :=
  env.Pairwise fun inner outer => inner.1 = outer.1 → Shadows unit inner.2 outer.2

theorem Environment.mem_of_lookup {env : Environment} {name : Identifier} {n : Node}
    (h : env.lookup name = some n) : (name, n) ∈ env := by
  obtain ⟨before, behind, rfl, -⟩ := List.lookup_eq_some_iff.1 h
  exact List.mem_append_right _ List.mem_cons_self

/-- A name that is not visible is added. -/
theorem Environment.Distinct.cons {unit n : Node} {env : Environment} {name : Identifier}
    (h : Environment.Distinct unit env) (hname : env.lookup name = none) :
    Environment.Distinct unit ((name, n) :: env) := by
  refine List.pairwise_cons.2 ⟨fun entry hentry heq => ?_, h⟩
  have hne : (name != entry.1) = true := List.lookup_eq_none_iff.1 hname entry hentry
  exact absurd heq (bne_iff_ne.1 hne)

/-- Nothing is exported from a program. -/
theorem Environment.Distinct.names {unit : Node} {env : Environment}
    (h : Environment.Distinct unit env) (hk : unit.kind = .compilationUnit) :
    (env.map Prod.fst).Nodup := by
  refine List.pairwise_map.2 (h.imp fun hshadows heq => ?_)
  obtain ⟨-, inst, kind, hdata, -⟩ := hshadows heq
  rw [Node.kind, hdata] at hk
  cases hk

namespace ASTLayoutReader

open BasicASTBuilder

/-- What may be read next: the unit has entered a scope, and none of the nodes was declared. -/
structure Admits (unit : Node) (ns : List Node) (b : BasicASTBuilder) : Prop where
  hasMap : b.currentScope.hasMap = true
  distinct : b.currentScope.env.Distinct unit
  fresh : ∀ entry ∈ b.currentScope.env, ∀ n ∈ ns, entry.2.id ≠ n.id

/-- What reading does to the scopes: they grow by some of the nodes, and no assertion fails but one
on the mode. -/
structure Declares (unit : Node) (ns : List Node) (b b' : BasicASTBuilder) : Prop where
  scope : b.currentScope.Extends b'.currentScope
  distinct : b'.currentScope.env.Distinct unit
  entries : ∀ entry ∈ b'.currentScope.env, entry ∈ b.currentScope.env ∨ entry.2 ∈ ns
  heap : b'.heap = b.heap
  asserted : ∀ a ∈ b'.failedAssertions, a.isModeAssertion = false → a ∈ b.failedAssertions

section Declares

variable {unit n : Node} {ns ns' : List Node} {b b' b'' : BasicASTBuilder}

theorem Admits.mono (h : Admits unit ns b) (hns : ∀ n ∈ ns', n ∈ ns) : Admits unit ns' b :=
  ⟨h.hasMap, h.distinct, fun entry hentry n hn => h.fresh entry hentry n (hns n hn)⟩

theorem Declares.mono (h : Declares unit ns b b') (hns : ∀ n ∈ ns, n ∈ ns') :
    Declares unit ns' b b' :=
  ⟨h.scope, h.distinct, fun entry hentry => (h.entries entry hentry).imp id (hns _), h.heap,
    h.asserted⟩

/-- Nothing is declared. -/
theorem Declares.of_eq (hdistinct : b.currentScope.env.Distinct unit)
    (hscope : b'.currentScope = b.currentScope) (hheap : b'.heap = b.heap)
    (hasserted : ∀ a ∈ b'.failedAssertions, a.isModeAssertion = false → a ∈ b.failedAssertions) :
    Declares unit [] b b' := by
  refine ⟨?_, ?_, fun entry hentry => .inl ?_, hheap, hasserted⟩
  · rw [hscope]
    exact .refl _
  · rwa [hscope]
  · rwa [← hscope]

theorem Declares.trans (h : Declares unit ns b b') (h' : Declares unit ns' b' b'') :
    Declares unit (ns ++ ns') b b'' := by
  refine ⟨h.scope.trans h'.scope, h'.distinct, fun entry hentry => ?_, h'.heap.trans h.heap,
    fun a ha hmode => h.asserted a (h'.asserted a ha hmode) hmode⟩
  rcases h'.entries entry hentry with hentry | hentry
  · exact (h.entries entry hentry).imp id (List.mem_append_left _)
  · exact .inr (List.mem_append_right _ hentry)

/-- What was declared differs from what is read afterwards. -/
theorem Declares.admits (h : Declares unit ns b b') (hadmits : Admits unit (ns ++ ns') b)
    (hdistinct : ((ns ++ ns').map Node.id).Nodup) : Admits unit ns' b' := by
  refine ⟨h.scope.hasMap.trans hadmits.hasMap, h.distinct, fun entry hentry n hn => ?_⟩
  rcases h.entries entry hentry with hentry | hentry
  · exact hadmits.fresh entry hentry n (List.mem_append_right _ hn)
  · rw [List.map_append, List.nodup_append] at hdistinct
    exact hdistinct.2.2 _ (List.mem_map_of_mem hentry) _ (List.mem_map_of_mem hn)

theorem Admits.requireScope (h : Admits unit ns b) : b.requireScope = b := by
  have hscope : b.isInAnyScope = true := by
    rw [isInAnyScope, ScopeChain.isEmpty_of_hasMap h.hasMap]
    rfl
  rw [BasicASTBuilder.requireScope, require, if_pos hscope]

/-! ### Introducing a declaration -/

theorem not_isAllowedToShadowDecl {heap : ASTHeap} {previous : Node}
    (hn : n.kind.isTopLevelNode = false) : isAllowedToShadowDecl heap n previous = .ok false := by
  unfold isAllowedToShadowDecl isShadowingDeclFromExportedNode
  split
  · rfl
  · simp [hn]

/-- A declaration that is rejected is not introduced. -/
theorem declares_rejectDecl {name : Identifier} {previous : Node}
    (hdistinct : b.currentScope.env.Distinct unit) (hid : previous.id ≠ n.id) :
    Declares unit [] b (b.rejectDecl name n previous) := by
  have hrequire : b.require (previous.id != n.id) .introducedTwice = b :=
    if_pos (bne_iff_ne.2 hid)
  refine .of_eq hdistinct ?_ ?_ ?_ <;> simp only [rejectDecl, hrequire, diagnose]
  exact fun a ha _ => ha

/-- A declaration whose name has no entry in the innermost map is inserted. -/
theorem declares_insert {name : Identifier} (hins : b.currentScope.isInsertable name = true)
    (hdistinct : Environment.Distinct unit ((name, n) :: b.currentScope.env)) :
    Declares unit [n] b (b.insert name n) := by
  have hrequire : b.require (b.currentScope.isInsertable name) .entryExists = b := if_pos hins
  have hscope : (b.insert name n).currentScope = b.currentScope.insert name n := by
    simp only [BasicASTBuilder.insert, hrequire, setScope]
  obtain ⟨hinsert, henv⟩ := ScopeChain.insert_eq n hins
  refine ⟨⟨[(name, n)], ?_, ?_⟩, ?_, fun entry hentry => ?_, b.heap_insert name n, fun a ha _ => ?_⟩
  · rw [hscope, hinsert]
  · rw [hscope, henv]
    rfl
  · rwa [hscope, henv]
  · rw [hscope, henv] at hentry
    rcases List.mem_cons.1 hentry with rfl | hentry
    · exact .inr (List.mem_singleton.2 rfl)
    · exact .inl hentry
  · simpa only [BasicASTBuilder.insert, hrequire, setScope] using ha

theorem declares_introduce (h : Admits unit [n] b) (hn : n.kind.isTopLevelNode = false) :
    Declares unit [n] b (b.introduce n) := by
  have hnothing : Declares unit [n] b b :=
    (Declares.of_eq h.distinct rfl rfl fun a ha _ => ha).mono fun _ hm => absurd hm List.not_mem_nil
  unfold introduce
  split
  · exact hnothing
  next name _ =>
    split
    · exact hnothing
    · simp only [h.requireScope]
      have hlookup : b.directLookup name = b.currentScope.env.lookup name :=
        ScopeChain.lookupIdentifier_eq _ _
      cases hprevious : b.directLookup name with
      | none =>
        rw [hlookup] at hprevious
        exact declares_insert (ScopeChain.isInsertable_of_lookup h.hasMap hprevious)
          (h.distinct.cons hprevious)
      | some previous =>
        simp only [not_isAllowedToShadowDecl hn]
        rw [hlookup] at hprevious
        have hmem := Environment.mem_of_lookup hprevious
        have hreject : Declares unit [] b (b.rejectDecl name n previous) :=
          declares_rejectDecl h.distinct (h.fresh _ hmem n (List.mem_singleton.2 rfl))
        exact hreject.mono fun _ hm => absurd hm List.not_mem_nil

end Declares

/-! ## The states of the reader -/

section States

variable (similarTo : ScopeChain → Identifier → Option Node)

mutual
/-- The builders in which the nodes of a tree are read, from left to right. -/
def readStates : Tree → BasicASTBuilder → List BasicASTBuilder
  | .node node cs, b => b ::
    match node.data with
    | .compilationUnit => readAllStates cs (enterUnit [] node cs b)
    | .metaUnit _ =>
      readAllStates cs (enterUnit (enterMetaUnit node b).2 node cs (enterMetaUnit node b).1)
    | .functionDecl _ | .compoundStmt => readAllStates cs b.enterTemporaryScope
    | .namedArgumentDecl _ | .declRefExpr _ => []
    | .metaDecl _ =>
      match cs with
      | [] => []
      | args :: contribution => readStates args b.enterTemporaryScope ++
          readAllStates contribution
            (readTree similarTo args b.enterTemporaryScope).2.enterMetaDeclMode
    | .metaIfStmt =>
      match cs with
      | [] => []
      | expression :: branches => readStates expression b.enterMetaComputationMode ++
          readAllStates branches
            (readTree similarTo expression b.enterMetaComputationMode).2.leaveMode
    | .metaCalculationStmt => readAllStates cs b.enterInplaceScope.enterMetaComputationMode
    | _ => readAllStates cs b
/-- The builders in which trees are read one after the other, and the one behind them. -/
def readAllStates : List Tree → BasicASTBuilder → List BasicASTBuilder
  | [], b => [b]
  | c :: cs, b => readStates c b ++ readAllStates cs (readTree similarTo c b).2
end

end States

/-! ## Below the top level of a unit -/

/-- The declarations that are introduced where a tree is read. -/
def localDecls (t : Tree) : List Node :=
  t.labels.filter fun n => n.kind == .declStmt || n.kind == .namedArgumentDecl

theorem localDecls_node (n : Node) (cs : List Tree) : localDecls (.node n cs) =
    (if n.kind == .declStmt || n.kind == .namedArgumentDecl then [n] else []) ++
      cs.flatMap localDecls := by
  have hbelow : (cs.flatMap Rose.labels).filter
      (fun n : Node => n.kind == .declStmt || n.kind == .namedArgumentDecl) =
        cs.flatMap localDecls := by
    rw [List.filter_flatMap]
    rfl
  rw [localDecls, Rose.labels_node, List.filter_cons, hbelow]
  split
  · rfl
  · rfl

theorem localDecls_of_kind {n : Node} {cs : List Tree}
    (hn : (n.kind == .declStmt || n.kind == .namedArgumentDecl) = false) :
    localDecls (.node n cs) = cs.flatMap localDecls := by
  rw [localDecls_node, if_neg (Bool.eq_false_iff.1 hn), List.nil_append]

/-- What reading declares, and what is visible meanwhile. -/
structure ReadsScoped (unit : Node) (ns : List Node) (b b' : BasicASTBuilder)
    (states : List BasicASTBuilder) : Prop where
  declares : Declares unit ns b b'
  visible : ∀ s ∈ states, s.currentScope.env.Distinct unit

section Trees

variable {unit : Node} {similarTo : ScopeChain → Identifier → Option Node}

theorem readTrees_scoped {cs : List Tree}
    (h : ∀ c ∈ cs, ∀ b, Admits unit (localDecls c) b → ((localDecls c).map Node.id).Nodup →
      ReadsScoped unit (localDecls c) b (readTree similarTo c b).2 (readStates similarTo c b))
    {b : BasicASTBuilder} (hb : Admits unit (cs.flatMap localDecls) b)
    (hdistinct : ((cs.flatMap localDecls).map Node.id).Nodup) :
    ReadsScoped unit (cs.flatMap localDecls) b (readTrees similarTo cs b).2
      (readAllStates similarTo cs b) := by
  induction cs generalizing b with
  | nil =>
    refine ⟨.of_eq hb.distinct rfl rfl fun a ha _ => ha, fun s hs => ?_⟩
    rw [readAllStates, List.mem_singleton] at hs
    rw [hs]
    exact hb.distinct
  | cons c cs ih =>
    rw [List.flatMap_cons] at hb hdistinct ⊢
    have hmap := hdistinct
    rw [List.map_append, List.nodup_append] at hmap
    have first := h c List.mem_cons_self b (hb.mono fun n hn => List.mem_append_left _ hn) hmap.1
    have rest := ih (fun d hd => h d (List.mem_cons_of_mem _ hd))
      (first.declares.admits hb hdistinct) hmap.2.1
    refine ⟨first.declares.trans rest.declares, fun s hs => ?_⟩
    rcases List.mem_append.1 hs with hs | hs
    · exact first.visible s hs
    · exact rest.visible s hs

/-! ### Scopes and modes -/

theorem Admits.congr {ns : List Node} {b b' : BasicASTBuilder} (h : Admits unit ns b)
    (hscope : b'.currentScope = b.currentScope) : Admits unit ns b' := by
  obtain ⟨hmap, hdistinct, hfresh⟩ := h
  rw [← hscope] at hmap hdistinct hfresh
  exact ⟨hmap, hdistinct, hfresh⟩

theorem Admits.enterTemporaryScope {ns : List Node} {b : BasicASTBuilder} (h : Admits unit ns b) :
    b.enterTemporaryScope = b.setScope (.allocated false [] :: b.currentScope) ∧
      Admits unit ns b.enterTemporaryScope := by
  have henter : b.enterTemporaryScope = b.setScope (.allocated false [] :: b.currentScope) := by
    rw [BasicASTBuilder.enterTemporaryScope, h.requireScope]
  rw [henter]
  exact ⟨rfl, rfl, h.distinct, h.fresh⟩

theorem Admits.enterInplaceScope {ns : List Node} {b : BasicASTBuilder} (h : Admits unit ns b) :
    b.enterInplaceScope = b.setScope (.inplace [] :: b.currentScope) ∧
      Admits unit ns b.enterInplaceScope := by
  have henter : b.enterInplaceScope = b.setScope (.inplace [] :: b.currentScope) := by
    rw [BasicASTBuilder.enterInplaceScope, h.requireScope]
  rw [henter]
  exact ⟨rfl, h.hasMap, h.distinct, h.fresh⟩

/-- What is declared in a temporary scope is dropped. -/
theorem ReadsScoped.leaveTemporaryScope {ns : List Node} {b b' : BasicASTBuilder}
    {states : List BasicASTBuilder} (hb : Admits unit ns b)
    (h : ReadsScoped unit ns b.enterTemporaryScope b' states) :
    ReadsScoped unit [] b b'.leaveScope states := by
  obtain ⟨⟨hscope, -, -, hheap, hasserted⟩, hvisible⟩ := h
  rw [hb.enterTemporaryScope.1] at hscope hheap hasserted
  exact ⟨.of_eq hb.distinct hscope.tail_allocated hheap hasserted, hvisible⟩

/-- What is declared in an in-place scope stays. -/
theorem ReadsScoped.leaveInplaceScope {ns : List Node} {b b' : BasicASTBuilder}
    {states : List BasicASTBuilder} (hb : Admits unit ns b)
    (h : ReadsScoped unit ns b.enterInplaceScope b' states) :
    ReadsScoped unit ns b b'.leaveScope states := by
  obtain ⟨⟨hscope, hdistinct, hentries, hheap, hasserted⟩, hvisible⟩ := h
  rw [hb.enterInplaceScope.1] at hscope hentries hheap hasserted
  obtain ⟨hextends, henv, -⟩ := hscope.tail_inplace
  have hleave : b'.leaveScope.currentScope.env = b'.currentScope.env := henv
  rw [← hleave] at hdistinct hentries
  exact ⟨⟨hextends, hdistinct, hentries, hheap, hasserted⟩, hvisible⟩

theorem declares_require {b : BasicASTBuilder} {c : Bool} {a : BuilderAssertion}
    (ha : a.isModeAssertion = true) (hdistinct : b.currentScope.env.Distinct unit) :
    Declares unit [] b (b.require c a) := by
  unfold require
  split
  · exact .of_eq hdistinct rfl rfl fun a' ha' _ => ha'
  · refine .of_eq hdistinct rfl rfl fun a' ha' hmode => ?_
    rcases List.mem_append.1 ha' with ha' | ha'
    · exact ha'
    · rw [List.mem_singleton.1 ha', ha] at hmode
      cases hmode

theorem declares_enterMetaDeclMode {b : BasicASTBuilder}
    (hdistinct : b.currentScope.env.Distinct unit) : Declares unit [] b b.enterMetaDeclMode := by
  obtain ⟨hscope, hdistinct, hentries, hheap, hasserted⟩ :=
    declares_require (a := .enterMetaDeclMode) (c := b.currentMode == .outside) rfl hdistinct
  exact ⟨hscope, hdistinct, hentries, hheap, hasserted⟩

theorem declares_enterMetaComputationMode {b : BasicASTBuilder}
    (hdistinct : b.currentScope.env.Distinct unit) :
    Declares unit [] b b.enterMetaComputationMode := by
  obtain ⟨hscope, hdistinct, hentries, hheap, hasserted⟩ :=
    declares_require (a := .enterMetaComputationMode) (c := b.currentMode == .insideMetaDecl) rfl
      hdistinct
  exact ⟨hscope, hdistinct, hentries, hheap, hasserted⟩

theorem declares_lookup {b : BasicASTBuilder} {ns : List Node} (h : Admits unit ns b)
    (name : Identifier) : Declares unit [] b (b.lookup similarTo name).2 := by
  unfold lookup
  simp only [h.requireScope]
  split
  · exact .of_eq h.distinct rfl rfl fun a ha _ => ha
  · split
    · exact .of_eq h.distinct rfl rfl fun a ha _ => ha
    · exact .of_eq h.distinct rfl rfl fun a ha _ => ha

/-- The node itself is read in the builder before it. -/
theorem ReadsScoped.node {ns ns' : List Node} {b b' : BasicASTBuilder}
    {states : List BasicASTBuilder} (hb : Admits unit ns b) (h : ReadsScoped unit ns' b b' states)
    (hns : ∀ n ∈ ns', n ∈ ns) : ReadsScoped unit ns b b' (b :: states) := by
  refine ⟨h.declares.mono hns, fun s hs => ?_⟩
  rcases List.mem_cons.1 hs with rfl | hs
  · exact hb.distinct
  · exact h.visible s hs

/-- Without nodes nothing is declared. -/
theorem ReadsScoped.nothing {ns : List Node} {b : BasicASTBuilder} (hb : Admits unit ns b) :
    ReadsScoped unit [] b b [] :=
  ⟨.of_eq hb.distinct rfl rfl fun _ ha _ => ha, fun _ hs => absurd hs List.not_mem_nil⟩

theorem ReadsScoped.trans {ns ns' : List Node} {b b' b'' : BasicASTBuilder}
    {states states' : List BasicASTBuilder} (h : ReadsScoped unit ns b b' states)
    (h' : ReadsScoped unit ns' b' b'' states') :
    ReadsScoped unit (ns ++ ns') b b'' (states ++ states') :=
  ⟨h.declares.trans h'.declares, List.forall_mem_append.2 ⟨h.visible, h'.visible⟩⟩

/-- Leaving a mode declares nothing. -/
theorem ReadsScoped.leaveMode {ns : List Node} {b b' : BasicASTBuilder}
    {states : List BasicASTBuilder} (h : ReadsScoped unit ns b b' states) :
    ReadsScoped unit ns b b'.leaveMode states := by
  obtain ⟨⟨hscope, hdistinct, hentries, hheap, hasserted⟩, hvisible⟩ := h
  exact ⟨⟨hscope, hdistinct, hentries, hheap, hasserted⟩, hvisible⟩

/-- Entering a mode declares nothing. -/
theorem ReadsScoped.of_declares {ns : List Node} {b b' b'' : BasicASTBuilder}
    {states : List BasicASTBuilder} (h : Declares unit [] b b')
    (h' : ReadsScoped unit ns b' b'' states) : ReadsScoped unit ns b b'' states :=
  ⟨h.trans h'.declares, h'.visible⟩

theorem Admits.enterMetaComputationMode {ns : List Node} {b : BasicASTBuilder}
    (h : Admits unit ns b) : Admits unit ns b.enterMetaComputationMode := by
  refine h.congr ?_
  unfold BasicASTBuilder.enterMetaComputationMode require
  split
  · rfl
  · rfl

theorem Admits.enterMetaDeclMode {ns : List Node} {b : BasicASTBuilder}
    (h : Admits unit ns b) : Admits unit ns b.enterMetaDeclMode := by
  refine h.congr ?_
  unfold BasicASTBuilder.enterMetaDeclMode require
  split
  · rfl
  · rfl

/-- Reading a tree below the top level of a unit. -/
theorem readTree_scoped (t : Tree) (hu : ∀ n ∈ t.labels, n.kind.isUnitNode = false)
    (b : BasicASTBuilder) (hb : Admits unit (localDecls t) b)
    (hdistinct : ((localDecls t).map Node.id).Nodup) :
    ReadsScoped unit (localDecls t) b (readTree similarTo t b).2 (readStates similarTo t b) := by
  induction t using Rose.ind generalizing b with
  | h n cs ih =>
    have each : ∀ c ∈ cs, ∀ b, Admits unit (localDecls c) b →
        ((localDecls c).map Node.id).Nodup →
        ReadsScoped unit (localDecls c) b (readTree similarTo c b).2 (readStates similarTo c b) :=
      fun c hc => ih c hc fun m hm => hu m (Rose.mem_labels_node.2 (.inr ⟨c, hc, hm⟩))
    have hroot := hu n (Rose.mem_labels_node.2 (.inl rfl))
    obtain ⟨id, data⟩ := n
    have all (b : BasicASTBuilder) (hb : Admits unit (cs.flatMap localDecls) b)
        (hdistinct : ((cs.flatMap localDecls).map Node.id).Nodup) :=
      readTrees_scoped each hb hdistinct
    have split {d : Tree} {ds : List Tree} (hds : cs = d :: ds)
        (hdistinct : ((cs.flatMap localDecls).map Node.id).Nodup) :
        ((localDecls d).map Node.id).Nodup ∧ ((ds.flatMap localDecls).map Node.id).Nodup := by
      rw [hds, List.flatMap_cons, List.map_append, List.nodup_append] at hdistinct
      exact ⟨hdistinct.1, hdistinct.2.1⟩
    cases data with
    | compilationUnit | metaUnit => cases hroot
    | functionDecl name | compoundStmt =>
      rw [localDecls_of_kind rfl] at hb hdistinct ⊢
      have hall := all b.enterTemporaryScope hb.enterTemporaryScope.2 hdistinct
      exact (hall.leaveTemporaryScope hb).node hb fun _ hm => absurd hm List.not_mem_nil
    | namedArgumentDecl name =>
      rw [localDecls_node] at hb hdistinct ⊢
      have hself := hb.mono fun m hm => List.mem_append_left _ hm
      have hintroduce : ReadsScoped unit [⟨id, .namedArgumentDecl name⟩] b
          (b.introduce ⟨id, .namedArgumentDecl name⟩) [] :=
        ⟨declares_introduce hself rfl, fun _ hs => absurd hs List.not_mem_nil⟩
      exact hintroduce.node hb fun m hm => List.mem_append_left _ hm
    | declStmt name =>
      rw [localDecls_node] at hb hdistinct ⊢
      let n : Node := ⟨id, .declStmt name⟩
      have hperm : (([n] ++ cs.flatMap localDecls).map Node.id).Perm
          ((cs.flatMap localDecls ++ [n]).map Node.id) := List.perm_append_comm.map _
      have hdistinct' := hperm.nodup_iff.1 hdistinct
      have hb' : Admits unit (cs.flatMap localDecls ++ [n]) b :=
        hb.mono fun m hm => List.mem_append.2 (List.mem_append.1 hm).symm
      have hall := all b (hb.mono fun m hm => List.mem_append_right _ hm)
        (List.nodup_append.1 (List.map_append ▸ hdistinct)).2.1
      have hintroduce : Declares unit [n] (readTrees similarTo cs b).2
          ((readTrees similarTo cs b).2.introduce n) :=
        declares_introduce (hall.declares.admits hb' hdistinct') rfl
      have hread : ReadsScoped unit (cs.flatMap localDecls ++ [n]) b
          ((readTrees similarTo cs b).2.introduce n) (readAllStates similarTo cs b) :=
        ⟨hall.declares.trans hintroduce, hall.visible⟩
      exact hread.node hb fun m hm => List.mem_append.2 (List.mem_append.1 hm).symm
    | metaDecl name =>
      rw [localDecls_of_kind rfl] at hb hdistinct ⊢
      cases cs with
      | nil =>
        exact (ReadsScoped.nothing hb).node hb fun _ hm => absurd hm List.not_mem_nil
      | cons args contribution =>
        obtain ⟨hargs, hcontribution⟩ := split rfl hdistinct
        rw [List.flatMap_cons] at hb hdistinct ⊢
        have htemporary := hb.enterTemporaryScope.2
        have first := each args List.mem_cons_self _
          (htemporary.mono fun m hm => List.mem_append_left _ hm) hargs
        have hmode := (first.declares.admits htemporary hdistinct).enterMetaDeclMode
        have rest := readTrees_scoped (fun c hc => each c (List.mem_cons_of_mem _ hc)) hmode
          hcontribution
        have hread := first.trans (rest.of_declares
          (declares_enterMetaDeclMode first.declares.distinct)).leaveMode
        exact (hread.leaveTemporaryScope hb).node hb fun _ hm => absurd hm List.not_mem_nil
    | metaIfStmt =>
      rw [localDecls_of_kind rfl] at hb hdistinct ⊢
      cases cs with
      | nil =>
        exact (ReadsScoped.nothing hb).node hb fun _ hm => absurd hm List.not_mem_nil
      | cons expression branches =>
        obtain ⟨hexpression, hbranches⟩ := split rfl hdistinct
        rw [List.flatMap_cons] at hb hdistinct ⊢
        have first := each expression List.mem_cons_self _
          (hb.mono fun m hm => List.mem_append_left _ hm).enterMetaComputationMode hexpression
        have hfirst := (first.of_declares
          (declares_enterMetaComputationMode hb.distinct)).leaveMode
        have rest := readTrees_scoped (fun c hc => each c (List.mem_cons_of_mem _ hc))
          (hfirst.declares.admits hb hdistinct) hbranches
        exact (hfirst.trans rest).node hb fun _ hm => hm
    | metaCalculationStmt =>
      rw [localDecls_of_kind rfl] at hb hdistinct ⊢
      have hinplace := hb.enterInplaceScope.2
      have hall := all _ hinplace.enterMetaComputationMode hdistinct
      have hread := (hall.of_declares
        (declares_enterMetaComputationMode hinplace.distinct)).leaveMode
      exact (hread.leaveInplaceScope hb).node hb fun _ hm => hm
    | declRefExpr name =>
      have hlookup : ReadsScoped unit [] b
          (readTree similarTo (.node ⟨id, .declRefExpr name⟩ cs) b).2 [] := by
        refine ⟨?_, fun _ hs => absurd hs List.not_mem_nil⟩
        simp only [readTree]
        split
        · exact declares_lookup hb name
        · exact .of_eq hb.distinct rfl rfl fun a ha _ => ha
      exact hlookup.node hb fun _ hm => absurd hm List.not_mem_nil
    | _ =>
      rw [localDecls_of_kind rfl] at hb hdistinct ⊢
      exact (all b hb hdistinct).node hb fun _ hm => hm

end Trees

/-! ## The top level of a unit -/

/-- The unit is entered on top of the parent scopes, and the nodes are still to be introduced. -/
structure Enters (unit : Node) (parent : ScopeChain) (ns : List Node) (b : BasicASTBuilder) :
    Prop where
  scope : ∃ lookupMap, b.currentScope = .allocated true lookupMap :: parent ∧
    ∀ entry ∈ lookupMap, unit.kind = .compilationUnit ∨ entry.2.kind ≠ .metaDecl
  distinct : b.currentScope.env.Distinct unit
  fresh : ∀ n ∈ ns, (∀ entry ∈ b.currentScope.env, entry.2.id ≠ n.id) ∧
    ∀ exported, b.heap.exportedNode unit.id = some exported → exported.id ≠ n.id

section Units

variable {unit n : Node} {parent : ScopeChain} {ns : List Node} {b : BasicASTBuilder}

variable (unit b) in
/-- What is recorded of a child before it is introduced. -/
theorem recordChild_heap (hn : n.kind.isTopLevelNode = true) :
    (recordChild unit n b).heap.containingUnit =
        Function.update b.heap.containingUnit n.id (some unit) ∧
      ∀ exported, (recordChild unit n b).heap.exportedNode unit.id = some exported →
        b.heap.exportedNode unit.id = some exported ∨
          exported = n ∧ ∃ inst, unit.data = .metaUnit inst ∧ n.name? = some inst.name := by
  unfold recordChild
  rw [if_pos hn]
  cases hdata : unit.data with
  | metaUnit inst =>
    dsimp only
    split
    next hname =>
      refine ⟨rfl, fun exported hexported => ?_⟩
      have hself : (setExportedNode unit.id n (setContainingUnit n.id unit b)).heap.exportedNode
          unit.id = some n := Function.update_self _ _ _
      exact .inr ⟨Option.some.inj (hexported.symm.trans hself), inst, rfl, hname⟩
    next => exact ⟨rfl, fun exported hexported => .inl hexported⟩
  | _ => exact ⟨rfl, fun exported hexported => .inl hexported⟩

/-- Whether a child of a unit may shadow a declaration is decided without a null check that
fails. -/
theorem isAllowedToShadowDecl_child {heap : ASTHeap} (previous : Node)
    (hcontaining : heap.containingUnit n.id = some unit)
    (hdecl : ∀ inst, unit.data = .metaUnit inst → inst.decl.isSome = true) :
    ∃ shadows, isAllowedToShadowDecl heap n previous = .ok shadows ∧
      (shadows = true → previous.kind = .metaDecl ∧ ∃ inst kind exported,
        unit.data = .metaUnit inst ∧ inst.decl = some (previous.id, kind) ∧
          heap.exportedNode unit.id = some exported ∧ exported.id = n.id) := by
  unfold isAllowedToShadowDecl isShadowingDeclFromExportedNode
  by_cases hprevious : previous.kind = .metaDecl
  · by_cases hn : n.kind.isTopLevelNode = true
    · simp only [hprevious, hn, hcontaining, bne_self_eq_false, Bool.not_true, Bool.false_eq_true,
        ↓reduceIte]
      cases hdata : unit.data with
      | metaUnit inst =>
        obtain ⟨⟨decl, kind⟩, hinst⟩ := Option.isSome_iff_exists.1 (hdecl inst hdata)
        simp only [hinst]
        by_cases hid : decl = previous.id
        · subst hid
          simp only [bne_self_eq_false, Bool.false_eq_true, ↓reduceIte]
          refine ⟨_, rfl, fun hany => ⟨trivial, inst, kind, ?_⟩⟩
          obtain ⟨exported, hexported, hsame⟩ := Option.any_eq_true _ _ |>.1 hany
          exact ⟨exported, rfl, hinst, hexported, eq_of_beq hsame⟩
        · simp only [bne_iff_ne.2 hid, ↓reduceIte]
          exact ⟨false, rfl, fun h => by cases h⟩
      | _ => exact ⟨false, rfl, fun h => by cases h⟩
    · simp only [hprevious, hn, bne_self_eq_false, Bool.false_eq_true, ↓reduceIte, Bool.not_false]
      exact ⟨false, rfl, fun h => by cases h⟩
  · simp only [bne_iff_ne.2 hprevious, ↓reduceIte]
    exact ⟨false, rfl, fun h => by cases h⟩

/-- What introducing a child does. -/
structure Introduced (unit n : Node) (parent : ScopeChain) (b b' : BasicASTBuilder) : Prop where
  scope : ∃ lookupMap, b'.currentScope = .allocated true lookupMap :: parent ∧
    ∀ entry ∈ lookupMap, unit.kind = .compilationUnit ∨ entry.2.kind ≠ .metaDecl
  distinct : b'.currentScope.env.Distinct unit
  entries : ∀ entry ∈ b'.currentScope.env, entry ∈ b.currentScope.env ∨ entry.2 = n
  exported : ∀ exported, b'.heap.exportedNode unit.id = some exported →
    b.heap.exportedNode unit.id = some exported ∨ exported = n
  containingUnit : b'.heap.containingUnit =
    Function.update b.heap.containingUnit n.id (some unit)
  asserted : b'.failedAssertions = b.failedAssertions

/-- A child is inserted, or rejected because its name is visible. -/
theorem Enters.introduceChild (h : Enters unit parent (n :: ns) b)
    (hparent : (parent.env.map Prod.fst).Nodup) (hn : n.kind.isTopLevelNode = true)
    (hk : unit.kind = .compilationUnit ∨ n.kind ≠ .metaDecl)
    (hdecl : ∀ inst, unit.data = .metaUnit inst → inst.decl.isSome = true) :
    Introduced unit n parent b (introduceChild unit b n) := by
  obtain ⟨lookupMap, hscope, hmap⟩ := h.scope
  obtain ⟨hfresh, hexportedFresh⟩ := h.fresh n List.mem_cons_self
  obtain ⟨hfailed, hcurrent, -⟩ := recordChild_spec unit n b
  obtain ⟨hcontaining, hexported⟩ := recordChild_heap unit b hn
  have hrecorded (e : Node) (he : (recordChild unit n b).heap.exportedNode unit.id = some e) :
      b.heap.exportedNode unit.id = some e ∨ e = n := (hexported e he).imp id And.left
  -- Nothing is inserted.
  have hkept {b' : BasicASTBuilder} (hscope' : b'.currentScope = b.currentScope)
      (hheap : b'.heap = (recordChild unit n b).heap)
      (hasserted : b'.failedAssertions = b.failedAssertions) : Introduced unit n parent b b' := by
    refine ⟨⟨lookupMap, hscope'.trans hscope, hmap⟩, ?_, fun entry hentry => .inl ?_, ?_, ?_,
      hasserted⟩
    · rw [hscope']
      exact h.distinct
    · rwa [← hscope']
    · rwa [hheap]
    · rwa [hheap]
  rw [introduceChild_eq]
  unfold introduce
  split
  · exact hkept hcurrent rfl hfailed
  next name hname =>
    split
    · exact hkept hcurrent rfl hfailed
    have hrequire : (recordChild unit n b).requireScope = recordChild unit n b := by
      refine if_pos ?_
      rw [isInAnyScope, hcurrent, hscope]
      rfl
    have hlookup : (recordChild unit n b).directLookup name = b.currentScope.env.lookup name := by
      rw [directLookup, hcurrent]
      exact ScopeChain.lookupIdentifier_eq _ _
    have henv : b.currentScope.env = lookupMap ++ parent.env := by
      rw [hscope]
      rfl
    -- The name is inserted where the innermost map has none.
    have hinsert (hnone : lookupMap.lookup name = none)
        (hshadows : ∀ entry ∈ parent.env, entry.1 = name → Shadows unit n entry.2) :
        Introduced unit n parent b ((recordChild unit n b).insert name n) := by
      have hinserted : (recordChild unit n b).insert name n =
          (recordChild unit n b).setScope (.allocated true ((name, n) :: lookupMap) :: parent) := by
        simp only [BasicASTBuilder.insert, hcurrent, hscope, ScopeChain.isInsertable,
          ScopeChain.insert, hnone, require, Option.isNone_none, if_true]
      rw [hinserted]
      refine ⟨⟨_, rfl, List.forall_mem_cons.2 ⟨hk, hmap⟩⟩, ?_, fun entry hentry => ?_, hrecorded,
        hcontaining, hfailed⟩
      · have hdistinct : Environment.Distinct unit (lookupMap ++ parent.env) := henv ▸ h.distinct
        refine List.pairwise_cons.2 ⟨fun entry hentry heq => ?_, hdistinct⟩
        rcases List.mem_append.1 hentry with hentry | hentry
        · have hne := List.lookup_eq_none_iff.1 hnone entry hentry
          exact absurd heq (bne_iff_ne.1 hne)
        · exact hshadows entry hentry heq.symm
      · rcases List.mem_cons.1 hentry with rfl | hentry
        · exact .inr rfl
        · refine .inl ?_
          rw [henv]
          exact hentry
    simp only [hrequire, hlookup]
    cases hprevious : b.currentScope.env.lookup name with
    | none =>
      rw [henv, List.lookup_append, Option.or_eq_none_iff] at hprevious
      refine hinsert hprevious.1 fun entry hentry heq => ?_
      have hne := List.lookup_eq_none_iff.1 hprevious.2 entry hentry
      exact absurd heq.symm (bne_iff_ne.1 hne)
    | some previous =>
      have hmem : (name, previous) ∈ b.currentScope.env := Environment.mem_of_lookup hprevious
      have hself : (recordChild unit n b).heap.containingUnit n.id = some unit := by
        rw [hcontaining, Function.update_self]
      obtain ⟨shadows, hallowed, hshadows⟩ := isAllowedToShadowDecl_child previous hself hdecl
      simp only [hallowed]
      cases shadows with
      | false =>
        have hid : (previous.id != n.id) = true := bne_iff_ne.2 (hfresh _ hmem)
        refine hkept ?_ ?_ ?_ <;> simp only [rejectDecl, require, hid, diagnose, if_true]
        · exact hcurrent
        · exact hfailed
      | true =>
        obtain ⟨hmeta, inst, kind, exported, hdata, hinst, hexp, hsame⟩ := hshadows rfl
        have hname' : n.name? = some inst.name := by
          rcases hexported exported hexp with hbefore | ⟨-, inst', hdata', hname'⟩
          · exact absurd hsame (hexportedFresh exported hbefore)
          · cases hdata.symm.trans hdata'
            exact hname'
        have hnone : lookupMap.lookup name = none := by
          cases hfound : lookupMap.lookup name with
          | none => rfl
          | some found =>
            rw [henv, List.lookup_append, hfound, Option.some_or] at hprevious
            cases hprevious
            rcases hmap _ (Environment.mem_of_lookup hfound) with hunit | hkind
            · rw [Node.kind, hdata] at hunit
              cases hunit
            · exact absurd hmeta hkind
        rw [henv, List.lookup_append, hnone, Option.none_or] at hprevious
        refine hinsert hnone fun entry hentry heq => ?_
        obtain rfl : entry = (name, previous) := List.inj_on_of_nodup_map hparent hentry
          (Environment.mem_of_lookup hprevious) heq
        exact ⟨hmeta, inst, kind, hdata, hinst, hname'⟩

/-- The child was introduced, and the others are still to be. -/
theorem Introduced.enters {b' : BasicASTBuilder} (h : Introduced unit n parent b b')
    (hb : Enters unit parent (n :: ns) b) (hdistinct : ((n :: ns).map Node.id).Nodup) :
    Enters unit parent ns b' := by
  refine ⟨h.scope, h.distinct, fun m hm => ?_⟩
  have hne : n.id ≠ m.id := by
    rintro heq
    rw [List.map_cons, List.nodup_cons] at hdistinct
    exact hdistinct.1 (heq ▸ List.mem_map_of_mem hm)
  obtain ⟨hfresh, hexported⟩ := hb.fresh m (List.mem_cons_of_mem _ hm)
  refine ⟨fun entry hentry => ?_, fun exported he => ?_⟩
  · rcases h.entries entry hentry with hentry | rfl
    · exact hfresh entry hentry
    · exact hne
  · rcases h.exported exported he with he | rfl
    · exact hexported exported he
    · exact hne

/-- What introducing the children of a unit does. -/
structure IntroducedAll (unit : Node) (ns : List Node) (b b' : BasicASTBuilder) : Prop where
  hasMap : b'.currentScope.hasMap = true
  distinct : b'.currentScope.env.Distinct unit
  entries : ∀ entry ∈ b'.currentScope.env, entry ∈ b.currentScope.env ∨ entry.2 ∈ ns
  containingUnit : ∀ n ∈ ns, b'.heap.containingUnit n.id = some unit
  others : ∀ id, (∀ n ∈ ns, n.id ≠ id) → b'.heap.containingUnit id = b.heap.containingUnit id
  asserted : b'.failedAssertions = b.failedAssertions

theorem Enters.introduceChildren (h : Enters unit parent ns b)
    (hparent : (parent.env.map Prod.fst).Nodup) (hns : ∀ n ∈ ns, n.kind.isTopLevelNode = true)
    (hk : ∀ n ∈ ns, unit.kind = .compilationUnit ∨ n.kind ≠ .metaDecl)
    (hdecl : ∀ inst, unit.data = .metaUnit inst → inst.decl.isSome = true)
    (hdistinct : (ns.map Node.id).Nodup) :
    IntroducedAll unit ns b (ns.foldl (ASTLayoutReader.introduceChild unit) b) := by
  induction ns generalizing b with
  | nil =>
    obtain ⟨lookupMap, hscope, -⟩ := h.scope
    refine ⟨?_, h.distinct, fun entry hentry => .inl hentry, fun n hn => absurd hn List.not_mem_nil,
      fun _ _ => rfl, rfl⟩
    rw [List.foldl_nil, hscope]
    rfl
  | cons n ns ih =>
    have first := h.introduceChild hparent (hns n List.mem_cons_self) (hk n List.mem_cons_self)
      hdecl
    have hrest := (List.nodup_cons.1 (List.map_cons ▸ hdistinct)).2
    have rest := ih (first.enters h hdistinct) (fun m hm => hns m (List.mem_cons_of_mem _ hm))
      (fun m hm => hk m (List.mem_cons_of_mem _ hm)) hrest
    refine ⟨rest.hasMap, rest.distinct, fun entry hentry => ?_, fun m hm => ?_, fun id hid => ?_,
      rest.asserted.trans first.asserted⟩
    · rcases rest.entries entry hentry with hentry | hentry
      · rcases first.entries entry hentry with hentry | rfl
        · exact .inl hentry
        · exact .inr List.mem_cons_self
      · exact .inr (List.mem_cons_of_mem _ hentry)
    · rcases List.mem_cons.1 hm with rfl | hm
      · have hkept : ∀ k ∈ ns, k.id ≠ m.id := by
          intro k hk heq
          rw [List.map_cons, List.nodup_cons] at hdistinct
          exact hdistinct.1 (heq ▸ List.mem_map_of_mem hk)
        rw [List.foldl_cons, rest.others m.id hkept, first.containingUnit, Function.update_self]
      · exact rest.containingUnit m hm
    · rw [List.foldl_cons, rest.others id fun m hm => hid m (List.mem_cons_of_mem _ hm),
        first.containingUnit, Function.update_of_ne (hid n List.mem_cons_self).symm]

end Units

/-! ## Units -/

/-- What is known of the tree of a unit that is read on top of the parent scopes: its nodes are
allocated on their own, and none of them is known before. -/
structure IsNewUnit (heap : ASTHeap) (parent : ScopeChain) (unit : Node) (cs : List Tree) :
    Prop where
  children : ∀ c ∈ cs, c.WellShaped ∧ c.kind.isTopLevelNode = true ∧
    (unit.kind = .compilationUnit ∨ c.kind ≠ .metaDecl) ∧ ∀ n ∈ c.labels, n.kind.isUnitNode = false
  instantiation : ∀ inst, unit.data = .metaUnit inst → inst.decl.isSome = true
  distinct : ((cs.flatMap Rose.labels).map Node.id).Nodup
  names : (parent.env.map Prod.fst).Nodup
  fresh : ∀ entry ∈ parent.env, ∀ n ∈ cs.flatMap Rose.labels, entry.2.id ≠ n.id
  exported : heap.exportedNode unit.id = none

/-- What is known of a builder behind a unit that was read. -/
structure UnitIsRead (unit : Node) (cs : List Tree) (parent : ScopeChain) (b b' : BasicASTBuilder)
    (states : List BasicASTBuilder) : Prop where
  visible : ∀ s ∈ states, s.currentScope.env.Distinct unit
  asserted : ∀ a ∈ b'.failedAssertions, a.isModeAssertion = false → a ∈ b.failedAssertions
  containingUnit : ∀ c ∈ cs, b'.heap.containingUnit c.label.id = some unit
  scope : ∃ scope, b'.heap.scope unit.id = some scope ∧ scope.env.Distinct unit ∧
    ∀ entry ∈ scope.env, entry ∈ parent.env ∨ entry.2 ∈ cs.map Rose.label

section Units

variable {unit : Node} {cs : List Tree} {parent : ScopeChain} {b : BasicASTBuilder}
  {similarTo : ScopeChain → Identifier → Option Node}

theorem labels_children (cs : List Tree) :
    (cs.map Rose.label).Sublist (cs.flatMap Rose.labels) := by
  induction cs with
  | nil => exact .slnil
  | cons c cs ih =>
    have hlabel : c.label ∈ c.labels := Rose.label_mem_labels (Rose.mem_subtrees_self c)
    exact (List.singleton_sublist.2 hlabel).append ih

theorem mem_localDecls {t : Tree} {n : Node} (h : n ∈ localDecls t) :
    n ∈ t.labels ∧ n.kind.isTopLevelNode = false := by
  obtain ⟨hn, hk⟩ := List.mem_filter.1 h
  refine ⟨hn, ?_⟩
  rw [Bool.or_eq_true, beq_iff_eq, beq_iff_eq] at hk
  rcases hk with hk | hk
  · rw [hk]
    rfl
  · rw [hk]
    rfl

theorem nodup_localDecls (hdistinct : ((cs.flatMap Rose.labels).map Node.id).Nodup) :
    ((cs.flatMap localDecls).map Node.id).Nodup := by
  refine hdistinct.sublist (List.Sublist.map _ ?_)
  have hfilter : cs.flatMap localDecls = (cs.flatMap Rose.labels).filter
      (fun n => n.kind == .declStmt || n.kind == .namedArgumentDecl) := by
    rw [List.filter_flatMap]
    rfl
  rw [hfilter]
  exact List.filter_sublist

/-- Entering a unit introduces its children, and nothing else is visible. -/
theorem enterUnit_introduces (h : IsNewUnit b.heap parent unit cs)
    (hscope : b.currentScope = []) :
    IntroducedAll unit (cs.map Rose.label) (b.setScope (.allocated true [] :: parent))
      ((cs.map Rose.label).foldl (introduceChild unit)
        (b.setScope (.allocated true [] :: parent))) ∧
    enterUnit parent unit cs b =
      ((cs.map Rose.label).foldl (introduceChild unit)
        (b.setScope (.allocated true [] :: parent))).setUnitScope unit.id
          ((cs.map Rose.label).foldl (introduceChild unit)
            (b.setScope (.allocated true [] :: parent))).currentScope := by
  have henter : b.enterConsistentScope parent = b.setScope (.allocated true [] :: parent) := by
    have hrequire : b.require (!b.isInAnyScope || b.currentScope.isConsistent)
        .consistentScopeOnTemporary = b := if_pos (by rw [isInAnyScope, hscope]; rfl)
    simp only [enterConsistentScope, hrequire]
  have hlabels := labels_children cs
  have henters : Enters unit parent (cs.map Rose.label)
      (b.setScope (.allocated true [] :: parent)) := by
    refine ⟨⟨[], rfl, fun _ hentry => absurd hentry List.not_mem_nil⟩, ?_, fun n hn => ⟨?_, ?_⟩⟩
    · have hnames : parent.env.Pairwise fun e e' => e.1 ≠ e'.1 := List.pairwise_map.1 h.names
      exact hnames.imp fun hne heq => absurd heq hne
    · exact fun entry hentry => h.fresh entry hentry n (hlabels.subset hn)
    · intro exported hexported
      cases h.exported.symm.trans hexported
  have hkinds (n : Node) (hn : n ∈ cs.map Rose.label) : n.kind.isTopLevelNode = true ∧
      (unit.kind = .compilationUnit ∨ n.kind ≠ .metaDecl) := by
    obtain ⟨c, hc, rfl⟩ := List.mem_map.1 hn
    obtain ⟨-, htop, hk, -⟩ := h.children c hc
    exact ⟨htop, hk⟩
  have hdistinct : ((cs.map Rose.label).map Node.id).Nodup :=
    h.distinct.sublist (hlabels.map Node.id)
  refine ⟨henters.introduceChildren h.names (fun n hn => (hkinds n hn).1)
    (fun n hn => (hkinds n hn).2) h.instantiation hdistinct, ?_⟩
  rw [enterUnit, henter, foldl_introduceChild_crawled unit (fun c hc => (h.children c hc).2.1)
    (fun c hc => (h.children c hc).1)]

variable (similarTo) in
/-- Reading a new unit: every name is visible once, and no assertion fails but one on the mode. -/
theorem readUnit_visible (h : IsNewUnit b.heap parent unit cs) (hscope : b.currentScope = []) :
    UnitIsRead unit cs parent b (readTrees similarTo cs (enterUnit parent unit cs b)).2
      (readAllStates similarTo cs (enterUnit parent unit cs b)) := by
  obtain ⟨hintroduced, henter⟩ := enterUnit_introduces h hscope
  obtain ⟨hmap, hdistinct, hentries, hcontaining, -, hasserted⟩ := hintroduced
  have hadmits : Admits unit (cs.flatMap localDecls) (enterUnit parent unit cs b) := by
    rw [henter]
    refine ⟨hmap, hdistinct, fun entry hentry n hn heq => ?_⟩
    obtain ⟨c, hc, hn⟩ := List.mem_flatMap.1 hn
    obtain ⟨hlabel, htop⟩ := mem_localDecls hn
    have hn : n ∈ cs.flatMap Rose.labels := List.mem_flatMap.2 ⟨c, hc, hlabel⟩
    rcases hentries entry hentry with hentry | hentry
    · exact h.fresh entry hentry n hn heq
    · have hsame := List.inj_on_of_nodup_map h.distinct ((labels_children cs).subset hentry) hn heq
      obtain ⟨d, hd, hlabel⟩ := List.mem_map.1 hentry
      have hktop : d.label.kind.isTopLevelNode = true := (h.children d hd).2.1
      rw [hlabel, hsame, htop] at hktop
      cases hktop
  have hread : ReadsScoped unit (cs.flatMap localDecls) (enterUnit parent unit cs b)
      (readTrees similarTo cs (enterUnit parent unit cs b)).2
      (readAllStates similarTo cs (enterUnit parent unit cs b)) :=
    readTrees_scoped (fun c hc b hb hd => readTree_scoped c (h.children c hc).2.2.2 b hb hd) hadmits
      (nodup_localDecls h.distinct)
  refine ⟨hread.visible, fun a ha hmode => ?_, fun c hc => ?_, ?_⟩
  · have hbefore := hread.declares.asserted a ha hmode
    rw [henter] at hbefore
    exact hasserted ▸ hbefore
  · rw [hread.declares.heap, henter]
    exact hcontaining c.label (List.mem_map_of_mem hc)
  · rw [hread.declares.heap, henter]
    exact ⟨_, Function.update_self _ _ _, hdistinct, hentries⟩

end Units

/-! ## One unit after the other -/

/-- An instance of a meta declaration of one of the programs: without meta statements, and with
nodes that were allocated on their own. What an instantiation writes need not fit the productions;
an instance here is one that does. -/
structure IsInstance (units : List Tree) (t : Tree) : Prop where
  wellShaped : t.WellShaped
  runtime : ∀ n ∈ t.labels, n.kind.entersMode = false
  below : ∀ c ∈ t.children, ∀ n ∈ c.labels, n.kind.isUnitNode = false
  distinct : (t.labels.map Node.id).Nodup
  instantiation : ∃ inst, t.label.data = .metaUnit inst ∧ ∃ program ∈ units, program.IsProgram ∧
    ∃ decl ∈ program.children, inst.decl = some (decl.label.id, .metaDecl)

/-- What may be read behind the units: the nodes are not those of the units. -/
structure Follows (units : List Tree) (t : Tree) : Prop where
  unit : t.IsProgram ∨ IsInstance units t
  fresh : ∀ u ∈ units, ∀ m ∈ u.labels, ∀ n ∈ t.labels, m.id ≠ n.id

/-- The heaps that reading units one after the other leaves. The unit that was read last is the
first one of the list. -/
inductive ReadUnits (similarTo : ScopeChain → Identifier → Option Node) :
    List Tree → ASTHeap → Prop
  | nil : ReadUnits similarTo [] .empty
  | cons {units : List Tree} {heap : ASTHeap} {t : Tree} {rest : Layout} {a : AST} {s : State} :
    ReadUnits similarTo units heap → Follows units t →
      consume similarTo (.kind t.kind) ⟨t.encode ++ rest, .start heap⟩ = .ok (a, s) →
        ReadUnits similarTo (t :: units) s.builder.heap

/-- What is known of the units that were read. -/
structure Known (units : List Tree) (heap : ASTHeap) : Prop where
  program : ∀ t ∈ units, t.IsProgram → (∀ c ∈ t.children,
    heap.containingUnit c.label.id = some t.label) ∧ ∃ scope, heap.scope t.label.id = some scope ∧
      (scope.env.map Prod.fst).Nodup ∧ ∀ entry ∈ scope.env, entry.2 ∈ t.labels
  exported : ∀ id, (∀ t ∈ units, ∀ n ∈ t.labels, n.id ≠ id) → heap.exportedNode id = none

section Sequences

variable {units : List Tree} {heap : ASTHeap} {t : Tree}
  {similarTo : ScopeChain → Identifier → Option Node}

/-- What reading one of the units does. -/
structure ReadsUnit (units : List Tree) (t : Tree) (b : BasicASTBuilder)
    (states : List BasicASTBuilder) : Prop where
  visible : ∀ s ∈ states, s.currentScope.env.Distinct t.label
  asserted : b.failedAssertions = []
  known : Known (t :: units) b.heap

/-- The meta declaration is found in the scope of its program. -/
theorem Known.enterMetaUnit (h : Known units heap) {n : Node} {inst : Instantiation}
    (hdata : n.data = .metaUnit inst) {program decl : Tree} (hprogram : program ∈ units)
    (hp : program.IsProgram) (hdecl : decl ∈ program.children)
    (hinst : inst.decl = some (decl.label.id, .metaDecl)) :
    ∃ scope, (scope.env.map Prod.fst).Nodup ∧ (∀ entry ∈ scope.env, entry.2 ∈ program.labels) ∧
      enterMetaUnit n (.start heap) =
        ((BasicASTBuilder.start heap).setContainingUnit n.id program.label, scope) := by
  obtain ⟨hcontaining, scope, hscope, hnames, hentries⟩ := h.program program hprogram hp
  refine ⟨scope, hnames, hentries, ?_⟩
  have hunit := hcontaining decl hdecl
  simp only [ASTLayoutReader.enterMetaUnit, hdata, hinst, require, beq_self_eq_true, if_true,
    BasicASTBuilder.start, hunit, setContainingUnit, hscope]

/-- The fields of the nodes of other units stay. -/
theorem Known.read (h : Known units heap) (ht : Follows units t)
    (hprogram : t.IsProgram → (∀ c ∈ t.children,
      (readTree similarTo t (.start heap)).2.heap.containingUnit c.label.id = some t.label) ∧
        ∃ scope, (readTree similarTo t (.start heap)).2.heap.scope t.label.id = some scope ∧
          (scope.env.map Prod.fst).Nodup ∧ ∀ entry ∈ scope.env, entry.2 ∈ t.labels) :
    Known (t :: units) (readTree similarTo t (.start heap)).2.heap := by
  have hframe : heap.AgreesOff (fun id => ∃ n ∈ t.labels, n.id = id)
      (readTree similarTo t (.start heap)).2.heap :=
    agreesOff_readTree _ similarTo t (fun n hn => ⟨n, hn, rfl⟩) (.start heap)
  refine ⟨fun u hu hp => ?_, fun id hid => ?_⟩
  · rcases List.mem_cons.1 hu with rfl | hu
    · exact hprogram hp
    · obtain ⟨hcontaining, scope, hscope, hentries⟩ := h.program u hu hp
      have hother (m : Node) (hm : m ∈ u.labels) : ¬ ∃ n ∈ t.labels, n.id = m.id := by
        rintro ⟨n, hn, heq⟩
        exact ht.fresh u hu m hm n hn heq.symm
      refine ⟨fun c hc => ?_, scope, ?_, hentries⟩
      · have hlabel : c.label ∈ u.labels := by
          obtain ⟨n, cs⟩ := u
          exact Rose.mem_labels_node.2
            (.inr ⟨c, hc, Rose.label_mem_labels (Rose.mem_subtrees_self c)⟩)
        rw [hframe.containingUnit _ (hother _ hlabel)]
        exact hcontaining c hc
      · rw [hframe.scope _ (hother _ (Rose.label_mem_labels (Rose.mem_subtrees_self u)))]
        exact hscope
  · have hself : ¬ ∃ n ∈ t.labels, n.id = id := by
      rintro ⟨n, hn, heq⟩
      exact hid t List.mem_cons_self n hn heq
    rw [hframe.exportedNode _ hself]
    exact h.exported id fun u hu => hid u (List.mem_cons_of_mem _ hu)

/-- Nothing was exported from a unit that was not read. -/
theorem Known.exportedNode (h : Known units heap) (ht : Follows units t) :
    heap.exportedNode t.label.id = none :=
  h.exported _ fun u hu m hm =>
    ht.fresh u hu m hm _ (Rose.label_mem_labels (Rose.mem_subtrees_self t))

theorem nodup_children {n : Node} {cs : List Tree}
    (h : (((Rose.node n cs : Tree).labels).map Node.id).Nodup) :
    ((cs.flatMap Rose.labels).map Node.id).Nodup := by
  rw [Rose.labels_node, List.map_cons, List.nodup_cons] at h
  exact h.2

/-- Reading a program. -/
theorem Known.readProgram (h : Known units heap) (ht : Follows units t) (hp : t.IsProgram) :
    ReadsUnit units t (readTree similarTo t (.start heap)).2
      (readStates similarTo t (.start heap)) := by
  have hexported := h.exportedNode ht
  have hmodes : ∀ a ∈ (readTree similarTo t (.start heap)).2.failedAssertions,
      a.isModeAssertion = false := (readTree_program_modes hp (.start heap) rfl).asserts
  obtain ⟨⟨id, data⟩, cs⟩ := t
  have hkind : data.kind = .compilationUnit := hp.kind
  cases data with
  | compilationUnit =>
    obtain ⟨hfit, hcs⟩ := Tree.wellShaped_node.1 hp.wellShaped
    have hnew : IsNewUnit heap [] ⟨id, .compilationUnit⟩ cs :=
      { children := fun c hc => ⟨hcs c hc, all_map_kind hfit c hc, .inl rfl,
          Tree.derivedTopLevel_label (hp.topLevel c hc)⟩
        instantiation := fun inst hdata => by cases hdata
        distinct := nodup_children hp.distinct
        names := List.nodup_nil
        fresh := fun _ hentry => absurd hentry List.not_mem_nil
        exported := hexported }
    obtain ⟨hvisible, hasserted, hcontaining, scope, hscope, hdistinct, hentries⟩ :=
      readUnit_visible similarTo (b := .start heap) hnew rfl
    refine ⟨fun s hs => ?_, ?_, h.read ht fun _ => ⟨hcontaining, scope, hscope, ?_, ?_⟩⟩
    · rcases List.mem_cons.1 hs with rfl | hs
      · exact List.Pairwise.nil
      · exact hvisible s hs
    · exact List.eq_nil_iff_forall_not_mem.2 fun a ha => absurd (hasserted a ha (hmodes a ha))
        List.not_mem_nil
    · exact hdistinct.names rfl
    · intro entry hentry
      rcases hentries entry hentry with hentry | hentry
      · exact absurd hentry List.not_mem_nil
      · rw [Rose.labels_node]
        exact List.mem_cons_of_mem _ ((labels_children cs).subset hentry)
  | _ => cases hkind

/-- Reading an instance. -/
theorem Known.readInstance (h : Known units heap) (ht : Follows units t)
    (hi : IsInstance units t) :
    ReadsUnit units t (readTree similarTo t (.start heap)).2
      (readStates similarTo t (.start heap)) := by
  have hexported := h.exportedNode ht
  have hmodes : ∀ a ∈ (readTree similarTo t (.start heap)).2.failedAssertions,
      a.isModeAssertion = false := (readTree_runtime_modes hi.runtime (.start heap)).asserts
  obtain ⟨inst, hdata, program, hprogram, hp, decl, hdecl, hinst⟩ := hi.instantiation
  obtain ⟨⟨id, data⟩, cs⟩ := t
  obtain rfl : data = .metaUnit inst := hdata
  obtain ⟨scope, hnames, hentries, henter⟩ :=
    h.enterMetaUnit (n := ⟨id, .metaUnit inst⟩) rfl hprogram hp hdecl hinst
  let b := (BasicASTBuilder.start heap).setContainingUnit id program.label
  obtain ⟨hfit, hcs⟩ := Tree.wellShaped_node.1 hi.wellShaped
  have hmem {c : Tree} (hc : c ∈ cs) {n : Node} (hn : n ∈ c.labels) :
      n ∈ (Rose.node ⟨id, .metaUnit inst⟩ cs : Tree).labels :=
    Rose.mem_labels_node.2 (.inr ⟨c, hc, hn⟩)
  have hnew : IsNewUnit b.heap scope ⟨id, .metaUnit inst⟩ cs :=
    { children := fun c hc => by
        refine ⟨hcs c hc, all_map_kind hfit c hc, .inr fun hk => ?_, hi.below c hc⟩
        have hmode := hi.runtime _ (hmem hc (Rose.label_mem_labels (Rose.mem_subtrees_self c)))
        have hmeta : c.label.kind = .metaDecl := hk
        rw [hmeta] at hmode
        cases hmode
      instantiation := fun inst' hdata => by
        cases hdata
        rw [hinst]
        rfl
      distinct := nodup_children hi.distinct
      names := hnames
      fresh := fun entry hentry n hn => by
        obtain ⟨c, hc, hn⟩ := List.mem_flatMap.1 hn
        exact ht.fresh program hprogram _ (hentries entry hentry) n (hmem hc hn)
      exported := hexported }
  obtain ⟨hvisible, hasserted, -, -⟩ :=
    readUnit_visible similarTo (b := b) hnew rfl
  have hread : (readTree similarTo (.node ⟨id, .metaUnit inst⟩ cs) (.start heap)).2 =
      (readTrees similarTo cs (enterUnit scope ⟨id, .metaUnit inst⟩ cs b)).2.setScope [] := by
    simp only [readTree, henter]
    rfl
  refine ⟨fun s hs => ?_, ?_, h.read ht fun hp => ?_⟩
  · simp only [readStates, henter] at hs
    rcases List.mem_cons.1 hs with rfl | hs
    · exact List.Pairwise.nil
    · exact hvisible s hs
  · rw [hread] at hmodes ⊢
    exact List.eq_nil_iff_forall_not_mem.2 fun a ha => absurd (hasserted a ha (hmodes a ha))
      List.not_mem_nil
  · cases hp.kind

theorem Known.readUnit (h : Known units heap) (ht : Follows units t) :
    ReadsUnit units t (readTree similarTo t (.start heap)).2
      (readStates similarTo t (.start heap)) := by
  rcases ht.unit with hp | hi
  · exact h.readProgram ht hp
  · exact h.readInstance ht hi

theorem Follows.wellShaped (h : Follows units t) : t.WellShaped := by
  rcases h.unit with hp | hi
  · exact hp.wellShaped
  · exact hi.wellShaped

/-- The reader returns what reading the tree returns. -/
theorem consume_unit (similarTo : ScopeChain → Identifier → Option Node) (hs : t.WellShaped)
    (rest : Layout) (b : BasicASTBuilder) :
    consume similarTo (.kind t.kind) ⟨t.encode ++ rest, b⟩ =
      .ok ((readTree similarTo t b).1, ⟨rest, (readTree similarTo t b).2⟩) :=
  consume_complete similarTo (p := .kind t.kind) ⟨hs, .refl _⟩ rest b

theorem ReadUnits.known (h : ReadUnits similarTo units heap) : Known units heap := by
  induction h with
  | nil => exact ⟨fun _ ht => absurd ht List.not_mem_nil, fun _ _ => rfl⟩
  | @cons units heap t rest a s _ ht hread ih =>
    rw [consume_unit similarTo ht.wellShaped] at hread
    cases hread
    exact (ih.readUnit ht).known

/-- Programs and instances of their meta declarations are read one after the other, in any order.
Then every one of them is read to the end of its layout without a failed assertion, and in every
state on the way each name is visible once, up to what an instance exports: a declaration that has
the name of the meta declaration it was instantiated from. -/
theorem readUnits_visible (h : ReadUnits similarTo units heap) (ht : Follows units t)
    (rest : Layout) : ∃ a b, consume similarTo (.kind t.kind) ⟨t.encode ++ rest, .start heap⟩ =
      .ok (a, ⟨rest, b⟩) ∧ a.shape = t ∧ b.Ok ∧
      ∀ s ∈ readStates similarTo t (.start heap), s.currentScope.env.Distinct t.label := by
  have hread : ReadsUnit units t (readTree similarTo t (.start heap)).2
      (readStates similarTo t (.start heap)) := h.known.readUnit ht
  obtain ⟨hvisible, hasserted, -⟩ := hread
  exact ⟨_, _, consume_unit similarTo ht.wellShaped rest _, readTree_shape t ht.wellShaped _,
    hasserted, hvisible⟩

end Sequences

/-! ## An instance that exports a function -/

namespace ExportedFunction

/-- `f<> -> { f() { } }` -/
def program : Tree :=
  .node ⟨0, .compilationUnit⟩ [.node ⟨1, .metaDecl "f"⟩ [.node ⟨2, .argumentDeclList⟩ [],
    .node ⟨3, .metaContribution⟩ [.node ⟨4, .functionDecl "f"⟩ [.node ⟨5, .argumentDeclList⟩ [],
      .node ⟨6, .compoundStmt⟩ []]]]]

/-- What the meta function of `f` writes. -/
def unit : Tree :=
  .node ⟨7, .metaUnit ⟨20, "f", some (1, .metaDecl)⟩⟩ [.node ⟨8, .functionDecl "f"⟩
    [.node ⟨9, .argumentDeclList⟩ [], .node ⟨10, .compoundStmt⟩ []]]

theorem isProgram : program.IsProgram :=
  ⟨rfl, by decide, by decide, by decide⟩

theorem follows_program : Follows [] program :=
  ⟨.inl isProgram, fun _ hu => absurd hu List.not_mem_nil⟩

theorem follows_unit : Follows [program] unit := by
  refine ⟨.inr ⟨by decide, by decide, by decide, by decide, _, rfl, program, List.mem_cons_self,
    isProgram, _, List.mem_cons_self, rfl⟩, ?_⟩
  decide

end ExportedFunction

open ExportedFunction in
/-- The function and the meta declaration `f` are both visible in the body of the function. -/
theorem readUnits_visible_export : ∃ heap a b,
    consume (fun _ _ => none) (.kind .metaUnit) ⟨unit.encode, .start heap⟩ = .ok (a, ⟨[], b⟩) ∧
      b.Ok ∧ (∀ s ∈ readStates (fun _ _ => none) unit (.start heap),
        s.currentScope.env.Distinct unit.label) ∧
      ∃ s ∈ readStates (fun _ _ => none) unit (.start heap),
        s.currentScope.env.map Prod.fst = ["f", "f"] := by
  have hread := consume_unit (fun _ _ => none) isProgram.wellShaped [] (.start .empty)
  have hunits : ReadUnits (fun _ _ => none) [program] _ := .cons .nil follows_program hread
  obtain ⟨a, b, hunit, -, hok, hvisible⟩ := readUnits_visible hunits follows_unit []
  rw [List.append_nil] at hunit
  exact ⟨_, a, b, hunit, hok, hvisible, by decide⟩

end ASTLayoutReader

end Swy
