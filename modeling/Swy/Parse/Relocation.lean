import Swy.Parse.LayoutGrammar
import Swy.Parse.SourceShape

/-!
# Reading at other addresses

A `Relocation` moves AST objects to other addresses. Reading commutes with it: where the builder,
the heap and the tree are moved, the AST and the heap that come out are moved as well
(`Relates.readTree`). So the addresses of the nodes of a layout never matter, and only the
suggestions in diagnostics may differ.
-/

namespace Swy

open Library

/-- Other addresses for the AST objects and for the instantiations that meta units stem from. -/
structure Relocation where
  move : NodeId → NodeId
  injective : Function.Injective move
  instantiation : NodeId → NodeId

namespace Relocation

variable (ρ : Relocation)

/-! ## What is moved -/

/-- The fields with the addresses in them moved. -/
def data : NodeData → NodeData
  | .metaUnit inst => .metaUnit
    ⟨ρ.instantiation inst.node, inst.name, inst.decl.map fun decl => (ρ.move decl.1, decl.2)⟩
  | d => d

/-- The node at its new address. -/
def node (n : Node) : Node := ⟨ρ.move n.id, ρ.data n.data⟩

/-- The node and what was set on it. -/
def astNode (n : ASTNode) : ASTNode where
  node := ρ.node n.node
  decl := n.decl.map ρ.node
  exportedDecls := n.exportedDecls.map ρ.node

/-- A scope with the nodes in it. -/
def scope : ASTScope → ASTScope
  | .allocated isConsistent lookupMap =>
    .allocated isConsistent (lookupMap.map fun entry => (entry.1, ρ.node entry.2))
  | .inplace listened => .inplace (listened.map ρ.node)

/-- A chain of scopes with the nodes in it. -/
def chain (scopes : ScopeChain) : ScopeChain := scopes.map ρ.scope

theorem data_of_kind {d : NodeData} (h : d.kind ≠ .metaUnit) : ρ.data d = d := by
  cases d with
  | metaUnit inst => exact absurd rfl h
  | _ => rfl

@[simp] theorem kind_data (d : NodeData) : (ρ.data d).kind = d.kind := by
  cases d <;> rfl

@[simp] theorem name?_data (d : NodeData) : (ρ.data d).name? = d.name? := by
  cases d <;> rfl

@[simp] theorem kind_node (n : Node) : (ρ.node n).kind = n.kind := ρ.kind_data n.data

@[simp] theorem name?_node (n : Node) : (ρ.node n).name? = n.name? := ρ.name?_data n.data

@[simp] theorem id_node (n : Node) : (ρ.node n).id = ρ.move n.id := rfl

@[simp] theorem isNodeRequiringReduceMarker_node (n : Node) :
    (ρ.node n).isNodeRequiringReduceMarker = n.isNodeRequiringReduceMarker := by
  rw [Node.isNodeRequiringReduceMarker, kind_node, Node.isNodeRequiringReduceMarker]

theorem id_beq (n m : Node) : ((ρ.node n).id == (ρ.node m).id) = (n.id == m.id) := by
  rw [Bool.eq_iff_iff, beq_iff_eq, beq_iff_eq]
  exact ρ.injective.eq_iff

/-! ## Scopes -/

theorem lookup_map (name : Identifier) (lookupMap : List (Identifier × Node)) :
    (lookupMap.map fun entry => (entry.1, ρ.node entry.2)).lookup name =
      (lookupMap.lookup name).map ρ.node := by
  induction lookupMap with
  | nil => rfl
  | cons entry lookupMap ih =>
    obtain ⟨name', n⟩ := entry
    rw [List.map_cons, List.lookup_cons, List.lookup_cons, ih]
    cases name == name' <;> rfl

@[simp] theorem lookupIdentifier_chain (scopes : ScopeChain) (name : Identifier) :
    (ρ.chain scopes).lookupIdentifier name = (scopes.lookupIdentifier name).map ρ.node := by
  induction scopes with
  | nil => rfl
  | cons s scopes ih =>
    cases s with
    | allocated isConsistent lookupMap =>
      simp only [chain, List.map_cons, scope, ScopeChain.lookupIdentifier, lookup_map] at ih ⊢
      cases lookupMap.lookup name with
      | none => exact ih
      | some n => rfl
    | inplace listened => exact ih

@[simp] theorem isInsertable_chain (scopes : ScopeChain) (name : Identifier) :
    (ρ.chain scopes).isInsertable name = scopes.isInsertable name := by
  induction scopes with
  | nil => rfl
  | cons s scopes ih =>
    cases s with
    | allocated isConsistent lookupMap =>
      simp only [chain, List.map_cons, scope, ScopeChain.isInsertable, lookup_map,
        Option.isNone_map]
    | inplace listened => exact ih

theorem insert_chain (scopes : ScopeChain) (name : Identifier) (n : Node) :
    (ρ.chain scopes).insert name (ρ.node n) = ρ.chain (scopes.insert name n) := by
  induction scopes with
  | nil => rfl
  | cons s scopes ih =>
    cases s with
    | allocated isConsistent lookupMap =>
      simp only [chain, List.map_cons, scope, ScopeChain.insert, lookup_map]
      cases lookupMap.lookup name <;> rfl
    | inplace listened =>
      simp only [chain, List.map_cons, scope, ScopeChain.insert, List.map_append,
        List.map_nil] at ih ⊢
      rw [ih]

@[simp] theorem isConsistent_chain (scopes : ScopeChain) :
    (ρ.chain scopes).isConsistent = scopes.isConsistent := by
  induction scopes with
  | nil => rfl
  | cons s scopes ih =>
    cases s with
    | allocated isConsistent lookupMap => rfl
    | inplace listened => exact ih

@[simp] theorem isEmpty_chain (scopes : ScopeChain) :
    (ρ.chain scopes).isEmpty = scopes.isEmpty := List.isEmpty_map

theorem tail_chain (scopes : ScopeChain) : (ρ.chain scopes).tail = ρ.chain scopes.tail :=
  List.map_tail.symm

theorem listened_chain (scopes : ScopeChain) :
    (ρ.chain scopes).listened = scopes.listened.map ρ.node := by
  cases scopes with
  | nil => rfl
  | cons s scopes => cases s <;> rfl

/-! ## Heaps and builders -/

/-- The second heap is the first one with everything moved. -/
structure RelatesHeap (heap heap' : ASTHeap) : Prop where
  containingUnit : ∀ id, heap'.containingUnit (ρ.move id) = (heap.containingUnit id).map ρ.node
  scope : ∀ id, heap'.scope (ρ.move id) = (heap.scope id).map ρ.chain
  exportedNode : ∀ id, heap'.exportedNode (ρ.move id) = (heap.exportedNode id).map ρ.node

/-- The second builder is the first one with everything moved, up to diagnostics. -/
structure Relates (b b' : BasicASTBuilder) : Prop where
  currentScope : b'.currentScope = ρ.chain b.currentScope
  metaDeclMode : b'.metaDeclMode = b.metaDeclMode
  heap : ρ.RelatesHeap b.heap b'.heap
  failedAssertions : b'.failedAssertions = b.failedAssertions

theorem update_move {α : Type} {f f' : NodeId → Option α} {g : α → α}
    (h : ∀ id, f' (ρ.move id) = (f id).map g) (id : NodeId) (x : α) (id' : NodeId) :
    Function.update f' (ρ.move id) (some (g x)) (ρ.move id') =
      (Function.update f id (some x) id').map g := by
  by_cases hid : id' = id
  · rw [hid, Function.update_self, Function.update_self, Option.map_some]
  · rw [Function.update_of_ne (ρ.injective.ne hid), Function.update_of_ne hid, h]

theorem RelatesHeap.empty : ρ.RelatesHeap .empty .empty :=
  ⟨fun _ => rfl, fun _ => rfl, fun _ => rfl⟩

namespace Relates

open BasicASTBuilder

variable {ρ} {b b' : BasicASTBuilder}

/-- Builders start without scopes and modes. -/
theorem start {heap heap' : ASTHeap} (h : ρ.RelatesHeap heap heap') :
    ρ.Relates (.start heap) (.start heap') := ⟨rfl, rfl, h, rfl⟩

theorem fail (h : ρ.Relates b b') (a : BuilderAssertion) : ρ.Relates (b.fail a) (b'.fail a) :=
  { h with failedAssertions := congrArg (· ++ [a]) h.failedAssertions }

theorem require (h : ρ.Relates b b') {c c' : Bool} (hc : c' = c) (a : BuilderAssertion) :
    ρ.Relates (b.require c a) (b'.require c' a) := by
  subst hc
  cases c' with
  | true => exact h
  | false => exact h.fail a

theorem diagnose (h : ρ.Relates b b') (d d' : Diagnostic) :
    ρ.Relates (b.diagnose d) (b'.diagnose d') := { h with }

theorem setScope (h : ρ.Relates b b') (scopes : ScopeChain) :
    ρ.Relates (b.setScope scopes) (b'.setScope (ρ.chain scopes)) := { h with currentScope := rfl }

theorem isInAnyScope (h : ρ.Relates b b') : b'.isInAnyScope = b.isInAnyScope := by
  rw [BasicASTBuilder.isInAnyScope, h.currentScope, isEmpty_chain, BasicASTBuilder.isInAnyScope]

theorem requireScope (h : ρ.Relates b b') : ρ.Relates b.requireScope b'.requireScope :=
  h.require h.isInAnyScope .emptyScope

theorem setScope_cons (h : ρ.Relates b b') (s : ASTScope) :
    ρ.Relates (b.setScope (s :: b.currentScope)) (b'.setScope (ρ.scope s :: b'.currentScope)) := by
  rw [h.currentScope]
  exact h.setScope (s :: b.currentScope)

theorem enterTemporaryScope (h : ρ.Relates b b') :
    ρ.Relates b.enterTemporaryScope b'.enterTemporaryScope :=
  h.requireScope.setScope_cons (.allocated false [])

theorem enterConsistentScope (h : ρ.Relates b b') (parent : ScopeChain) :
    ρ.Relates (b.enterConsistentScope parent) (b'.enterConsistentScope (ρ.chain parent)) := by
  have hc : (!b'.isInAnyScope || b'.currentScope.isConsistent) =
      (!b.isInAnyScope || b.currentScope.isConsistent) := by
    rw [h.isInAnyScope, h.currentScope, isConsistent_chain]
  exact (h.require hc _).setScope (.allocated true [] :: parent)

theorem enterInplaceScope (h : ρ.Relates b b') :
    ρ.Relates b.enterInplaceScope b'.enterInplaceScope :=
  h.requireScope.setScope_cons (.inplace [])

theorem leaveScope (h : ρ.Relates b b') : ρ.Relates b.leaveScope b'.leaveScope := by
  unfold BasicASTBuilder.leaveScope
  rw [h.currentScope, tail_chain]
  exact h.setScope _

theorem currentMode (h : ρ.Relates b b') : b'.currentMode = b.currentMode := by
  rw [BasicASTBuilder.currentMode, h.metaDeclMode, BasicASTBuilder.currentMode]

theorem isInMetaDeclMode (h : ρ.Relates b b') : b'.isInMetaDeclMode = b.isInMetaDeclMode := by
  rw [BasicASTBuilder.isInMetaDeclMode, h.currentMode, BasicASTBuilder.isInMetaDeclMode]

theorem enterMode (h : ρ.Relates b b') (mode : MetaDepthLevel) :
    ρ.Relates { b with metaDeclMode := mode :: b.metaDeclMode }
      { b' with metaDeclMode := mode :: b'.metaDeclMode } :=
  { h with metaDeclMode := congrArg (mode :: ·) h.metaDeclMode }

theorem enterMetaDeclMode (h : ρ.Relates b b') :
    ρ.Relates b.enterMetaDeclMode b'.enterMetaDeclMode :=
  (h.require (by rw [h.currentMode]) _).enterMode .insideMetaDecl

theorem enterMetaComputationMode (h : ρ.Relates b b') :
    ρ.Relates b.enterMetaComputationMode b'.enterMetaComputationMode :=
  (h.require (by rw [h.currentMode]) _).enterMode .insideComputation

theorem leaveMode (h : ρ.Relates b b') : ρ.Relates b.leaveMode b'.leaveMode :=
  { h with metaDeclMode := congrArg List.tail h.metaDeclMode }

theorem setContainingUnit (h : ρ.Relates b b') (id : NodeId) (unit : Node) :
    ρ.Relates (b.setContainingUnit id unit)
      (b'.setContainingUnit (ρ.move id) (ρ.node unit)) :=
  { h with heap := { h.heap with
    containingUnit := ρ.update_move h.heap.containingUnit id unit } }

theorem setUnitScope (h : ρ.Relates b b') (id : NodeId) (scopes : ScopeChain) :
    ρ.Relates (b.setUnitScope id scopes) (b'.setUnitScope (ρ.move id) (ρ.chain scopes)) :=
  { h with heap := { h.heap with scope := ρ.update_move h.heap.scope id scopes } }

theorem setExportedNode (h : ρ.Relates b b') (id : NodeId) (decl : Node) :
    ρ.Relates (b.setExportedNode id decl) (b'.setExportedNode (ρ.move id) (ρ.node decl)) :=
  { h with heap := { h.heap with exportedNode := ρ.update_move h.heap.exportedNode id decl } }

/-! ## Names -/

theorem directLookup (h : ρ.Relates b b') (name : Identifier) :
    b'.directLookup name = (b.directLookup name).map ρ.node := by
  rw [BasicASTBuilder.directLookup, h.currentScope, lookupIdentifier_chain,
    BasicASTBuilder.directLookup]

theorem lookup (h : ρ.Relates b b') (similarTo : ScopeChain → Identifier → Option Node)
    (name : Identifier) :
    (b'.lookup similarTo name).1 = (b.lookup similarTo name).1.map ρ.node ∧
      ρ.Relates (b.lookup similarTo name).2 (b'.lookup similarTo name).2 := by
  have hscope := h.requireScope
  have hlookup := hscope.directLookup name
  unfold BasicASTBuilder.lookup
  dsimp only
  cases hdecl : b.requireScope.directLookup name with
  | some decl =>
    rw [hdecl] at hlookup
    rw [hlookup]
    exact ⟨rfl, hscope⟩
  | none =>
    rw [hdecl] at hlookup
    rw [hlookup]
    have hunknown := hscope.diagnose (.errorDeclarationUnknown name) (.errorDeclarationUnknown name)
    -- The suggestions may differ, but they are diagnostics only.
    dsimp only [Option.map_none]
    split <;> split <;> exact ⟨rfl, { hunknown with }⟩

theorem insert (h : ρ.Relates b b') (name : Identifier) (n : Node) :
    ρ.Relates (b.insert name n) (b'.insert name (ρ.node n)) := by
  have hc : b'.currentScope.isInsertable name = b.currentScope.isInsertable name := by
    rw [h.currentScope, isInsertable_chain]
  have hrequire := h.require hc .entryExists
  unfold BasicASTBuilder.insert
  dsimp only
  rw [hrequire.currentScope, insert_chain]
  exact hrequire.setScope _

theorem rejectDecl (h : ρ.Relates b b') (name : Identifier) (n previous : Node) :
    ρ.Relates (b.rejectDecl name n previous)
      (b'.rejectDecl name (ρ.node n) (ρ.node previous)) := by
  have hc : ((ρ.node previous).id != (ρ.node n).id) = (previous.id != n.id) :=
    congrArg not (ρ.id_beq previous n)
  exact ((h.require hc _).diagnose _ _).diagnose _ _

end Relates

/-- Moving the nodes does not change which one may be shadowed. -/
theorem RelatesHeap.isAllowedToShadowDecl {ρ : Relocation} {heap heap' : ASTHeap}
    (h : ρ.RelatesHeap heap heap') (current previous : Node) :
    BasicASTBuilder.isAllowedToShadowDecl heap' (ρ.node current) (ρ.node previous) =
      BasicASTBuilder.isAllowedToShadowDecl heap current previous := by
  unfold BasicASTBuilder.isAllowedToShadowDecl BasicASTBuilder.isShadowingDeclFromExportedNode
  rw [kind_node, kind_node, id_node, h.containingUnit]
  by_cases hprevious : (previous.kind != .metaDecl) = true
  · rw [if_pos hprevious, if_pos hprevious]
  rw [if_neg hprevious, if_neg hprevious]
  by_cases hcurrent : (!current.kind.isTopLevelNode) = true
  · rw [if_pos hcurrent, if_pos hcurrent]
  rw [if_neg hcurrent, if_neg hcurrent]
  cases heap.containingUnit current.id with
  | none => rfl
  | some unit =>
    obtain ⟨id, data⟩ := unit
    cases data with
    | metaUnit inst =>
      obtain ⟨instNode, name, decl⟩ := inst
      cases decl with
      | none => rfl
      | some decl =>
        have hdecl : (ρ.move decl.1 != ρ.move previous.id) = (decl.1 != previous.id) := by
          rw [bne, bne, Bool.eq_iff_iff, Bool.not_eq_true', Bool.not_eq_true', beq_eq_false_iff_ne,
            beq_eq_false_iff_ne]
          exact ρ.injective.ne_iff
        simp only [Option.map_some, node, data, hdecl, h.exportedNode]
        cases heap.exportedNode id with
        | none => rfl
        | some exporting =>
          simp only [Option.map_some, Option.any_some]
          rw [show ((ρ.node exporting).id == ρ.move current.id) = (exporting.id == current.id) from
            ρ.id_beq exporting current]
    | _ => rfl

namespace Relates

open BasicASTBuilder

variable {ρ} {b b' : BasicASTBuilder}

theorem introduce (h : ρ.Relates b b') (n : Node) :
    ρ.Relates (b.introduce n) (b'.introduce (ρ.node n)) := by
  unfold BasicASTBuilder.introduce
  rw [name?_node]
  cases n.name? with
  | none => exact h
  | some name =>
    dsimp only
    have hallowed : b'.isAllowedToIntroduceDecls = b.isAllowedToIntroduceDecls :=
      congrArg not h.isInMetaDeclMode
    rw [hallowed]
    by_cases hmode : (!b.isAllowedToIntroduceDecls) = true
    · rw [if_pos hmode, if_pos hmode]
      exact h
    rw [if_neg hmode, if_neg hmode]
    have hscope := h.requireScope
    rw [hscope.directLookup name]
    cases b.requireScope.directLookup name with
    | none => exact hscope.insert name n
    | some previous =>
      dsimp only [Option.map_some]
      rw [hscope.heap.isAllowedToShadowDecl n previous]
      cases isAllowedToShadowDecl b.requireScope.heap n previous with
      | error a => exact (hscope.fail a).rejectDecl name n previous
      | ok allowed =>
        cases allowed with
        | true => exact hscope.insert name n
        | false => exact hscope.rejectDecl name n previous

end Relates

/-! ## Reading -/

section Reading

open ASTLayoutReader

variable {ρ : Relocation} {b b' : BasicASTBuilder}

theorem Relates.introduceChild (h : ρ.Relates b b') (parent child : Node) :
    ρ.Relates (introduceChild parent b child)
      (introduceChild (ρ.node parent) b' (ρ.node child)) := by
  unfold ASTLayoutReader.introduceChild
  dsimp only
  rw [kind_node, name?_node]
  have hunit : ρ.Relates
      (if child.kind.isTopLevelNode then b.setContainingUnit child.id parent else b)
      (if child.kind.isTopLevelNode then b'.setContainingUnit (ρ.node child).id (ρ.node parent)
        else b') := by
    by_cases hk : child.kind.isTopLevelNode = true
    · rw [if_pos hk, if_pos hk]
      exact h.setContainingUnit child.id parent
    · rw [if_neg hk, if_neg hk]
      exact h
  cases child.name? with
  | none => exact hunit
  | some name =>
    obtain ⟨id, data⟩ := parent
    cases data with
    | metaUnit inst =>
      by_cases hname : name = inst.name
      · simp only [node, data, if_pos hname]
        exact (hunit.setExportedNode id child).introduce child
      · simp only [node, data, if_neg hname]
        exact hunit.introduce child
    | _ => exact hunit.introduce child

theorem Relates.introduceChildren (h : ρ.Relates b b') (parent : Node) (children : List Node) :
    ρ.Relates (children.foldl (ASTLayoutReader.introduceChild parent) b)
      ((children.map ρ.node).foldl (ASTLayoutReader.introduceChild (ρ.node parent)) b') := by
  induction children generalizing b b' with
  | nil => exact h
  | cons child children ih => exact ih (h.introduceChild parent child)

/-- The crawl hands over the moved nodes. -/
theorem crawled_map (cs : List Tree) :
    crawled (cs.map (Rose.map ρ.node)) = (crawled cs).map ρ.node := by
  have tree : ∀ t : Tree, (t.map ρ.node).unframed Node.isNodeRequiringReduceMarker =
      (t.unframed Node.isNodeRequiringReduceMarker).map ρ.node := by
    intro t
    induction t using Rose.ind with
    | h n cs ih =>
      rw [Rose.map_node, Rose.unframed, Rose.unframed, isNodeRequiringReduceMarker_node]
      by_cases hm : n.isNodeRequiringReduceMarker = true
      · rw [if_pos hm, if_pos hm]
        rfl
      · rw [if_neg hm, if_neg hm, List.map_cons, Rose.unframedAll_eq, Rose.unframedAll_eq,
          List.flatMap_map, List.map_flatMap]
        exact congrArg _ (List.flatMap_congr ih)
  rw [crawled, crawled, Rose.unframedAll_eq, Rose.unframedAll_eq, List.flatMap_map,
    List.map_flatMap]
  exact List.flatMap_congr fun t _ => tree t

theorem Relates.enterUnit (h : ρ.Relates b b') (parent : ScopeChain) (n : Node) (cs : List Tree) :
    ρ.Relates (enterUnit parent n cs b)
      (enterUnit (ρ.chain parent) (ρ.node n) (cs.map (Rose.map ρ.node)) b') := by
  have hchildren := (h.enterConsistentScope parent).introduceChildren n (crawled cs)
  unfold ASTLayoutReader.enterUnit
  dsimp only
  rw [crawled_map, hchildren.currentScope]
  exact hchildren.setUnitScope n.id _

theorem Relates.enterMetaUnit (h : ρ.Relates b b') (n : Node) :
    ρ.Relates (enterMetaUnit n b).1 (enterMetaUnit (ρ.node n) b').1 ∧
      (enterMetaUnit (ρ.node n) b').2 = ρ.chain (enterMetaUnit n b).2 := by
  obtain ⟨id, data⟩ := n
  cases data with
  | metaUnit inst =>
    obtain ⟨instNode, name, decl⟩ := inst
    cases decl with
    | none => exact ⟨h.fail _, rfl⟩
    | some decl =>
      obtain ⟨decl, kind⟩ := decl
      have hrequire := h.require (c := kind == .metaDecl) rfl .instantiationOfNonMetaDecl
      have hunit := hrequire.heap.containingUnit decl
      unfold ASTLayoutReader.enterMetaUnit
      simp only [node, data, Option.map_some]
      rw [hunit]
      cases
        (b.require (kind == .metaDecl) .instantiationOfNonMetaDecl).heap.containingUnit decl with
      | none => exact ⟨hrequire.fail _, rfl⟩
      | some unit =>
        have hset := hrequire.setContainingUnit id unit
        have hscope := hset.heap.scope unit.id
        dsimp only [Option.map_some]
        rw [show (ρ.node unit).id = ρ.move unit.id from rfl, hscope]
        cases (BasicASTBuilder.setContainingUnit id unit
          (b.require (kind == .metaDecl) .instantiationOfNonMetaDecl)).heap.scope unit.id with
        | none => exact ⟨hset.fail _, rfl⟩
        | some scopes => exact ⟨hset, rfl⟩
  | _ => exact ⟨h, rfl⟩

variable (similarTo : ScopeChain → Identifier → Option Node)

/-- Reading the tree reads it in the same way where it is moved. -/
def ReadsRelocated (ρ : Relocation) (t : Tree) : Prop :=
  ∀ b b', ρ.Relates b b' →
    (readTree similarTo (t.map ρ.node) b').1 = (readTree similarTo t b).1.map ρ.astNode ∧
      ρ.Relates (readTree similarTo t b).2 (readTree similarTo (t.map ρ.node) b').2

variable {similarTo}

theorem readTrees_relocated {cs : List Tree} (hcs : ∀ c ∈ cs, ReadsRelocated similarTo ρ c)
    (h : ρ.Relates b b') :
    (readTrees similarTo (cs.map (Rose.map ρ.node)) b').1 =
        (readTrees similarTo cs b).1.map (Rose.map ρ.astNode) ∧
      ρ.Relates (readTrees similarTo cs b).2
        (readTrees similarTo (cs.map (Rose.map ρ.node)) b').2 := by
  induction cs generalizing b b' with
  | nil => exact ⟨rfl, h⟩
  | cons c cs ih =>
    obtain ⟨hast, hrelates⟩ := hcs c List.mem_cons_self b b' h
    obtain ⟨hasts, hrest⟩ := ih (fun d hd => hcs d (List.mem_cons_of_mem _ hd)) hrelates
    simp only [readTrees, List.map_cons]
    exact ⟨by rw [hast, hasts], hrest⟩

theorem ast_node (n : ASTNode) {children children' : List AST}
    (h : children' = children.map (Rose.map ρ.astNode)) :
    Rose.node (ρ.astNode n) children' = (Rose.node n children).map ρ.astNode := by
  rw [Rose.map_node, h]

variable (similarTo) in
/-- Reading commutes with a relocation. -/
theorem readsRelocated (t : Tree) : ReadsRelocated similarTo ρ t := by
  induction t using Rose.ind with
  | h n cs ih =>
    intro b b' h
    have all {b b'} (h : ρ.Relates b b') := readTrees_relocated ih h
    obtain ⟨id, data⟩ := n
    have root {children children' : List AST} (h : children' = children.map (Rose.map ρ.astNode)) :=
      ast_node { node := ⟨id, data⟩ } h
    rw [Rose.map_node]
    cases data with
    | compilationUnit =>
      obtain ⟨hasts, hrelates⟩ := all (h.enterUnit [] ⟨id, .compilationUnit⟩ cs)
      have hscope := hrelates.setScope b.currentScope
      rw [← h.currentScope] at hscope
      exact ⟨root hasts, hscope⟩
    | metaUnit inst =>
      obtain ⟨hentered, hparent⟩ := h.enterMetaUnit ⟨id, .metaUnit inst⟩
      have hunit := hentered.enterUnit (ASTLayoutReader.enterMetaUnit ⟨id, .metaUnit inst⟩ b).2
        ⟨id, .metaUnit inst⟩ cs
      rw [← hparent] at hunit
      obtain ⟨hasts, hrelates⟩ := all hunit
      have hscope := hrelates.setScope
        (ASTLayoutReader.enterMetaUnit ⟨id, .metaUnit inst⟩ b).1.currentScope
      rw [← hentered.currentScope] at hscope
      exact ⟨root hasts, hscope⟩
    | functionDecl name | compoundStmt =>
      obtain ⟨hasts, hrelates⟩ := all h.enterTemporaryScope
      exact ⟨root hasts, hrelates.leaveScope⟩
    | namedArgumentDecl name => exact ⟨root rfl, h.introduce ⟨id, .namedArgumentDecl name⟩⟩
    | metaDecl name =>
      cases cs with
      | nil => exact ⟨root rfl, h⟩
      | cons args contribution =>
        obtain ⟨hargs, hrelates⟩ := ih args List.mem_cons_self _ _ h.enterTemporaryScope
        obtain ⟨hasts, hrest⟩ := readTrees_relocated
          (fun c hc => ih c (List.mem_cons_of_mem _ hc)) hrelates.enterMetaDeclMode
        refine ⟨root ?_, hrest.leaveMode.leaveScope⟩
        rw [List.map_cons, ← hargs, ← hasts]
    | declStmt name =>
      obtain ⟨hasts, hrelates⟩ := all h
      exact ⟨root hasts, hrelates.introduce ⟨id, .declStmt name⟩⟩
    | metaIfStmt =>
      cases cs with
      | nil => exact ⟨root rfl, h⟩
      | cons expression branches =>
        obtain ⟨hexpression, hrelates⟩ :=
          ih expression List.mem_cons_self _ _ h.enterMetaComputationMode
        obtain ⟨hasts, hrest⟩ := readTrees_relocated
          (fun c hc => ih c (List.mem_cons_of_mem _ hc)) hrelates.leaveMode
        refine ⟨root ?_, hrest⟩
        rw [List.map_cons, ← hexpression, ← hasts]
    | metaCalculationStmt =>
      obtain ⟨hasts, hrelates⟩ := all h.enterInplaceScope.enterMetaComputationMode
      have hleft := hrelates.leaveMode
      refine ⟨?_, hleft.leaveScope⟩
      have hlistened := congrArg ScopeChain.listened hleft.currentScope
      rw [listened_chain] at hlistened
      simp only [ASTLayoutReader.readTree, node, data]
      rw [hlistened]
      exact ast_node ⟨⟨id, .metaCalculationStmt⟩, none, _⟩ hasts
    | declRefExpr name =>
      have hallowed : b'.isAllowedToResolveDecls = b.isAllowedToResolveDecls :=
        congrArg not h.isInMetaDeclMode
      simp only [ASTLayoutReader.readTree, node, data, hallowed]
      by_cases hmode : b.isAllowedToResolveDecls = true
      · rw [if_pos hmode, if_pos hmode]
        obtain ⟨hdecl, hrelates⟩ := h.lookup similarTo name
        refine ⟨?_, hrelates⟩
        rw [hdecl]
        exact ast_node ⟨⟨id, .declRefExpr name⟩, _, []⟩ rfl
      · rw [if_neg hmode, if_neg hmode]
        exact ⟨root rfl, h⟩
    | _ =>
      obtain ⟨hasts, hrelates⟩ := all h
      exact ⟨root hasts, hrelates⟩

/-- The encoding of a moved tree is the moved encoding. -/
theorem encode_map (t : Tree) :
    Tree.encode (t.map ρ.node) = (Tree.encode t).map (Option.map ρ.node) := by
  have hmarks : (fun n => (ρ.node n).isNodeRequiringReduceMarker) =
      Node.isNodeRequiringReduceMarker := funext ρ.isNodeRequiringReduceMarker_node
  have hmap := Rose.encode_map ρ.node Node.isNodeRequiringReduceMarker t
  rwa [hmarks] at hmap

theorem reads_map {p : Production} {t : Tree} : p.Reads (t.map ρ.node) ↔ p.Reads t := by
  have hkind : Tree.kind (t.map ρ.node) = t.kind := Tree.kind_map ρ.kind_node t
  refine and_congr (Tree.wellShaped_map ρ.kind_node t) ?_
  cases p with
  | kind k => exact iff_of_eq (congrArg (readsKind k) hkind)
  | any => exact Iff.rfl
  | stmt => exact iff_of_eq (congrArg (ASTKind.isStmtNode · = true) hkind)
  | expr => exact iff_of_eq (congrArg (ASTKind.isExprNode · = true) hkind)

variable (similarTo) in
/-- A layout that is read is read at other addresses as well, with the AST at these addresses. -/
theorem Relates.consume (h : ρ.Relates b b') {p : Production} {layout rest : Layout} {a : AST}
    {r : BasicASTBuilder} (hread : consume similarTo p ⟨layout, b⟩ = .ok (a, ⟨rest, r⟩)) :
    ∃ r', ASTLayoutReader.consume similarTo p ⟨layout.map (Option.map ρ.node), b'⟩ =
        .ok (a.map ρ.astNode, ⟨rest.map (Option.map ρ.node), r'⟩) ∧ ρ.Relates r r' := by
  obtain ⟨hreads, hlayout, hast⟩ := consume_eq_readTree hread
  obtain rfl : layout = a.shape.encode ++ rest := hlayout
  obtain ⟨ha, hr⟩ := readsRelocated similarTo a.shape b b' h
  rw [hast] at ha hr
  refine ⟨_, ?_, hr⟩
  rw [List.map_append, ← encode_map, consume_complete similarTo (reads_map.2 hreads), ha]

/-- A layout that is read at other addresses is read. -/
theorem exists_consume {p : Production} {layout : Layout} {a : AST} {s : State}
    (hread : ASTLayoutReader.consume similarTo p ⟨layout.map (Option.map ρ.node), b'⟩ = .ok (a, s))
    (b : BasicASTBuilder) :
    ∃ a₀ s₀, ASTLayoutReader.consume similarTo p ⟨layout, b⟩ = .ok (a₀, s₀) := by
  obtain ⟨hreads, hlayout, -⟩ := consume_eq_readTree hread
  obtain ⟨l, rest, rfl, hl, -⟩ := List.map_eq_append_iff.1 hlayout
  obtain ⟨t, ht, hmap⟩ := Rose.relabels ρ.node Node.isNodeRequiringReduceMarker a.shape l hl
  have hframed : (fun n => (ρ.node n).isNodeRequiringReduceMarker) =
      Node.isNodeRequiringReduceMarker := funext ρ.isNodeRequiringReduceMarker_node
  rw [hframed] at ht
  rw [← hmap, reads_map] at hreads
  obtain rfl : Tree.encode t = l := ht
  exact ⟨_, _, consume_complete similarTo hreads rest b⟩

end Reading

end Relocation

end Swy
