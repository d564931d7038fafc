import Swy.Parse.LayoutGrammar

/-!
# What reading writes

Reading a tree writes fields of the nodes of the tree only: whatever the names in it are and
whatever is found in the scopes, the heap is as before at every other address
(`agreesOff_readTree`).
-/

namespace Swy

open Library

/-- The heaps agree at the addresses that were not written. -/
structure ASTHeap.AgreesOff (written : NodeId → Prop) (heap heap' : ASTHeap) : Prop where
  containingUnit : ∀ id, ¬ written id → heap'.containingUnit id = heap.containingUnit id
  scope : ∀ id, ¬ written id → heap'.scope id = heap.scope id
  exportedNode : ∀ id, ¬ written id → heap'.exportedNode id = heap.exportedNode id

namespace ASTHeap.AgreesOff

variable {written : NodeId → Prop} {heap heap' heap'' : ASTHeap}

theorem refl (heap : ASTHeap) : heap.AgreesOff written heap :=
  ⟨fun _ _ => rfl, fun _ _ => rfl, fun _ _ => rfl⟩

theorem trans (h : heap.AgreesOff written heap') (h' : heap'.AgreesOff written heap'') :
    heap.AgreesOff written heap'' where
  containingUnit id hid := (h'.containingUnit id hid).trans (h.containingUnit id hid)
  scope id hid := (h'.scope id hid).trans (h.scope id hid)
  exportedNode id hid := (h'.exportedNode id hid).trans (h.exportedNode id hid)

theorem of_eq (h : heap' = heap) : heap.AgreesOff written heap' := by
  rw [h]
  exact refl heap

end ASTHeap.AgreesOff

/-- A field that is set keeps its value at the other addresses. -/
theorem update_of_not {α : Type} {written : NodeId → Prop} {id id' : NodeId} (hid : written id)
    (hid' : ¬ written id') (f : NodeId → α) (x : α) : Function.update f id x id' = f id' := by
  apply Function.update_of_ne
  rintro rfl
  exact hid' hid

namespace BasicASTBuilder

variable (b : BasicASTBuilder)

/-! ## What leaves the heap alone -/

@[simp] theorem heap_require (c : Bool) (a : BuilderAssertion) : (b.require c a).heap = b.heap := by
  cases c <;> rfl

@[simp] theorem heap_requireScope : b.requireScope.heap = b.heap := b.heap_require _ _

@[simp] theorem heap_enterTemporaryScope : b.enterTemporaryScope.heap = b.heap :=
  b.heap_requireScope

@[simp] theorem heap_enterConsistentScope (parent : ScopeChain) :
    (b.enterConsistentScope parent).heap = b.heap := b.heap_require _ _

@[simp] theorem heap_enterInplaceScope : b.enterInplaceScope.heap = b.heap := b.heap_requireScope

@[simp] theorem heap_enterMetaDeclMode : b.enterMetaDeclMode.heap = b.heap := b.heap_require _ _

@[simp] theorem heap_enterMetaComputationMode : b.enterMetaComputationMode.heap = b.heap :=
  b.heap_require _ _

@[simp] theorem heap_insert (name : Identifier) (n : Node) : (b.insert name n).heap = b.heap :=
  b.heap_require _ _

@[simp] theorem heap_rejectDecl (name : Identifier) (n previous : Node) :
    (b.rejectDecl name n previous).heap = b.heap := b.heap_require _ _

@[simp] theorem heap_introduce (n : Node) : (b.introduce n).heap = b.heap := by
  unfold introduce
  split
  · rfl
  · dsimp only
    split
    · rfl
    · split
      · simp
      · split
        · simp
        · simp
        · exact (heap_rejectDecl _ _ _ _).trans b.heap_requireScope

@[simp] theorem heap_lookup (similarTo : ScopeChain → Identifier → Option Node)
    (name : Identifier) : (b.lookup similarTo name).2.heap = b.heap := by
  unfold lookup
  dsimp only
  split
  · exact b.heap_requireScope
  · split <;> exact b.heap_requireScope

/-! ## What writes it -/

variable {b} {written : NodeId → Prop} {id : NodeId}

theorem agreesOff_setContainingUnit (hid : written id) (unit : Node) :
    b.heap.AgreesOff written (b.setContainingUnit id unit).heap where
  containingUnit _ hid' := update_of_not hid hid' _ _
  scope _ _ := rfl
  exportedNode _ _ := rfl

theorem agreesOff_setUnitScope (hid : written id) (scope : ScopeChain) :
    b.heap.AgreesOff written (b.setUnitScope id scope).heap where
  containingUnit _ _ := rfl
  scope _ hid' := update_of_not hid hid' _ _
  exportedNode _ _ := rfl

theorem agreesOff_setExportedNode (hid : written id) (decl : Node) :
    b.heap.AgreesOff written (b.setExportedNode id decl).heap where
  containingUnit _ _ := rfl
  scope _ _ := rfl
  exportedNode _ hid' := update_of_not hid hid' _ _

end BasicASTBuilder

namespace ASTLayoutReader

open BasicASTBuilder

variable {written : NodeId → Prop} {b : BasicASTBuilder}

theorem agreesOff_introduceChild {parent child : Node} (hparent : written parent.id)
    (hchild : written child.id) :
    b.heap.AgreesOff written (introduceChild parent b child).heap := by
  have hunit : b.heap.AgreesOff written (if child.kind.isTopLevelNode then
      b.setContainingUnit child.id parent else b).heap := by
    split
    · exact agreesOff_setContainingUnit hchild parent
    · exact .refl _
  unfold introduceChild
  dsimp only
  split
  · exact hunit
  · rw [heap_introduce]
    split
    · split
      · exact hunit.trans (agreesOff_setExportedNode hparent child)
      · exact hunit
    · exact hunit

theorem agreesOff_introduceChildren {parent : Node} (hparent : written parent.id)
    {children : List Node} (hchildren : ∀ child ∈ children, written child.id) :
    b.heap.AgreesOff written (children.foldl (introduceChild parent) b).heap := by
  induction children generalizing b with
  | nil => exact .refl _
  | cons child children ih =>
    have hrest := ih (b := introduceChild parent b child)
      fun x hx => hchildren x (List.mem_cons_of_mem _ hx)
    exact (agreesOff_introduceChild hparent (hchildren child List.mem_cons_self)).trans hrest

/-- The crawl hands over nodes of the trees. -/
theorem exists_of_mem_crawled {cs : List Tree} {n : Node} (h : n ∈ crawled cs) :
    ∃ c ∈ cs, n ∈ c.labels := by
  have tree : ∀ t : Tree, ∀ n ∈ t.unframed Node.isNodeRequiringReduceMarker, n ∈ t.labels := by
    intro t
    induction t using Rose.ind with
    | h root cs ih =>
      intro n hn
      rw [Rose.unframed] at hn
      rcases List.mem_cons.1 hn with rfl | hn
      · exact Rose.mem_labels_node.2 (.inl rfl)
      · split at hn
        · exact absurd hn List.not_mem_nil
        · rw [Rose.unframedAll_eq] at hn
          obtain ⟨c, hc, hn⟩ := List.mem_flatMap.1 hn
          exact Rose.mem_labels_node.2 (.inr ⟨c, hc, ih c hc n hn⟩)
  rw [crawled, Rose.unframedAll_eq] at h
  obtain ⟨c, hc, hn⟩ := List.mem_flatMap.1 h
  exact ⟨c, hc, tree c n hn⟩

theorem agreesOff_enterUnit (node : Node) {cs : List Tree} (hnode : written node.id)
    (hcs : ∀ c ∈ cs, ∀ n ∈ c.labels, written n.id) (parent : ScopeChain) :
    b.heap.AgreesOff written (enterUnit parent node cs b).heap := by
  have hchildren : (b.enterConsistentScope parent).heap.AgreesOff written
      ((crawled cs).foldl (introduceChild node) (b.enterConsistentScope parent)).heap :=
    agreesOff_introduceChildren hnode fun n hn => by
      obtain ⟨c, hc, hn⟩ := exists_of_mem_crawled hn
      exact hcs c hc n hn
  rw [heap_enterConsistentScope] at hchildren
  exact hchildren.trans (agreesOff_setUnitScope hnode _)

theorem agreesOff_enterMetaUnit (node : Node) (hnode : written node.id) :
    b.heap.AgreesOff written (enterMetaUnit node b).1.heap := by
  unfold enterMetaUnit
  split
  · split
    · exact .refl _
    · rename_i decl kind _
      have hset (unit : Node) := agreesOff_setContainingUnit
        (b := b.require (kind == .metaDecl) .instantiationOfNonMetaDecl) hnode unit
      rw [heap_require] at hset
      dsimp only
      split
      · exact .of_eq (b.heap_require _ _)
      · split
        · exact hset _
        · exact hset _
  · exact .refl _

variable (similarTo : ScopeChain → Identifier → Option Node)

theorem agreesOff_readTrees {cs : List Tree}
    (h : ∀ c ∈ cs, ∀ b : BasicASTBuilder, b.heap.AgreesOff written (readTree similarTo c b).2.heap)
    (b : BasicASTBuilder) : b.heap.AgreesOff written (readTrees similarTo cs b).2.heap := by
  induction cs generalizing b with
  | nil => exact .refl _
  | cons c cs ih =>
    exact (h c List.mem_cons_self b).trans
      (ih (fun d hd => h d (List.mem_cons_of_mem _ hd)) (readTree similarTo c b).2)

variable (written) in
/-- Reading a tree only writes fields of its nodes. -/
theorem agreesOff_readTree (t : Tree) (ht : ∀ n ∈ t.labels, written n.id) (b : BasicASTBuilder) :
    b.heap.AgreesOff written (readTree similarTo t b).2.heap := by
  induction t using Rose.ind generalizing b with
  | h n cs ih =>
    have hnode : written n.id := ht n (Rose.mem_labels_node.2 (.inl rfl))
    have hcs : ∀ c ∈ cs, ∀ m ∈ c.labels, written m.id := fun c hc m hm =>
      ht m (Rose.mem_labels_node.2 (.inr ⟨c, hc, hm⟩))
    have each : ∀ c ∈ cs, ∀ b : BasicASTBuilder,
        b.heap.AgreesOff written (readTree similarTo c b).2.heap :=
      fun c hc b => ih c hc (hcs c hc) b
    have all := agreesOff_readTrees similarTo each
    have split {d : Tree} {ds : List Tree} (hds : cs = d :: ds) (b : BasicASTBuilder) :
        b.heap.AgreesOff written (readTree similarTo d b).2.heap ∧
          ∀ b : BasicASTBuilder, b.heap.AgreesOff written (readTrees similarTo ds b).2.heap := by
      subst hds
      exact ⟨each d List.mem_cons_self b,
        agreesOff_readTrees similarTo fun c hc => each c (List.mem_cons_of_mem _ hc)⟩
    obtain ⟨id, data⟩ := n
    cases data with
    | compilationUnit =>
      exact (agreesOff_enterUnit ⟨id, .compilationUnit⟩ hnode hcs []).trans (all _)
    | metaUnit inst =>
      have hmeta := agreesOff_enterMetaUnit (b := b) ⟨id, .metaUnit inst⟩ hnode
      have hunit := agreesOff_enterUnit (b := (enterMetaUnit ⟨id, .metaUnit inst⟩ b).1)
        ⟨id, .metaUnit inst⟩ hnode hcs (enterMetaUnit ⟨id, .metaUnit inst⟩ b).2
      exact (hmeta.trans hunit).trans (all _)
    | functionDecl name | compoundStmt =>
      have hall := all b.enterTemporaryScope
      rw [heap_enterTemporaryScope] at hall
      exact hall
    | namedArgumentDecl name => exact .of_eq (b.heap_introduce _)
    | metaDecl name =>
      cases cs with
      | nil => exact .refl _
      | cons args contribution =>
        obtain ⟨hargs, hcontribution⟩ := split rfl b.enterTemporaryScope
        rw [heap_enterTemporaryScope] at hargs
        have hrest := hcontribution
          (readTree similarTo args b.enterTemporaryScope).2.enterMetaDeclMode
        rw [heap_enterMetaDeclMode] at hrest
        exact hargs.trans hrest
    | declStmt name => exact (all b).trans (.of_eq (heap_introduce _ _))
    | metaIfStmt =>
      cases cs with
      | nil => exact .refl _
      | cons expression branches =>
        obtain ⟨hexpression, hbranches⟩ := split rfl b.enterMetaComputationMode
        rw [heap_enterMetaComputationMode] at hexpression
        exact hexpression.trans
          (hbranches (readTree similarTo expression b.enterMetaComputationMode).2.leaveMode)
    | metaCalculationStmt =>
      have hall := all b.enterInplaceScope.enterMetaComputationMode
      rw [heap_enterMetaComputationMode, heap_enterInplaceScope] at hall
      exact hall
    | declRefExpr name =>
      simp only [readTree]
      split
      · exact .of_eq (b.heap_lookup similarTo name)
      · exact .refl _
    | _ => exact all b

end ASTLayoutReader

end Swy
