import Swy.Codegen.ExportedNode
import Swy.Codegen.RenamedCalls
import Swy.Parse.ReadFrame
import Swy.Parse.Relocation

/-!
# Instantiations are isolated

`CodeExecutor::instantiate` allocates the nodes of a meta unit and reads its layout, which sets
fields of nodes in place. In every sequence of instantiations it only sets fields of nodes that were
allocated for it, and the unit is the one that the same instantiation gives directly behind the
program, at other addresses (`instantiations_isolated`).
-/

namespace Swy

open Library

/-! ## What is written, whatever the addresses are -/

/-- What is written for a meta unit. -/
def metaUnitData (inst : Instantiation) (events : List Event) : List (Option NodeData) :=
  some (.metaUnit inst) :: (events.flatMap Event.writtenData ++ [none])

namespace CodeExecutor

/-- The addresses of the nodes are the next free ones. -/
theorem instantiatedLayout_number (rt : Runtime) (fuel : Nat)
    (pad metaFunction : Blocks Instruction) (inst : Instantiation) (nextId : NodeId) :
    instantiatedLayout rt fuel pad metaFunction inst nextId =
      (invoke rt fuel pad metaFunction).map fun events =>
        ⟨number nextId (metaUnitData inst events),
          nextId + countNodes (metaUnitData inst events)⟩ := by
  unfold instantiatedLayout
  cases invoke rt fuel pad metaFunction with
  | none => rfl
  | some events =>
    have hnumber : number nextId (metaUnitData inst events) = some ⟨nextId, .metaUnit inst⟩ ::
        (number (nextId + 1) (events.flatMap Event.writtenData) ++ [none]) := by
      rw [metaUnitData, number, number_append]
      rfl
    have hcount : countNodes (metaUnitData inst events) =
        1 + countNodes (events.flatMap Event.writtenData) := by
      rw [metaUnitData, countNodes_some, countNodes_append, Nat.add_comm]
      rfl
    refine congrArg some ?_
    dsimp only
    rw [NodeContributor.handles_eq, NodeContributor.reduce, hnumber, hcount, ← Nat.add_assoc]
    rfl

variable {rt : Runtime} {fuel : Nat} {pad metaFunction : Blocks Instruction}

/-- The arguments that the jump pad calls the meta function with. -/
def metaCalls (rt : Runtime) (fuel : Nat) (jumpPad : Blocks Instruction) :
    Option (List (List Word)) :=
  match run (step rt [] jumpPad) fuel (entry rt) with
  | .halted m => some (m.trace.filterMap metaArguments)
  | _ => none

theorem invoke_eq : invoke rt fuel pad metaFunction = (metaCalls rt fuel pad).bind fun calls =>
    (calls.mapM (runMetaFunction rt fuel metaFunction)).map List.flatten := by
  unfold invoke metaCalls
  cases run (step rt [] pad) fuel (entry rt) with
  | halted m =>
    dsimp only [Option.bind_some]
    cases (m.trace.filterMap metaArguments).mapM (runMetaFunction rt fuel metaFunction) <;> rfl
  | _ => rfl

/-- What is written is determined by the arguments and by what the lookups mean. -/
theorem writtenData_unique {ctx ctx' : IRContext} {rt' : Runtime} {decl : AST}
    {code code' : CodegenState} {pad' : Blocks Instruction} {fuel' : Nat}
    {events events' : List Event}
    {calls : List (List Word)} (hagrees : IRContext.AgreesOn decl ctx rt ctx' rt')
    (hcode : MetaCodegen.codegen ctx decl (.initial .insideMetaDecl) = .ok ((), code))
    (hcode' : MetaCodegen.codegen ctx' decl (.initial .insideMetaDecl) = .ok ((), code'))
    (hcalls : metaCalls rt fuel pad = some calls) (hcalls' : metaCalls rt' fuel' pad' = some calls)
    (h : invoke rt fuel pad code.blocks = some events)
    (h' : invoke rt' fuel' pad' code'.blocks = some events') :
    events.flatMap Event.writtenData = events'.flatMap Event.writtenData := by
  rw [invoke_eq, hcalls, Option.bind_some] at h
  rw [invoke_eq, hcalls', Option.bind_some] at h'
  obtain ⟨traces, htraces, rfl⟩ := Option.map_eq_some_iff.1 h
  obtain ⟨traces', htraces', rfl⟩ := Option.map_eq_some_iff.1 h'
  obtain ⟨n, args, contribution, rfl⟩ := MetaCodegen.codegen_ok hcode
  clear hcalls hcalls' h h'
  induction calls generalizing traces traces' with
  | nil =>
    cases htraces
    cases htraces'
    rfl
  | cons arguments calls ih =>
    rw [List.mapM_cons] at htraces htraces'
    obtain ⟨trace, htrace, htraces⟩ := Option.bind_eq_some_iff.1 htraces
    obtain ⟨trace', htrace', htraces'⟩ := Option.bind_eq_some_iff.1 htraces'
    obtain ⟨rest, hrest, htraces⟩ := Option.bind_eq_some_iff.1 htraces
    obtain ⟨rest', hrest', htraces'⟩ := Option.bind_eq_some_iff.1 htraces'
    cases htraces
    cases htraces'
    rw [List.flatten_cons, List.flatten_cons, List.flatMap_append, List.flatMap_append,
      ih rest hrest rest' hrest', runMetaFunction_eq hcode htrace,
        runMetaFunction_eq hcode' htrace',
      Interpreter.execMetaFunction_agrees hagrees arguments]

end CodeExecutor

/-! ## The AST context -/

/-- The children of a node as addresses, next to the node and what is set on it. -/
def AST.object (a : AST) : ASTNode × List NodeId :=
  (a.label, a.children.map fun c => c.label.node.id)

/-- The ASTs have no node in common. -/
def AST.Disjoint (a b : AST) : Prop := ∀ x ∈ a.labels, ∀ y ∈ b.labels, x.node.id ≠ y.node.id

/-- `ASTContext`: the addresses from `nextId` on are free, the others have the fields that were set
there. -/
structure ASTContext where
  nextId : NodeId
  heap : ASTHeap
  objects : NodeId → Option (ASTNode × List NodeId)

namespace ASTContext

/-- The fields of one node are set. -/
def setObject (objects : NodeId → Option (ASTNode × List NodeId)) (a : AST) :
    NodeId → Option (ASTNode × List NodeId) :=
  Function.update objects a.label.node.id (some a.object)

/-- Reading an AST sets the fields of its nodes. -/
def setFields (a : AST) (objects : NodeId → Option (ASTNode × List NodeId)) :
    NodeId → Option (ASTNode × List NodeId) := a.subtrees.foldl setObject objects

/-- The context behind the program. -/
def ofProgram (nextId : NodeId) (a : AST) (heap : ASTHeap) : ASTContext :=
  ⟨nextId, heap, setFields a fun _ => none⟩

/-- Every node of the AST has the fields that were read. -/
def Holds (σ : ASTContext) (a : AST) : Prop :=
  ∀ u ∈ a.subtrees, σ.objects u.label.node.id = some (AST.object u)

/-- The node has the fields that it had. -/
structure Keeps (σ σ' : ASTContext) (id : NodeId) : Prop where
  object : σ'.objects id = σ.objects id
  containingUnit : σ'.heap.containingUnit id = σ.heap.containingUnit id
  scope : σ'.heap.scope id = σ.heap.scope id
  exportedNode : σ'.heap.exportedNode id = σ.heap.exportedNode id

variable {σ σ' σ'' : ASTContext} {a : AST} {objects : NodeId → Option (ASTNode × List NodeId)}

theorem Keeps.trans {id : NodeId} (h : σ.Keeps σ' id) (h' : σ'.Keeps σ'' id) : σ.Keeps σ'' id where
  object := h'.object.trans h.object
  containingUnit := h'.containingUnit.trans h.containingUnit
  scope := h'.scope.trans h.scope
  exportedNode := h'.exportedNode.trans h.exportedNode

theorem Holds.of_keeps (h : σ.Holds a) (hkeeps : ∀ x ∈ a.labels, σ.Keeps σ' x.node.id) :
    σ'.Holds a := fun u hu =>
  (hkeeps u.label (Rose.label_mem_labels hu)).object.trans (h u hu)

theorem foldl_setObject_of_notMem {us : List AST} {id : NodeId}
    (h : id ∉ us.map fun u => u.label.node.id) : us.foldl setObject objects id = objects id := by
  induction us generalizing objects with
  | nil => rfl
  | cons u us ih =>
    rw [List.map_cons, List.mem_cons, not_or] at h
    rw [List.foldl_cons, ih h.2, setObject, Function.update_of_ne h.1]

theorem foldl_setObject_of_mem {us : List AST} (hids : (us.map fun u => u.label.node.id).Nodup)
    {u : AST} (hu : u ∈ us) : us.foldl setObject objects u.label.node.id = some u.object := by
  induction us generalizing objects with
  | nil => exact absurd hu List.not_mem_nil
  | cons v us ih =>
    obtain ⟨hv, hids⟩ := List.nodup_cons.1 hids
    rcases List.mem_cons.1 hu with rfl | hu
    · rw [List.foldl_cons, foldl_setObject_of_notMem hv, setObject, Function.update_self]
    · rw [List.foldl_cons]
      exact ih hids hu

theorem map_id_subtrees (a : AST) : (a.subtrees.map fun u => u.label.node.id) =
    a.labels.map fun x => x.node.id := by
  rw [← Rose.map_label_subtrees, List.map_map]
  rfl

/-- Other nodes are left alone. -/
theorem setFields_of_notMem {id : NodeId} (h : ∀ x ∈ a.labels, x.node.id ≠ id) :
    setFields a objects id = objects id := by
  apply foldl_setObject_of_notMem
  rw [map_id_subtrees]
  intro hid
  obtain ⟨x, hx, heq⟩ := List.mem_map.1 hid
  exact h x hx heq

/-- The fields are those of the AST where its nodes have different addresses. -/
theorem holds_setFields (hids : (a.labels.map fun x => x.node.id).Nodup) (nextId : NodeId)
    (heap : ASTHeap) : (ASTContext.mk nextId heap (setFields a objects)).Holds a := by
  rw [← map_id_subtrees] at hids
  exact fun u hu => foldl_setObject_of_mem hids hu

end ASTContext

/-! ## One instantiation -/

section Instantiation

variable (similarTo : ScopeChain → Identifier → Option Node)

/-- `CodeExecutor::instantiate`: the layout is written and read. -/
def CodeExecutor.instantiate (rt : Runtime) (fuel : Nat) (jumpPad metaFunction : Blocks Instruction)
    (inst : Instantiation) (context : ASTContext) : Option (AST × ASTContext) :=
  match instantiatedLayout rt fuel jumpPad metaFunction inst context.nextId with
  | none => none
  | some contributor =>
    match ASTLayoutReader.consume similarTo (.kind .metaUnit)
        ⟨contributor.layout, .start context.heap⟩ with
    | .error _ => none
    | .ok (unit, reader) => some (unit, ⟨contributor.nextId, reader.builder.heap,
        ASTContext.setFields unit context.objects⟩)

/-- The meta declaration is instantiated: its meta function is called with the arguments, and the
context changes from the first to the second one. -/
inductive Instantiates (ctx : IRContext) (rt : Runtime) (decl : AST) (inst : Instantiation)
    (arguments : List (List Word)) (context : ASTContext) : AST → ASTContext → Prop
  | mk {name : Identifier} {metaFunction : CodegenState} {jumpPad : Blocks Instruction} {fuel : Nat}
    {unit : AST} {context' : ASTContext} :
    decl.label.node.data = .metaDecl name → inst.name = name →
    inst.decl = some (decl.label.node.id, .metaDecl) →
    MetaCodegen.codegen ctx decl (.initial .insideMetaDecl) = .ok ((), metaFunction) →
    CodeExecutor.metaCalls rt fuel jumpPad = some arguments →
    CodeExecutor.instantiate similarTo rt fuel jumpPad metaFunction.blocks inst context =
      some (unit, context') →
    Instantiates ctx rt decl inst arguments context unit context'

/-- A sequence of instantiations of the meta declarations of a program, and the units they built. -/
inductive Instantiated (program : AST) (start : ASTContext) : List AST → ASTContext → Prop
  | refl : Instantiated program start [] start
  | step {units : List AST} {context context' : ASTContext} {decl : AST} {ctx : IRContext}
    {rt : Runtime} {inst : Instantiation} {arguments : List (List Word)} {unit : AST} :
    Instantiated program start units context → decl ∈ program.children →
    Instantiates similarTo ctx rt decl inst arguments context unit context' →
    Instantiated program start (units ++ [unit]) context'

variable {similarTo} {rt : Runtime} {fuel : Nat} {pad metaFunction : Blocks Instruction}
  {inst : Instantiation} {σ σ' : ASTContext} {unit : AST}

/-- What an instantiation does to the context. -/
theorem instantiate_eq_some :
    CodeExecutor.instantiate similarTo rt fuel pad metaFunction inst σ = some (unit, σ') ↔
      ∃ events rest r, CodeExecutor.invoke rt fuel pad metaFunction = some events ∧
        ASTLayoutReader.consume similarTo (.kind .metaUnit)
          ⟨number σ.nextId (metaUnitData inst events), .start σ.heap⟩ = .ok (unit, ⟨rest, r⟩) ∧
        σ' = ⟨σ.nextId + countNodes (metaUnitData inst events), r.heap,
          ASTContext.setFields unit σ.objects⟩ := by
  unfold CodeExecutor.instantiate
  rw [CodeExecutor.instantiatedLayout_number]
  cases CodeExecutor.invoke rt fuel pad metaFunction with
  | none =>
    constructor
    · intro h
      cases h
    · rintro ⟨events, rest, r, hevents, -, -⟩
      cases hevents
  | some events =>
    dsimp only [Option.map_some]
    cases hread : ASTLayoutReader.consume similarTo (.kind .metaUnit)
        ⟨number σ.nextId (metaUnitData inst events), .start σ.heap⟩ with
    | error fault =>
      constructor
      · intro h
        cases h
      · rintro ⟨events', rest, r, hevents, hread', -⟩
        cases hevents
        rw [hread] at hread'
        cases hread'
    | ok result =>
      obtain ⟨a, rest, r⟩ := result
      constructor
      · intro h
        cases h
        exact ⟨events, rest, r, rfl, hread, rfl⟩
      · rintro ⟨events', rest', r', hevents, hread', rfl⟩
        cases hevents
        rw [hread] at hread'
        cases hread'
        rfl

variable (similarTo) in
/-- What is written for a well shaped unit is read. -/
theorem instantiate_eq_of_encode {u : Tree} {nextId : NodeId}
    (hlayout : CodeExecutor.instantiatedLayout rt fuel pad metaFunction inst σ.nextId =
      some ⟨u.encode, nextId⟩)
    (hu : ASTLayoutReader.Production.Reads (.kind .metaUnit) u) :
    CodeExecutor.instantiate similarTo rt fuel pad metaFunction inst σ =
      let read := ASTLayoutReader.readTree similarTo u (.start σ.heap)
      some (read.1, ⟨nextId, read.2.heap, ASTContext.setFields read.1 σ.objects⟩) := by
  have hread := ASTLayoutReader.consume_complete similarTo hu [] (.start σ.heap)
  rw [List.append_nil] at hread
  unfold CodeExecutor.instantiate
  rw [hlayout]
  dsimp only
  rw [hread]

variable (similarTo) in
theorem instantiate_of_encode {u : Tree} {nextId : NodeId}
    (hlayout : CodeExecutor.instantiatedLayout rt fuel pad metaFunction inst σ.nextId =
      some ⟨u.encode, nextId⟩)
    (hu : ASTLayoutReader.Production.Reads (.kind .metaUnit) u) :
    ∃ unit σ', CodeExecutor.instantiate similarTo rt fuel pad metaFunction inst σ =
      some (unit, σ') ∧ σ'.nextId = nextId :=
  ⟨_, _, instantiate_eq_of_encode similarTo hlayout hu, rfl⟩

/-- The nodes of a unit have the addresses that were free before, each another one. -/
theorem ids_of_consume {ds : List (Option NodeData)} {nextId : NodeId} {heap : ASTHeap}
    {s : ASTLayoutReader.State} {k : ASTKind}
    (h : ASTLayoutReader.consume similarTo (.kind k) ⟨number nextId ds, .start heap⟩ =
      .ok (unit, s)) :
    (unit.labels.map fun x => x.node.id).Nodup ∧
      ∀ x ∈ unit.labels, nextId ≤ x.node.id ∧ x.node.id < nextId + countNodes ds := by
  obtain ⟨-, hlayout, -⟩ := ASTLayoutReader.consume_eq_readTree h
  have hencode : (Tree.encode unit.shape).filterMap (Option.map Node.id) =
      unit.labels.map fun x => x.node.id := by
    have hlabels := filterMap_encodeAll [unit.shape]
    rw [Tree.encodeAll_cons, Tree.encodeAll_nil, List.append_nil, List.flatMap_singleton,
      AST.shape, Rose.labels_map] at hlabels
    rw [show (Tree.encode unit.shape).filterMap (Option.map Node.id) =
      ((Tree.encode unit.shape).filterMap id).map Node.id by rw [List.map_filterMap]; rfl,
      AST.shape, hlabels, List.map_map]
    rfl
  have hids : (unit.labels.map fun x => x.node.id) ++ s.rest.filterMap (Option.map Node.id) =
      List.range' nextId (countNodes ds) := by
    rw [← filterMap_id_number, show number nextId ds = _ from hlayout,
      List.filterMap_append, hencode]
  constructor
  · have hnodup : (List.range' nextId (countNodes ds)).Nodup := List.nodup_range'
    rw [← hids] at hnodup
    exact (List.nodup_append.1 hnodup).1
  · intro x hx
    have hmem : x.node.id ∈ List.range' nextId (countNodes ds) := by
      rw [← hids]
      exact List.mem_append_left _ (List.mem_map_of_mem (f := fun x : ASTNode => x.node.id) hx)
    rw [List.mem_range'_1] at hmem
    exact hmem

variable {ctx : IRContext} {decl : AST} {arguments : List (List Word)}

/-- What a step of a run needs to know about an instantiation. -/
structure Fresh (σ : ASTContext) (unit : AST) (σ' : ASTContext) : Prop where
  le : σ.nextId ≤ σ'.nextId
  ids : ∀ x ∈ unit.labels, σ.nextId ≤ x.node.id ∧ x.node.id < σ'.nextId
  keeps : ∀ id, id < σ.nextId → σ.Keeps σ' id
  heap : σ.heap.AgreesOff (fun id => σ.nextId ≤ id ∧ id < σ'.nextId) σ'.heap
  holds : σ'.Holds unit

/-- An instantiation only sets fields of nodes that were allocated for it. -/
theorem Instantiates.fresh (h : Instantiates similarTo ctx rt decl inst arguments σ unit σ') :
    Fresh σ unit σ' := by
  obtain ⟨-, -, -, -, -, hinst⟩ := h
  obtain ⟨events, rest, r, -, hread, rfl⟩ := instantiate_eq_some.1 hinst
  obtain ⟨hnodup, hids⟩ := ids_of_consume hread
  obtain ⟨-, -, hast⟩ := ASTLayoutReader.consume_eq_readTree hread
  have hheap := ASTLayoutReader.agreesOff_readTree
    (fun id => σ.nextId ≤ id ∧ id < σ.nextId + countNodes (metaUnitData inst events)) similarTo
    unit.shape (fun n hn => by
      rw [AST.shape, Rose.labels_map] at hn
      obtain ⟨x, hx, rfl⟩ := List.mem_map.1 hn
      exact hids x hx) (.start σ.heap)
  rw [hast] at hheap
  have hnot {id : NodeId} (hid : id < σ.nextId) :
      ¬ (σ.nextId ≤ id ∧ id < σ.nextId + countNodes (metaUnitData inst events)) :=
    fun h => absurd hid (Nat.not_lt.2 h.1)
  exact {
    le := Nat.le_add_right _ _
    ids := hids
    keeps := fun id hid => {
      object := ASTContext.setFields_of_notMem fun x hx =>
        Nat.ne_of_gt (Nat.lt_of_lt_of_le hid (hids x hx).1)
      containingUnit := hheap.containingUnit id (hnot hid)
      scope := hheap.scope id (hnot hid)
      exportedNode := hheap.exportedNode id (hnot hid) }
    heap := hheap
    holds := ASTContext.holds_setFields hnodup _ _ }

end Instantiation

/-! ## Sequences of instantiations -/

/-- What holds of a context that was reached from the start, for the ASTs that were read. -/
structure Isolated (start σ : ASTContext) (units : List AST) : Prop where
  le : start.nextId ≤ σ.nextId
  keeps : ∀ id, id < start.nextId → start.Keeps σ id
  free : ASTHeap.empty.AgreesOff (· < σ.nextId) σ.heap
  holds : ∀ u ∈ units, σ.Holds u
  allocated : ∀ u ∈ units, ∀ x ∈ u.labels, x.node.id < σ.nextId
  disjoint : units.Pairwise AST.Disjoint

/-- An instantiation keeps it and adds its unit. -/
theorem Isolated.step {start σ σ' : ASTContext} {units : List AST} {unit : AST}
    (h : Isolated start σ units) (hfresh : Fresh σ unit σ') :
    Isolated start σ' (units ++ [unit]) where
  le := Nat.le_trans h.le hfresh.le
  keeps id hid := (h.keeps id hid).trans (hfresh.keeps id (Nat.lt_of_lt_of_le hid h.le))
  free := by
    have hkept {id : NodeId} (hid : ¬ id < σ'.nextId) : ¬ id < σ.nextId := fun hlt =>
      hid (Nat.lt_of_lt_of_le hlt hfresh.le)
    have hother {id : NodeId} (hid : ¬ id < σ'.nextId) : ¬ (σ.nextId ≤ id ∧ id < σ'.nextId) :=
      fun hlt => hid hlt.2
    exact {
      containingUnit := fun id hid => (hfresh.heap.containingUnit id (hother hid)).trans
        (h.free.containingUnit id (hkept hid))
      scope := fun id hid => (hfresh.heap.scope id (hother hid)).trans (h.free.scope id (hkept hid))
      exportedNode := fun id hid => (hfresh.heap.exportedNode id (hother hid)).trans
        (h.free.exportedNode id (hkept hid)) }
  holds u hu := by
    rcases List.mem_append.1 hu with hu | hu
    · exact (h.holds u hu).of_keeps fun x hx => hfresh.keeps _ (h.allocated u hu x hx)
    · rw [List.mem_singleton.1 hu]
      exact hfresh.holds
  allocated u hu x hx := by
    rcases List.mem_append.1 hu with hu | hu
    · exact Nat.lt_of_lt_of_le (h.allocated u hu x hx) hfresh.le
    · rw [List.mem_singleton.1 hu] at hx
      exact (hfresh.ids x hx).2
  disjoint := by
    refine List.pairwise_append.2
      ⟨h.disjoint, List.pairwise_singleton _ _, fun u hu v hv x hx y hy => ?_⟩
    rw [List.mem_singleton.1 hv] at hy
    exact Nat.ne_of_lt (Nat.lt_of_lt_of_le (h.allocated u hu x hx) (hfresh.ids y hy).1)

section Program

variable {similarTo : ScopeChain → Identifier → Option Node} {t : Tree} {a : AST}
  {s : ASTLayoutReader.State} (ht : t.IsProgram)
  (haccept : ASTLayoutReader.AcceptsUnit similarTo .compilationUnit t.encode .empty a s)
  {nextId : NodeId} (hfree : ∀ n ∈ t.labels, n.id < nextId)

include ht haccept hfree in
theorem isolated_ofProgram : Isolated (.ofProgram nextId a s.builder.heap)
    (.ofProgram nextId a s.builder.heap) [a] := by
  have hshape : a.shape = t := haccept.shape ht.wellShaped ht.kind
  have hlabels : t.labels = a.labels.map ASTNode.node := by
    rw [← hshape, AST.shape, Rose.labels_map]
  obtain ⟨-, -, hast⟩ := ASTLayoutReader.consume_eq_readTree haccept.read
  have hheap := ASTLayoutReader.agreesOff_readTree (· < nextId) similarTo t hfree
    (.start .empty)
  rw [hshape] at hast
  rw [hast] at hheap
  refine ⟨Nat.le_refl _, fun id _ => ⟨rfl, rfl, rfl, rfl⟩, hheap, fun u hu => ?_,
    fun u hu x hx => ?_, List.pairwise_singleton _ _⟩
  · rw [List.mem_singleton.1 hu]
    refine ASTContext.holds_setFields ?_ _ _
    have hids := ht.distinct
    rw [hlabels, List.map_map] at hids
    exact hids
  · rw [List.mem_singleton.1 hu] at hx
    exact hfree x.node (hlabels ▸ List.mem_map_of_mem (f := ASTNode.node) hx)

include ht haccept hfree in
/-- Every sequence of instantiations keeps it. -/
theorem Instantiated.isolated {units : List AST} {σ : ASTContext}
    (h : Instantiated similarTo a (.ofProgram nextId a s.builder.heap) units σ) :
    Isolated (.ofProgram nextId a s.builder.heap) σ (a :: units) := by
  induction h with
  | refl => exact isolated_ofProgram ht haccept hfree
  | step _ _ hinst ih => exact ih.step hinst.fresh

end Program

/-! ## The unit at other addresses -/

theorem injective_shift (first count : Nat) :
    Function.Injective fun id => if id < first then id else id + count := by
  intro id id' h
  dsimp only at h
  split at h <;> split at h <;> omega

/-- The addresses from `first` on are moved by `count`, and the instantiation is another one. -/
def Relocation.shift (first count : Nat) (expr : NodeId) : Relocation where
  move id := if id < first then id else id + count
  injective := injective_shift first count
  instantiation _ := expr

section Shift

variable {first count : Nat} {expr : NodeId}

theorem shift_of_lt {id : NodeId} (h : id < first) :
    (Relocation.shift first count expr).move id = id := if_pos h

theorem shift_of_le {id : NodeId} (h : first ≤ id) :
    (Relocation.shift first count expr).move id = id + count := if_neg (Nat.not_lt.2 h)

/-- The nodes of the program stay where they are. -/
theorem shift_node {n : Node} (h : n.id < first) (hk : n.kind ≠ .metaUnit) :
    (Relocation.shift first count expr).node n = n := by
  rw [Relocation.node, shift_of_lt h, Relocation.data_of_kind _ hk]

theorem encode_shift {t : Tree} (h : ∀ n ∈ t.labels, n.id < first ∧ n.kind ≠ .metaUnit) :
    t.encode.map (Option.map (Relocation.shift first count expr).node) = t.encode := by
  rw [← List.map_id t.encode, List.map_map]
  refine List.map_congr_left fun x hx => ?_
  cases x with
  | none => rfl
  | some n =>
    obtain ⟨hid, hk⟩ := h n ((Rose.mem_encode _).1 hx)
    exact congrArg some (shift_node hid hk)

/-- Where later addresses were free, the same nodes are at the later addresses. -/
theorem number_shift {ds : List (Option NodeData)} {id : NodeId} (h : first ≤ id)
    (hds : ∀ d, some d ∈ ds → d.kind ≠ .metaUnit) :
    (number id ds).map (Option.map (Relocation.shift first count expr).node) =
      number (id + count) ds := by
  induction ds generalizing id with
  | nil => rfl
  | cons d ds ih =>
    have hrest (e : NodeData) (he : some e ∈ ds) := hds e (List.mem_cons_of_mem _ he)
    cases d with
    | none => exact congrArg _ (ih h hrest)
    | some d =>
      have hd := hds d List.mem_cons_self
      rw [number, number, List.map_cons, ih (Nat.le_succ_of_le h) hrest, Option.map_some,
        Relocation.node, shift_of_le h, Relocation.data_of_kind _ hd, Nat.add_right_comm]

/-- A field that is kept below `first` and not set from `last` on. -/
theorem field_shift {α : Type} {f f' : NodeId → Option α} {g : α → α} {last : Nat}
    (hle : first ≤ last) (hkeeps : ∀ id, id < first → f' id = f id)
    (hself : ∀ id, f ((Relocation.shift first (last - first) expr).move id) = (f id).map g)
    (hfree : ∀ id, ¬ id < first → f id = none) (hfree' : ∀ id, ¬ id < last → f' id = none)
    (id : NodeId) :
    f' ((Relocation.shift first (last - first) expr).move id) = (f id).map g := by
  by_cases hid : id < first
  · have hsame := hself id
    rw [shift_of_lt hid] at hsame ⊢
    exact (hkeeps id hid).trans hsame
  · rw [shift_of_le (Nat.not_lt.1 hid), hfree id hid, hfree', Option.map_none]
    refine Nat.not_lt.2 ?_
    calc last = first + (last - first) := (Nat.add_sub_cancel' hle).symm
      _ ≤ id + (last - first) := Nat.add_le_add_right (Nat.not_lt.1 hid) _

end Shift

section Program

variable {similarTo : ScopeChain → Identifier → Option Node} {t : Tree} {a : AST}
  {s : ASTLayoutReader.State} (ht : t.IsProgram)
  (haccept : ASTLayoutReader.AcceptsUnit similarTo .compilationUnit t.encode .empty a s)
  {nextId : NodeId} (hfree : ∀ n ∈ t.labels, n.id < nextId)

theorem Tree.IsProgram.ne_metaUnit {t : Tree} (ht : t.IsProgram) :
    ∀ n ∈ t.labels, n.kind ≠ .metaUnit := by
  obtain ⟨root, cs⟩ := t
  intro n hn hk
  rcases Rose.mem_labels_node.1 hn with rfl | ⟨c, hc, hn⟩
  · have hroot : n.kind = .compilationUnit := ht.kind
    rw [hk] at hroot
    cases hroot
  · have hunit := Tree.derivedTopLevel_label (ht.topLevel c hc) n hn
    rw [hk] at hunit
    cases hunit

include ht haccept hfree in
/-- What reading the program set stays where it is. -/
theorem relatesHeap_program (count : Nat) (expr : NodeId) :
    (Relocation.shift nextId count expr).RelatesHeap s.builder.heap s.builder.heap := by
  have hstart := Relocation.Relates.start
    (Relocation.RelatesHeap.empty (Relocation.shift nextId count expr))
  obtain ⟨r, hread, hrelates⟩ := hstart.consume similarTo haccept.read
  rw [encode_shift fun n hn => ⟨hfree n hn, ht.ne_metaUnit n hn⟩, haccept.read] at hread
  have hr : s.builder = r :=
    congrArg ASTLayoutReader.State.builder (Prod.mk.inj (Except.ok.inj hread)).2
  rw [← hr] at hrelates
  exact hrelates.heap

include ht haccept hfree in
/-- The heap of the program is the one after the instantiations, with the free addresses moved. -/
theorem Isolated.relatesHeap {σ : ASTContext} {units : List AST}
    (h : Isolated (.ofProgram nextId a s.builder.heap) σ units) (expr : NodeId) :
    (Relocation.shift nextId (σ.nextId - nextId) expr).RelatesHeap s.builder.heap σ.heap := by
  have hprogram := relatesHeap_program ht haccept hfree (σ.nextId - nextId) expr
  have hstart := isolated_ofProgram ht haccept hfree
  exact {
    containingUnit := field_shift h.le (fun id hid => (h.keeps id hid).containingUnit)
      hprogram.containingUnit hstart.free.containingUnit h.free.containingUnit
    scope := field_shift h.le (fun id hid => (h.keeps id hid).scope) hprogram.scope
      hstart.free.scope h.free.scope
    exportedNode := field_shift h.le (fun id hid => (h.keeps id hid).exportedNode)
      hprogram.exportedNode hstart.free.exportedNode h.free.exportedNode }

include ht haccept in
/-- Nothing below a unit that is written is a meta unit. -/
theorem writtenData_ne_metaUnit {decl : AST} (hdecl : decl ∈ a.children) {name : Identifier}
    (hdata : decl.label.node.data = .metaDecl name) {ctx : IRContext} {metaFunction : CodegenState}
    (hmeta : MetaCodegen.codegen ctx decl (.initial .insideMetaDecl) = .ok ((), metaFunction))
    {rt : Runtime} {fuel : Nat} {pad : Blocks Instruction} {events : List Event}
    (hevents : CodeExecutor.invoke rt fuel pad metaFunction.blocks = some events) :
    ∀ d, some d ∈ events.flatMap Event.writtenData ++ [none] → d.kind ≠ .metaUnit := by
  have hlayout := CodeExecutor.instantiatedLayout_number rt fuel pad metaFunction.blocks
    ⟨0, name, none⟩ 0
  rw [hevents, Option.map_some] at hlayout
  obtain ⟨l, hl, hspares⟩ := ASTLayoutReader.instantiatedLayout_spares ht haccept hdecl hdata hmeta
    hlayout
  have hrest : number 1 (events.flatMap Event.writtenData ++ [none]) = l := (List.cons.inj hl).2
  intro d hd hk
  rw [← map_data_number (events.flatMap Event.writtenData ++ [none]) 1, hrest] at hd
  obtain ⟨x, hx, hxd⟩ := List.mem_map.1 hd
  obtain ⟨n, rfl, rfl⟩ := Option.map_eq_some_iff.1 hxd
  have hunit := (hspares n hx).1
  rw [hk] at hunit
  cases hunit

/-- The layout of a unit is the one that is written directly behind the program, moved. -/
theorem metaUnit_shift (first count : Nat) {inst inst₀ : Instantiation} {decl : NodeId}
    {kind : ASTKind} (hname : inst.name = inst₀.name) (hdecl : inst.decl = some (decl, kind))
    (hdecl₀ : inst₀.decl = some (decl, kind)) (hlt : decl < first) {events : List Event}
    (hevents : ∀ d, some d ∈ events.flatMap Event.writtenData ++ [none] → d.kind ≠ .metaUnit) :
    (number first (metaUnitData inst₀ events)).map
        (Option.map (Relocation.shift first count inst.node).node) =
      number (first + count) (metaUnitData inst events) := by
  have hroot : (Relocation.shift first count inst.node).node ⟨first, .metaUnit inst₀⟩ =
      ⟨first + count, .metaUnit inst⟩ := by
    obtain ⟨instNode, name, instDecl⟩ := inst
    obtain ⟨instNode₀, name₀, instDecl₀⟩ := inst₀
    obtain rfl : name = name₀ := hname
    obtain rfl : instDecl = some (decl, kind) := hdecl
    obtain rfl : instDecl₀ = some (decl, kind) := hdecl₀
    simp only [Relocation.node, Relocation.data, Option.map_some]
    rw [shift_of_le (Nat.le_refl first), shift_of_lt hlt]
    rfl
  rw [metaUnitData, metaUnitData, number, number, List.map_cons, Option.map_some, hroot,
    number_shift (Nat.le_succ first) hevents, Nat.add_right_comm]

include ht haccept hfree in
/-- The unit that an instantiation builds does not depend on what was instantiated before: the same
instantiation is possible directly behind the program, and whatever the addresses of the functions
are that it calls, it builds the same unit there at other addresses. -/
theorem Isolated.instantiates {σ : ASTContext} {units : List AST}
    (h : Isolated (.ofProgram nextId a s.builder.heap) σ units) {ctx : IRContext} {rt : Runtime}
    {decl : AST} {inst : Instantiation} {arguments : List (List Word)}
    {unit : AST} {σ' : ASTContext}
    (hdecl : decl ∈ a.children)
    (hinst : Instantiates similarTo ctx rt decl inst arguments σ unit σ') :
    (∃ first σ₁, Instantiates similarTo ctx rt decl inst arguments
      (.ofProgram nextId a s.builder.heap) first σ₁) ∧
    ∀ ctx₀ rt₀ inst₀ first σ₁, IRContext.AgreesOn decl ctx rt ctx₀ rt₀ →
      Instantiates similarTo ctx₀ rt₀ decl inst₀ arguments
        (.ofProgram nextId a s.builder.heap) first σ₁ →
      unit = first.map (Relocation.shift nextId (σ.nextId - nextId) inst.node).astNode ∧
        (Relocation.shift nextId (σ.nextId - nextId) inst.node).RelatesHeap σ₁.heap σ'.heap := by
  obtain ⟨hdata, hname, hinstDecl, hmeta, hcalls, hrun⟩ := hinst
  obtain ⟨events, rest, r, hevents, hread, rfl⟩ := instantiate_eq_some.1 hrun
  have hlt : decl.label.node.id < nextId := by
    refine hfree _ ?_
    rw [← haccept.shape ht.wellShaped ht.kind]
    refine AST.node_mem_shape (Rose.label_mem_labels ?_)
    obtain ⟨n, cs⟩ := a
    exact Rose.child_mem_subtrees hdecl
  have hwritten := writtenData_ne_metaUnit ht haccept hdecl hdata hmeta hevents
  have hnext : nextId + (σ.nextId - nextId) = σ.nextId := Nat.add_sub_cancel' h.le
  have hlayout {inst₀ : Instantiation} (hname₀ : inst.name = inst₀.name)
      (hdecl₀ : inst₀.decl = some (decl.label.node.id, .metaDecl)) :=
    metaUnit_shift nextId (σ.nextId - nextId) hname₀ hinstDecl hdecl₀ hlt hwritten
  rw [hnext] at hlayout
  constructor
  · rw [← hlayout rfl hinstDecl] at hread
    obtain ⟨first, s₀, hread₀⟩ := Relocation.exists_consume hread (.start s.builder.heap)
    exact ⟨_, _, .mk hdata hname hinstDecl hmeta hcalls
      (instantiate_eq_some.2 ⟨events, s₀.rest, s₀.builder, hevents, hread₀, rfl⟩)⟩
  · rintro ctx₀ rt₀ inst₀ first σ₁ hagrees ⟨hdata₀, hname₀, hinstDecl₀, hmeta₀, hcalls₀, hrun₀⟩
    obtain ⟨events₀, rest₀, r₀, hevents₀, hread₀, rfl⟩ := instantiate_eq_some.1 hrun₀
    rw [hdata] at hdata₀
    cases hdata₀
    have hsame : metaUnitData inst₀ events₀ = metaUnitData inst₀ events := by
      rw [metaUnitData, metaUnitData, CodeExecutor.writtenData_unique hagrees hmeta hmeta₀ hcalls
        hcalls₀ hevents hevents₀]
    rw [hsame] at hread₀
    have hrelates := Relocation.Relates.start (h.relatesHeap ht haccept hfree inst.node)
    obtain ⟨r', hread', hrelates'⟩ := hrelates.consume similarTo hread₀
    have hnumber : (ASTContext.ofProgram nextId a s.builder.heap).nextId = nextId := rfl
    rw [hnumber, hlayout (hname.trans hname₀.symm) hinstDecl₀, hread] at hread'
    obtain ⟨hunit, hstate⟩ := Prod.mk.inj (Except.ok.inj hread')
    have hr : r = r' := congrArg ASTLayoutReader.State.builder hstate
    refine ⟨hunit, ?_⟩
    rw [hr]
    exact hrelates'.heap

/-- Instantiations are isolated. In every sequence of instantiations of the meta declarations of an
accepted program, every unit and the program itself still have the fields that were read, and no two
of them share a node. A further instantiation changes no field of any of their nodes, and what it
builds is what it builds directly behind the program, up to the addresses of the nodes that were
allocated since then. -/
theorem instantiations_isolated (ht : t.IsProgram)
    (haccept : ASTLayoutReader.AcceptsUnit similarTo .compilationUnit t.encode .empty a s)
    (hfree : ∀ n ∈ t.labels, n.id < nextId) {units : List AST} {σ : ASTContext}
    (hrun : Instantiated similarTo a (.ofProgram nextId a s.builder.heap) units σ) :
    (∀ u ∈ a :: units, σ.Holds u) ∧ (a :: units).Pairwise AST.Disjoint ∧
    ∀ ctx rt, ∀ decl ∈ a.children, ∀ inst arguments unit σ',
      Instantiates similarTo ctx rt decl inst arguments σ unit σ' →
      (∀ u ∈ a :: units, ∀ x ∈ u.labels, σ.Keeps σ' x.node.id) ∧
      (∃ first σ₁, Instantiates similarTo ctx rt decl inst arguments
        (.ofProgram nextId a s.builder.heap) first σ₁) ∧
      ∀ ctx₀ rt₀ inst₀ first σ₁, IRContext.AgreesOn decl ctx rt ctx₀ rt₀ →
        Instantiates similarTo ctx₀ rt₀ decl inst₀ arguments
          (.ofProgram nextId a s.builder.heap) first σ₁ →
        unit = first.map (Relocation.shift nextId (σ.nextId - nextId) inst.node).astNode ∧
          (Relocation.shift nextId (σ.nextId - nextId) inst.node).RelatesHeap σ₁.heap σ'.heap := by
  have hisolated := hrun.isolated ht haccept hfree
  refine ⟨hisolated.holds, hisolated.disjoint,
    fun ctx rt decl hdecl inst arguments unit σ' hinst => ?_⟩
  obtain ⟨hexists, hunique⟩ := hisolated.instantiates ht haccept hfree hdecl hinst
  exact ⟨fun u hu x hx => hinst.fresh.keeps _ (hisolated.allocated u hu x hx), hexists, hunique⟩

/-- `m<int n> -> { m() -> {} }` is instantiated with 7, and once more with 8. -/
theorem instantiations_isolated_twice :
    let t : Tree := .node ⟨0, .compilationUnit⟩ [.node ⟨1, .metaDecl "m"⟩
      [.node ⟨2, .argumentDeclList⟩ [.node ⟨3, .namedArgumentDecl "n"⟩ []],
        .node ⟨4, .metaContribution⟩ [.node ⟨5, .functionDecl "m"⟩
          [.node ⟨6, .argumentDeclList⟩ [], .node ⟨7, .compoundStmt⟩ []]]]]
    ∃ (a : AST) (heap : ASTHeap) (first second : AST) (σ σ' : ASTContext),
      a.shape = t ∧
      Instantiated (fun _ _ => none) a (.ofProgram 30 a heap) [first] σ ∧
      (∀ u ∈ [a, first], σ.Holds u) ∧ [a, first].Pairwise AST.Disjoint ∧
      (∀ u ∈ [a, first], ∀ x ∈ u.labels, σ.Keeps σ' x.node.id) ∧
      ∃ alone : AST, second = alone.map (Relocation.shift 30 6 21).astNode := by
  intro t
  let decl : AST := .node { node := ⟨1, .metaDecl "m"⟩ }
    [.node { node := ⟨2, .argumentDeclList⟩ } [.node { node := ⟨3, .namedArgumentDecl "n"⟩ } []],
      .node { node := ⟨4, .metaContribution⟩ } [.node { node := ⟨5, .functionDecl "m"⟩ }
        [.node { node := ⟨6, .argumentDeclList⟩ } [], .node { node := ⟨7, .compoundStmt⟩ } []]]]
  let ctx : IRContext := ⟨fun _ => none, fun _ => none⟩
  let inst (node : NodeId) : Instantiation := ⟨node, "m", some (1, .metaDecl)⟩
  let pad (value : Word) : Blocks Instruction :=
    [[.operation (.callMeta [.constant value]), .terminator .retVoid]]
  let unit (id node : NodeId) (value : Word) : Tree := .node ⟨id, .metaUnit (inst node)⟩
    [.node ⟨id + 1, .globalConstantDecl "n"⟩ [.node ⟨id + 2, .integerLiteralExpr value⟩ []],
      .node ⟨id + 3, .functionDecl "m"⟩ [.node ⟨id + 4, .argumentDeclList⟩ [],
        .node ⟨id + 5, .compoundStmt⟩ []]]
  have hprogram : t.IsProgram := ⟨rfl, by decide, by decide, by decide⟩
  have hread := ASTLayoutReader.consume_complete (fun _ _ => none) (p := .kind .compilationUnit)
    (t := t) ⟨by decide, .inl rfl⟩ [] (.start .empty)
  rw [List.append_nil] at hread
  have haccept := ASTLayoutReader.AcceptsUnit.mk hread (by decide) (by decide)
  let result := MetaCodegen.codegen ctx decl (.initial .insideMetaDecl)
  let metaFunction := (result.toOption.getD ((), .initial .insideMetaDecl)).2
  have hmeta : result = .ok ((), metaFunction) :=
    eq_ok_of_isOk (c := MetaCodegen.codegen ctx decl) (s := .initial .insideMetaDecl)
      (by decide +kernel)
  let read := ASTLayoutReader.readTree (fun _ _ => none) t (.start .empty)
  have step (context : ASTContext) (nextId : Nat) (node : NodeId) (value : Word)
      (hlayout : CodeExecutor.instantiatedLayout default 20 (pad value) metaFunction.blocks
        (inst node) context.nextId = some ⟨(unit nextId node value).encode, nextId + 6⟩)
      (hunit : ASTLayoutReader.Production.Reads (.kind .metaUnit) (unit nextId node value)) :
      ∃ built context', context'.nextId = nextId + 6 ∧
        Instantiates (fun _ _ => none) ctx default decl
        (inst node) [[value]] context built context' := by
    obtain ⟨built, context', hrun, hnext⟩ := instantiate_of_encode (fun _ _ => none) hlayout
      hunit
    exact ⟨built, context', hnext, .mk rfl rfl rfl hmeta rfl hrun⟩
  obtain ⟨first, σ, hσ, hfirst⟩ :=
    step (.ofProgram 30 read.1 read.2.heap) 30 20 7 (by decide +kernel) ⟨by decide, .inl rfl⟩
  obtain ⟨second, σ', hσ', hsecond⟩ := step σ 36 21 8 (by rw [hσ]; decide +kernel)
    ⟨by decide, .inl rfl⟩
  have hfree : ∀ n ∈ t.labels, n.id < 30 := by decide
  have hdecl : decl ∈ read.1.children := List.mem_cons_self
  have hrun := Instantiated.refl.step hdecl hfirst
  obtain ⟨hholds, hdisjoint, hisolated⟩ := instantiations_isolated hprogram haccept hfree hrun
  obtain ⟨hkeeps, ⟨alone, σ₁, halone⟩, hunique⟩ := hisolated ctx default decl hdecl
    (inst 21) [[8]] second σ' hsecond
  obtain ⟨hsame, -⟩ := hunique ctx default (inst 21) alone σ₁ (.refl decl ctx default) halone
  rw [hσ] at hsame
  exact ⟨read.1, read.2.heap, first, second, σ, σ', rfl, hrun, hholds, hdisjoint,
    hkeeps, alone, hsame⟩

end Program

end Swy
