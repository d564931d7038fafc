import Swy.Codegen.Isolation
import Swy.Codegen.MetaStatements
import Swy.Parse.VisibleDecls

/-!
# The units that instantiations build

In every sequence of instantiations of an accepted program, the layout of the next unit is read
without a failed assertion of the builder, and in every state on the way each name is visible once,
up to what the unit exports (`instantiations_visible`): the units are instances of the program's
meta declarations whose nodes are fresh.
-/

namespace Swy

open Library ASTLayoutReader

section Program

variable {similarTo : ScopeChain → Identifier → Option Node} {t : Tree} {a : AST}
  {s : ASTLayoutReader.State} (ht : t.IsProgram)
  (haccept : AcceptsUnit similarTo .compilationUnit t.encode .empty a s) {nextId : NodeId}
  (hfree : ∀ n ∈ t.labels, n.id < nextId) {ctx : IRContext} {rt : Runtime} {decl : AST}
  {inst : Instantiation} {arguments : List (List Word)} {σ σ' : ASTContext} {unit : AST}
  {units : List AST}

include ht haccept in
/-- What an instantiation builds is an instance of a meta declaration of the program. -/
theorem isInstance_of_instantiates {read : List Tree} (hread : t ∈ read)
    (hdecl : decl ∈ a.children)
    (h : Instantiates similarTo ctx rt decl inst arguments σ unit σ') :
    IsInstance read unit.shape ∧ ∃ rest r,
      consume similarTo (.kind .metaUnit) ⟨unit.shape.encode ++ rest, .start σ.heap⟩ =
        .ok (unit, r) ∧ r.builder.heap = σ'.heap := by
  obtain ⟨hdata, -, hinst, hmeta, -, hrun⟩ := h
  rename_i name metaFunction pad fuel
  obtain ⟨events, rest, r, hevents, hconsume, rfl⟩ := instantiate_eq_some.1 hrun
  have hlayout := CodeExecutor.instantiatedLayout_number rt fuel pad metaFunction.blocks inst
    σ.nextId
  rw [hevents, Option.map_some] at hlayout
  obtain ⟨l, hl, hspares⟩ := instantiatedLayout_spares ht haccept hdecl hdata hmeta hlayout
  have hruntime := instantiatedLayout_runtime hmeta hlayout
  obtain ⟨hreads, hencode, -⟩ := consume_eq_readTree hconsume
  have hencode : number σ.nextId (metaUnitData inst events) = unit.shape.encode ++ rest := hencode
  obtain ⟨hnodup, -⟩ := ids_of_consume hconsume
  rw [hencode] at hl hconsume
  have hmem {n : Node} (hn : n ∈ unit.shape.labels) :
      some n ∈ number σ.nextId (metaUnitData inst events) := by
    rw [hencode]
    exact List.mem_append_left _ ((Rose.mem_encode _).2 hn)
  obtain ⟨root, cs⟩ := unit
  rw [AST.shape_node, Tree.encode_node] at hl
  obtain ⟨hroot, htail⟩ := List.cons.inj hl
  refine ⟨⟨hreads.1, fun n hn => hruntime n (hmem hn), fun c hc n hn => ?_, ?_, inst, ?_, t, hread,
    ht, decl.shape, ?_, ?_⟩, rest, _, hconsume, rfl⟩
  · rw [AST.shape_node] at hc
    refine (hspares n ?_).1
    rw [← htail]
    refine List.mem_append_left _ (List.mem_append_left _ ?_)
    rw [Tree.encodeAll, Rose.encodeAll_eq_flatMap]
    exact List.mem_flatMap.2 ⟨c, hc, (Rose.mem_encode _).2 hn⟩
  · rw [AST.shape, Rose.labels_map, List.map_map]
    exact hnodup
  · rw [AST.shape_node, Rose.label_node, Option.some.inj hroot]
  · rw [← haccept.shape ht.wellShaped ht.kind, AST.shape, Rose.children_map]
    exact List.mem_map_of_mem hdecl
  · rw [hinst, AST.shape, Rose.label_map]

include ht haccept hfree in
/-- The nodes of the next unit are not those of the program and of the units before. -/
theorem follows_of_instantiates
    (hrun : Instantiated similarTo a (.ofProgram nextId a s.builder.heap) units σ)
    (hdecl : decl ∈ a.children)
    (h : Instantiates similarTo ctx rt decl inst arguments σ unit σ') :
    Follows ((a :: units).map AST.shape).reverse unit.shape := by
  have hshape := haccept.shape ht.wellShaped ht.kind
  have hprogram : t ∈ ((a :: units).map AST.shape).reverse := by
    rw [List.mem_reverse, List.map_cons, hshape]
    exact List.mem_cons_self
  refine ⟨.inr (isInstance_of_instantiates ht haccept hprogram hdecl h).1, fun u hu m hm n hn => ?_⟩
  rw [List.mem_reverse] at hu
  obtain ⟨v, hv, rfl⟩ := List.mem_map.1 hu
  rw [AST.shape, Rose.labels_map] at hm hn
  obtain ⟨x, hx, rfl⟩ := List.mem_map.1 hm
  obtain ⟨y, hy, rfl⟩ := List.mem_map.1 hn
  have hold := (hrun.isolated ht haccept hfree).allocated v hv x hx
  have hnew := (h.fresh.ids y hy).1
  exact Nat.ne_of_lt (Nat.lt_of_lt_of_le hold hnew)

include ht haccept hfree in
/-- The heap of a run of instantiations is the one that reading the units one after the other
leaves. -/
theorem readUnits_of_instantiated
    (hrun : Instantiated similarTo a (.ofProgram nextId a s.builder.heap) units σ) :
    ReadUnits similarTo ((a :: units).map AST.shape).reverse σ.heap := by
  induction hrun with
  | refl =>
    have hread := haccept.read
    rw [← List.append_nil t.encode, ← ht.kind] at hread
    rw [List.map_cons, haccept.shape ht.wellShaped ht.kind]
    exact .cons .nil ⟨.inl ht, fun _ hu => absurd hu List.not_mem_nil⟩ hread
  | @step units σ σ' decl ctx rt inst arguments unit hrun hdecl hinst ih =>
    have hfollows := follows_of_instantiates ht haccept hfree hrun hdecl hinst
    obtain ⟨hinstance, rest, r, hread, hheap⟩ :=
      isInstance_of_instantiates ht haccept (List.mem_singleton.2 rfl) hdecl hinst
    have hkind : unit.shape.kind = .metaUnit := by
      obtain ⟨inst', hlabel, -⟩ := hinstance.instantiation
      rw [Tree.kind, Node.kind, hlabel]
      rfl
    rw [← hkind] at hread
    rw [← List.cons_append, List.map_append, List.reverse_append, ← hheap]
    exact .cons ih hfollows hread

include ht haccept hfree in
/-- In every sequence of instantiations of the meta declarations of an accepted program, reading the
next unit fails no assertion of the builder. In every state of the reader each name is visible once,
up to a function of the unit that has the name of the meta declaration it was instantiated from. -/
theorem instantiations_visible
    (hrun : Instantiated similarTo a (.ofProgram nextId a s.builder.heap) units σ)
    (hdecl : decl ∈ a.children)
    (h : Instantiates similarTo ctx rt decl inst arguments σ unit σ') :
    ∃ rest b, consume similarTo (.kind .metaUnit) ⟨unit.shape.encode ++ rest, .start σ.heap⟩ =
        .ok (unit, ⟨rest, b⟩) ∧ b.heap = σ'.heap ∧ b.Ok ∧
      ∀ r ∈ readStates similarTo unit.shape (.start σ.heap),
        r.currentScope.env.Distinct unit.label.node := by
  have hfollows := follows_of_instantiates ht haccept hfree hrun hdecl h
  have hread : ReadsUnit ((a :: units).map AST.shape).reverse unit.shape
      (readTree similarTo unit.shape (.start σ.heap)).2
      (readStates similarTo unit.shape (.start σ.heap)) :=
    (readUnits_of_instantiated ht haccept hfree hrun).known.readUnit hfollows
  obtain ⟨hvisible, hasserted, -⟩ := hread
  obtain ⟨-, rest, r, hconsume, hheap⟩ :=
    isInstance_of_instantiates ht haccept (List.mem_singleton.2 rfl) hdecl h
  obtain ⟨-, hrest, hast⟩ := consume_eq_readTree hconsume
  have hrest : r.rest = rest := (List.append_cancel_left hrest).symm
  have hlabel : unit.shape.label = unit.label.node := Rose.label_map ASTNode.node unit
  rw [hast] at hasserted
  rw [hlabel] at hvisible
  obtain ⟨r, b⟩ := r
  obtain rfl : r = rest := hrest
  exact ⟨r, b, hconsume, hheap, hasserted, hvisible⟩

end Program

/-! ## A meta declaration that is instantiated twice -/

namespace ExportedFunction

open ASTLayoutReader.ExportedFunction

/-- The meta declaration `f` as it is read. -/
def decl : AST :=
  .node { node := ⟨1, .metaDecl "f"⟩ } [.node { node := ⟨2, .argumentDeclList⟩ } [],
    .node { node := ⟨3, .metaContribution⟩ } [.node { node := ⟨4, .functionDecl "f"⟩ }
      [.node { node := ⟨5, .argumentDeclList⟩ } [], .node { node := ⟨6, .compoundStmt⟩ } []]]]

def ctx : IRContext := ⟨fun _ => none, fun _ => none⟩

def inst (node : NodeId) : Instantiation := ⟨node, "f", some (1, .metaDecl)⟩

/-- The jump pad of every instantiation. -/
def pad : Blocks Instruction := [[.operation (.callMeta []), .terminator .retVoid]]

/-- The unit that is written from the address on. -/
def written (id node : NodeId) : Tree :=
  .node ⟨id, .metaUnit (inst node)⟩ [.node ⟨id + 1, .functionDecl "f"⟩
    [.node ⟨id + 2, .argumentDeclList⟩ [], .node ⟨id + 3, .compoundStmt⟩ []]]

/-- What reading the program gives. -/
def read : AST × BasicASTBuilder := readTree (fun _ _ => none) program (.start .empty)

theorem accepts_program : AcceptsUnit (fun _ _ => none) .compilationUnit program.encode .empty
    read.1 ⟨[], read.2⟩ := by
  have hread := consume_unit (fun _ _ => none) isProgram.wellShaped [] (.start .empty)
  rw [List.append_nil] at hread
  exact ⟨hread, by decide, by decide⟩

/-- The code of the meta function. -/
def code : CodegenState :=
  ((MetaCodegen.codegen ctx decl (.initial .insideMetaDecl)).toOption.getD
    ((), .initial .insideMetaDecl)).2

theorem codegen_decl : MetaCodegen.codegen ctx decl (.initial .insideMetaDecl) =
    .ok ((), code) :=
  eq_ok_of_isOk (by decide +kernel)

theorem instantiates_written (nextId node : NodeId) (context : ASTContext)
    (hlayout : CodeExecutor.instantiatedLayout default 20 pad code.blocks (inst node)
      context.nextId = some ⟨(written nextId node).encode, nextId + 4⟩) :
    ∃ built context', context'.nextId = nextId + 4 ∧
      Instantiates (fun _ _ => none) ctx default decl (inst node) [[]] context built context' := by
  have hreads : Production.Reads (.kind .metaUnit) (written nextId node) := ⟨rfl, .inl rfl⟩
  obtain ⟨built, context', hrun, hnext⟩ := instantiate_of_encode (fun _ _ => none) hlayout hreads
  exact ⟨built, context', hnext, .mk rfl rfl rfl codegen_decl rfl hrun⟩

end ExportedFunction

open ASTLayoutReader.ExportedFunction ExportedFunction in
/-- The second unit is read on top of the scope of the program, as the first one was. -/
theorem instantiations_visible_twice : ∃ first second σ σ',
    Instantiated (fun _ _ => none) read.1 (.ofProgram 30 read.1 read.2.heap) [first] σ ∧
      Instantiates (fun _ _ => none) ctx default decl (inst 21) [[]] σ second σ' ∧
      ∃ rest b, consume (fun _ _ => none) (.kind .metaUnit)
          ⟨second.shape.encode ++ rest, .start σ.heap⟩ = .ok (second, ⟨rest, b⟩) ∧ b.Ok ∧
        ∀ r ∈ readStates (fun _ _ => none) second.shape (.start σ.heap),
          r.currentScope.env.Distinct second.label.node := by
  obtain ⟨first, σ, hσ, hfirst⟩ := instantiates_written 30 20
    (.ofProgram 30 read.1 read.2.heap) (by decide +kernel)
  obtain ⟨second, σ', -, hsecond⟩ := instantiates_written 34 21 σ
    (by rw [hσ]; decide +kernel)
  have hdecl : decl ∈ read.1.children := List.mem_cons_self
  have hrun := Instantiated.refl.step hdecl hfirst
  obtain ⟨rest, b, hread, -, hok, hvisible⟩ := instantiations_visible isProgram accepts_program
    (by decide) hrun hdecl hsecond
  exact ⟨first, second, σ, σ', hrun, hsecond, rest, b, hread, hok, hvisible⟩

end Swy
