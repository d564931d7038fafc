import Swy.Codegen.Isolation
import Swy.Codegen.ReadableUnits
import Swy.Sema.CallChecks

/-!
# Calls of instantiations

The code of a call is generated for the type of the function that its callee was looked up to. For
an instantiation that is the function which its unit exports, and what the unit has is only known
once the meta function was run. Nothing compares the two. So in a program whose units are read and
analysed without an error, a call is well formed exactly if it calls a name, or if what the meta
function contributes for the instantiation has a function with the name of the meta declaration that
fits the call (`calls_wellFormed_iff`).
-/

namespace Swy

open Library ASTLayoutReader

/-! ## Completed instantiations -/

/-- An instantiation that was completed: what its meta function was generated for and run with, and
the unit that was read from what it wrote. -/
structure CompletedInst where
  inst : Instantiation
  decl : AST
  ctx : IRContext
  rt : Runtime
  arguments : List Word
  unit : AST

/-- What the code generation looks up: the declarations of the program and of the units, and of
every completed instantiation what its unit exports. -/
def IRContext.ofCompleted (program : AST) (completed : List CompletedInst) (heap : ASTHeap) :
    IRContext :=
  .ofUnits (program :: completed.map CompletedInst.unit) fun inst =>
    ((completed.find? fun c => c.inst.node == inst).bind fun c =>
      heap.exportedNode c.unit.label.node.id).map Node.id

/-- The expression names the meta declaration and has the arguments as its literals. -/
def CompletedInst.IsOf (c : CompletedInst) (expr : AST) : Prop :=
  expr.label.node = ⟨c.inst.node, .metaInstantiationExpr⟩ ∧
    ∃ name arguments, expr.children = name :: arguments ∧
      name.label.decl = some c.decl.label.node ∧
      arguments.map (fun arg => arg.label.node.data) = c.arguments.map .integerLiteralExpr

/-- The instantiations of a program one after the other, as `CodeExecutor::instantiate` completes
them: of an expression of the program or of a unit before, one that is cached not again, and each
unit is read and analysed without an error. -/
inductive CompletedRun (similarTo : ScopeChain → Identifier → Option Node) (program : AST)
    (start : ASTContext) : List CompletedInst → ASTContext → Prop
  | refl : CompletedRun similarTo program start [] start
  | step {completed : List CompletedInst} {c : CompletedInst} {σ σ' : ASTContext} {u expr : AST}
    {reader : ASTLayoutReader.State} {ds : List Diagnostic} :
    CompletedRun similarTo program start completed σ → c.decl ∈ program.children →
    u ∈ program :: completed.map CompletedInst.unit → expr ∈ u.subtrees → c.IsOf expr →
    (∀ c' ∈ completed, c'.inst.node ≠ c.inst.node) →
    Instantiates similarTo c.ctx c.rt c.decl c.inst [c.arguments] σ c.unit σ' →
    AcceptsUnit similarTo .metaUnit c.unit.shape.encode σ.heap c.unit reader →
    SemaAnalysis.checkAST (.ofCompleted program (completed ++ [c]) σ'.heap) c.unit = .ok ds →
    hasErrors ds = false →
    CompletedRun similarTo program start (completed ++ [c]) σ'

namespace CompletedInst

/-- The forest that the callbacks of the meta function write into the unit. -/
structure Contributes (c : CompletedInst) (ts : List (Rose NodeData)) : Prop where
  spliced : IsSpliced (.node (.metaUnit c.inst) ts)
  written : ∃ n args contribution rest, c.decl = .node n [args, contribution] ∧
    metaUnitData c.inst (Interpreter.execMetaFunction c.ctx c.rt c.arguments args contribution
      c.rt.memory).events = encodeData [.node (.metaUnit c.inst) ts] ++ rest

variable {c : CompletedInst} {ts ts' : List (Rose NodeData)}

/-- What is contributed is written in one way only. -/
theorem Contributes.unique (h : c.Contributes ts) (h' : c.Contributes ts') : ts = ts' := by
  have tree (ts : List (Rose NodeData)) (rest : List (Option NodeData)) : ∃ (T : Tree) (l : Layout),
      T.encode ++ l = number 0 (encodeData [.node (.metaUnit c.inst) ts] ++ rest) ∧
        T.map Node.data = .node (.metaUnit c.inst) ts := by
    obtain ⟨Ts, hencode, hdata⟩ := exists_encodeAll_number 0 [.node (.metaUnit c.inst) ts]
    obtain ⟨T, rfl, hT⟩ := List.map_eq_singleton_iff.1 hdata
    rw [Tree.encodeAll_cons, Tree.encodeAll_nil, List.append_nil] at hencode
    exact ⟨T, _, by rw [number_append, hencode], hT⟩
  obtain ⟨n, args, contribution, rest, hdecl, hwritten⟩ := h.written
  obtain ⟨n', args', contribution', rest', hdecl', hwritten'⟩ := h'.written
  rw [hdecl] at hdecl'
  cases hdecl'
  obtain ⟨T, l, hencode, hT⟩ := tree ts rest
  obtain ⟨T', l', hencode', hT'⟩ := tree ts' rest'
  have hsame : T.encode ++ l = T'.encode ++ l' := by
    rw [hencode, hencode', ← hwritten, ← hwritten']
  obtain ⟨rfl, -⟩ := Rose.Ranked.uniquelyRead T (ranked_of_spliced T (by rw [hT]; exact h.spliced))
    T' l l' (ranked_of_spliced T' (by rw [hT']; exact h'.spliced)) hsame
  rw [hT] at hT'
  exact (Rose.node.inj hT').2

/-- Where no calculation returns, these are the parameters and the expansion of the contribution. -/
theorem contributes_expand {program : AST} (hp : program.shape.IsProgram) {n : ASTNode}
    {args contribution : AST} (hdecl : c.decl = .node n [args, contribution])
    (hmem : c.decl ∈ program.children) (hk : n.node.kind = .metaDecl)
    (hreturn : contribution.CalculatesWithoutReturn)
    (hlength : c.arguments.length = args.children.length) :
    c.Contributes (parameterTrees args.children c.arguments ++
      (expand c.ctx c.rt .topLevel contribution
        (Interpreter.bindArguments c.arguments 0 args.children c.rt.memory).memory).1) := by
  rw [hdecl] at hmem
  have hids := (metaDecl_parts hp hmem hk).1
  refine ⟨(contributes_of_isProgram c.ctx c.rt hp hmem hk _ _).2 c.inst, n, args, contribution, [],
    hdecl, ?_⟩
  rw [metaUnitData, (execMetaFunction_writes c.ctx hreturn hids hlength).writtenData,
    List.append_nil, encodeData_node]
  rfl

end CompletedInst

/-! ## What the units have -/

/-- What holds of a unit from the instantiation on that built it: it exports the function of the
contribution with the name of the meta declaration, if there is one. -/
structure CompletedInst.Built (σ : ASTContext) (c : CompletedInst) : Prop where
  distinct : (c.unit.labels.map fun n => n.node.id).Nodup
  contributes : c.Contributes (c.unit.children.map AST.data)
  exported : ∀ e, σ.heap.exportedNode c.unit.label.node.id = some e ↔
    ∃ f ∈ c.unit.children, f.label.node = e ∧ e.name? = some c.inst.name
  functionDecl : ∀ f ∈ c.unit.children, f.label.node.name? = some c.inst.name →
    AST.kind f = .functionDecl

theorem CompletedInst.Built.keeps {σ σ' : ASTContext} {c : CompletedInst} (h : c.Built σ)
    (hkeeps : σ.Keeps σ' c.unit.label.node.id) : c.Built σ' where
  distinct := h.distinct
  contributes := h.contributes
  exported := by
    rw [hkeeps.exportedNode]
    exact h.exported
  functionDecl := h.functionDecl

/-- A call of the meta function does what the structural interpreter does. -/
theorem events_of_invoke {ctx : IRContext} {n : ASTNode} {args contribution : AST}
    {metaFunction : CodegenState}
    (hmeta : MetaCodegen.codegen ctx (.node n [args, contribution]) (.initial .insideMetaDecl) =
      .ok ((), metaFunction))
    {rt : Runtime} {fuel : Nat} {pad : Blocks Instruction} {arguments : List Word}
    (hcalls : CodeExecutor.metaCalls rt fuel pad = some [arguments]) {events : List Event}
    (hinvoke : CodeExecutor.invoke rt fuel pad metaFunction.blocks = some events) :
    events =
      (Interpreter.execMetaFunction ctx rt arguments args contribution rt.memory).events := by
  rw [CodeExecutor.invoke_eq, hcalls, Option.bind_some, List.mapM_cons] at hinvoke
  obtain ⟨traces, htraces, rfl⟩ := Option.map_eq_some_iff.1 hinvoke
  obtain ⟨trace, hrun, hrest⟩ := Option.bind_eq_some_iff.1 htraces
  cases hrest
  exact (List.append_nil trace).trans (runMetaFunction_eq hmeta hrun)

section Program

variable {similarTo : ScopeChain → Identifier → Option Node} {t : Tree} {a : AST}
  {s : ASTLayoutReader.State} (ht : t.IsProgram)
  (haccept : AcceptsUnit similarTo .compilationUnit t.encode .empty a s) {nextId : NodeId}
  (hfree : ∀ n ∈ t.labels, n.id < nextId) {σ σ' : ASTContext} {completed : List CompletedInst}
  {c : CompletedInst}

include ht haccept in
theorem built_of_instantiates {start : ASTContext} {units : List AST}
    (hisolated : Isolated start σ units) (hdecl : c.decl ∈ a.children)
    (h : Instantiates similarTo c.ctx c.rt c.decl c.inst [c.arguments] σ c.unit σ')
    {reader : ASTLayoutReader.State}
    (hunit : AcceptsUnit similarTo .metaUnit c.unit.shape.encode σ.heap c.unit reader) :
    c.Built σ' := by
  obtain ⟨hdata, hname, -, hmeta, hcalls, hrun⟩ := h
  rename_i name metaFunction pad fuel
  obtain ⟨events, rest, r, hevents, hread, rfl⟩ := instantiate_eq_some.1 hrun
  obtain ⟨hreads, hencode, hast⟩ := consume_eq_readTree hread
  -- Reading does not depend on what follows the unit.
  have hbuilder : r = reader.builder :=
    (Prod.mk.inj (hast.symm.trans (consume_eq_readTree hunit.read).2.2)).2
  have haccepts : AcceptsUnit similarTo .metaUnit (number σ.nextId (metaUnitData c.inst events))
      σ.heap c.unit ⟨rest, r⟩ :=
    ⟨hread, by rw [hbuilder]; exact hunit.ok, by rw [hbuilder]; exact hunit.noErrors⟩
  have hlayout := CodeExecutor.instantiatedLayout_number c.rt fuel pad metaFunction.blocks c.inst
    σ.nextId
  rw [hevents, Option.map_some] at hlayout
  have hfresh : σ.heap.exportedNode σ.nextId = none :=
    hisolated.free.exportedNode _ (Nat.lt_irrefl _)
  obtain ⟨hexported, -, hfunction⟩ := exportedNode_functionDecl ht haccept hdecl hdata hmeta hname
    hlayout hfresh haccepts
  rw [← hname] at hexported hfunction
  refine ⟨(ids_of_consume hread).1, ?_, hexported, hfunction⟩
  have hwritten : metaUnitData c.inst events =
      encodeData [c.unit.data] ++ rest.map (Option.map Node.data) := by
    have hmarks : (Tree.encode c.unit.shape).map (Option.map Node.data) =
        encodeData [c.unit.data] := by
      rw [encodeData, Rose.encodeAll_cons, Rose.encodeAll_nil, List.append_nil,
        ← AST.map_data_shape]
      exact (Rose.encode_map Node.data (fun d => d.kind.isRequiringReduceMarker) _).symm
    have hnumber : number σ.nextId (metaUnitData c.inst events) =
        Tree.encode c.unit.shape ++ rest :=
      hencode
    rw [← hmarks, ← List.map_append, ← hnumber, map_data_number]
  have hspliced := (wellShaped_iff_spliced.1 hreads.1).1
  rw [AST.map_data_shape] at hspliced
  have hroot : c.unit.data = .node (.metaUnit c.inst) (c.unit.children.map AST.data) := by
    obtain ⟨inst, decl, ctx, rt, arguments, root, cs⟩ := c
    have hnode := (metaUnit_spares ht haccept hdecl hdata hmeta hlayout haccepts).1
    rw [AST.data, Rose.map_node, hnode]
    rfl
  rw [hroot] at hspliced hwritten
  obtain ⟨n, args, contribution, hparts⟩ := MetaCodegen.codegen_ok hmeta
  rw [hparts] at hmeta
  rw [events_of_invoke hmeta hcalls hevents] at hwritten
  exact ⟨hspliced, n, args, contribution, _, hparts, hwritten⟩

namespace CompletedRun

variable {start : ASTContext}

/-- It is a sequence of instantiations. -/
theorem instantiated (h : CompletedRun similarTo a start completed σ) :
    Instantiated similarTo a start (completed.map CompletedInst.unit) σ := by
  induction h with
  | refl => exact .refl
  | step _ hdecl _ _ _ _ hinst _ _ _ ih =>
    rw [List.map_append]
    exact ih.step hdecl hinst

/-- A completed instantiation is found in the cache. -/
theorem find (h : CompletedRun similarTo a start completed σ) (hc : c ∈ completed) :
    completed.find? (fun c' => c'.inst.node == c.inst.node) = some c := by
  induction h with
  | refl => exact absurd hc List.not_mem_nil
  | @step completed c' _ _ _ _ _ _ _ _ _ _ _ hnew _ _ _ _ ih =>
    rw [List.find?_append]
    rcases List.mem_append.1 hc with hc | hc
    · rw [ih hc]
      rfl
    · obtain rfl : c = c' := List.mem_singleton.1 hc
      have hnone : completed.find? (fun c' => c'.inst.node == c.inst.node) = none :=
        List.find?_eq_none.2 fun c' hc' hid => hnew c' hc' (eq_of_beq hid)
      rw [hnone, Option.none_or]
      exact List.find?_cons_of_pos (beq_self_eq_true _)

include ht haccept hfree in
/-- Every unit has from its instantiation on what it has behind it. -/
theorem built
    (h : CompletedRun similarTo a (.ofProgram nextId a s.builder.heap) completed σ) :
    ∀ c ∈ completed, c.Built σ := by
  induction h with
  | refl => exact fun _ hc => absurd hc List.not_mem_nil
  | @step completed c' σ σ' _ _ _ _ hrun hdecl _ _ _ _ hinst hunit _ _ ih =>
    have hisolated := hrun.instantiated.isolated ht haccept hfree
    intro c hc
    rcases List.mem_append.1 hc with hc | hc
    · have hroot : c.unit.label ∈ c.unit.labels :=
        Rose.label_mem_labels (Rose.mem_subtrees_self _)
      have hold := hisolated.allocated c.unit
        (List.mem_cons_of_mem _ (List.mem_map_of_mem hc)) _ hroot
      exact (ih c hc).keeps (hinst.fresh.keeps _ hold)
    · obtain rfl : c = c' := List.mem_singleton.1 hc
      exact built_of_instantiates ht haccept hisolated hdecl hinst hunit

include ht haccept hfree in
/-- The nodes of the program and of the units are different nodes. -/
theorem distinct
    (h : CompletedRun similarTo a (.ofProgram nextId a s.builder.heap) completed σ) :
    (((a :: completed.map CompletedInst.unit).flatMap Rose.labels).map
      fun n => n.node.id).Nodup := by
  have hisolated := h.instantiated.isolated ht haccept hfree
  rw [List.map_flatMap, List.nodup_flatMap]
  constructor
  · intro u hu
    rcases List.mem_cons.1 hu with rfl | hu
    · have hids := ht.distinct
      rw [← haccept.shape ht.wellShaped ht.kind, AST.shape, Rose.labels_map, List.map_map] at hids
      exact hids
    · obtain ⟨c, hc, rfl⟩ := List.mem_map.1 hu
      exact (h.built ht haccept hfree c hc).distinct
  · refine hisolated.disjoint.imp fun {u v} huv id hu hv => ?_
    obtain ⟨x, hx, rfl⟩ := List.mem_map.1 hu
    obtain ⟨y, hy, hid⟩ := List.mem_map.1 hv
    exact huv x hx y hy hid.symm

include ht haccept hfree in
/-- A completed instantiation is looked up to the function of its unit that has the name of the meta
declaration. -/
theorem lookupInstantiation_iff
    (h : CompletedRun similarTo a (.ofProgram nextId a s.builder.heap) completed σ)
    (hc : c ∈ completed) (type : FunctionType) :
    (∃ function, (IRContext.ofCompleted a completed σ.heap).lookupInstantiation c.inst.node =
        some (function, type)) ↔
      ∃ f ∈ c.unit.children, f.label.node.name? = some c.inst.name ∧
        getFunctionTypeOf f = some type := by
  have hexported : (IRContext.ofCompleted a completed σ.heap).exportedNode c.inst.node =
      (σ.heap.exportedNode c.unit.label.node.id).map Node.id := by
    simp only [IRContext.ofCompleted, IRContext.ofUnits, h.find hc, Option.bind_some]
  have hfound {f : AST} (hf : f ∈ c.unit.children) :
      (IRContext.ofCompleted a completed σ.heap).lookupGlobal f.label.node.id =
        getFunctionTypeOf f := by
    have hsub : f ∈ c.unit.subtrees := by
      obtain ⟨inst, decl, ctx, rt, arguments, root, cs⟩ := c
      exact Rose.child_mem_subtrees hf
    rw [IRContext.lookupGlobal, IRContext.ofCompleted, IRContext.declaringNode_ofUnits
      (h.distinct ht haccept hfree) (List.mem_cons_of_mem _ (List.mem_map_of_mem hc)) hsub]
    rfl
  have hbuilt := h.built ht haccept hfree c hc
  simp only [IRContext.lookupInstantiation, hexported, Option.bind_eq_bind]
  constructor
  · rintro ⟨function, hlookup⟩
    obtain ⟨id, hid, hlookup⟩ := Option.bind_eq_some_iff.1 hlookup
    obtain ⟨e, he, rfl⟩ := Option.map_eq_some_iff.1 hid
    obtain ⟨type', htype, hresult⟩ := Option.bind_eq_some_iff.1 hlookup
    cases hresult
    obtain ⟨f, hf, rfl, hname⟩ := (hbuilt.exported e).1 he
    exact ⟨f, hf, hname, (hfound hf).symm.trans htype⟩
  · rintro ⟨f, hf, hname, htype⟩
    have he := (hbuilt.exported f.label.node).2 ⟨f, hf, rfl, hname⟩
    refine ⟨f.label.node.id, ?_⟩
    rw [he, Option.map_some, Option.bind_some, hfound hf, htype]
    rfl

end CompletedRun

end Program

/-! ## Calls -/

namespace Visit

/-- The callee is the instantiation. -/
def callsInstantiation (v : Visit) (inst : NodeId) : Bool :=
  v.base.children.head?.any fun callee => callee.label.node == ⟨inst, .metaInstantiationExpr⟩

/-- A function with the name has as many parameters as the call passes arguments, and where it
returns nothing, the call is an expression statement. -/
def fitsFunction (v : Visit) (name : Identifier) : Rose NodeData → Bool
  | .node data (args :: returnTypeAndBody) =>
    data == .functionDecl name && args.children.length == v.base.children.tail.length &&
      (1 < returnTypeAndBody.length || v.above.head?.any fun n => n.node.kind == .expressionStmt)
  | _ => false

variable {v : Visit} {ctx ctx' : IRContext}

/-- What a function of a unit is for a call. -/
theorem fitsFunction_data {name : Identifier} {f : AST} :
    v.fitsFunction name f.data = true ↔ f.label.node.data = .functionDecl name ∧
      ∃ type, getFunctionTypeOf f = some type ∧ type.params = v.base.children.tail.length ∧
        (type.returnsVoid = false ∨
          (v.above.head?.any fun n => n.node.kind == .expressionStmt) = true) := by
  obtain ⟨⟨⟨id, data⟩, decl, exportedDecls⟩, cs⟩ := f
  rw [AST.data, Rose.map_node]
  cases cs with
  | nil =>
    constructor
    · intro h
      cases h
    · rintro ⟨-, type, htype, -⟩
      cases htype
  | cons args rest =>
    simp only [List.map_cons, fitsFunction, Rose.children_map, List.length_map, Bool.and_eq_true,
      Bool.or_eq_true, beq_iff_eq, decide_eq_true_eq, Rose.label_node]
    constructor
    · rintro ⟨⟨rfl, hparams⟩, hvoid⟩
      refine ⟨rfl, _, rfl, hparams, hvoid.imp_left fun h => ?_⟩
      exact decide_eq_false (Nat.not_lt.2 h)
    · rintro ⟨rfl, type, htype, hparams, hvoid⟩
      cases htype
      exact ⟨⟨rfl, hparams⟩, hvoid.imp_left fun h => Nat.not_lt.1 (of_decide_eq_false h)⟩

/-- What the callee was looked up to is for a call. -/
theorem isWellFormedCall_iff {contributed : Bool} {above : List ASTNode} {n : ASTNode}
    {callee : AST} {args : List AST} :
    isWellFormedCall ctx ⟨contributed, above, .node n (callee :: args)⟩ = true ↔
      ∃ type, ctx.calleeType callee = some type ∧ type.params = args.length ∧
        (type.returnsVoid = false ∨
          (above.head?.any fun n => n.node.kind == .expressionStmt) = true) := by
  simp only [isWellFormedCall, Option.any_eq_true, Bool.and_eq_true, Bool.or_eq_true, beq_iff_eq,
    Bool.not_eq_true']

/-- A call by name stays well formed where more declarations are at hand. -/
theorem isWellFormedCall_of_declaringNode
    (hdecls : ∀ id b, ctx.declaringNode id = some b → ctx'.declaringNode id = some b)
    (hname : v.callsByName = true) (h : v.isWellFormedCall ctx = true) :
    v.isWellFormedCall ctx' = true := by
  obtain ⟨contributed, above, n, cs⟩ := v
  cases cs with
  | nil => cases h
  | cons callee args =>
    obtain ⟨⟨⟨id, data⟩, decl, exportedDecls⟩, ds⟩ := callee
    cases data <;> try cases hname
    obtain ⟨type, htype, hfits⟩ := isWellFormedCall_iff.1 h
    refine isWellFormedCall_iff.2 ⟨type, ?_, hfits⟩
    obtain ⟨d, hd, hglobal⟩ := Option.bind_eq_some_iff.1 htype
    obtain ⟨hk, hglobal⟩ := Option.ite_none_right_eq_some.1 hglobal
    obtain ⟨b, hb, hb'⟩ := Option.bind_eq_some_iff.1 hglobal
    refine Option.bind_eq_some_iff.2 ⟨d, hd, ?_⟩
    rw [if_pos hk]
    exact Option.bind_eq_some_iff.2 ⟨b, hdecls _ b hb, hb'⟩

end Visit

namespace SemaAnalysis

section Program

variable {similarTo : ScopeChain → Identifier → Option Node} {t : Tree} {a : AST}
  {s : ASTLayoutReader.State} (ht : t.IsProgram)
  (haccept : AcceptsUnit similarTo .compilationUnit t.encode .empty a s) {nextId : NodeId}
  (hfree : ∀ n ∈ t.labels, n.id < nextId) {ds : List Diagnostic}
  (hcheck : checkAST (.ofCompleted a [] s.builder.heap) a = .ok ds) (herrors : hasErrors ds = false)
  {completed : List CompletedInst} {σ : ASTContext}

include haccept hcheck herrors in
/-- In the program and in the units, every call by name is well formed. -/
theorem isWellFormedCall_of_completed
    (hrun : CompletedRun similarTo a (.ofProgram nextId a s.builder.heap) completed σ) {u : AST}
    (hu : u ∈ a :: completed.map CompletedInst.unit) {v : Visit} (hv : v ∈ u.visited false [])
    (hk : v.base.kind = .callOperatorExpr) (hc : v.contributed = false)
    (hname : v.callsByName = true) :
    v.isWellFormedCall (.ofCompleted a completed σ.heap) = true := by
  induction hrun with
  | refl =>
    rw [List.mem_singleton.1 hu] at hv
    exact isWellFormedCall_of_callsByName haccept hcheck herrors hv hk hc hname
  | @step completed c _ _ _ _ _ _ _ _ _ _ _ _ _ hunit hunitCheck hunitErrors ih =>
    rw [List.map_append, ← List.cons_append] at hu
    rcases List.mem_append.1 hu with hu | hu
    · refine Visit.isWellFormedCall_of_declaringNode (fun id b hb => ?_) hname (ih hu)
      rw [IRContext.ofCompleted, List.map_append, ← List.cons_append]
      exact IRContext.declaringNode_append hb _ _
    · rw [List.mem_singleton.1 hu] at hv
      exact isWellFormedCall_of_callsByName hunit hunitCheck hunitErrors hv hk hc hname

include ht haccept hfree hcheck herrors in
/-- In a program that was analysed without an error, and in the units of its instantiations, which
were, too, a call whose code is generated is well formed exactly if it calls a name, or if what the
meta function contributed for the instantiation that it calls has a function with the name of the
meta declaration that fits the call. -/
theorem calls_wellFormed_iff
    (hrun : CompletedRun similarTo a (.ofProgram nextId a s.builder.heap) completed σ) :
    ∀ u ∈ a :: completed.map CompletedInst.unit, ∀ v ∈ u.visited false [],
      v.base.kind = .callOperatorExpr → v.contributed = false →
      (v.isWellFormedCall (.ofCompleted a completed σ.heap) = true ↔
        v.callsByName = true ∨ ∃ c ∈ completed, v.callsInstantiation c.inst.node = true ∧
          ∃ ts, c.Contributes ts ∧ ∃ f ∈ ts, v.fitsFunction c.inst.name f = true) := by
  intro u hu v hv hk hc
  by_cases hname : v.callsByName = true
  · have hcall := isWellFormedCall_of_completed haccept hcheck herrors hrun hu hv hk hc hname
    exact ⟨fun _ => .inl hname, fun _ => hcall⟩
  clear hv hk hc
  obtain ⟨contributed, above, n, cs⟩ := v
  cases cs with
  | nil =>
    constructor
    · intro h
      cases h
    · rintro (h | ⟨c, -, h, -⟩)
      · cases h
      · cases h
  | cons callee args =>
    rw [Visit.isWellFormedCall_iff]
    constructor
    · rintro ⟨type, htype, hfits⟩
      obtain ⟨⟨⟨id, data⟩, decl, exportedDecls⟩, ds⟩ := callee
      cases data <;> try cases htype
      case declRefExpr => exact absurd rfl hname
      obtain ⟨⟨function, type'⟩, hlookup, rfl⟩ := Option.map_eq_some_iff.1 htype
      obtain ⟨function', hexported, -⟩ := Option.bind_eq_some_iff.1 hlookup
      obtain ⟨e, he, -⟩ := Option.map_eq_some_iff.1 hexported
      obtain ⟨c, hfind, -⟩ := Option.bind_eq_some_iff.1 he
      have hc := List.mem_of_find?_eq_some hfind
      have hnode := List.find?_some hfind
      obtain rfl : c.inst.node = id := eq_of_beq hnode
      obtain ⟨f, hf, hfname, hftype⟩ :=
        (hrun.lookupInstantiation_iff ht haccept hfree hc type').1 ⟨function, hlookup⟩
      have hbuilt := hrun.built ht haccept hfree c hc
      have hdata : f.label.node.data = .functionDecl c.inst.name := by
        have hkind := hbuilt.functionDecl f hf hfname
        obtain ⟨⟨⟨fid, fdata⟩, fdecl, fdecls⟩, fs⟩ := f
        cases fdata <;> try cases hkind
        exact congrArg NodeData.functionDecl (Option.some.inj hfname)
      exact .inr ⟨c, hc, beq_self_eq_true _, _, hbuilt.contributes, _, List.mem_map_of_mem hf,
        Visit.fitsFunction_data.2 ⟨hdata, type', hftype, hfits⟩⟩
    · rintro (h | ⟨c, hc, hcalls, ts, hts, f, hf, hfits⟩)
      · exact absurd h hname
      · have hbuilt := hrun.built ht haccept hfree c hc
        rw [hts.unique hbuilt.contributes] at hf
        obtain ⟨g, hg, rfl⟩ := List.mem_map.1 hf
        obtain ⟨hdata, type, htype, hfits⟩ := Visit.fitsFunction_data.1 hfits
        have hgname : g.label.node.name? = some c.inst.name := by
          rw [Node.name?, hdata]
          rfl
        obtain ⟨function, hlookup⟩ :=
          (hrun.lookupInstantiation_iff ht haccept hfree hc type).2 ⟨g, hg, hgname, htype⟩
        refine ⟨type, ?_, hfits⟩
        obtain ⟨⟨node, decl, exportedDecls⟩, ds⟩ := callee
        obtain rfl : node = ⟨c.inst.node, .metaInstantiationExpr⟩ := eq_of_beq hcalls
        exact Option.map_eq_some_iff.2 ⟨_, hlookup, rfl⟩

end Program

/-! ## A call of an instantiation that is completed -/

namespace InstantiatedCall

/-- `f() -> { g<1>(..); } g<int> -> { g() -> { } }` with the given arguments of the call. -/
def program (arguments : List Tree) : Tree :=
  .node ⟨0, .compilationUnit⟩
    [.node ⟨1, .functionDecl "f"⟩ [.node ⟨2, .argumentDeclList⟩ [],
      .node ⟨3, .compoundStmt⟩ [.node ⟨4, .expressionStmt⟩ [.node ⟨5, .callOperatorExpr⟩
        (.node ⟨6, .metaInstantiationExpr⟩
          [.node ⟨7, .declRefExpr "g"⟩ [], .node ⟨8, .integerLiteralExpr 1⟩ []] :: arguments)]]],
    .node ⟨9, .metaDecl "g"⟩
      [.node ⟨10, .argumentDeclList⟩ [.node ⟨11, .anonymousArgumentDecl⟩ []],
        .node ⟨12, .metaContribution⟩ [.node ⟨13, .functionDecl "g"⟩
          [.node ⟨14, .argumentDeclList⟩ [], .node ⟨15, .compoundStmt⟩ []]]]]

/-- `5`. -/
def argument : Tree := .node ⟨16, .integerLiteralExpr 5⟩ []

/-- The program as it is read. -/
def read (arguments : List Tree) : AST × BasicASTBuilder :=
  readTree (fun _ _ => none) (program arguments) (.start .empty)

/-- The meta declaration as it is read. -/
def decl : AST :=
  .node { node := ⟨9, .metaDecl "g"⟩ }
    [.node { node := ⟨10, .argumentDeclList⟩ } [.node { node := ⟨11, .anonymousArgumentDecl⟩ } []],
      .node { node := ⟨12, .metaContribution⟩ } [.node { node := ⟨13, .functionDecl "g"⟩ }
        [.node { node := ⟨14, .argumentDeclList⟩ } [], .node { node := ⟨15, .compoundStmt⟩ } []]]]

def ctx : IRContext := ⟨fun _ => none, fun _ => none⟩

def inst : Instantiation := ⟨6, "g", some (9, .metaDecl)⟩

/-- The jump pad, which passes the argument on. -/
def pad : Blocks Instruction := [[.operation (.callMeta [.constant 1]), .terminator .retVoid]]

/-- The code of the meta function. -/
def code : CodegenState :=
  ((MetaCodegen.codegen ctx decl (.initial .insideMetaDecl)).toOption.getD
    ((), .initial .insideMetaDecl)).2

theorem codegen_decl :
    MetaCodegen.codegen ctx decl (.initial .insideMetaDecl) = .ok ((), code) :=
  eq_ok_of_isOk (by decide +kernel)

/-- The unit that is written. -/
def written : Tree :=
  .node ⟨20, .metaUnit inst⟩ [.node ⟨21, .functionDecl "g"⟩
    [.node ⟨22, .argumentDeclList⟩ [], .node ⟨23, .compoundStmt⟩ []]]

/-- The unit as it is read behind the program. -/
def unit (arguments : List Tree) : AST × BasicASTBuilder :=
  readTree (fun _ _ => none) written (.start (read arguments).2.heap)

def completed (arguments : List Tree) : CompletedInst :=
  ⟨inst, decl, ctx, default, [1], (unit arguments).1⟩

/-- The context behind the program. -/
def context (arguments : List Tree) : ASTContext :=
  .ofProgram 20 (read arguments).1 (read arguments).2.heap

/-- The context behind the instantiation. -/
def context' (arguments : List Tree) : ASTContext :=
  ⟨24, (unit arguments).2.heap,
    ASTContext.setFields (unit arguments).1 (context arguments).objects⟩

/-- The call without an argument and the one with an argument. -/
def Calls (arguments : List Tree) : Prop := arguments = [] ∨ arguments = [argument]

theorem isProgram {arguments : List Tree} (h : Calls arguments) :
    (program arguments).IsProgram := by
  rcases h with rfl | rfl <;> exact ⟨rfl, by decide, by decide, by decide⟩

theorem accepts {arguments : List Tree} (h : Calls arguments) :
    AcceptsUnit (fun _ _ => none) .compilationUnit (program arguments).encode .empty
      (read arguments).1 ⟨[], (read arguments).2⟩ := by
  have hread := consume_unit (fun _ _ => none) (isProgram h).wellShaped [] (.start .empty)
  rw [List.append_nil] at hread
  refine ⟨hread, ?_, ?_⟩
  · rcases h with rfl | rfl <;> decide
  · rcases h with rfl | rfl <;> decide

theorem instantiates (arguments : List Tree) :
    Instantiates (fun _ _ => none) ctx default decl inst [[1]] (context arguments)
      (unit arguments).1 (context' arguments) := by
  have hlayout : CodeExecutor.instantiatedLayout default 20 pad code.blocks inst 20 =
      some ⟨written.encode, 24⟩ := by decide +kernel
  have hrun : CodeExecutor.instantiate (fun _ _ => none) default 20 pad code.blocks inst
      (context arguments) = some ((unit arguments).1, context' arguments) :=
    instantiate_eq_of_encode (fun _ _ => none) hlayout ⟨by decide, .inl rfl⟩
  exact .mk rfl rfl rfl codegen_decl rfl hrun

/-- What reading the program makes of the expression. -/
def expr : AST :=
  .node { node := ⟨6, .metaInstantiationExpr⟩ }
    [.node ⟨⟨7, .declRefExpr "g"⟩, some ⟨9, .metaDecl "g"⟩, []⟩ [],
      .node { node := ⟨8, .integerLiteralExpr 1⟩ } []]

/-- What reading the program makes of the function. -/
def function (arguments : List AST) : AST :=
  .node { node := ⟨1, .functionDecl "f"⟩ } [.node { node := ⟨2, .argumentDeclList⟩ } [],
    .node { node := ⟨3, .compoundStmt⟩ } [.node { node := ⟨4, .expressionStmt⟩ }
      [.node { node := ⟨5, .callOperatorExpr⟩ } (expr :: arguments)]]]

theorem read_eq {arguments : List Tree} (h : Calls arguments) :
    (read arguments).1 = .node { node := ⟨0, .compilationUnit⟩ }
      [function (arguments.map (Rose.map fun n => { node := n })), decl] := by
  rcases h with rfl | rfl <;> rfl

theorem expr_mem {arguments : List Tree} (h : Calls arguments) :
    expr ∈ (read arguments).1.subtrees := by
  rw [read_eq h]
  refine Rose.mem_subtrees_node.2 (.inr ⟨_, List.mem_cons_self, ?_⟩)
  refine Rose.mem_subtrees_node.2 (.inr ⟨_, List.mem_cons_of_mem _ List.mem_cons_self, ?_⟩)
  refine Rose.mem_subtrees_node.2 (.inr ⟨_, List.mem_cons_self, ?_⟩)
  refine Rose.mem_subtrees_node.2 (.inr ⟨_, List.mem_cons_self, ?_⟩)
  exact Rose.child_mem_subtrees List.mem_cons_self

theorem accepts_unit {arguments : List Tree} (h : Calls arguments) :
    AcceptsUnit (fun _ _ => none) .metaUnit (unit arguments).1.shape.encode
      (context arguments).heap (unit arguments).1 ⟨[], (unit arguments).2⟩ := by
  have hwell : written.WellShaped := by decide
  have hread := consume_unit (fun _ _ => none) hwell [] (.start (read arguments).2.heap)
  rw [List.append_nil] at hread
  rw [unit, readTree_shape written hwell]
  refine ⟨hread, ?_, ?_⟩
  · rcases h with rfl | rfl <;> decide
  · rcases h with rfl | rfl <;> decide

theorem completedRun {arguments : List Tree} (h : Calls arguments) :
    CompletedRun (fun _ _ => none) (read arguments).1 (context arguments) [completed arguments]
      (context' arguments) := by
  have hdecl : decl ∈ (read arguments).1.children := by
    rw [read_eq h]
    exact .tail _ (.head _)
  have hchecked : SemaAnalysis.checkAST
      (.ofCompleted (read arguments).1 ([] ++ [completed arguments]) (context' arguments).heap)
      (completed arguments).unit = .ok [] := by
    rcases h with rfl | rfl <;> rfl
  have hof : (completed arguments).IsOf expr := ⟨rfl, _, _, rfl, rfl, rfl⟩
  exact CompletedRun.refl.step hdecl List.mem_cons_self (expr_mem h) hof
    (fun _ hc => absurd hc List.not_mem_nil) (instantiates arguments) (accepts_unit h) hchecked rfl

/-- What the meta function contributes is `g() -> { }`. -/
theorem contributes {arguments : List Tree} (h : Calls arguments) :
    (completed arguments).Contributes [.node (.functionDecl "g")
      [.node .argumentDeclList [], .node .compoundStmt []]] := by
  have hp : (read arguments).1.shape.IsProgram := by
    rw [(accepts h).shape (isProgram h).wellShaped rfl]
    exact isProgram h
  have hdecl : decl ∈ (read arguments).1.children := by
    rw [read_eq h]
    exact .tail _ (.head _)
  refine CompletedInst.contributes_expand (c := completed arguments) hp rfl hdecl rfl ?_ rfl
  unfold AST.CalculatesWithoutReturn
  decide +kernel

/-- The call of the program. -/
def call (arguments : List Tree) : Visit :=
  ⟨false, [{ node := ⟨4, .expressionStmt⟩ }, { node := ⟨3, .compoundStmt⟩ },
    { node := ⟨1, .functionDecl "f"⟩ }, { node := ⟨0, .compilationUnit⟩ }],
    .node { node := ⟨5, .callOperatorExpr⟩ }
      (expr :: arguments.map (Rose.map fun n => { node := n }))⟩

theorem call_mem {arguments : List Tree} (h : Calls arguments) :
    call arguments ∈ (read arguments).1.visited false [] := by
  rw [read_eq h]
  exact .tail _ (.tail _ (.tail _ (.tail _ (.tail _ (.head _)))))

end InstantiatedCall

open InstantiatedCall in
/-- `f() -> { g<1>(); } g<int> -> { g() -> { } }`: the contributed function fits the call. -/
theorem calls_wellFormed_iff_instantiation :
    ∃ (t : Tree) (a : AST) (s : ASTLayoutReader.State) (completed : List CompletedInst)
      (σ : ASTContext), t.IsProgram ∧
      AcceptsUnit (fun _ _ => none) .compilationUnit t.encode .empty a s ∧
      CompletedRun (fun _ _ => none) a (.ofProgram 20 a s.builder.heap) completed σ ∧
      ∃ v ∈ a.visited false [], v.base.kind = .callOperatorExpr ∧ v.contributed = false ∧
        v.callsByName = false ∧ v.isWellFormedCall (.ofCompleted a completed σ.heap) = true := by
  have h : Calls [] := .inl rfl
  have hiff := calls_wellFormed_iff (isProgram h) (accepts h) (by decide) rfl rfl (completedRun h)
    _ List.mem_cons_self _ (call_mem h) rfl rfl
  refine ⟨program [], _, _, _, _, isProgram h, accepts h, completedRun h, _, call_mem h, rfl, rfl,
    rfl, hiff.2 (.inr ⟨_, List.mem_cons_self, rfl, _, contributes h, _, List.mem_cons_self, rfl⟩)⟩

open InstantiatedCall in
/-- `f() -> { g<1>(5); } g<int> -> { g() -> { } }`: neither the program nor the unit of `g<1>` has
an error, and the call passes an argument to a function without parameters. -/
theorem call_of_instantiation_not_wellFormed :
    ∃ (t : Tree) (a : AST) (s : ASTLayoutReader.State) (completed : List CompletedInst)
      (σ : ASTContext), t.IsProgram ∧
      AcceptsUnit (fun _ _ => none) .compilationUnit t.encode .empty a s ∧
      checkAST (.ofCompleted a [] s.builder.heap) a = .ok [] ∧
      CompletedRun (fun _ _ => none) a (.ofProgram 20 a s.builder.heap) completed σ ∧
      ∃ v ∈ a.visited false [], v.base.kind = .callOperatorExpr ∧ v.contributed = false ∧
        v.isWellFormedCall (.ofCompleted a completed σ.heap) = false ∧
        ∀ st r, FunctionCodegen.codegenExpr (.ofCompleted a completed σ.heap) v.base st ≠
          .ok r := by
  have h : Calls [argument] := .inr rfl
  refine ⟨program [argument], _, _, _, _, isProgram h, accepts h, rfl, completedRun h, _,
    call_mem h, rfl, rfl, ?_, fun st => ?_⟩
  · decide +kernel
  · have hcount : (0 : Nat) ≠ 1 := by decide
    refine FunctionCodegen.codegenExpr_call_ne_ok rfl (?_ : _ = some ⟨0, true⟩) hcount
    decide +kernel

end SemaAnalysis

end Swy
