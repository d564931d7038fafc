import Swy.Codegen.FunctionBody
import Swy.Codegen.MetaEmission

/-!
# Running an instantiation

`CodeExecutor::instantiate` up to the layout: the jump pad of the instantiation is run, which calls
the meta function, whose callbacks write the layout of the meta unit. The layout is the encoding of
the meta unit with the parameters as global constants and the expansion of the contribution
(`instantiate_expands`).
-/

namespace Swy

open Library

namespace CodeExecutor

variable (rt : Runtime) (fuel : Nat)

/-- What the meta function does when it is called with the arguments. -/
def runMetaFunction (metaFunction : Blocks Instruction) (arguments : List Word) :
    Option (List Event) :=
  match run (step rt arguments metaFunction) fuel (entry rt) with
  | .halted m => some m.trace
  | _ => none

/-- The arguments of a call of the meta function. -/
def metaArguments : Event → Option (List Word)
  | .callMeta arguments => some arguments
  | _ => none

/-- `invoke`: runs the jump pad, and the meta function where it calls it. -/
def invoke (jumpPad metaFunction : Blocks Instruction) : Option (List Event) :=
  match run (step rt [] jumpPad) fuel (entry rt) with
  | .halted m => do
    let traces ← (m.trace.filterMap metaArguments).mapM (runMetaFunction rt fuel metaFunction)
    return traces.flatten
  | _ => none

/-- `instantiate`: the layout that is written inside of the meta unit. The addresses from `nextId`
on are free. -/
def instantiatedLayout (jumpPad metaFunction : Blocks Instruction) (inst : Instantiation)
    (nextId : NodeId) : Option NodeContributor := do
  let events ← invoke rt fuel jumpPad metaFunction
  let contributor : NodeContributor := ⟨[], nextId⟩
  return (events.foldl NodeContributor.handle
    (contributor.directWrite (.metaUnit inst))).reduce

end CodeExecutor

/-- The global constants for the parameters with a name. -/
def parameterTrees (args : List AST) (arguments : List Word) : List (Rose NodeData) :=
  (args.zip arguments).filterMap fun (arg, value) =>
    match arg.label.node.data with
    | .namedArgumentDecl name =>
      some (.node (.globalConstantDecl name) [.node (.integerLiteralExpr value) []])
    | _ => none

variable {rt : Runtime} {arguments : List Word}

/-! ## The parameters -/

/-- A parameter keeps its value while the others are bound. -/
theorem bindArguments_slots_of_notMem {decl : NodeId} {args : List AST}
    (h : ∀ arg ∈ args, arg.label.node.id ≠ decl) (index : Nat) (μ : Memory) :
    (Interpreter.bindArguments arguments index args μ).memory.slots decl = μ.slots decl := by
  induction args generalizing index μ with
  | nil => rfl
  | cons arg args ih =>
    obtain ⟨n, cs⟩ := arg
    have hne : decl ≠ n.node.id := (h _ List.mem_cons_self).symm
    have ih := ih fun x hx => h x (List.mem_cons_of_mem _ hx)
    unfold Interpreter.bindArguments
    split
    · exact (ih _ _).trans (if_neg hne)
    · exact ih _ _

/-- Behind the parameters each one with a name has the value of its argument. -/
theorem introducedTree_bindArguments (args : List AST)
    (hids : (args.map fun arg => arg.label.node.id).Nodup) (index : Nat) (μ : Memory)
    (values : List Word) (hlength : values.length = args.length)
    (hvalues : ∀ i, i < args.length → arguments.getD (index + i) 0 = values.getD i 0) :
    (((args.map fun arg => arg.label.node).filter fun node => node.kind = .namedArgumentDecl)
      |>.filterMap (introducedTree .topLevel
        (Interpreter.bindArguments arguments index args μ).memory)) =
      parameterTrees args values := by
  induction args generalizing index μ values with
  | nil => rfl
  | cons arg args ih =>
    obtain ⟨value, values, rfl⟩ := List.exists_cons_of_length_eq_add_one hlength
    obtain ⟨⟨⟨id, data⟩, decl, exportedDecls⟩, cs⟩ := arg
    obtain ⟨hid, hids⟩ := List.nodup_cons.1 hids
    have hne : ∀ x ∈ args, x.label.node.id ≠ id := fun x hx heq =>
      hid (by rw [← heq]; exact List.mem_map_of_mem (f := fun x => x.label.node.id) hx)
    have hvalue : arguments.getD index 0 = value := hvalues 0 (Nat.succ_pos _)
    have ih (μ : Memory) := ih hids (index + 1) μ values (Nat.succ.inj hlength) fun i hi => by
      rw [Nat.add_assoc, Nat.add_comm 1]
      exact hvalues (i + 1) (Nat.succ_lt_succ hi)
    by_cases hk : data.kind = .namedArgumentDecl
    · obtain ⟨name, rfl⟩ : ∃ name, data = .namedArgumentDecl name := by
        cases data <;> first | exact ⟨_, rfl⟩ | cases hk
      let μ₁ : Memory :=
        { μ with slots := fun d => if d = id then arguments.getD index 0 else μ.slots d }
      have hslot : (Interpreter.bindArguments arguments (index + 1) args μ₁).memory.slots id =
          value := by
        rw [bindArguments_slots_of_notMem hne]
        exact (if_pos rfl).trans hvalue
      have hbind : (Interpreter.bindArguments arguments index
          (.node ⟨⟨id, .namedArgumentDecl name⟩, decl, exportedDecls⟩ cs :: args) μ).memory =
          (Interpreter.bindArguments arguments (index + 1) args μ₁).memory := rfl
      rw [hbind]
      have htree : introducedTree .topLevel
          (Interpreter.bindArguments arguments (index + 1) args μ₁).memory
          ⟨id, .namedArgumentDecl name⟩ = some (.node (.globalConstantDecl name)
            [.node (.integerLiteralExpr value) []]) := by
        rw [← hslot]
        rfl
      exact (List.filterMap_cons_some htree).trans (congrArg _ (ih μ₁))
    · have hbind : (Interpreter.bindArguments arguments index
          (.node ⟨⟨id, data⟩, decl, exportedDecls⟩ cs :: args) μ).memory =
          (Interpreter.bindArguments arguments (index + 1) args μ).memory := by
        rw [Interpreter.bindArguments]
        exact congrArg Result.memory (congrFun (if_neg hk) μ)
      have htree : parameterTrees (.node ⟨⟨id, data⟩, decl, exportedDecls⟩ cs :: args)
          (value :: values) = parameterTrees args values := by
        cases data <;> first | rfl | exact absurd rfl hk
      have hfilter : ((Rose.node ⟨⟨id, data⟩, decl, exportedDecls⟩ cs :: args).map
          fun arg => arg.label.node).filter (fun node => node.kind = .namedArgumentDecl) =
          (args.map fun arg => arg.label.node).filter
            fun node => node.kind = .namedArgumentDecl :=
        List.filter_cons_of_neg fun h => hk (of_decide_eq_true h)
      rw [hbind, htree, hfilter]
      exact ih μ

/-! ## The meta function -/

section MetaFunction

variable (ctx : IRContext)

/-- The code of a meta function in its entry block. -/
def MetaCodegen.codegenFrom (args contribution : AST) (block : BlockId) :
    CodegenM (Option BlockId) := do
  FunctionCodegen.storeArguments 0 args.children
  MetaCodegen.introduceDecls (MetaCodegen.namedArguments args)
  FunctionCodegen.finish (← MetaCodegen.codegenMeta ctx block contribution)

/-- A meta function is generated in its entry block. -/
theorem codegenMetaFunction_ok {args contribution : AST} {cursor : ASTCursor} {s : CodegenState}
    (h : MetaCodegen.codegenMetaFunction ctx args contribution (.initial cursor) = .ok ((), s)) :
    ∃ s', MetaCodegen.codegenFrom ctx args contribution 0 (FunctionCodegen.entered cursor) =
      .ok (none, s') ∧ s'.blocks = s.blocks := by
  obtain ⟨_, s₁, h₁, h⟩ := CodegenM.bind_ok.1 h
  obtain ⟨_, s₂, h₂, h⟩ := CodegenM.bind_ok.1 h
  obtain ⟨_, s₃, h₃, h⟩ := CodegenM.bind_ok.1 h
  obtain ⟨-, rfl⟩ := CodegenM.pure_ok.1 h
  cases h₁
  cases h₃
  refine ⟨s₂, ?_, rfl⟩
  obtain ⟨block, s₄, h₄, h₂⟩ := CodegenM.bind_ok.1 h₂
  obtain ⟨entry, s₅, h₅, h₄⟩ := CodegenM.bind_ok.1 h₄
  obtain ⟨_, s₆, h₆, h₄⟩ := CodegenM.bind_ok.1 h₄
  obtain ⟨rfl, rfl⟩ := CodegenM.pure_ok.1 h₄
  cases h₅
  obtain ⟨_, s₇, h₇, h₂⟩ := CodegenM.bind_ok.1 h₂
  obtain ⟨r, s₈, h₈, h₂⟩ := CodegenM.bind_ok.1 h₂
  refine CodegenM.bind_ok.2 ⟨_, s₆, h₆, CodegenM.bind_ok.2 ⟨_, s₇, h₇,
    CodegenM.bind_ok.2 ⟨r, s₈, h₈, ?_⟩⟩⟩
  cases r with
  | none => exact (CodegenM.throw_ok.1 h₂).elim
  | some b =>
    cases h₂
    rfl

theorem codegenFrom_metaCompiles (args contribution : AST) :
    Compiles rt arguments .insideMetaDecl (MetaCodegen.codegenFrom ctx args contribution)
      (Interpreter.execMetaFunction ctx rt arguments args contribution) := by
  have hreturn : Compiles rt arguments .insideMetaDecl _ _ :=
    (codegenMeta_compiles ctx contribution .insideMetaDecl).seq (d := FunctionCodegen.finish)
      finish_compiles finish_none
  have hdecls : Compiles rt arguments .insideMetaDecl _ _ :=
    introduceDecls_compiles (MetaCodegen.namedArguments args)
  have hintroduce := hdecls.seq
    (d := continueWith fun block => do
      FunctionCodegen.finish (← MetaCodegen.codegenMeta ctx block contribution))
    hreturn continueWith_none
  simp only [Interpreter.andThen, bind_assoc, pure_bind] at hintroduce
  exact .after (storeArguments_emits args.children 0) hintroduce

variable (rt) in
/-- The callbacks of a meta function write the parameters and what is contributed up to a
return. -/
theorem execMetaFunction_writesTo {args : AST} (contribution : AST)
    (hids : (args.children.map fun arg => arg.label.node.id).Nodup)
    (hlength : arguments.length = args.children.length) :
    ∃ ds, Writes
        (Interpreter.execMetaFunction ctx rt arguments args contribution rt.memory).events
        (encodeData (parameterTrees args.children arguments) ++ ds) ∧
      (expansion ctx rt .topLevel contribution
        (Interpreter.bindArguments arguments 0 args.children rt.memory).memory).IsWrittenAs ds := by
  have hintroduced := introduceDecls_yields .topLevel (MetaCodegen.namedArguments args)
    (Interpreter.bindArguments arguments 0 args.children rt.memory).memory
  have hvalues (i : Nat) (_ : i < args.children.length) :
      arguments.getD (0 + i) 0 = arguments.getD i 0 := by rw [Nat.zero_add]
  have hparams := introducedTree_bindArguments args.children hids 0 rt.memory arguments hlength
    hvalues
  obtain ⟨-, -, ds, hw, hds⟩ := execMeta_yieldsTo ctx rt contribution .topLevel
    (Interpreter.bindArguments arguments 0 args.children rt.memory).memory
  have hmemory : (Interpreter.introduceDecls .topLevel (MetaCodegen.namedArguments args)
      (Interpreter.bindArguments arguments 0 args.children rt.memory).memory).memory =
      (Interpreter.bindArguments arguments 0 args.children rt.memory).memory := hintroduced.2.1
  have hintroduce := hintroduced.2.2
  rw [Exec.bind_apply, Exec.pure_apply] at hintroduce
  beta_reduce at hintroduce
  rw [List.append_nil, MetaCodegen.namedArguments, hparams] at hintroduce
  have hret : Writes [.ret none] [] := fun c => congrArg (NodeContributor.mk · c.nextId)
    (List.append_nil _).symm
  refine ⟨ds, ?_, hds⟩
  rw [Interpreter.execMetaFunction, Exec.bind_apply, Exec.bind_apply, hmemory,
    Interpreter.andThen, Exec.bind_apply, ← List.append_nil ds]
  refine (silent_isStmtEffect.bindArguments arguments args.children 0 rt.memory).append
    (hintroduce.append (hw.append ?_))
  cases (Interpreter.execMeta ctx rt .topLevel contribution
    (Interpreter.bindArguments arguments 0 args.children rt.memory).memory).value with
  | next => exact hret
  | returned => exact .nil

/-- Without a return the callbacks of a meta function write the parameters and the expansion. -/
theorem execMetaFunction_writes {args contribution : AST}
    (hreturn : contribution.CalculatesWithoutReturn)
    (hids : (args.children.map fun arg => arg.label.node.id).Nodup)
    (hlength : arguments.length = args.children.length) :
    Writes (Interpreter.execMetaFunction ctx rt arguments args contribution rt.memory).events
      (encodeData (parameterTrees args.children arguments ++
        (expand ctx rt .topLevel contribution
          (Interpreter.bindArguments arguments 0 args.children rt.memory).memory).1)) := by
  obtain ⟨ds, hwrites, hds⟩ := execMetaFunction_writesTo rt ctx contribution hids hlength
  rw [expansion_eq contribution hreturn] at hds
  obtain rfl : ds = encodeData (expand ctx rt .topLevel contribution
    (Interpreter.bindArguments arguments 0 args.children rt.memory).memory).1 := hds
  rw [encodeData_append]
  exact hwrites

variable (rt arguments) in
/-- Executing a meta function does what the structural interpreter does. -/
theorem codegenMetaFunction_halts {args contribution : AST} {s : CodegenState}
    (h : MetaCodegen.codegenMetaFunction ctx args contribution (.initial .insideMetaDecl) =
      .ok ((), s)) :
    ∃ m, Halts (step rt arguments s.blocks) (entry rt) m ∧
      m.trace =
        (Interpreter.execMetaFunction ctx rt arguments args contribution rt.memory).events := by
  obtain ⟨s', hs', hblocks⟩ := codegenMetaFunction_ok ctx h
  have hcompiles : Compiles rt arguments .insideMetaDecl _ _ :=
    codegenFrom_metaCompiles ctx args contribution
  obtain ⟨m, hhalts, htrace⟩ := hcompiles.halts hs'
  rw [hblocks] at hhalts
  exact ⟨m, hhalts, htrace⟩

end MetaFunction

/-! ## The jump pad -/

section JumpPad

variable (ctx : IRContext)

/-- The integer literals of an instantiation are constants. -/
theorem codegenJumpPadArguments_ok {args : List AST} {values : List Word}
    (h : args.map (fun arg => arg.label.node.data) = values.map .integerLiteralExpr)
    (s : CodegenState) :
    MetaCodegen.codegenJumpPadArguments ctx args s = .ok (values.map .constant, s) := by
  induction args generalizing values with
  | nil =>
    obtain rfl : values = [] := List.map_eq_nil_iff.1 h.symm
    rfl
  | cons arg args ih =>
    obtain ⟨⟨⟨id, data⟩, decl, exportedDecls⟩, cs⟩ := arg
    obtain ⟨value, values, rfl⟩ : ∃ value values', values = value :: values' := by
      cases values with
      | nil => cases h
      | cons value values => exact ⟨value, values, rfl⟩
    obtain ⟨hdata, htail⟩ := List.cons.inj h
    obtain rfl : data = .integerLiteralExpr value := hdata
    refine CodegenM.bind_ok.2 ⟨.constant value, s, rfl, ?_⟩
    exact CodegenM.bind_ok.2 ⟨_, s, ih htail, rfl⟩

/-- The jump pad calls the meta function with the values of the literals. -/
theorem codegenJumpPad_halts {args : List AST} {values : List Word} (cursor : ASTCursor)
    (h : args.map (fun arg => arg.label.node.data) = values.map .integerLiteralExpr) :
    ∃ pad, MetaCodegen.codegenJumpPad ctx values.length args (.initial cursor) = .ok ((), pad) ∧
      ∃ m, Halts (step rt [] pad.blocks) (entry rt) m ∧
        m.trace = [.callMeta values, .ret none] := by
  have hargs (s : CodegenState) := codegenJumpPadArguments_ok ctx h s
  have hcall : MetaCodegen.createMetaCall values.length (values.map .constant) =
      FunctionCodegen.emit (.callMeta (values.map .constant)) :=
    if_pos ⟨(List.length_map _).symm, List.all_eq_true.2 fun o ho => by
      obtain ⟨value, -, rfl⟩ := List.mem_map.1 ho
      rfl⟩
  let pad : CodegenState :=
    { FunctionCodegen.entered cursor with
      blocks := [[.operation (.callMeta (values.map .constant)), .terminator .retVoid]]
      values := [] }
  refine ⟨pad, ?_, ?_⟩
  · refine CodegenM.bind_ok.2 ⟨_, _, rfl, CodegenM.bind_ok.2 ⟨(), { pad with values := [[]] }, ?_,
      rfl⟩⟩
    refine CodegenM.bind_ok.2 ⟨_, _, rfl, CodegenM.bind_ok.2 ⟨_, _, hargs _, ?_⟩⟩
    rw [hcall]
    rfl
  · have hwords : (values.map Operand.constant).map
        ((Machine.start rt.memory).wordOf []) = values := by
      rw [List.map_map]
      exact List.map_id _
    refine ⟨(Machine.perform (Exec.emit (.ret none)) (Machine.perform
      (Exec.emit (.callMeta values)) (.start rt.memory))), ?_, rfl⟩
    have hstep : step rt [] pad.blocks (entry rt) = .running (⟨0, 1⟩, Machine.perform
        (Exec.emit (.callMeta values)) (.start rt.memory)) := by
      show Outcome.running (_, Operation.exec rt [] (.callMeta (values.map .constant)) _) = _
      rw [Operation.exec, hwords]
    exact Halts.of_reaches (.single hstep) (.single rfl)

/-- Every instantiation writes the meta unit around what the callbacks of the meta function
write. -/
theorem instantiatedLayout_writes {n : ASTNode} {args contribution : AST}
    {metaFunction : CodegenState}
    (hmeta : MetaCodegen.codegen ctx (.node n [args, contribution]) (.initial .insideMetaDecl) =
      .ok ((), metaFunction))
    (inst : Instantiation) {instArgs : List AST} {values : List Word}
    (hvalues : instArgs.map (fun arg => arg.label.node.data) = values.map .integerLiteralExpr)
    (hlength : values.length = args.children.length) {ds : List (Option NodeData)}
    (hwrites : Writes
      (Interpreter.execMetaFunction ctx rt values args contribution rt.memory).events ds)
    (nextId : NodeId) :
    ∃ pad, MetaCodegen.codegenJumpPad ctx args.children.length instArgs
        (.initial .insideMetaDecl) = .ok ((), pad) ∧
      ∃ bound, ∀ fuel, bound ≤ fuel → ∃ contributor,
        CodeExecutor.instantiatedLayout rt fuel pad.blocks metaFunction.blocks inst nextId =
          some contributor ∧
        contributor.layout = number nextId (some (.metaUnit inst) :: (ds ++ [none])) := by
  obtain ⟨pad, hpad, m, hhalts, htrace⟩ := codegenJumpPad_halts ctx .insideMetaDecl hvalues
  obtain ⟨bound, hbound⟩ : Halts (step rt [] pad.blocks) (entry rt) m := hhalts
  obtain ⟨m', hhalts', htrace'⟩ := codegenMetaFunction_halts rt values ctx hmeta
  obtain ⟨bound', hbound'⟩ : Halts (step rt values metaFunction.blocks) (entry rt) m' := hhalts'
  rw [hlength] at hpad
  rw [← htrace'] at hwrites
  refine ⟨pad, hpad, max bound bound', fun fuel hfuel => ?_⟩
  have hrun := hbound fuel (Nat.le_trans (Nat.le_max_left _ _) hfuel)
  have hrun' := hbound' fuel (Nat.le_trans (Nat.le_max_right _ _) hfuel)
  have hinvoke : CodeExecutor.invoke rt fuel pad.blocks metaFunction.blocks = some m'.trace := by
    have hmetaFunction : CodeExecutor.runMetaFunction rt fuel metaFunction.blocks values =
        some m'.trace := by
      rw [CodeExecutor.runMetaFunction, hrun']
    have hcalls : [Event.callMeta values, .ret none].filterMap CodeExecutor.metaArguments =
        [values] := rfl
    rw [CodeExecutor.invoke, hrun]
    simp only [htrace, hcalls, List.mapM_cons, List.mapM_nil, hmetaFunction]
    exact congrArg some (List.append_nil _)
  refine ⟨_, by rw [CodeExecutor.instantiatedLayout, hinvoke]; rfl, ?_⟩
  rw [hwrites, number, number_append]
  rfl

/-- Every instantiation of a meta decl whose calculations do not return writes exactly the meta unit
with the parameters as global constants and with the expansion of the contribution, as fresh nodes,
whatever the outcomes of its conditions are. -/
theorem instantiate_expands (n : ASTNode) (args contribution : AST)
    (hreturn : contribution.CalculatesWithoutReturn)
    (hids : (args.children.map fun arg => arg.label.node.id).Nodup) {metaFunction : CodegenState}
    (hmeta : MetaCodegen.codegen ctx (.node n [args, contribution]) (.initial .insideMetaDecl) =
      .ok ((), metaFunction))
    (inst : Instantiation) (instArgs : List AST) (values : List Word)
    (hvalues : instArgs.map (fun arg => arg.label.node.data) = values.map .integerLiteralExpr)
    (hlength : values.length = args.children.length) (rt : Runtime) (nextId : NodeId) :
    ∃ pad, MetaCodegen.codegenJumpPad ctx args.children.length instArgs
        (.initial .insideMetaDecl) = .ok ((), pad) ∧
      ∃ bound, ∀ fuel, bound ≤ fuel → ∃ contributor,
        CodeExecutor.instantiatedLayout rt fuel pad.blocks metaFunction.blocks inst nextId =
          some contributor ∧
        contributor.layout = number nextId (encodeData [.node (.metaUnit inst)
          (parameterTrees args.children values ++ (expand ctx rt .topLevel contribution
            (Interpreter.bindArguments values 0 args.children rt.memory).memory).1)]) := by
  rw [encodeData_node]
  exact instantiatedLayout_writes ctx hmeta inst hvalues hlength
    (execMetaFunction_writes ctx hreturn hids hlength) nextId

end JumpPad

theorem exists_of_isOk {c : CodegenM Unit} {s : CodegenState} (h : (c s).isOk = true) :
    ∃ s', c s = .ok ((), s') := by
  cases hc : c s with
  | error fault =>
    rw [hc] at h
    cases h
  | ok r => exact ⟨r.2, rfl⟩

theorem eq_ok_of_isOk {c : CodegenM Unit} {s : CodegenState} (h : (c s).isOk = true) :
    c s = .ok ((), ((c s).toOption.getD ((), s)).2) := by
  obtain ⟨s', hs⟩ := exists_of_isOk h
  rw [hs]
  rfl

theorem exists_of_mem_mapM {α β : Type} {f : α → Option β} {xs : List α} {ys : List β}
    (h : xs.mapM f = some ys) {y : β} (hy : y ∈ ys) : ∃ x ∈ xs, f x = some y := by
  induction xs generalizing ys with
  | nil =>
    cases h
    exact absurd hy List.not_mem_nil
  | cons x xs ih =>
    rw [List.mapM_cons] at h
    obtain ⟨z, hz, h⟩ := Option.bind_eq_some_iff.1 h
    obtain ⟨zs, hzs, h⟩ := Option.bind_eq_some_iff.1 h
    cases h
    rcases List.mem_cons.1 hy with rfl | hy
    · exact ⟨x, List.mem_cons_self, hz⟩
    · obtain ⟨x', hx', hf⟩ := ih hzs hy
      exact ⟨x', List.mem_cons_of_mem _ hx', hf⟩

/-- Code is generated for the arguments and the contribution of a meta decl. -/
theorem MetaCodegen.codegen_ok {ctx : IRContext} {a : AST} {s s' : CodegenState}
    (h : MetaCodegen.codegen ctx a s = .ok ((), s')) :
    ∃ n args contribution, a = .node n [args, contribution] := by
  obtain ⟨n, cs⟩ := a
  rcases cs with _ | ⟨args, _ | ⟨contribution, _ | ⟨c, cs⟩⟩⟩
  · cases h
  · cases h
  · exact ⟨n, args, contribution, rfl⟩
  · cases h

/-- A run of the meta function does what the structural interpreter does. -/
theorem runMetaFunction_eq {ctx : IRContext} {n : ASTNode} {args contribution : AST}
    {metaFunction : CodegenState}
    (hmeta : MetaCodegen.codegen ctx (.node n [args, contribution]) (.initial .insideMetaDecl) =
      .ok ((), metaFunction))
    {rt : Runtime} {fuel : Nat} {arguments : List Word} {trace : List Event}
    (hrun : CodeExecutor.runMetaFunction rt fuel metaFunction.blocks arguments = some trace) :
    trace = (Interpreter.execMetaFunction ctx rt arguments args contribution rt.memory).events := by
  obtain ⟨m, hhalts, heq⟩ := codegenMetaFunction_halts rt arguments ctx hmeta
  unfold CodeExecutor.runMetaFunction at hrun
  split at hrun
  · rename_i m' hm'
    cases hrun
    rw [hhalts.unique hm']
    exact heq
  · cases hrun

/-- The events of an instantiation are events of runs of the structural interpreter. -/
theorem mem_invoke {ctx : IRContext} {a : AST} {metaFunction : CodegenState}
    (hmeta : MetaCodegen.codegen ctx a (.initial .insideMetaDecl) = .ok ((), metaFunction))
    {rt : Runtime} {fuel : Nat} {pad : Blocks Instruction} {events : List Event}
    (hinvoke : CodeExecutor.invoke rt fuel pad metaFunction.blocks = some events) {event : Event}
    (hevent : event ∈ events) :
    ∃ n args contribution arguments, a = .node n [args, contribution] ∧
      event ∈ (Interpreter.execMetaFunction ctx rt arguments args contribution
        rt.memory).events := by
  obtain ⟨n, args, contribution, rfl⟩ := MetaCodegen.codegen_ok hmeta
  unfold CodeExecutor.invoke at hinvoke
  split at hinvoke
  · obtain ⟨traces, htraces, hflatten⟩ := Option.bind_eq_some_iff.1 hinvoke
    cases hflatten
    obtain ⟨trace, htrace, hin⟩ := List.mem_flatten.1 hevent
    obtain ⟨arguments, -, hrun⟩ := exists_of_mem_mapM htraces htrace
    rw [runMetaFunction_eq hmeta hrun] at hin
    exact ⟨n, args, contribution, arguments, rfl, hin⟩
  · cases hinvoke

/-- However a meta function is run, the layout is the meta unit and what a run of the structural
interpreter writes. -/
theorem instantiatedLayout_eq {ctx : IRContext} {a : AST} {metaFunction : CodegenState}
    (hmeta : MetaCodegen.codegen ctx a (.initial .insideMetaDecl) = .ok ((), metaFunction))
    {rt : Runtime} {fuel : Nat} {pad : Blocks Instruction} {inst : Instantiation}
    {nextId : NodeId} {contributor : NodeContributor}
    (h : CodeExecutor.instantiatedLayout rt fuel pad metaFunction.blocks inst nextId =
      some contributor) :
    ∃ l, contributor.layout = some ⟨nextId, .metaUnit inst⟩ :: l ∧ ∀ node, some node ∈ l →
      ∃ n args contribution arguments event, a = .node n [args, contribution] ∧
        event ∈ (Interpreter.execMetaFunction ctx rt arguments args contribution
          rt.memory).events ∧ node.data ∈ event.written := by
  obtain ⟨events, hinvoke, h⟩ := Option.bind_eq_some_iff.1 h
  cases h
  obtain ⟨l, hl, hwritten⟩ := NodeContributor.handles_layout events
    (NodeContributor.directWrite (.metaUnit inst) ⟨[], nextId⟩)
  refine ⟨l ++ [none], ?_, fun node hnode => ?_⟩
  · rw [NodeContributor.reduce, hl]
    rfl
  · rcases List.mem_append.1 hnode with hnode | hmark
    · obtain ⟨event, hevent, hdata⟩ := hwritten node hnode
      obtain ⟨n, args, contribution, arguments, ha, hin⟩ := mem_invoke hmeta hinvoke hevent
      exact ⟨n, args, contribution, arguments, event, ha, hin, hdata⟩
    · cases List.mem_singleton.1 hmark

/-- A meta decl with a calculation in the branch of a meta if, instantiated with 7. -/
theorem instantiate_expands_calculation :
    let ctx : IRContext := ⟨fun _ => none, fun _ => none⟩
    let ref (id : NodeId) : AST :=
      .node ⟨⟨id, .declRefExpr "n"⟩, some ⟨2, .namedArgumentDecl "n"⟩, []⟩ []
    let args : AST := .node ⟨⟨1, .argumentDeclList⟩, none, []⟩
      [.node ⟨⟨2, .namedArgumentDecl "n"⟩, none, []⟩ []]
    let calculation : AST := .node ⟨⟨6, .metaCalculationStmt⟩, none, [⟨8, .declStmt "x"⟩]⟩
      [.node ⟨⟨7, .unscopedCompoundStmt⟩, none, []⟩
        [.node ⟨⟨8, .declStmt "x"⟩, none, []⟩ [ref 9]]]
    let contribution : AST := .node ⟨⟨3, .metaContribution⟩, none, []⟩
      [.node ⟨⟨4, .metaIfStmt⟩, none, []⟩
        [ref 5, .node ⟨⟨10, .metaContribution⟩, none, []⟩ [calculation]]]
    let inst : Instantiation := ⟨20, "m", some (0, .metaDecl)⟩
    ∃ pad metaFunction, MetaCodegen.codegen ctx (.node ⟨⟨0, .metaDecl "m"⟩, none, []⟩
        [args, contribution]) (.initial .insideMetaDecl) = .ok ((), metaFunction) ∧
      ∃ fuel contributor, CodeExecutor.instantiatedLayout (.ofOutcomes [true]) fuel pad
          metaFunction.blocks inst 30 = some contributor ∧
        contributor.layout.map (Option.map Node.data) =
          [some (.metaUnit inst), some (.globalConstantDecl "n"), some (.integerLiteralExpr 7),
            some (.globalConstantDecl "x"), some (.integerLiteralExpr 7), none] := by
  intro ctx ref args calculation contribution inst
  obtain ⟨metaFunction, hmeta⟩ : ∃ s, MetaCodegen.codegen ctx (.node ⟨⟨0, .metaDecl "m"⟩, none, []⟩
      [args, contribution]) (.initial .insideMetaDecl) = .ok ((), s) :=
    exists_of_isOk (by decide +kernel)
  have hreturn : contribution.CalculatesWithoutReturn := by
    unfold AST.CalculatesWithoutReturn
    decide +kernel
  obtain ⟨pad, -, bound, hbound⟩ := instantiate_expands ctx ⟨⟨0, .metaDecl "m"⟩, none, []⟩ args
    contribution hreturn (by decide) hmeta inst
    [.node ⟨⟨21, .integerLiteralExpr 7⟩, none, []⟩ []] [7] rfl rfl (.ofOutcomes [true]) 30
  obtain ⟨contributor, hlayout, hnodes⟩ := hbound bound (Nat.le_refl _)
  refine ⟨pad.blocks, metaFunction, hmeta, bound, contributor, hlayout, ?_⟩
  rw [hnodes, map_data_number]
  rfl

end Swy
