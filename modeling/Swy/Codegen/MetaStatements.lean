import Swy.Codegen.Faults
import Swy.Codegen.Instantiation
import Swy.Parse.LayoutGrammar
import Swy.Parse.MetaDepth
import Swy.Parse.MetaModes
import Swy.Parse.Source

/-!
# No meta statement in runtime code

`FunctionCodegen::codegenStmt` has no code for meta-ifs and meta calculations, and is never passed
one: not for the functions of a program and its meta declarations (`codegen_topLevel_passes`), and
not for the functions of the meta units that are read from what the meta functions write
(`instantiatedLayout_runtime`), for these write nodes of the runtime stage only.
-/

namespace Swy

open Library LocalScopeVisitor

/-! ## Where there are no meta statements -/

/-- Nothing that is derived outside of a meta declaration is read in a mode of its own. -/
theorem Tree.entersMode_of_depthNone (t : Tree) (h : Tree.derived .depthNone t = true) :
    ∀ n ∈ t.labels, n.kind.entersMode = false := by
  induction t using Rose.ind with
  | h n cs ih =>
    have all (hd : Tree.derivedAll .depthNone cs = true) (m : Node)
        (hm : ∃ c ∈ cs, m ∈ c.labels) : m.kind.entersMode = false := by
      obtain ⟨c, hc, hm⟩ := hm
      exact ih c hc (Tree.derivedAll_iff.1 hd c hc) m hm
    intro m hm
    obtain ⟨id, data⟩ := n
    rcases Rose.mem_labels_node.1 hm with rfl | hbelow
    · cases data <;> first | rfl | (cases cs <;> cases h)
    · cases data with
      | compilationUnit | metaUnit | metaDecl | globalConstantDecl | erroneousExpr
      | functionDecl | metaCalculationStmt => cases h
      | metaIfStmt => cases cs <;> cases h
      | metaContribution | unscopedCompoundStmt | compoundStmt | ifStmt | callOperatorExpr =>
        exact all (Bool.and_eq_true_iff.1 h).2 m hbelow
      | _ => exact all h m hbelow

theorem AST.entersMode_of_depthNone {a : AST} (h : Tree.derived .depthNone a.shape = true) :
    ∀ n ∈ a.labels, n.node.kind.entersMode = false := by
  intro n hn
  refine Tree.entersMode_of_depthNone _ h _ ?_
  rw [AST.shape, Rose.labels_map]
  exact List.mem_map_of_mem hn

/-! ## The code generation -/

/-- No meta statement is passed to `codegenStmt`, in whatever state the generation starts. -/
abbrev PassesNoMetaStmt {α : Type} (c : CodegenM α) : Prop :=
  StopsAt (· ≠ .metaStmtInRuntimeCode) c

namespace PassesNoMetaStmt

theorem ne_metaStmt_of_isOperandFault (fault : CodegenFault) (h : fault.isOperandFault = true) :
    fault ≠ .metaStmtInRuntimeCode := by
  rintro rfl
  cases h

/-! ### Statements -/

section Statements

variable (ctx : IRContext)

/-- Generating an expression passes nothing to `codegenStmt`. -/
theorem codegenExpr (a : AST) : PassesNoMetaStmt (FunctionCodegen.codegenExpr ctx a) :=
  StopsAt.codegenExpr ne_metaStmt_of_isOperandFault ctx (by decide) a

theorem codegenIfStructure {block : BlockId} {condition : AST}
    {codegenTrue : BlockId → CodegenM (Option BlockId)}
    {codegenFalse : Option (BlockId → CodegenM (Option BlockId))}
    (htrue : ∀ block, PassesNoMetaStmt (codegenTrue block))
    (hfalse : ∀ codegen, codegenFalse = some codegen → ∀ block, PassesNoMetaStmt (codegen block)) :
    PassesNoMetaStmt
      (FunctionCodegen.codegenIfStructure ctx block condition codegenTrue codegenFalse) :=
  StopsAt.codegenIfStructure htrue hfalse (codegenExpr ctx condition) fun _ _ _ _ =>
    .createIsNotNull ne_metaStmt_of_isOperandFault

theorem codegenStmts {cs : List AST}
    (hcs : ∀ c ∈ cs, ∀ block, PassesNoMetaStmt (FunctionCodegen.codegenStmt ctx block c))
    (current : Option BlockId) :
    PassesNoMetaStmt (FunctionCodegen.codegenStmts ctx current cs) := by
  induction cs generalizing current with
  | nil => exact .pure
  | cons c cs ih =>
    exact (StopsAt.dereference (by decide)).bind fun block =>
      (hcs c List.mem_cons_self block).bind (ih fun x hx => hcs x (List.mem_cons_of_mem _ hx))

/-- Generating a statement that is no meta statement and has none below it. -/
theorem codegenStmt (a : AST) (h : ∀ n ∈ a.labels, n.node.kind.entersMode = false)
    (block : BlockId) : PassesNoMetaStmt (FunctionCodegen.codegenStmt ctx block a) := by
  induction a using Rose.ind generalizing block with
  | h n cs ih =>
    have hn : n.node.kind.entersMode = false := h n (Rose.mem_labels_node.2 (.inl rfl))
    have below (c : AST) (hc : c ∈ cs) (block : BlockId) :
        PassesNoMetaStmt (FunctionCodegen.codegenStmt ctx block c) :=
      ih c hc (fun m hm => h m (Rose.mem_labels_node.2 (.inr ⟨c, hc, hm⟩))) block
    have heval := codegenExpr ctx
    have hload {value : Operand} : PassesNoMetaStmt (FunctionCodegen.loadMemory value) :=
      .loadMemory ne_metaStmt_of_isOperandFault
    obtain ⟨⟨id, data⟩, decl, exportedDecls⟩ := n
    cases data with
    | metaIfStmt | metaCalculationStmt => cases hn
    | compoundStmt => exact .withValueScope (codegenStmts ctx below _)
    | unscopedCompoundStmt => exact codegenStmts ctx below _
    | returnStmt =>
      rcases cs with _ | ⟨expr, _ | ⟨c, cs⟩⟩
      · exact StopsAt.insert.bind fun _ => .pure
      · exact (heval expr).bind fun _ => hload.bind fun _ => StopsAt.insert.bind fun _ => .pure
      · exact .throw (by decide)
    | expressionStmt =>
      rcases cs with _ | ⟨expr, _ | ⟨c, cs⟩⟩
      · exact .throw (by decide)
      · exact (heval expr).bind fun _ => StopsAt.insert.bind fun _ => .pure
      · exact .throw (by decide)
    | declStmt name =>
      rcases cs with _ | ⟨expr, _ | ⟨c, cs⟩⟩
      · exact .throw (by decide)
      · exact (heval expr).bind fun _ => StopsAt.insert.bind fun _ => hload.bind fun _ =>
          (StopsAt.createStore ne_metaStmt_of_isOperandFault).bind fun _ =>
            StopsAt.introduce.bind fun _ => .pure
      · exact .throw (by decide)
    | ifStmt =>
      rcases cs with _ | ⟨condition, _ | ⟨trueBranch, _ | ⟨falseBranch, _ | ⟨c, cs⟩⟩⟩⟩
      · exact .throw (by decide)
      · exact .throw (by decide)
      · refine codegenIfStructure ctx (below trueBranch (by simp)) fun codegen hcodegen => ?_
        cases hcodegen
      · refine codegenIfStructure ctx (below trueBranch (by simp)) fun codegen hcodegen => ?_
        cases hcodegen
        exact below falseBranch (by simp)
      · exact .throw (by decide)
    | _ => exact .throw (by decide)

/-- Generating a function without meta statements. -/
theorem codegen (a : AST) (h : ∀ c ∈ a.children, ∀ n ∈ c.labels, n.node.kind.entersMode = false) :
    PassesNoMetaStmt (FunctionCodegen.codegen ctx a) := by
  have codegenBody (args body : AST) (hbody : body ∈ a.children) :
      PassesNoMetaStmt (FunctionCodegen.codegenBody ctx args body) := by
    refine .withValueScope (StopsAt.setUpStackFrame.bind fun block =>
      (codegenStmt ctx body (h body hbody) block).bind fun current => ?_)
    split
    · exact .insert
    · exact .pure
  obtain ⟨n, cs⟩ := a
  rcases cs with _ | ⟨args, _ | ⟨body, _ | ⟨body', _ | ⟨c, cs⟩⟩⟩⟩
  · exact .throw (by decide)
  · exact .throw (by decide)
  · exact codegenBody args body (by simp)
  · exact codegenBody args body' (by simp)
  · exact .throw (by decide)

end Statements

/-! ### Meta code -/

section Meta

variable (ctx : IRContext)

theorem codegenMetaCalculation {decls : List Node} {block : BlockId}
    {c : BlockId → CodegenM (Option BlockId)} (hc : ∀ block, PassesNoMetaStmt (c block)) :
    PassesNoMetaStmt (MetaCodegen.codegenMetaCalculation decls block c) := by
  refine StopsAt.createRegionAfter.bind fun created => (hc created).bind fun current => ?_
  cases current with
  | some current =>
    exact (StopsAt.introduceDecls ne_metaStmt_of_isOperandFault).bind fun _ => .pure
  | none => exact .throw (by decide)

theorem codegenChildrenContribution {cs : List AST}
    (hcs : ∀ c ∈ cs, ∀ block, PassesNoMetaStmt (MetaCodegen.codegenMeta ctx block c))
    (current : Option BlockId) :
    PassesNoMetaStmt (MetaCodegen.codegenChildrenContribution ctx current cs) := by
  induction cs generalizing current with
  | nil => exact .pure
  | cons c cs ih =>
    exact (StopsAt.dereference (by decide)).bind fun block =>
      (hcs c List.mem_cons_self block).bind (ih fun x hx => hcs x (List.mem_cons_of_mem _ hx))

/-- Generating meta code passes the statements of the calculations to `codegenStmt`, in which there
are no meta statements. -/
theorem codegenMeta (a : AST) (depth : MetaDepth) (h : Tree.derived depth a.shape = true)
    (block : BlockId) : PassesNoMetaStmt (MetaCodegen.codegenMeta ctx block a) := by
  induction a using Rose.ind generalizing depth block with
  | h n cs ih =>
    rw [AST.shape_node] at h
    have all {depth : MetaDepth} (hd : Tree.derivedAll depth (cs.map AST.shape) = true) (c : AST)
        (hc : c ∈ cs) (block : BlockId) : PassesNoMetaStmt (MetaCodegen.codegenMeta ctx block c) :=
      ih c hc depth (Tree.derivedAll_iff.1 hd _ (List.mem_map_of_mem hc)) block
    have contributed {depth : MetaDepth} (hd : Tree.derivedAll depth (cs.map AST.shape) = true) :
        PassesNoMetaStmt (MetaCodegen.codegenContributed n.node block
          fun block => MetaCodegen.codegenChildrenContribution ctx (some block) cs) :=
      .codegenContributed (by decide) fun _ => codegenChildrenContribution ctx (all hd) _
    obtain ⟨⟨id, data⟩, decl, exportedDecls⟩ := n
    cases data with
    | compilationUnit | metaUnit | metaDecl | globalConstantDecl | erroneousExpr => cases h
    | metaContribution =>
      exact codegenChildrenContribution ctx (all (Bool.and_eq_true_iff.1 h).2) _
    | metaIfStmt =>
      rcases cs with _ | ⟨condition, _ | ⟨trueBranch, _ | ⟨falseBranch, _ | ⟨c, cs⟩⟩⟩⟩
      · exact .throw (by decide)
      · exact .throw (by decide)
      · have hbranches := (Bool.and_eq_true_iff.1 (Bool.and_eq_true_iff.1 h).2).2
        have htrue := ih trueBranch (by simp) depth
          (Tree.derivedAll_iff.1 hbranches _ List.mem_cons_self)
        refine codegenIfStructure ctx htrue fun codegen hcodegen => ?_
        cases hcodegen
      · have hbranches := (Bool.and_eq_true_iff.1 (Bool.and_eq_true_iff.1 h).2).2
        have htrue := ih trueBranch (by simp) depth
          (Tree.derivedAll_iff.1 hbranches _ List.mem_cons_self)
        have hfalse := ih falseBranch (by simp) depth
          (Tree.derivedAll_iff.1 hbranches _ (List.mem_cons_of_mem _ List.mem_cons_self))
        refine codegenIfStructure ctx htrue fun codegen hcodegen => ?_
        cases hcodegen
        exact hfalse
      · exact .throw (by decide)
    | metaCalculationStmt =>
      rcases cs with _ | ⟨stmt, _ | ⟨c, cs⟩⟩
      · exact .throw (by decide)
      · have hstmt : Tree.derived .depthNone (AST.shape stmt) = true :=
          Tree.derivedAll_iff.1 (Bool.and_eq_true_iff.1 h).2 _ List.mem_cons_self
        exact codegenMetaCalculation fun block =>
          codegenStmt ctx stmt (AST.entersMode_of_depthNone hstmt) block
      · exact .throw (by decide)
    | functionDecl | unscopedCompoundStmt | compoundStmt | ifStmt | callOperatorExpr =>
      exact contributed (Bool.and_eq_true_iff.1 h).2
    | _ => exact contributed h

/-- Generating a meta function. -/
theorem codegenMetaDecl {a : AST} (h : Tree.derivedTopLevel a.shape = true)
    (hk : a.kind = .metaDecl) : PassesNoMetaStmt (MetaCodegen.codegen ctx a) := by
  obtain ⟨n, cs⟩ := a
  rw [AST.shape_node] at h
  obtain ⟨⟨id, data⟩, decl, exportedDecls⟩ := n
  cases data <;> try cases hk
  rcases cs with _ | ⟨args, _ | ⟨contribution, _ | ⟨c, cs⟩⟩⟩
  · exact .throw (by decide)
  · exact .throw (by decide)
  · have hcontribution := codegenMeta ctx contribution .depthGlobalScope
      (Bool.and_eq_true_iff.1 h).2
    refine .withValueScope (StopsAt.setUpStackFrame.bind fun block =>
      (StopsAt.introduceDecls ne_metaStmt_of_isOperandFault).bind fun _ =>
        (hcontribution block).bind fun current => ?_)
    cases current with
    | some _ => exact .insert
    | none => exact .throw (by decide)
  · exact .throw (by decide)

/-- Generating a jump pad. -/
theorem codegenJumpPad (params : Nat) (args : List AST) :
    PassesNoMetaStmt (MetaCodegen.codegenJumpPad ctx params args) := by
  have hargs : PassesNoMetaStmt (MetaCodegen.codegenJumpPadArguments ctx args) := by
    induction args with
    | nil => exact .pure
    | cons arg args ih => exact (codegenExpr ctx arg).bind fun _ => ih.bind fun _ => .pure
  exact .withValueScope (StopsAt.createEntryBlock.bind fun _ => hargs.bind fun _ =>
    StopsAt.bind (.ite .insert (.throw (by decide))) fun _ => .insert)

end Meta

end PassesNoMetaStmt

/-! ## What the meta functions write -/

/-- The event writes no node that is read in a mode of its own. -/
def Event.isRuntime : Event → Bool
  | contribute node => !node.kind.entersMode
  | _ => true

/-- The effect writes no node that is read in a mode of its own. -/
def Exec.WritesRuntime {α : Type} (e : Exec α) : Prop :=
  ∀ μ, ∀ event ∈ (e μ).events, event.isRuntime = true

namespace Exec.WritesRuntime

theorem emit {event : Event} (h : event.isRuntime = true) : Exec.WritesRuntime (Exec.emit event) :=
  fun _ e he => by
    rw [List.mem_singleton.1 he]
    exact h

theorem isStmtEffect : IsStmtEffect @Exec.WritesRuntime where
  pure _ _ _ h := absurd h List.not_mem_nil
  bind h h' μ e he := by
    rcases List.mem_append.1 he with he | he
    · exact h μ e he
    · exact h' _ _ e he
  reference _ _ := emit rfl
  load _ _ _ h := absurd h List.not_mem_nil
  store _ _ _ _ he := by
    rw [List.mem_singleton.1 he]
    rfl
  call _ _ _ _ _ he := by
    rw [List.mem_singleton.1 he]
    rfl
  alloca _ := emit rfl
  statement _ := emit rfl
  ret _ := emit rfl
  branch _ _ _ _ he := by
    rw [List.mem_singleton.1 he]
    rfl

variable (ctx : IRContext) (rt : Runtime)

/-- Meta statements are executed, and every other node is contributed. -/
theorem execMetaFunction (arguments : List Word) (args contribution : AST) :
    Exec.WritesRuntime (Interpreter.execMetaFunction ctx rt arguments args contribution) := by
  have introduce (decl : Node) (level : DepthLevel) : Exec.WritesRuntime (do
      let value ← Exec.load decl.id
      Exec.emit (.introduce decl value level)) :=
    isStmtEffect.bind (isStmtEffect.load _) fun _ => emit rfl
  refine isStmtEffect.execMetaFunction ctx rt (isStmtEffect.execMeta ctx rt contribution (emit rfl)
    (fun n _ hn => emit ?_) (fun _ _ _ decl _ level => introduce decl level) .topLevel)
    fun decl _ => introduce decl .topLevel
  have hmode : n.node.kind.entersMode = false := by
    cases hk : n.node.kind <;> first | rfl | (rw [hk] at hn; cases hn)
  rw [Event.isRuntime, hmode]
  rfl

end Exec.WritesRuntime

/-- What a runtime event writes is not read in a mode of its own. -/
theorem Event.isRuntime_written {event : Event} (h : event.isRuntime = true) :
    ∀ d ∈ event.written, d.kind.entersMode = false := by
  intro d hd
  cases event with
  | contribute node =>
    rw [List.mem_singleton.1 hd]
    exact Bool.not_eq_true' _ ▸ h
  | introduce decl value level =>
    obtain ⟨name, -, hd⟩ := List.mem_flatMap.1 hd
    rcases List.mem_cons.1 hd with rfl | hd
    · cases level <;> rfl
    · rw [List.mem_singleton.1 hd]
      rfl
  | _ => exact absurd hd List.not_mem_nil

/-- No node of the layout is read in a mode of its own. -/
def Layout.IsRuntime (l : Layout) : Prop := ∀ n, some n ∈ l → n.kind.entersMode = false

/-- However a meta function is run, it writes no node that is read in a mode of its own. -/
theorem instantiatedLayout_runtime {ctx : IRContext} {a : AST} {metaFunction : CodegenState}
    (hmeta : MetaCodegen.codegen ctx a (.initial .insideMetaDecl) = .ok ((), metaFunction))
    {rt : Runtime} {fuel : Nat} {pad : Blocks Instruction} {inst : Instantiation}
    {nextId : NodeId} {contributor : NodeContributor}
    (h : CodeExecutor.instantiatedLayout rt fuel pad metaFunction.blocks inst nextId =
      some contributor) : contributor.layout.IsRuntime := by
  obtain ⟨l, hl, hwritten⟩ := instantiatedLayout_eq hmeta h
  intro node hnode
  rw [hl] at hnode
  rcases List.mem_cons.1 hnode with hunit | hnode
  · cases hunit
    rfl
  · obtain ⟨n, args, contribution, arguments, event, -, hevent, hdata⟩ := hwritten node hnode
    have hruntime := Exec.WritesRuntime.execMetaFunction ctx rt arguments args contribution
      rt.memory event hevent
    exact Event.isRuntime_written hruntime _ hdata

/-! ## The program -/

section Program

variable (similarTo : ScopeChain → Identifier → Option Node)

/-- Nothing that is generated for a unit passes a meta statement to `codegenStmt`. -/
def UnitPassesNoMetaStmt (unit : AST) : Prop :=
  ∀ c ∈ unit.children, ∀ ctx, (AST.kind c = .functionDecl →
    PassesNoMetaStmt (FunctionCodegen.codegen ctx c)) ∧
  (AST.kind c = .metaDecl → PassesNoMetaStmt (MetaCodegen.codegen ctx c))

theorem unitPassesNoMetaStmt_of_topLevel {unit : AST}
    (h : ∀ c ∈ unit.children, Tree.derivedTopLevel (AST.shape c) = true) :
    UnitPassesNoMetaStmt unit := by
  refine fun c hc ctx => ⟨fun hk => .codegen ctx c fun d hd => ?_,
    .codegenMetaDecl ctx (h c hc)⟩
  have hc := h c hc
  obtain ⟨⟨⟨id, data⟩, decl, exportedDecls⟩, cs⟩ := c
  rw [AST.shape_node] at hc
  cases data <;> try cases hk
  exact AST.entersMode_of_depthNone
    (Tree.derivedAll_iff.1 (Bool.and_eq_true_iff.1 hc).2 _ (List.mem_map_of_mem hd))

theorem unitPassesNoMetaStmt_of_runtime {unit : AST}
    (h : ∀ n ∈ unit.labels, n.node.kind.entersMode = false) : UnitPassesNoMetaStmt unit := by
  obtain ⟨n, cs⟩ := unit
  intro c hc ctx
  have below (m : ASTNode) (hm : m ∈ c.labels) : m.node.kind.entersMode = false :=
    h m (Rose.mem_labels_node.2 (.inr ⟨c, hc, hm⟩))
  refine ⟨fun _ => .codegen ctx c fun d hd m hm => below m ?_, fun hk => ?_⟩
  · obtain ⟨l, ds⟩ := c
    exact Rose.mem_labels_node.2 (.inr ⟨d, hd, hm⟩)
  · have hroot := below c.label (Rose.label_mem_labels (Rose.mem_subtrees_self c))
    rw [show c.label.node.kind = .metaDecl from hk] at hroot
    cases hroot

/-- A meta unit that is read from a layout without nodes that have a mode of their own. -/
theorem consume_metaUnit_runtime {l : Layout} (hl : l.IsRuntime) {b : BasicASTBuilder} {unit : AST}
    {s : ASTLayoutReader.State}
    (h : ASTLayoutReader.consume similarTo (.kind .metaUnit) ⟨l, b⟩ = .ok (unit, s)) :
    KeepsModes b s.builder ∧ UnitPassesNoMetaStmt unit := by
  obtain ⟨-, hrest, hread⟩ := ASTLayoutReader.consume_eq_readTree h
  have hlabels (n : Node) (hn : n ∈ unit.shape.labels) : n.kind.entersMode = false := by
    refine hl n ?_
    rw [show l = unit.shape.encode ++ s.rest from hrest]
    exact List.mem_append_left _ ((Rose.mem_encode _).2 hn)
  refine ⟨?_, unitPassesNoMetaStmt_of_runtime fun n hn => hlabels _ ?_⟩
  · have hmodes : KeepsModes b (ASTLayoutReader.readTree similarTo unit.shape b).2 :=
      readTree_runtime_modes hlabels b
    rw [hread] at hmodes
    exact hmodes
  · rw [AST.shape, Rose.labels_map]
    exact List.mem_map_of_mem hn

/-- The depths of the parser, the modes of the reader and the methods of the code generation agree.
In the parse tree of a source, the meta statements are inside of exactly one meta declaration and of
no calculation or condition, and every assertion of the parser on the depth holds. If the source is
visited without diagnostics, every assertion of the reader on the mode holds while its layout and
the layouts of its instantiations are read, and no function, meta function or jump pad of the
program or of an instantiation passes a meta statement to `codegenStmt`. -/
theorem metaDepth_agrees {t : Context} {p : BasicParser}
    (h : Derives GeneratedParser.grammar (.rule .compilationUnit) .start [t] p) :
    (∀ x ∈ t.occurrences [], NestsAt x.1 x.2) ∧ p.destruct.failedAssertions = [] ∧
    ∃ v, LocalScopeVisitor.visit t .start = some v ∧ (v.diagnostics = [] →
      ∃ a s, ASTLayoutReader.consume similarTo (.kind .compilationUnit)
          ⟨v.layout, .start .empty⟩ = .ok (a, s) ∧
        (∀ e ∈ s.builder.failedAssertions, e.isModeAssertion = false) ∧
        UnitPassesNoMetaStmt a ∧
        (∀ ctx params args, PassesNoMetaStmt (MetaCodegen.codegenJumpPad ctx params args)) ∧
        ∀ decl ∈ a.children, ∀ ctx metaFunction,
          MetaCodegen.codegen ctx decl (.initial .insideMetaDecl) = .ok ((), metaFunction) →
          ∀ rt fuel pad inst nextId contributor,
            CodeExecutor.instantiatedLayout rt fuel pad metaFunction.blocks inst nextId =
              some contributor →
            ∀ heap unit s', ASTLayoutReader.consume similarTo (.kind .metaUnit)
                ⟨contributor.layout, .start heap⟩ = .ok (unit, s') →
              (∀ e ∈ s'.builder.failedAssertions, e.isModeAssertion = false) ∧
              UnitPassesNoMetaStmt unit) := by
  refine ⟨GeneratedParser.nests_of_source h, ?_, _, visit_derived h rfl .start, fun hd => ?_⟩
  · rw [GeneratedParser.derives_compilationUnit h]
    rfl
  obtain ⟨T, hprogram, hencode, -⟩ := exists_program h hd
  have hreads : (ASTLayoutReader.Production.kind .compilationUnit).Reads T :=
    ⟨hprogram.wellShaped, .inl hprogram.kind.symm⟩
  have hconsume := ASTLayoutReader.consume_complete similarTo hreads [] (.start .empty)
  have hlayout : (LocalScopeVisitor.start.write (nodesOf t) (diagnosticsOf t)).layout =
      T.encode ++ [] := by
    rw [List.append_nil, hencode]
    rfl
  have hshape : (ASTLayoutReader.readTree similarTo T (.start .empty)).1.shape = T :=
    ASTLayoutReader.readTree_shape T hprogram.wellShaped (.start .empty)
  refine ⟨_, _, by rw [hlayout]; exact hconsume, (readTree_program_modes hprogram _ rfl).asserts,
    unitPassesNoMetaStmt_of_topLevel fun c hc => hprogram.topLevel _ ?_, fun _ _ _ =>
      .codegenJumpPad _ _ _, ?_⟩
  · rw [← hshape, AST.shape, Rose.children_map]
    exact List.mem_map_of_mem hc
  · intro decl _ ctx metaFunction hmeta rt fuel pad inst nextId contributor hcontributor heap unit
      s' hunit
    obtain ⟨hmodes, hpasses⟩ := consume_metaUnit_runtime similarTo
      (instantiatedLayout_runtime hmeta hcontributor) hunit
    exact ⟨hmodes.asserts, hpasses⟩

end Program

/-- `m<> -> { meta if true { meta {} } }` -/
def calculationInMetaIf : Context :=
  .node (.rule .compilationUnit)
    [.node (.rule .metaDecl)
      [.node (.token ⟨.identifier, "m"⟩) [], .node (.token ⟨.operatorLessThan, "<"⟩) [],
        .node (.rule .argumentDeclList) [], .node (.token ⟨.operatorGreaterThan, ">"⟩) [],
        .node (.token ⟨.arrow, "->"⟩) [],
        .node (.rule .metaContribution)
          [.node (.token ⟨.openCurly, "\x7b"⟩) [],
            .node (.rule .metaScopeNode) [.node (.rule .runtimeGlobalScopeNode)
              [.node (.rule .metaStmt) [.node (.rule .metaIfStmt)
                [.node (.token ⟨.meta_, "meta"⟩) [], .node (.token ⟨.if_, "if"⟩) [],
                  .node (.rule .metaCalculationExpr) [.node (.rule .expr)
                    [.node (.rule .booleanLiteralExpr) [.node (.token ⟨.true_, "true"⟩) []]]],
                  .node (.rule .metaContribution)
                    [.node (.token ⟨.openCurly, "\x7b"⟩) [],
                      .node (.rule .metaScopeNode) [.node (.rule .runtimeGlobalScopeNode)
                        [.node (.rule .metaStmt) [.node (.rule .metaCalculationStmt)
                          [.node (.token ⟨.meta_, "meta"⟩) [],
                            .node (.rule .unscopedCompoundStmt) [.node (.rule .basicCompoundStmt)
                              [.node (.token ⟨.openCurly, "\x7b"⟩) [],
                                .node (.token ⟨.closeCurly, "\x7d"⟩) []]]]]]],
                      .node (.token ⟨.closeCurly, "\x7d"⟩) []]]]]],
            .node (.token ⟨.closeCurly, "\x7d"⟩) []]],
      .node (.token ⟨.eof, "<EOF>"⟩) []]

theorem derives_calculationInMetaIf :
    Derives GeneratedParser.grammar (.rule .compilationUnit) .start [calculationInMetaIf]
      .start := by
  have token (l : Token) {p : BasicParser} :
      Derives GeneratedParser.grammar (.token l.kind) p [.node (.token l) []] p := .token
  let inside : BasicParser := BasicParser.start.enterMetaDecl
  have calculation : Derives GeneratedParser.grammar (.rule .metaScopeNode) inside _ inside :=
    .rule (.left (.seq (.predicate rfl) (.seq (.rule (.right (.seq (.predicate rfl) (.seq
      (.rule (.left (.rule (.seq .action (.seq (token ⟨.meta_, "meta"⟩) (.seq
        (.rule (.rule (.seq (token ⟨.openCurly, "\x7b"⟩) (.seq .stop
          (.seq (token ⟨.closeCurly, "\x7d"⟩) .empty)))))
        (.seq .action .empty)))))))
      .empty)))) .empty)))
  have contribution : Derives GeneratedParser.grammar (.rule .metaContribution) inside _ inside :=
    .rule (.seq (token ⟨.openCurly, "\x7b"⟩) (.seq (.again calculation .stop)
      (.seq (token ⟨.closeCurly, "\x7d"⟩) .empty)))
  have condition : Derives GeneratedParser.grammar (.rule .metaCalculationExpr) inside _ inside :=
    .rule (.seq .action (.seq (.rule (.right (.right (.right (.right (.right (.left
      (.rule (.left (token ⟨.true_, "true"⟩)))))))))) (.seq .action .empty)))
  have metaIf : Derives GeneratedParser.grammar (.rule .metaScopeNode) inside _ inside :=
    .rule (.left (.seq (.predicate rfl) (.seq (.rule (.right (.seq (.predicate rfl) (.seq
      (.rule (.right (.rule (.seq (token ⟨.meta_, "meta"⟩) (.seq (token ⟨.if_, "if"⟩)
        (.seq condition (.seq contribution (.seq (.right .empty) .empty))))))))
      .empty)))) .empty)))
  have decl : Derives GeneratedParser.grammar (.rule .metaDecl) .start _ .start :=
    .rule (.seq (token ⟨.identifier, "m"⟩) (.seq (token ⟨.operatorLessThan, "<"⟩)
      (.seq (.rule (.right .empty)) (.seq (token ⟨.operatorGreaterThan, ">"⟩)
        (.seq (token ⟨.arrow, "->"⟩) (.seq .action
          (.seq (.rule (.seq (token ⟨.openCurly, "\x7b"⟩) (.seq (.again metaIf .stop)
            (.seq (token ⟨.closeCurly, "\x7d"⟩) .empty)))) (.seq .action .empty))))))))
  exact .rule (.seq (.again (.right decl) .stop) (.seq (token ⟨.eof, "<EOF>"⟩) .empty))

/-- The calculation and the meta-if are read in their modes, and nothing passes them on. -/
theorem metaDepth_agrees_calculationInMetaIf :
    (∀ x ∈ calculationInMetaIf.occurrences [], NestsAt x.1 x.2) ∧
    ∃ v, LocalScopeVisitor.visit calculationInMetaIf .start = some v ∧ v.diagnostics = [] ∧
      ∃ a s, ASTLayoutReader.consume (fun _ _ => none) (.kind .compilationUnit)
          ⟨v.layout, .start .empty⟩ = .ok (a, s) ∧
        (∀ e ∈ s.builder.failedAssertions, e.isModeAssertion = false) ∧
        UnitPassesNoMetaStmt a := by
  obtain ⟨hnests, -, v, hv, hread⟩ :=
    metaDepth_agrees (fun _ _ => none) derives_calculationInMetaIf
  have hdiagnostics : (LocalScopeVisitor.visit calculationInMetaIf .start).map (·.diagnostics) =
      some [] := by decide
  rw [hv] at hdiagnostics
  have hd : v.diagnostics = [] := Option.some.inj hdiagnostics
  obtain ⟨a, s, hconsume, hmodes, hpasses, -⟩ := hread hd
  exact ⟨hnests, v, hv, hd, a, s, hconsume, hmodes, hpasses⟩

end Swy
