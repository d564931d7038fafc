import Swy.Codegen.ReadableUnits
import Swy.Sema.SemaSafety

/-!
# Instantiations that return early

A meta calculation may return. The meta function is left at once then, and what was contributed up
to the return is what the reader gets. Returning at the top level leaves complete nodes; inside of a
function the reduce markers of the nodes around the calculation are missing, and that of the meta
unit ends one of these. With what `ReadableUnits` says of the bodies this is all that can go wrong:
the reader accepts an instantiation and reads it to its end iff every function that the meta
function gets to is completed with one statement as its body (`instantiatedLayout_accepted_iff`).
-/

namespace Swy

open Library

section Functions

variable (ctx : IRContext) (rt : Runtime)

/-- The body contributes one statement, and no calculation in it returns. -/
def contributesOne (body : AST) (μ : Memory) : Bool :=
  let x := expansion ctx rt .insideFunctionDecl body μ
  x.ending = .next && x.trees.length = 1

mutual
/-- Every function that the meta function gets to below a node of the top level is completed with
one statement as its body. -/
def completesFunctions : AST → Memory → Bool
  | .node n cs, μ =>
    match n.node.data, cs with
    | .functionDecl _, cs => cs.getLast?.any fun body => contributesOne ctx rt body μ
    | .metaContribution, cs => completesAllFunctions cs μ
    | .metaIfStmt, [condition, trueBranch] =>
      let (taken, μ₁) := takesBranch ctx rt condition μ
      if taken then completesFunctions trueBranch μ₁ else true
    | .metaIfStmt, [condition, trueBranch, falseBranch] =>
      let (taken, μ₁) := takesBranch ctx rt condition μ
      if taken then completesFunctions trueBranch μ₁ else completesFunctions falseBranch μ₁
    | _, _ => true
/-- The same of the nodes of a list, up to a return. -/
def completesAllFunctions : List AST → Memory → Bool
  | [], _ => true
  | c :: cs, μ =>
    let x := expansion ctx rt .topLevel c μ
    completesFunctions c μ && (x.ending != .next || completesAllFunctions cs x.memory)
end

end Functions

section Expansion

variable {ctx : IRContext} {rt : Runtime}

/-- What is contributed at the top level: spliced trees, if none is unclosed. Every function of them
has one body iff it is completed. -/
structure Expansion.IsTopLevel (x : Expansion) (completes : Bool) : Prop where
  trees : x.ending ≠ .unclosed → ∀ t ∈ x.trees, IsSpliced t ∧ t.label.kind.isTopLevelNode = true
  complete : completes = true ↔ x.ending ≠ .unclosed ∧ ∀ t ∈ x.trees, HasOneBody t

theorem Expansion.IsTopLevel.nil {ending : Ending} (h : ending ≠ .unclosed) (μ : Memory) :
    Expansion.IsTopLevel ⟨[], ending, μ⟩ true :=
  ⟨fun _ _ ht => absurd ht List.not_mem_nil, iff_of_true rfl
    ⟨h, fun _ ht => absurd ht List.not_mem_nil⟩⟩

theorem expansions_isTopLevel {cs : List AST}
    (h : ∀ c ∈ cs, ∀ μ, (expansion ctx rt .topLevel c μ).IsTopLevel (completesFunctions ctx rt c μ))
    (μ : Memory) :
    (expansions ctx rt .topLevel cs μ).IsTopLevel (completesAllFunctions ctx rt cs μ) := by
  induction cs generalizing μ with
  | nil => exact .nil (by decide) μ
  | cons c cs ih =>
    obtain ⟨htrees, hcomplete⟩ := h c List.mem_cons_self μ
    rw [expansions, completesAllFunctions, Expansion.andThen]
    cases hending : (expansion ctx rt .topLevel c μ).ending with
    | next =>
      obtain ⟨htrees', hcomplete'⟩ := ih (fun x hx => h x (List.mem_cons_of_mem _ hx))
        (expansion ctx rt .topLevel c μ).memory
      have hclosed : (expansion ctx rt .topLevel c μ).ending ≠ .unclosed := by
        rw [hending]
        decide
      refine ⟨fun hne t ht => ?_, ?_⟩
      · rcases List.mem_append.1 ht with ht | ht
        · exact htrees hclosed t ht
        · exact htrees' hne t ht
      · show (_ && (false || _)) = true ↔ _
        rw [Bool.false_or, Bool.and_eq_true_iff, hcomplete, hcomplete']
        constructor
        · rintro ⟨⟨-, hc⟩, hne, hcs⟩
          refine ⟨hne, fun t ht => ?_⟩
          rcases List.mem_append.1 ht with ht | ht
          · exact hc t ht
          · exact hcs t ht
        · rintro ⟨hne, hall⟩
          exact ⟨⟨hclosed, fun t ht => hall t (List.mem_append_left _ ht)⟩, hne,
            fun t ht => hall t (List.mem_append_right _ ht)⟩
    | returned | unclosed =>
      have hstop (b : Bool) : (completesFunctions ctx rt c μ && (true || b)) =
          completesFunctions ctx rt c μ := by
        rw [Bool.true_or, Bool.and_true]
      exact ⟨htrees, (Bool.eq_iff_iff.1 (hstop _)).trans hcomplete⟩

/-- A node without intermediate nodes stands for itself, and nothing returns in it. -/
theorem expansion_runtime {a : AST} (h : ∀ n ∈ a.labels, n.node.kind.isIntermediateNode = false)
    (level : DepthLevel) (μ : Memory) : expansion ctx rt level a μ = ⟨[a.data], .next, μ⟩ := by
  have hreturn : a.CalculatesWithoutReturn := fun c hc hk => by
    have hkind := h c.label (Rose.label_mem_labels hc)
    have hk : c.label.node.kind = .metaCalculationStmt := hk
    rw [hk] at hkind
    cases hkind
  rw [expansion_eq a hreturn, expand_runtime a h]

/-- What stands in front of the body of a function is contributed as it is. -/
theorem expansions_front {front : List AST}
    (h : ∀ c ∈ front, ∀ n ∈ c.labels, n.node.kind.isIntermediateNode = false) (body : AST)
    (level : DepthLevel) (μ : Memory) :
    expansions ctx rt level (front ++ [body]) μ =
      { expansion ctx rt level body μ with
        trees := front.map AST.data ++ (expansion ctx rt level body μ).trees } := by
  induction front with
  | nil =>
    rw [List.nil_append, expansions]
    obtain ⟨trees, ending, μ₁⟩ := expansion ctx rt level body μ
    cases ending with
    | next => exact congrArg (Expansion.mk · _ _) (List.append_nil trees)
    | returned | unclosed => rfl
  | cons c front ih =>
    rw [List.cons_append, expansions, expansion_runtime (h c List.mem_cons_self)]
    dsimp only [Expansion.andThen]
    rw [ih fun x hx => h x (List.mem_cons_of_mem _ hx)]
    rfl

/-- A function is complete iff its body contributes one statement and does not return. -/
theorem expansion_functionDecl {n : ASTNode} {cs : List AST} {name : Identifier}
    (hdata : n.node.data = .functionDecl name) (hs : (AST.shape (.node n cs)).WellShaped)
    (hd : Tree.derivedAll .depthLocalScope (cs.map AST.shape) = true) (μ : Memory) :
    (expansion ctx rt .topLevel (.node n cs) μ).IsTopLevel
      (completesFunctions ctx rt (.node n cs) μ) := by
  obtain ⟨front, body, rfl, hfront, hbody⟩ := functionDecl_children hs hdata
  rw [AST.shape_node] at hs
  have hwell := (Tree.wellShaped_node.1 hs).2 body.shape (List.mem_map_of_mem (by simp))
  have hderived := Tree.derivedAll_iff.1 hd body.shape (List.mem_map_of_mem (by simp))
  obtain ⟨⟨id, data⟩, decl, exportedDecls⟩ := n
  obtain rfl : data = .functionDecl name := hdata
  have hexpansion : expansion ctx rt .topLevel
      (.node ⟨⟨id, .functionDecl name⟩, decl, exportedDecls⟩ (front ++ [body])) μ =
        ⟨[.node (.functionDecl name) (front.map AST.data ++
          (expansion ctx rt .insideFunctionDecl body μ).trees)],
          (expansion ctx rt .insideFunctionDecl body μ).ending.above true,
          (expansion ctx rt .insideFunctionDecl body μ).memory⟩ :=
    congrArg (Expansion.node (.functionDecl name))
      (expansions_front hfront.runtime body .insideFunctionDecl μ)
  have hcompletes : completesFunctions ctx rt
      (.node ⟨⟨id, .functionDecl name⟩, decl, exportedDecls⟩ (front ++ [body])) μ =
        contributesOne ctx rt body μ :=
    congrArg (Option.any fun body => contributesOne ctx rt body μ) List.getLast?_concat
  rw [hexpansion, hcompletes, contributesOne]
  cases hending : (expansion ctx rt .insideFunctionDecl body μ).ending with
  | next =>
    obtain ⟨-, hstmts⟩ := expand_body ctx rt hwell hderived hbody μ
    obtain ⟨hspliced, hone⟩ := hfront.spliced _ hstmts
    have htrees : (expansion ctx rt .insideFunctionDecl body μ).trees =
        (expand ctx rt .insideFunctionDecl body μ).1 :=
      congrArg Expansion.trees (expansion_of_next body hending)
    rw [htrees]
    refine ⟨fun _ => List.forall_mem_singleton.2 ⟨hspliced, rfl⟩, ?_⟩
    rw [decide_eq_true rfl, Bool.true_and, decide_eq_true_iff, ← hone]
    exact ⟨fun h => ⟨Ending.noConfusion, List.forall_mem_singleton.2 h⟩,
      fun h => List.forall_mem_singleton.1 h.2⟩
  | returned | unclosed =>
    exact ⟨fun hne => absurd rfl hne, iff_of_false Bool.false_ne_true fun h => h.1 rfl⟩

variable (ctx rt) in
/-- What a part of a contribution contributes up to a return. -/
theorem expansion_isTopLevel (a : AST) (hs : a.shape.WellShaped)
    (hd : Tree.derived .depthGlobalScope a.shape = true)
    (hk : AST.kind a = .metaContribution ∨
      MetaDepth.depthGlobalScope.isMetaScopeNode (AST.kind a) = true) (μ : Memory) :
    (expansion ctx rt .topLevel a μ).IsTopLevel (completesFunctions ctx rt a μ) := by
  induction a using Rose.ind generalizing μ with
  | h n cs ih =>
    have each {c : AST} (hc : c ∈ cs) (hd : Tree.derived .depthGlobalScope c.shape = true)
        (hk : AST.kind c = .metaContribution ∨
          MetaDepth.depthGlobalScope.isMetaScopeNode (AST.kind c) = true) (μ : Memory) :
        (expansion ctx rt .topLevel c μ).IsTopLevel (completesFunctions ctx rt c μ) := by
      have hshape := hs
      rw [AST.shape_node] at hshape
      exact ih c hc ((Tree.wellShaped_node.1 hshape).2 _ (List.mem_map_of_mem hc)) hd hk μ
    obtain ⟨⟨id, data⟩, decl, exportedDecls⟩ := n
    rw [AST.shape_node] at hd
    cases data with
    | metaContribution =>
      obtain ⟨hscope, hd⟩ := Bool.and_eq_true_iff.1 hd
      refine expansions_isTopLevel (fun c hc μ => ?_) μ
      have hkind := List.all_eq_true.1 hscope _ (List.mem_map_of_mem hc)
      rw [AST.kind_shape] at hkind
      exact each hc (Tree.derivedAll_iff.1 hd _ (List.mem_map_of_mem hc)) (.inr hkind) μ
    | functionDecl name => exact expansion_functionDecl rfl hs (Bool.and_eq_true_iff.1 hd).2 μ
    | metaIfStmt =>
      rw [AST.shape_node] at hs
      obtain ⟨condition, branches, hbranches, -, hkinds⟩ :=
        Tree.WellShaped.metaIfStmt hs (n := ⟨id, .metaIfStmt⟩) rfl
      rw [hbranches] at hd
      have hd : (Tree.derived .depthNone condition &&
          Tree.derivedAll .depthGlobalScope branches) = true := hd
      have hd := Tree.derivedAll_iff.1 (Bool.and_eq_true_iff.1 hd).2
      have branch {c : AST} (hc : c ∈ cs) (hmem : AST.shape c ∈ branches) (μ : Memory) :=
        each hc (hd _ hmem) (.inl (kind_branch hkinds hmem)) μ
      rcases cs with _ | ⟨c, _ | ⟨b, _ | ⟨b', _ | ⟨d, cs⟩⟩⟩⟩
      · exact .nil (by decide) μ
      · exact .nil (by decide) μ
      · obtain ⟨-, rfl⟩ := List.cons.inj hbranches
        simp only [expansion, completesFunctions]
        split
        · exact branch (by simp) (by simp) _
        · exact .nil (by decide) _
      · obtain ⟨-, rfl⟩ := List.cons.inj hbranches
        simp only [expansion, completesFunctions]
        split
        · exact branch (by simp) (by simp) _
        · exact branch (by simp) (by simp) _
      · exact .nil (by decide) μ
    | metaCalculationStmt =>
      rcases cs with _ | ⟨stmt, _ | ⟨c, cs⟩⟩
      · exact .nil (by decide) μ
      · simp only [expansion, completesFunctions]
        split
        · refine ⟨fun _ t ht => ?_, iff_of_true rfl ⟨Ending.noConfusion, fun t ht => ?_⟩⟩
          · obtain ⟨d, -, hd⟩ := List.mem_filterMap.1 ht
            obtain ⟨name, -, rfl⟩ := Option.map_eq_some_iff.1 hd
            exact ⟨rfl, rfl⟩
          · obtain ⟨d, -, hd⟩ := List.mem_filterMap.1 ht
            obtain ⟨name, -, rfl⟩ := Option.map_eq_some_iff.1 hd
            rfl
        · exact .nil (by decide) _
      · exact .nil (by decide) μ
    | _ =>
      rcases hk with hk | hk
      · cases hk
      · cases hk

end Expansion

/-! ## What is read of an instantiation -/

section Instantiation

variable {ctx : IRContext} {similarTo : ScopeChain → Identifier → Option Node}

/-- A layout in which a reduce marker is missing is no encoding. -/
theorem number_ne_encode {ds : List (Option NodeData)}
    (hopen : 0 < Rose.openFrames (fun d => d.kind.isRequiringReduceMarker) ds) (nextId : NodeId)
    (T : Tree) : number nextId ds ≠ T.encode := by
  intro h
  have hclosed : Rose.openFrames Node.isNodeRequiringReduceMarker T.encode = 0 :=
    Rose.openFrames_encode Node.isNodeRequiringReduceMarker T
  have hmap := Rose.openFrames_map Node.data
    (fun d => d.kind.isRequiringReduceMarker) (number nextId ds)
  rw [map_data_number] at hmap
  rw [← h] at hclosed
  exact absurd (hmap.trans hclosed) (Int.ne_of_gt hopen)

/-- The marker of the meta unit ends one of the nodes of which the marker is missing. -/
theorem metaUnit_unclosed (inst : Instantiation) (ts : List (Rose NodeData))
    {ds : List (Option NodeData)}
    (h : 0 < Rose.openFrames (fun d => d.kind.isRequiringReduceMarker) ds) :
    0 < Rose.openFrames (fun d => d.kind.isRequiringReduceMarker)
      (some (.metaUnit inst) :: (encodeData ts ++ ds ++ [none])) := by
  have hnode := Rose.openFrames_node (fun d : NodeData => d.kind.isRequiringReduceMarker)
    (.metaUnit inst) (encodeData ts ++ ds)
  rw [Rose.openFrames_append, openFrames_encodeData, Int.zero_add] at hnode
  exact hnode.symm ▸ h

variable (similarTo) in
/-- The reader accepts the layout of an instantiation and reads it to its end iff every function
that the meta function gets to is completed: its body contributes exactly one statement, and no
calculation in it returns. This depends on the meta declaration, its arguments and the outcomes of
the conditions, and on nothing else: at every other place the splicing of the meta statements leaves
what the productions describe, whatever returns there. -/
theorem instantiatedLayout_accepted_iff {program : AST} (hp : program.shape.IsProgram)
    {n : ASTNode} {args contribution : AST}
    (hdecl : .node n [args, contribution] ∈ program.children) (hk : n.node.kind = .metaDecl)
    {metaFunction : CodegenState}
    (hmeta : MetaCodegen.codegen ctx (.node n [args, contribution]) (.initial .insideMetaDecl) =
      .ok ((), metaFunction))
    (inst : Instantiation) (instArgs : List AST) (values : List Word)
    (hvalues : instArgs.map (fun arg => arg.label.node.data) = values.map .integerLiteralExpr)
    (hlength : values.length = args.children.length) (rt : Runtime) (nextId : NodeId) :
    ∃ pad, MetaCodegen.codegenJumpPad ctx args.children.length instArgs
        (.initial .insideMetaDecl) = .ok ((), pad) ∧
      ∃ bound, ∀ fuel, bound ≤ fuel → ∃ contributor,
        CodeExecutor.instantiatedLayout rt fuel pad.blocks metaFunction.blocks inst nextId =
          some contributor ∧
        ∀ b, (∃ unit b', ASTLayoutReader.consume similarTo (.kind .metaUnit)
            ⟨contributor.layout, b⟩ = .ok (unit, ⟨[], b'⟩)) ↔
          completesFunctions ctx rt contribution
            (Interpreter.bindArguments values 0 args.children rt.memory).memory = true := by
  obtain ⟨hids, hwell, hderived, hkind⟩ := metaDecl_parts hp hdecl hk
  obtain ⟨ds, hwrites, hds⟩ := execMetaFunction_writesTo rt ctx contribution hids hlength
  obtain ⟨pad, hpad, bound, hbound⟩ := instantiatedLayout_writes ctx hmeta inst hvalues hlength
    hwrites nextId
  obtain ⟨htrees, hcomplete⟩ := expansion_isTopLevel ctx rt contribution hwell hderived
    (.inl hkind) (Interpreter.bindArguments values 0 args.children rt.memory).memory
  refine ⟨pad, hpad, bound, fun fuel hfuel => ?_⟩
  obtain ⟨contributor, hcontributor, hlayout⟩ := hbound fuel hfuel
  refine ⟨contributor, hcontributor, fun b => ?_⟩
  by_cases hending : (expansion ctx rt .topLevel contribution
      (Interpreter.bindArguments values 0 args.children rt.memory).memory).ending = .unclosed
  · have hopen := metaUnit_unclosed inst (parameterTrees args.children values)
      (hds.unclosed hending)
    refine iff_of_false ?_ fun h => (hcomplete.1 h).1 hending
    rintro ⟨unit, b', h⟩
    obtain ⟨-, hencode, -⟩ := ASTLayoutReader.consume_eq_readTree h
    exact number_ne_encode hopen nextId unit.shape
      (hlayout.symm.trans (hencode.trans (List.append_nil _)))
  · obtain ⟨T, hencode, hunit, hspliced, hone⟩ := exists_tree_metaUnit inst args.children values
      (htrees hending) nextId
    rw [hds.closed hending, ← encodeData_append] at hlayout
    have hlayout : contributor.layout = T.encode := by
      rw [hlayout, ← hencode, encodeData_node]
      rfl
    obtain ⟨haccept, hreject⟩ := consume_spliced similarTo hunit hspliced b
    rw [hlayout, hcomplete]
    constructor
    · rintro ⟨unit, b', h⟩
      exact ⟨hending, hone.1 (hreject unit _ h)⟩
    · rintro ⟨-, h⟩
      obtain ⟨unit, b', h, -⟩ := haccept (hone.2 h)
      exact ⟨unit, b', h⟩

end Instantiation

/-! ## A calculation that returns inside of a function -/

namespace ReturningCalculation

/-- `n` -/
def parameter (id : NodeId) : AST :=
  .node { node := ⟨id, .declRefExpr "n"⟩, decl := some ⟨3, .namedArgumentDecl "n"⟩ } []

def args : AST :=
  .node { node := ⟨2, .argumentDeclList⟩ } [.node { node := ⟨3, .namedArgumentDecl "n"⟩ } []]

/-- `m() -> body` -/
def contribution (body : AST) : AST :=
  .node { node := ⟨4, .metaContribution⟩ } [.node { node := ⟨5, .functionDecl "m"⟩ }
    [.node { node := ⟨6, .argumentDeclList⟩ } [], body]]

/-- `m<int n> -> { m() -> body }` -/
def decl (body : AST) : AST := .node { node := ⟨1, .metaDecl "m"⟩ } [args, contribution body]

/-- `f() -> { m<1>(); }` -/
def caller : AST :=
  .node { node := ⟨20, .functionDecl "f"⟩ } [.node { node := ⟨21, .argumentDeclList⟩ } [],
    .node { node := ⟨22, .compoundStmt⟩ } [.node { node := ⟨23, .expressionStmt⟩ }
      [.node { node := ⟨24, .callOperatorExpr⟩ } [.node { node := ⟨25, .metaInstantiationExpr⟩ }
        [.node { node := ⟨26, .declRefExpr "m"⟩, decl := some ⟨1, .metaDecl "m"⟩ } [],
          .node { node := ⟨27, .integerLiteralExpr 1⟩ } []]]]]]

def program (body : AST) : AST :=
  .node { node := ⟨0, .compilationUnit⟩ } [decl body, caller]

/-- `{ meta { if n { return; } } }` -/
def returning : AST :=
  .node { node := ⟨7, .compoundStmt⟩ } [.node { node := ⟨8, .metaCalculationStmt⟩ }
    [.node { node := ⟨9, .unscopedCompoundStmt⟩ } [.node { node := ⟨10, .ifStmt⟩ } [parameter 11,
      .node { node := ⟨12, .compoundStmt⟩ } [.node { node := ⟨13, .returnStmt⟩ } []]]]]]

/-- `meta if n < 1 { { } }` -/
def conditional : AST :=
  .node { node := ⟨7, .metaIfStmt⟩ } [.node { node := ⟨8, .binaryOperatorExpr .lessThan⟩ }
    [parameter 9, .node { node := ⟨10, .integerLiteralExpr 1⟩ } []],
    .node { node := ⟨11, .metaContribution⟩ } [.node { node := ⟨12, .compoundStmt⟩ } []]]

def inst : Instantiation := ⟨25, "m", some (1, .metaDecl)⟩

/-- What the meta function of `m` is called with. -/
def instArgs : List AST := [.node { node := ⟨27, .integerLiteralExpr 1⟩ } []]

end ReturningCalculation

open ReturningCalculation in
/-- The instantiation is accepted if the calculation does not return, and is not if it returns. -/
theorem instantiatedLayout_accepted_iff_return :
    let ctx : IRContext := .ofUnits [program returning] fun _ => none
    ∃ metaFunction pad fuel returned fuel' completed,
      MetaCodegen.codegen ctx (decl returning) (.initial .insideMetaDecl) =
        .ok ((), metaFunction) ∧
      CodeExecutor.instantiatedLayout (.ofOutcomes [true]) fuel pad metaFunction.blocks inst 30 =
        some returned ∧
      CodeExecutor.instantiatedLayout (.ofOutcomes [false]) fuel' pad metaFunction.blocks inst 30 =
        some completed ∧
      (¬ ∃ unit b', ASTLayoutReader.consume (fun _ _ => none) (.kind .metaUnit)
        ⟨returned.layout, .start .empty⟩ = .ok (unit, ⟨[], b'⟩)) ∧
      ∃ unit b', ASTLayoutReader.consume (fun _ _ => none) (.kind .metaUnit)
        ⟨completed.layout, .start .empty⟩ = .ok (unit, ⟨[], b'⟩) := by
  intro ctx
  have hp : (program returning).shape.IsProgram := ⟨rfl, by decide, by decide, by decide⟩
  obtain ⟨metaFunction, hmeta⟩ := exists_of_isOk (c := MetaCodegen.codegen ctx (decl returning))
    (s := .initial .insideMetaDecl) (by decide +kernel)
  have hiff := instantiatedLayout_accepted_iff (fun _ _ => none) hp List.mem_cons_self rfl hmeta
    inst instArgs [1] rfl rfl
  obtain ⟨pad, hpad, fuel, hfuel⟩ := hiff (.ofOutcomes [true]) 30
  obtain ⟨pad', hpad', fuel', hfuel'⟩ := hiff (.ofOutcomes [false]) 30
  obtain ⟨returned, hreturned, hread⟩ := hfuel fuel (Nat.le_refl _)
  obtain ⟨completed, hcompleted, hread'⟩ := hfuel' fuel' (Nat.le_refl _)
  obtain ⟨-, rfl⟩ := Prod.mk.inj (Except.ok.inj (hpad.symm.trans hpad'))
  refine ⟨metaFunction, pad.blocks, fuel, returned, fuel', completed, hmeta, hreturned, hcompleted,
    fun h => ?_, (hread' _).2 (by decide +kernel)⟩
  have hcompletes := (hread _).1 h
  revert hcompletes
  decide +kernel

open ReturningCalculation in
/-- `m<int n> -> { m() -> meta if n < 1 { { } } } f() -> { m<1>(); }` is accepted without a
diagnostic. The branch is not taken for 1, so that the function has no body, and the reader does not
accept the instantiation. -/
theorem instantiatedLayout_not_accepted :
    let ctx : IRContext := .ofUnits [program conditional] fun _ => none
    ∃ (t : Tree) (s : ASTLayoutReader.State), t.IsProgram ∧
      ASTLayoutReader.AcceptsUnit (fun _ _ => none) .compilationUnit t.encode .empty
        (program conditional) s ∧
      SemaAnalysis.checkAST (.ofUnits [program conditional] fun _ => none) (program conditional) =
        .ok [] ∧
      decl conditional ∈ (program conditional).children ∧
      ∃ metaFunction pad, MetaCodegen.codegen ctx (decl conditional) (.initial .insideMetaDecl) =
          .ok ((), metaFunction) ∧
        MetaCodegen.codegenJumpPad ctx args.children.length instArgs (.initial .insideMetaDecl) =
          .ok ((), pad) ∧
        ∃ fuel contributor, CodeExecutor.instantiatedLayout (.ofOutcomes [false]) fuel pad.blocks
            metaFunction.blocks inst 30 = some contributor ∧
          ∃ fault, ASTLayoutReader.consume (fun _ _ => none) (.kind .metaUnit)
            ⟨contributor.layout, .start s.builder.heap⟩ = .error fault := by
  intro ctx
  have hwell : (program conditional).shape.WellShaped := by decide
  have hread := ASTLayoutReader.consume_complete (fun _ _ => none) (p := .kind .compilationUnit)
    ⟨hwell, .inl rfl⟩ [] (.start .empty)
  have ha : (ASTLayoutReader.readTree (fun _ _ => none) (program conditional).shape
    (.start .empty)).1 = program conditional := by rfl
  rw [List.append_nil, ha] at hread
  have haccept := ASTLayoutReader.AcceptsUnit.mk hread (by decide) (by decide)
  have hmeta := eq_ok_of_isOk (c := MetaCodegen.codegen ctx (decl conditional))
    (s := .initial .insideMetaDecl) (by decide +kernel)
  have hpad := eq_ok_of_isOk (c := MetaCodegen.codegenJumpPad ctx 1 instArgs)
    (s := .initial .insideMetaDecl) (by decide +kernel)
  have hread : (CodeExecutor.instantiatedLayout (.ofOutcomes [false]) 20
      (((MetaCodegen.codegenJumpPad ctx 1 instArgs (.initial .insideMetaDecl)).toOption.getD
        ((), .initial .insideMetaDecl)).2).blocks
      (((MetaCodegen.codegen ctx (decl conditional) (.initial .insideMetaDecl)).toOption.getD
        ((), .initial .insideMetaDecl)).2).blocks inst 30).map (fun contributor =>
        (ASTLayoutReader.consume (fun _ _ => none) (.kind .metaUnit)
          ⟨contributor.layout, .start (ASTLayoutReader.readTree (fun _ _ => none)
            (program conditional).shape (.start .empty)).2.heap⟩).isOk) = some false := by
    decide +kernel
  obtain ⟨contributor, hcontributor, hfault⟩ := Option.map_eq_some_iff.1 hread
  refine ⟨(program conditional).shape, _, ⟨rfl, hwell, by decide, by decide⟩, haccept, rfl,
    List.mem_cons_self, _, _, hmeta, hpad, 20, contributor, hcontributor, ?_⟩
  cases hconsume : ASTLayoutReader.consume (fun _ _ => none) (.kind .metaUnit)
    ⟨contributor.layout, .start (ASTLayoutReader.readTree (fun _ _ => none)
      (program conditional).shape (.start .empty)).2.heap⟩ with
  | error fault => exact ⟨fault, rfl⟩
  | ok r =>
    rw [hconsume] at hfault
    cases hfault

end Swy
