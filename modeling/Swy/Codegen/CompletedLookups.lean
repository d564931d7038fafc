import Swy.Codegen.Instantiation
import Swy.Codegen.PreInstantiation
import Swy.Sema.SemaSafety

/-!
# Looking up what was instantiated

A lookup of a completed instantiation finds a function iff the unit that is cached for it exports
one. The pre-pass over a function checks that, the one over a meta declaration does not, so that a
meta function may look up an instantiation without an export (`not_findsFunction`).
-/

namespace Swy

open Library

namespace CodegenInstance

/-- The lookup ends with a function, whatever the choices are. -/
def FindsFunction (m : Config) : Prop :=
  ∃ function s, ∀ c₁ c₂ c₃,
    run [c₁, c₂, c₃] m = some ⟨.lookupResult (some function), m.stack, s⟩

/-- Completed instantiations are found where they are usable. -/
theorem findsFunction_iff {inst : AST} {stack : List Frame} {s : State} :
    FindsFunction ⟨.lookupInstantiation inst true, stack, s⟩ ↔ s.Usable inst := by
  have hrun (c₁ c₂ c₃ : Choice) : run [c₁, c₂, c₃] ⟨.lookupInstantiation inst true, stack, s⟩ =
      (step c₃ (instantiate (.lookupInstantiation inst :: stack) s inst true)).bind some := by
    have hinvoke : (instantiate (.lookupInstantiation inst :: stack) s inst true).control.isInvoke =
        false := by
      unfold instantiate
      split
      · rfl
      · rfl
    show (if (instantiate (.lookupInstantiation inst :: stack) s inst true).control.isInvoke
      then none
      else (step c₃ (instantiate (.lookupInstantiation inst :: stack) s inst true)).bind some) = _
    rw [hinvoke]
    rfl
  constructor
  · rintro ⟨function, s', h⟩
    have h := (hrun {} {} {}).symm.trans (h {} {} {})
    unfold instantiate at h
    split at h
    · rename_i unit hunit
      simp only [step, returnUnit, Option.bind_some, Option.some.injEq, lookupExported] at h
      split at h
      · cases h
      rename_i exported hexported
      split at h
      · rename_i hk
        exact ⟨unit, hunit, exported, hexported, hk⟩
      · cases h
    · cases h
  · rintro ⟨unit, hunit, exported, hexported, hk⟩
    refine ⟨exported.id, s.lookupGlobal exported.id, fun c₁ c₂ c₃ => ?_⟩
    rw [hrun, instantiate, hunit]
    simp only [step, returnUnit, lookupExported, hexported, hk, if_true, Option.bind_some]

/-- What is instantiated before a body is generated can be looked up from it. The instantiations
that the body of a function looks up are always found. One that a meta function looks up, and that
the pre-pass over the meta declaration visited, is cached, and it is found iff its unit exports a
function. -/
theorem findsFunction_of_reachable {reads : Reads} {a : AST} {m : Config}
    (h : Reachable reads a m) {inst : AST} (hlookup : m.control = .lookupInstantiation inst true) :
    (∀ decl refs stack, m.stack = .generateFunctionDecl decl refs :: stack → FindsFunction m) ∧
    ∀ decl refs stack d, m.stack = .generateMetaDecl decl refs :: stack →
      m.state.declaringNode decl = some d → inst ∈ d.consumeMeta →
      ∃ unit, m.state.getCachedInstantiationOf inst = some unit ∧
        (FindsFunction m ↔ unit.ExportsFunction) := by
  obtain ⟨control, stack, s⟩ := m
  obtain rfl : control = .lookupInstantiation inst true := hlookup
  rcases h.sound with ⟨fault, hfault⟩ | h
  · cases hfault
  have hawaited := h.awaits inst rfl
  constructor
  · rintro decl refs stack' rfl
    have hloop : GeneratesFunction s decl refs := h.frames _ List.mem_cons_self
    refine findsFunction_iff.2 (hloop.2 inst ?_)
    rcases refs with _ | ⟨ref, refs⟩
    · cases hawaited
    · cases ref with
      | function callee => cases hawaited
      | instantiation i =>
        obtain rfl := Option.some.inj hawaited
        exact List.mem_cons_self
  · rintro decl refs stack' d rfl hd hinst
    obtain ⟨d', visited, hd', hvisited, hall⟩ : ConsumesMeta s decl [] :=
      h.frames _ List.mem_cons_self
    obtain rfl := Option.some.inj (hd'.symm.trans hd)
    rw [List.append_nil] at hvisited
    obtain ⟨unit, hunit⟩ := Option.isSome_iff_exists.1 (hall inst (hvisited ▸ hinst))
    refine ⟨unit, hunit, findsFunction_iff.trans ⟨?_, fun hexports => ⟨unit, hunit, hexports⟩⟩⟩
    rintro ⟨unit', hunit', hexports⟩
    obtain rfl := Option.some.inj (hunit'.symm.trans hunit)
    exact hexports

/-- `m<> -> { m() -> {} } f() -> { m<>(); }`, where the body of `f` finds what `m<>` exports. -/
theorem findsFunction_of_reachable_export :
    ∃ (a : AST) (m : Config), Reachable (fun _ _ _ => True) a m ∧
      (∃ inst, m.control = .lookupInstantiation inst true) ∧ FindsFunction m := by
  let inst : AST := .node { node := ⟨12, .metaInstantiationExpr⟩ }
    [.node { node := ⟨13, .declRefExpr "m"⟩, decl := some ⟨1, .metaDecl "m"⟩ } []]
  let a : AST := .node { node := ⟨0, .compilationUnit⟩ }
    [.node { node := ⟨1, .metaDecl "m"⟩ }
        [.node { node := ⟨2, .argumentDeclList⟩ } [],
          .node { node := ⟨3, .metaContribution⟩ }
            [.node { node := ⟨4, .functionDecl "m"⟩ }
              [.node { node := ⟨5, .argumentDeclList⟩ } [],
                .node { node := ⟨6, .compoundStmt⟩ } []]]],
      .node { node := ⟨7, .functionDecl "f"⟩ }
        [.node { node := ⟨8, .argumentDeclList⟩ } [],
          .node { node := ⟨9, .compoundStmt⟩ }
            [.node { node := ⟨10, .expressionStmt⟩ }
              [.node { node := ⟨11, .callOperatorExpr⟩ } [inst]]]]]
  let unit : MetaUnit :=
    { ast := .node { node := ⟨20, .metaUnit ⟨12, "m", some (1, .metaDecl)⟩⟩ }
        [.node { node := ⟨21, .functionDecl "m"⟩ }
          [.node { node := ⟨22, .argumentDeclList⟩ } [], .node { node := ⟨23, .compoundStmt⟩ } []]]
      exportedNode := some ⟨21, .functionDecl "m"⟩ }
  let choices : List Choice := { index := 1 } :: List.replicate 11 {}
  let m₁ : Config := (run choices (start a)).getD (start a)
  have hrun₁ : run choices (start a) = some m₁ := by rfl
  let m₂ : Config := (step { unit := some unit } m₁).getD m₁
  have hstep : step { unit := some unit } m₁ = some m₂ := by rfl
  let m : Config := (run (List.replicate 4 {}) m₂).getD m₂
  have hrun : run (List.replicate 4 {}) m₂ = some m := by rfl
  have h₁ : Reachable (fun _ _ _ => True) a m₁ := Reachable.run .refl hrun₁
  have h₂ : Reachable (fun _ _ _ => True) a m₂ := h₁.tail ⟨_, fun _ _ => trivial, hstep⟩
  have h : Reachable (fun _ _ _ => True) a m := h₂.run hrun
  have hlookup : m.control = .lookupInstantiation inst true := by rfl
  have hstack : m.stack =
      [.generateFunctionDecl 7 [.instantiation inst], .codegen] := by rfl
  exact ⟨a, m, h, ⟨inst, hlookup⟩, (findsFunction_of_reachable h hlookup).1 _ _ _ hstack⟩

/-- What instantiating really gives: the meta function and the jump pad are generated and run, and
what they wrote is read and checked without an error. -/
inductive Instantiates (similarTo : ScopeChain → Identifier → Option Node) (heap : ASTHeap)
    (s : State) (inst : AST) : Option MetaUnit → Prop
  | intro {decl unit : AST} {name : Identifier} {params : Nat} {metaFunction pad : CodegenState}
    {rt : Runtime} {fuel : Nat} {nextId : NodeId} {contributor : NodeContributor}
    {reader : ASTLayoutReader.State} {reports : List Diagnostic} :
    s.declaringNode decl.label.node.id = some decl →
    decl.label.node.data = .metaDecl name →
    inst.children.head?.bind (fun declRef => declRef.label.decl) = some decl.label.node →
    getMetaArgCountOf decl = some params →
    MetaCodegen.codegen s.irContext decl (.initial .insideMetaDecl) = .ok ((), metaFunction) →
    MetaCodegen.codegenJumpPad s.irContext params inst.children.tail (.initial .insideMetaDecl) =
      .ok ((), pad) →
    CodeExecutor.instantiatedLayout rt fuel pad.blocks metaFunction.blocks
      ⟨inst.label.node.id, name, some (decl.label.node.id, .metaDecl)⟩ nextId = some contributor →
    ASTLayoutReader.AcceptsUnit similarTo .metaUnit contributor.layout heap unit reader →
    SemaAnalysis.checkAST s.irContext unit = .ok reports →
    hasErrors reports = false →
    Instantiates similarTo heap s inst
      (some ⟨unit, reader.builder.heap.exportedNode unit.label.node.id⟩)

/-! ## An instantiation without an export -/

namespace NoExport

/-- `e<> -> {}`. -/
def e : AST :=
  .node { node := ⟨1, .metaDecl "e"⟩ }
    [.node { node := ⟨2, .argumentDeclList⟩ } [], .node { node := ⟨3, .metaContribution⟩ } []]

/-- `e<>` in the calculation of `m`. -/
def inst : AST :=
  .node { node := ⟨11, .metaInstantiationExpr⟩ }
    [.node { node := ⟨12, .declRefExpr "e"⟩, decl := some ⟨1, .metaDecl "e"⟩ } []]

/-- `m<> -> { meta { e<>(); } m() -> {} }`. -/
def m : AST :=
  .node { node := ⟨4, .metaDecl "m"⟩ }
    [.node { node := ⟨5, .argumentDeclList⟩ } [],
      .node { node := ⟨6, .metaContribution⟩ }
        [.node { node := ⟨7, .metaCalculationStmt⟩ }
            [.node { node := ⟨8, .unscopedCompoundStmt⟩ }
              [.node { node := ⟨9, .expressionStmt⟩ }
                [.node { node := ⟨10, .callOperatorExpr⟩ } [inst]]]],
          .node { node := ⟨13, .functionDecl "m"⟩ }
            [.node { node := ⟨14, .argumentDeclList⟩ } [],
              .node { node := ⟨15, .compoundStmt⟩ } []]]]

/-- `f() -> { m<>(); }`. -/
def f : AST :=
  .node { node := ⟨16, .functionDecl "f"⟩ }
    [.node { node := ⟨17, .argumentDeclList⟩ } [],
      .node { node := ⟨18, .compoundStmt⟩ }
        [.node { node := ⟨19, .expressionStmt⟩ }
          [.node { node := ⟨20, .callOperatorExpr⟩ }
            [.node { node := ⟨21, .metaInstantiationExpr⟩ }
              [.node { node := ⟨22, .declRefExpr "m"⟩, decl := some ⟨4, .metaDecl "m"⟩ } []]]]]]

/-- The program. -/
def program : AST := .node { node := ⟨0, .compilationUnit⟩ } [e, m, f]

/-- The unit of `e<>`. -/
def unit : AST := .node { node := ⟨30, .metaUnit ⟨11, "e", some (1, .metaDecl)⟩⟩ } []

/-- The builder behind the program. -/
def builder : BasicASTBuilder :=
  (ASTLayoutReader.readTree (fun _ _ => none) program.shape (.start .empty)).2

/-- The builder behind the unit. -/
def unitBuilder : BasicASTBuilder :=
  (ASTLayoutReader.readTree (fun _ _ => none) unit.shape (.start builder.heap)).2

theorem accepts : ASTLayoutReader.AcceptsUnit (fun _ _ => none) .compilationUnit
    program.shape.encode .empty program ⟨[], builder⟩ := by
  have hread := ASTLayoutReader.consume_complete (fun _ _ => none) (p := .kind .compilationUnit)
    (t := program.shape) ⟨by decide, .inl rfl⟩ [] (.start .empty)
  have hprogram : (ASTLayoutReader.readTree (fun _ _ => none) program.shape (.start .empty)).1 =
      program := by rfl
  rw [List.append_nil, hprogram] at hread
  exact .mk hread (by decide) (by decide)

theorem accepts_unit : ASTLayoutReader.AcceptsUnit (fun _ _ => none) .metaUnit
    unit.shape.encode builder.heap unit ⟨[], unitBuilder⟩ := by
  have hread := ASTLayoutReader.consume_complete (fun _ _ => none) (p := .kind .metaUnit)
    (t := unit.shape) ⟨by decide, .inl rfl⟩ [] (.start builder.heap)
  have hunit : (ASTLayoutReader.readTree (fun _ _ => none) unit.shape (.start builder.heap)).1 =
      unit := by rfl
  rw [List.append_nil, hunit] at hread
  exact .mk hread (by decide) (by decide)

/-- The run up to where the jump pad of `e<>` is invoked. -/
def invoking : Config :=
  (run ({ index := 2 } :: List.replicate 14 {}) (start program)).getD (start program)

theorem run_invoking : run ({ index := 2 } :: List.replicate 14 {}) (start program) =
    some invoking := by rfl

/-- Reading `e<>` gives its unit, which does not export a node. -/
theorem instantiates :
    Instantiates (fun _ _ => none) builder.heap invoking.state inst (some ⟨unit, none⟩) := by
  let result := MetaCodegen.codegen invoking.state.irContext e (.initial .insideMetaDecl)
  let metaFunction := (result.toOption.getD ((), .initial .insideMetaDecl)).2
  have hmeta : result = .ok ((), metaFunction) :=
    eq_ok_of_isOk (c := MetaCodegen.codegen invoking.state.irContext e) (s := .initial .insideMetaDecl)
      (by decide +kernel)
  let pad : CodegenState :=
    { FunctionCodegen.entered .insideMetaDecl with
      blocks := [[.operation (.callMeta []), .terminator .retVoid]]
      values := [] }
  have hpad : MetaCodegen.codegenJumpPad invoking.state.irContext 0 inst.children.tail
      (.initial .insideMetaDecl) = .ok ((), pad) := by rfl
  have hlayout : CodeExecutor.instantiatedLayout default 20 pad.blocks metaFunction.blocks
      ⟨11, "e", some (1, .metaDecl)⟩ 30 = some ⟨unit.shape.encode, 31⟩ := by decide +kernel
  have hexported : unitBuilder.heap.exportedNode 30 = none := by rfl
  have hdecl : invoking.state.declaringNode e.label.node.id = some e := by rfl
  have hhead : inst.children.head?.bind (fun declRef => declRef.label.decl) =
      some e.label.node := rfl
  have hparams : getMetaArgCountOf e = some 0 := rfl
  have hinst := Instantiates.intro hdecl rfl hhead hparams hmeta hpad hlayout accepts_unit rfl rfl
  rwa [show unit.label.node.id = 30 from rfl, hexported] at hinst

end NoExport

/-- `e<> -> {} m<> -> { meta { e<>(); } m() -> {} } f() -> { m<>(); }` is accepted without a
diagnostic. The pre-pass over `m` instantiates `e<>` without an error, and the meta function of `m`
does not find it, since its unit is empty. -/
theorem not_findsFunction :
    ∃ (t : Tree) (a : AST) (s : ASTLayoutReader.State) (m : Config) (inst d : AST)
      (refs : List Reference) (stack : List Frame), t.IsProgram ∧
      ASTLayoutReader.AcceptsUnit (fun _ _ => none) .compilationUnit t.encode .empty a s ∧
      SemaAnalysis.checkAST (.ofUnits [a] fun _ => none) a = .ok [] ∧
      Reachable (Instantiates (fun _ _ => none) s.builder.heap) a m ∧
      m.state.hasErrors = false ∧ m.control = .lookupInstantiation inst true ∧
      m.stack = .generateMetaDecl d.label.node.id refs :: stack ∧
      m.state.declaringNode d.label.node.id = some d ∧ inst ∈ d.consumeMeta ∧
      ¬FindsFunction m := by
  let reads : Reads := Instantiates (fun _ _ => none) NoExport.builder.heap
  have h₁ : Reachable reads NoExport.program NoExport.invoking :=
    Reachable.run .refl NoExport.run_invoking
  let m₂ : Config := (step { unit := some ⟨NoExport.unit, none⟩ } NoExport.invoking).getD
    NoExport.invoking
  have hstep : step { unit := some ⟨NoExport.unit, none⟩ } NoExport.invoking = some m₂ := by rfl
  have h₂ : Reachable reads NoExport.program m₂ := by
    refine h₁.tail ⟨_, fun inst hinst => ?_, hstep⟩
    have hinvoke : NoExport.invoking.control = .invoke NoExport.inst := by rfl
    obtain rfl := Control.invoke.inj (hinvoke.symm.trans hinst)
    exact NoExport.instantiates
  let m : Config := (run (List.replicate 3 {}) m₂).getD m₂
  have hrun : run (List.replicate 3 {}) m₂ = some m := by rfl
  have hlookup : m.control = .lookupInstantiation NoExport.inst true := by rfl
  have hstack : ∃ refs stack, m.stack = .generateMetaDecl 4 refs :: stack := ⟨_, _, rfl⟩
  obtain ⟨refs, stack, hstack⟩ := hstack
  refine ⟨NoExport.program.shape, NoExport.program, _, m, NoExport.inst, NoExport.m, refs, stack,
    ⟨rfl, by decide, by decide, by decide⟩, NoExport.accepts, rfl,
      h₂.run hrun, rfl, hlookup, hstack,
    rfl, List.mem_cons_self, ?_⟩
  rintro ⟨function, s, hfinds⟩
  have hfaults : ∃ s', run [{}, {}, {}] m = some ⟨.lookupResult none, m.stack, s'⟩ := ⟨_, rfl⟩
  obtain ⟨s', hfaults⟩ := hfaults
  cases hfaults.symm.trans (hfinds {} {} {})

end CodegenInstance

end Swy
