import Swy.Codegen.Shipments

/-!
# Closed modules

What the bodies in the executor refer to is available, pending, or taken by a call that has not
pulled it yet (`Stocked`). When a jump pad is invoked nothing is pending, so that the modules are
closed below it iff none of the functions below it is still resolved by a call that waits
(`invoke_closed_iff`).
-/

namespace Swy

open Library

namespace CodegenInstance

/-- A body in a module of the executor refers to the function. -/
def State.Calls (s : State) (caller callee : Symbol) : Prop :=
  ∃ d ∈ s.executor, d.symbol = caller ∧ callee ∈ d.callees

/-- The function is referred to from the bodies below the jump pad. -/
def State.Below (s : State) (inst : AST) : Symbol → Prop :=
  Relation.ReflTransGen s.Calls (.jumpPad inst.label.node.id)

/-- Every function below the jump pad is defined in a module that was added to the executor. -/
def State.Closed (s : State) (inst : AST) : Prop :=
  ∀ symbol, s.Below inst symbol → symbol ∈ s.executor.map Definition.symbol

/-- A dependency on the function is unresolved. -/
def State.Pending (s : State) (function : NodeId) : Prop :=
  ∃ d ∈ s.unresolvedDependencies, d.function = function

/-! ## The invariant -/

/-- What the executor and its next shipment keep. -/
structure Stocked (m : Config) : Prop where
  available : ∀ symbol, m.state.isGlobalResolved symbol = true → m.state.Defines symbol
  defined : ∀ symbol, m.state.Defines symbol →
    m.state.isGlobalResolved symbol = true ∨ ∃ inst, symbol = .jumpPad inst
  /-- What is referred to and not available is pulled later. -/
  refers : ∀ symbol, m.state.Refers symbol → m.state.isGlobalResolved symbol = true ∨
    ∃ f, symbol = .function f ∧ (m.state.Pending f ∨ f ∈ m.resolving)
  needs : ∀ symbol ∈ m.needs, m.state.Defines symbol
  drained : m.control.isDrained = true → m.state.unresolvedDependencies = []
  shipped : ∀ inst, m.control = .invoke inst → m.state.shipment = none

namespace Stocked

variable {m m' : Config}

/-- Neither a symbol becomes available nor is one defined. -/
theorem of_same (h : Stocked m)
    (havailable : ∀ symbol, m'.state.isGlobalResolved symbol = m.state.isGlobalResolved symbol)
    (hdefines : ∀ symbol, m'.state.Defines symbol ↔ m.state.Defines symbol)
    (hrefers : ∀ symbol, m'.state.Refers symbol → m.state.Refers symbol ∨
      m.state.isGlobalResolved symbol = true ∨ ∃ f, symbol = .function f ∧ m'.state.Pending f)
    (hresolving : ∀ f, m.state.Pending f ∨ f ∈ m.resolving → m'.state.Pending f ∨ f ∈ m'.resolving)
    (hneeds : ∀ symbol ∈ m'.needs, symbol ∈ m.needs ∨ m.state.isGlobalResolved symbol = true)
    (hdrained : m'.control.isDrained = true → m'.state.unresolvedDependencies = [])
    (hshipped : ∀ inst, m'.control = .invoke inst → m'.state.shipment = none) : Stocked m' where
  available symbol hsymbol := (hdefines symbol).2 (h.available symbol (havailable symbol ▸ hsymbol))
  defined symbol hsymbol := by
    rw [havailable]
    exact h.defined symbol ((hdefines symbol).1 hsymbol)
  refers symbol hsymbol := by
    rw [havailable]
    rcases hrefers symbol hsymbol with hsymbol | hsymbol | ⟨f, hf, hpending⟩
    · exact (h.refers symbol hsymbol).imp_right fun ⟨f, hf, hwaits⟩ => ⟨f, hf, hresolving f hwaits⟩
    · exact .inl hsymbol
    · exact .inr ⟨f, hf, .inl hpending⟩
  needs symbol hsymbol := by
    rcases hneeds symbol hsymbol with hsymbol | hsymbol
    · exact (hdefines symbol).2 (h.needs symbol hsymbol)
    · exact (hdefines symbol).2 (h.available symbol hsymbol)
  drained := hdrained
  shipped := hshipped

/-- One more function is defined. -/
theorem of_define (h : Stocked m) {d : Definition}
    (hdefinitions : m'.state.definitions = m.state.definitions ++ [d])
    (havailable : ∀ symbol, m'.state.isGlobalResolved symbol = true ↔
      symbol = d.symbol ∧ (∀ inst, symbol ≠ .jumpPad inst) ∨ m.state.isGlobalResolved symbol = true)
    (hcallees : ∀ symbol ∈ d.callees, m'.state.isGlobalResolved symbol = true ∨
      ∃ f, symbol = .function f ∧ m'.state.Pending f)
    (hresolving : ∀ f, m.state.Pending f ∨ f ∈ m.resolving →
      m'.state.isGlobalResolved (.function f) = true ∨ m'.state.Pending f ∨ f ∈ m'.resolving)
    (hneeds : ∀ symbol ∈ m'.needs, symbol ∈ m.needs ∨ symbol = d.symbol)
    (hdrained : m'.control.isDrained = false) : Stocked m' := by
  have hdefines (symbol : Symbol) :
      m'.state.Defines symbol ↔ m.state.Defines symbol ∨ symbol = d.symbol := by
    unfold State.Defines
    rw [hdefinitions, List.map_append, List.mem_append, List.map_singleton, List.mem_singleton]
  refine ⟨fun symbol hsymbol => ?_, fun symbol hsymbol => ?_, fun symbol hsymbol => ?_,
    fun symbol hsymbol => ?_, fun h => ?_, fun inst hinst => ?_⟩
  · rcases (havailable symbol).1 hsymbol with ⟨hsymbol, -⟩ | hsymbol
    · exact (hdefines symbol).2 (.inr hsymbol)
    · exact (hdefines symbol).2 (.inl (h.available symbol hsymbol))
  · rcases (hdefines symbol).1 hsymbol with hsymbol | hsymbol
    · exact (h.defined symbol hsymbol).imp_left fun h => (havailable symbol).2 (.inr h)
    · by_cases hpad : ∃ inst, symbol = .jumpPad inst
      · exact .inr hpad
      · exact .inl ((havailable symbol).2 (.inl ⟨hsymbol, fun inst h => hpad ⟨inst, h⟩⟩))
  · obtain ⟨d', hd', hsymbol⟩ := hsymbol
    rw [hdefinitions] at hd'
    rcases List.mem_append.1 hd' with hd' | hd'
    · rcases h.refers symbol ⟨d', hd', hsymbol⟩ with hsymbol | ⟨f, rfl, hwaits⟩
      · exact .inl ((havailable symbol).2 (.inr hsymbol))
      · exact (hresolving f hwaits).imp_right fun hwaits => ⟨f, rfl, hwaits⟩
    · rw [List.mem_singleton.1 hd'] at hsymbol
      exact (hcallees symbol hsymbol).imp_right fun ⟨f, hf, hpending⟩ => ⟨f, hf, .inl hpending⟩
  · rcases hneeds symbol hsymbol with hsymbol | hsymbol
    · exact (hdefines symbol).2 (.inl (h.needs symbol hsymbol))
    · exact (hdefines symbol).2 (.inr hsymbol)
  · rw [hdrained] at h
    cases h
  · rw [hinst] at hdrained
    cases hdrained

/-- A step keeps the invariant, unless it stops the run. -/
theorem step (h : Stocked m) {choice : Choice} (hm : CodegenInstance.step choice m = some m') :
    m'.Stopped ∨ Stocked m' := by
  cases step_ships hm with
  | @keep control control' stack stack' s s' hdrained hsame hfollows =>
    refine .inr (h.of_same (fun symbol => ?_) (fun symbol => ?_) (fun symbol hsymbol => .inl ?_)
      (fun f => Or.imp (fun hf => ?_) (hfollows.resolving f)) hfollows.needs ?_ ?_)
    · unfold State.isGlobalResolved
      rw [hsame.availableSymbols]
    · unfold State.Defines
      rw [hsame.definitions]
    · unfold State.Refers at hsymbol ⊢
      rwa [← hsame.definitions]
    · unfold State.Pending at hf ⊢
      rwa [hsame.unresolvedDependencies]
    · intro htrue
      cases hdrained.symm.trans htrue
    · rintro inst rfl
      cases hdrained
  | stop _ hstopped => exact .inl hstopped
  | @take dependency stack s hd =>
    refine .inr (h.of_same (fun _ => rfl) (fun _ => .rfl) (fun _ => .inl) (fun f hf => ?_)
      (fun _ => .inl) (fun h => by cases h) fun _ h => by cases h)
    rcases hf with ⟨d, hd, rfl⟩ | hf
    · by_cases hdependency : d = dependency
      · subst hdependency
        exact .inr List.mem_cons_self
      · exact .inl ⟨d, (List.mem_erase_of_ne hdependency).2 hd, rfl⟩
    · exact .inr (List.mem_cons_of_mem _ hf)
  | @refer control control' callee dependency stack stack' s hdependency hdrained hfollows =>
    have hcallee : dependency.function = callee := by
      rcases hdependency with rfl | ⟨rfl, -⟩
      · rfl
      · rfl
    refine .inr (h.of_same (fun symbol => by simp [State.isGlobalResolved])
      (fun symbol => State.defines_lookupFromExecutor) (fun symbol hsymbol => ?_)
      (fun f => Or.imp
        (Exists.imp fun _ h => ⟨State.mem_lookupFromExecutor.2 (.inl h.1), h.2⟩)
          (hfollows.resolving f)) hfollows.needs ?_ ?_)
    · rcases State.refers_lookupFromExecutor hsymbol with hsymbol | rfl
      · exact .inl hsymbol
      · -- The callee is available, or it is pending now.
        by_cases hresolved : s.isGlobalResolved (.function callee) = true
        · exact .inr (.inl hresolved)
        · exact .inr (.inr ⟨callee, rfl, dependency,
            State.mem_lookupFromExecutor.2 (.inr ⟨rfl, Bool.eq_false_iff.2 hresolved⟩), hcallee⟩)
    · intro htrue
      cases hdrained.symm.trans htrue
    · rintro inst rfl
      cases hdrained
  | @enterMeta decl refs stack s =>
    refine .inr (h.of_define (State.enterMetaFunction_definitions decl) (fun symbol => ?_)
      (fun _ h => absurd h List.not_mem_nil) (fun f => .inr) (fun symbol hsymbol => ?_) rfl)
    · have hmem : symbol ∈ (s.enterMetaFunction decl).availableSymbols ↔
          symbol = .metaFunction decl ∨ symbol ∈ s.availableSymbols := List.mem_insert_iff
      rw [State.mem_isGlobalResolved, State.mem_isGlobalResolved, hmem]
      constructor
      · rintro (rfl | hsymbol)
        · exact .inl ⟨rfl, fun _ h => by cases h⟩
        · exact .inr hsymbol
      · exact Or.imp_left And.left
    · exact (List.mem_cons.1 hsymbol).symm
  | @createJumpPadTo decl inst refs stack s =>
    refine .inr (h.of_define (State.define_definitions _) (fun symbol => ?_)
      (fun symbol hsymbol => ?_) (fun f => .inr) (fun symbol hsymbol => ?_) rfl)
    · refine ⟨.inr, fun hsymbol => hsymbol.resolve_left ?_⟩
      rintro ⟨rfl, hpad⟩
      exact hpad _ rfl
    · rw [List.mem_singleton.1 hsymbol]
      rcases h.defined _ (h.needs (.metaFunction decl) List.mem_cons_self) with hdecl | ⟨_, hpad⟩
      · exact .inl hdecl
      · cases hpad
    · rcases List.mem_cons.1 hsymbol with hsymbol | hsymbol
      · exact .inr hsymbol
      · exact .inl (List.mem_cons_of_mem _ hsymbol)
  | @pull function body stack s =>
    have havailable (symbol : Symbol) :
        (s.pull function body.callees).isGlobalResolved symbol = true ↔
          symbol = .function function ∨ s.isGlobalResolved symbol = true := by
      rw [State.mem_isGlobalResolved, State.mem_isGlobalResolved, State.pull_availableSymbols,
        List.mem_insert_iff]
    refine .inr (h.of_define (State.pull_definitions function body.callees) (fun symbol => ?_)
      (fun symbol hsymbol => ?_) (fun f hf => ?_) (fun _ => .inl) rfl)
    · refine (havailable symbol).trans ⟨?_, Or.imp_left And.left⟩
      rintro (rfl | hsymbol)
      · exact .inl ⟨rfl, fun _ h => by cases h⟩
      · exact .inr hsymbol
    · obtain ⟨callee, hcallee, rfl⟩ := List.mem_map.1 hsymbol
      by_cases hresolved : callee = function ∨ s.isGlobalResolved (.function callee) = true
      · exact .inl ((havailable _).2 (hresolved.imp_left (congrArg Symbol.function)))
      · rw [not_or, Bool.not_eq_true] at hresolved
        exact .inr ⟨callee, rfl, .llvmFunction callee,
          State.mem_pull.2 (.inr ⟨callee, hcallee, rfl, hresolved.1, hresolved.2⟩), rfl⟩
    · rcases hf with ⟨d, hd, hf⟩ | hf
      · exact .inr (.inl ⟨d, State.mem_pull.2 (.inl hd), hf⟩)
      · rcases List.mem_cons.1 hf with rfl | hf
        · exact .inl ((havailable _).2 (.inl rfl))
        · exact .inr (.inr hf)
  | drained hdrained =>
    exact .inr (h.of_same (fun _ => rfl) (fun _ => .rfl) (fun _ => .inl) (fun _ => id)
      (fun _ => .inl) (fun _ => hdrained) fun _ h => by cases h)
  | @ship definitions inst stack s hshipment =>
    have hdefinitions : s.executor ++ definitions ++ [] = s.definitions := by
      simp [State.definitions, hshipment]
    refine .inr (h.of_same (fun _ => rfl) (fun symbol => ?_) (fun symbol hsymbol => .inl ?_)
      (fun _ => id) (fun _ => .inl) (fun _ => h.drained rfl) fun _ _ => rfl)
    · unfold State.Defines
      rw [← hdefinitions]
      rfl
    · unfold State.Refers
      rw [← hdefinitions]
      exact hsymbol

end Stocked

/-! ## Runs -/

/-- What was not stopped keeps the invariant. -/
theorem Reachable.stocked {reads : Reads} {a : AST} {m : Config} (h : Reachable reads a m) :
    m.Stopped ∨ Stocked m := by
  induction h with
  | refl =>
    refine .inr ⟨fun _ hsymbol => ?_, fun _ hsymbol => absurd hsymbol List.not_mem_nil, ?_,
      fun _ hsymbol => absurd hsymbol List.not_mem_nil, ?_, ?_⟩
    · cases hsymbol
    · rintro symbol ⟨d, hd, -⟩
      exact absurd hd List.not_mem_nil
    · intro hdrained
      cases hdrained
    · intro inst hinvoke
      cases hinvoke
  | tail _ hstep ih =>
    obtain ⟨choice, -, hm⟩ := hstep
    rcases ih with hstopped | hstocked
    · exact .inl (hstopped.step hm)
    · exact hstocked.step hm

/-- When a jump pad is invoked, every function below it is defined in a module of the executor, iff
each of them that a waiting call has taken from the unresolved dependencies is available, that is,
was pulled in the meantime. -/
theorem invoke_closed_iff {reads : Reads} {a : AST} {m : Config} {inst : AST}
    (h : Reachable reads a m) (hinvoke : m.control = .invoke inst) :
    m.state.Closed inst ↔ ∀ f ∈ m.resolving, m.state.Below inst (.function f) →
      m.state.isGlobalResolved (.function f) = true := by
  have hstocked : Stocked m := h.stocked.resolve_left (h.not_stopped (by rw [hinvoke]; rfl))
  have hdefinitions : m.state.definitions = m.state.executor := by
    simp [State.definitions, hstocked.shipped inst hinvoke]
  have hdefines (symbol : Symbol) :
      m.state.Defines symbol ↔ symbol ∈ m.state.executor.map Definition.symbol := by
    unfold State.Defines
    rw [hdefinitions]
  constructor
  · intro hclosed f _ hbelow
    rcases hstocked.defined _ ((hdefines _).2 (hclosed _ hbelow)) with havailable | ⟨_, hpad⟩
    · exact havailable
    · cases hpad
  · intro hresolving symbol hbelow
    induction hbelow with
    | refl =>
      refine (hdefines _).1 (hstocked.needs _ (List.mem_append_left _ ?_))
      rw [hinvoke]
      exact List.mem_cons_self
    | @tail caller callee hbelow hcalls _ =>
      obtain ⟨d, hd, hcaller, hcallee⟩ := hcalls
      have hrefers : m.state.Refers callee := ⟨d, hdefinitions ▸ hd, hcallee⟩
      have havailable : m.state.isGlobalResolved callee = true := by
        rcases hstocked.refers callee hrefers with havailable | ⟨f, rfl, ⟨d', hd', -⟩ | hf⟩
        · exact havailable
        · -- Nothing is pending behind `resolveDependencies`.
          rw [hstocked.drained (by rw [hinvoke]; rfl)] at hd'
          exact absurd hd' List.not_mem_nil
        · exact hresolving f hf (hbelow.tail ⟨d, hd, hcaller, hcallee⟩)
      exact (hdefines _).1 (hstocked.available callee havailable)

/-- `g() -> {} m<> -> { meta { g(); } m() -> {} } f() -> { m<>(); }`, where no call waits that has
taken a function. -/
theorem invoke_closed_callee :
    ∃ (a : AST) (m : Config) (inst : AST), Reachable (fun _ _ _ => True) a m ∧
      m.control = .invoke inst ∧ m.state.Below inst (.function 1) ∧ m.state.Closed inst := by
  let inst : AST := .node { node := ⟨20, .metaInstantiationExpr⟩ }
    [.node { node := ⟨21, .declRefExpr "m"⟩, decl := some ⟨4, .metaDecl "m"⟩ } []]
  let a : AST := .node { node := ⟨0, .compilationUnit⟩ }
    [.node { node := ⟨1, .functionDecl "g"⟩ }
        [.node { node := ⟨2, .argumentDeclList⟩ } [], .node { node := ⟨3, .compoundStmt⟩ } []],
      .node { node := ⟨4, .metaDecl "m"⟩ }
        [.node { node := ⟨5, .argumentDeclList⟩ } [],
          .node { node := ⟨6, .metaContribution⟩ }
            [.node { node := ⟨7, .metaCalculationStmt⟩ }
                [.node { node := ⟨8, .unscopedCompoundStmt⟩ }
                  [.node { node := ⟨9, .expressionStmt⟩ }
                    [.node { node := ⟨10, .callOperatorExpr⟩ }
                      [.node { node := ⟨11, .declRefExpr "g"⟩,
                               decl := some ⟨1, .functionDecl "g"⟩ } []]]]],
              .node { node := ⟨12, .functionDecl "m"⟩ }
                [.node { node := ⟨13, .argumentDeclList⟩ } [],
                  .node { node := ⟨14, .compoundStmt⟩ } []]]],
      .node { node := ⟨15, .functionDecl "f"⟩ }
        [.node { node := ⟨16, .argumentDeclList⟩ } [],
          .node { node := ⟨17, .compoundStmt⟩ }
            [.node { node := ⟨18, .expressionStmt⟩ }
              [.node { node := ⟨19, .callOperatorExpr⟩ } [inst]]]]]
  let choices : List Choice := { index := 2 } :: List.replicate 18 {}
  let m : Config := (run choices (start a)).getD (start a)
  have hrun : run choices (start a) = some m := by rfl
  have h : Reachable (fun _ _ _ => True) a m := Reachable.run .refl hrun
  have hinvoke : m.control = .invoke inst := by rfl
  have hpad : m.state.Calls (.jumpPad 20) (.metaFunction 4) :=
    ⟨⟨.jumpPad 20, [.metaFunction 4]⟩, by decide, rfl, by decide⟩
  have hmeta : m.state.Calls (.metaFunction 4) (.function 1) :=
    ⟨⟨.metaFunction 4, [.function 1]⟩, by decide, rfl, by decide⟩
  have hbelow : m.state.Below inst (.function 1) := Relation.ReflTransGen.tail (.single hpad) hmeta
  have hresolving : m.resolving = [] := by rfl
  exact ⟨a, m, inst, h, hinvoke, hbelow, (invoke_closed_iff h hinvoke).2 fun f hf =>
    absurd (hresolving ▸ hf) List.not_mem_nil⟩

namespace TakenBelow

/-- `h() -> { g(); }`. -/
def h : AST :=
  .node { node := ⟨1, .functionDecl "h"⟩ }
    [.node { node := ⟨2, .argumentDeclList⟩ } [],
      .node { node := ⟨3, .compoundStmt⟩ }
        [.node { node := ⟨4, .expressionStmt⟩ }
          [.node { node := ⟨5, .callOperatorExpr⟩ }
            [.node { node := ⟨6, .declRefExpr "g"⟩, decl := some ⟨7, .functionDecl "g"⟩ } []]]]]

/-- `b<>` in the body of `g`. -/
def inst : AST :=
  .node { node := ⟨12, .metaInstantiationExpr⟩ }
    [.node { node := ⟨13, .declRefExpr "b"⟩, decl := some ⟨14, .metaDecl "b"⟩ } []]

/-- `g() -> { b<>(); }`. -/
def g : AST :=
  .node { node := ⟨7, .functionDecl "g"⟩ }
    [.node { node := ⟨8, .argumentDeclList⟩ } [],
      .node { node := ⟨9, .compoundStmt⟩ }
        [.node { node := ⟨10, .expressionStmt⟩ }
          [.node { node := ⟨11, .callOperatorExpr⟩ } [inst]]]]

/-- `b<> -> { meta { h(); } b() -> {} }`. -/
def b : AST :=
  .node { node := ⟨14, .metaDecl "b"⟩ }
    [.node { node := ⟨15, .argumentDeclList⟩ } [],
      .node { node := ⟨16, .metaContribution⟩ }
        [.node { node := ⟨17, .metaCalculationStmt⟩ }
            [.node { node := ⟨18, .unscopedCompoundStmt⟩ }
              [.node { node := ⟨19, .expressionStmt⟩ }
                [.node { node := ⟨20, .callOperatorExpr⟩ }
                  [.node { node := ⟨21, .declRefExpr "h"⟩,
                           decl := some ⟨1, .functionDecl "h"⟩ } []]]]],
          .node { node := ⟨22, .functionDecl "b"⟩ }
            [.node { node := ⟨23, .argumentDeclList⟩ } [],
              .node { node := ⟨24, .compoundStmt⟩ } []]]]

/-- `a<> -> { meta { h(); } a() -> {} }`. -/
def a : AST :=
  .node { node := ⟨25, .metaDecl "a"⟩ }
    [.node { node := ⟨26, .argumentDeclList⟩ } [],
      .node { node := ⟨27, .metaContribution⟩ }
        [.node { node := ⟨28, .metaCalculationStmt⟩ }
            [.node { node := ⟨29, .unscopedCompoundStmt⟩ }
              [.node { node := ⟨30, .expressionStmt⟩ }
                [.node { node := ⟨31, .callOperatorExpr⟩ }
                  [.node { node := ⟨32, .declRefExpr "h"⟩,
                           decl := some ⟨1, .functionDecl "h"⟩ } []]]]],
          .node { node := ⟨33, .functionDecl "a"⟩ }
            [.node { node := ⟨34, .argumentDeclList⟩ } [],
              .node { node := ⟨35, .compoundStmt⟩ } []]]]

/-- `f() -> { a<>(); }`. -/
def f : AST :=
  .node { node := ⟨36, .functionDecl "f"⟩ }
    [.node { node := ⟨37, .argumentDeclList⟩ } [],
      .node { node := ⟨38, .compoundStmt⟩ }
        [.node { node := ⟨39, .expressionStmt⟩ }
          [.node { node := ⟨40, .callOperatorExpr⟩ }
            [.node { node := ⟨41, .metaInstantiationExpr⟩ }
              [.node { node := ⟨42, .declRefExpr "a"⟩, decl := some ⟨25, .metaDecl "a"⟩ } []]]]]]

/-- The program. -/
def program : AST := .node { node := ⟨0, .compilationUnit⟩ } [h, g, b, a, f]

end TakenBelow

/-- `h() -> { g(); } g() -> { b<>(); } b<> -> { meta { h(); } b() -> {} }
a<> -> { meta { h(); } a() -> {} } f() -> { a<>(); }`. `h` is pulled for `a<>`, and `g` is taken to
be pulled as well. `b<>` is instantiated before `g` is generated, and its jump pad calls `h`, which
refers to `g`. -/
theorem not_closed_taken :
    ∃ m : Config, Reachable (fun _ _ _ => True) TakenBelow.program m ∧
      m.control = .invoke TakenBelow.inst ∧ ¬m.state.Closed TakenBelow.inst := by
  let choices : List Choice := { index := 4 } :: List.replicate 30 {}
  let m : Config := (run choices (start TakenBelow.program)).getD (start TakenBelow.program)
  have hrun : run choices (start TakenBelow.program) = some m := by rfl
  refine ⟨m, Reachable.run .refl hrun, by rfl, fun hclosed => ?_⟩
  have hpad : m.state.Calls (.jumpPad 12) (.metaFunction 14) :=
    ⟨⟨.jumpPad 12, [.metaFunction 14]⟩, by decide, rfl, by decide⟩
  have hmeta : m.state.Calls (.metaFunction 14) (.function 1) :=
    ⟨⟨.metaFunction 14, [.function 1]⟩, by decide, rfl, by decide⟩
  have hcallee : m.state.Calls (.function 1) (.function 7) :=
    ⟨⟨.function 1, [.function 7]⟩, by decide, rfl, by decide⟩
  have hbelow : m.state.Below TakenBelow.inst (.function 7) :=
    Relation.ReflTransGen.tail (.tail (.single hpad) hmeta) hcallee
  exact absurd (hclosed _ hbelow) (by decide)

end CodegenInstance

end Swy
