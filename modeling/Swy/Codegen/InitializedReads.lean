import Swy.Codegen.LinkedFunctions
import Swy.Codegen.Values

/-!
# What a function reads

The storage of a variable holds any word before something is stored there. A value is introduced
for a variable behind the store of its initializer, and the code generation refuses a reference to a
variable without a value, so that what is read was written before: started in memories that agree on
the variables with a value, a body does the same (`execStmt_alike`). The branches of an if have to
open scopes of their own, as they do in the grammar: otherwise a variable that is declared in one
branch has a value behind both of them. What the functions of a module return then does not depend
on what their storage held (`linkedReturns_uninitialized`).
-/

namespace Swy

open Library

/-! ## Memories that agree -/

/-- The memories took as many branches and agree on what has a value. -/
structure Memory.AgreeOn (values : List (List NodeId)) (μ μ' : Memory) : Prop where
  branches : μ.branches = μ'.branches
  slots : ∀ decl, Known values decl → μ.slots decl = μ'.slots decl

theorem not_known_nil {decl : NodeId} : ¬ Known [] decl := by simp [Known]

theorem not_known_nil_scope {decl : NodeId} : ¬ Known [[]] decl := by simp [Known]

theorem known_introduce {values : List (List NodeId)} {d decl : NodeId}
    (h : Known (values.modifyHead (d :: ·)) decl) : decl = d ∨ Known values decl := by
  obtain ⟨scope, hscope, hdecl⟩ := known_iff.1 h
  cases values with
  | nil => exact absurd hscope List.not_mem_nil
  | cons inner outer =>
    rcases List.mem_cons.1 hscope with rfl | hscope
    · rcases List.mem_cons.1 hdecl with rfl | hdecl
      · exact .inl rfl
      · exact .inr (known_iff.2 ⟨inner, List.mem_cons_self, hdecl⟩)
    · exact .inr (known_iff.2 ⟨scope, List.mem_cons_of_mem _ hscope, hdecl⟩)

/-- The runtimes answer alike: only what is found in fresh memory may differ. -/
structure Runtime.Alike (rt rt' : Runtime) : Prop where
  calls : rt.calls = rt'.calls
  choose : rt.choose = rt'.choose

namespace Exec

variable {α β : Type} {values values' : List (List NodeId)} {after : α → List (List NodeId)}
  {after' : β → List (List NodeId)} {Q : α → Prop} {R : β → Prop}

/-- Started in memories that agree on `values`, the effects return and do the same, and they leave
memories that agree on what has a value behind what they return. -/
def Alike (values : List (List NodeId)) (after : α → List (List NodeId)) (Q : α → Prop)
    (e e' : Exec α) : Prop :=
  ∀ μ μ', μ.AgreeOn values μ' → (e μ).value = (e' μ').value ∧ (e μ).events = (e' μ').events ∧
    (e μ).memory.AgreeOn (after (e μ).value) (e' μ').memory ∧ Q (e μ).value

theorem Alike.pure {a : α} (hafter : ∀ decl, Known (after a) decl → Known values decl) (h : Q a) :
    Alike values after Q (Pure.pure a) (Pure.pure a) := by
  intro μ μ' hμ
  exact ⟨rfl, rfl, ⟨hμ.branches, fun decl hdecl => hμ.slots decl (hafter decl hdecl)⟩, h⟩

theorem Alike.same {a : α} (h : Q a) :
    Alike values (fun _ => values) Q (Pure.pure a) (Pure.pure a) := .pure (fun _ => id) h

theorem Alike.bind {e e' : Exec α} {f f' : α → Exec β} (h : Alike values after Q e e')
    (hf : ∀ a, Q a → Alike (after a) after' R (f a) (f' a)) :
    Alike values after' R (e >>= f) (e' >>= f') := by
  intro μ μ' hμ
  obtain ⟨hvalue, hevents, hmemory, hQ⟩ := h μ μ' hμ
  obtain ⟨hvalue', hevents', hmemory', hR⟩ := hf _ hQ _ _ hmemory
  simp only [bind_apply]
  rw [← hvalue, ← hevents]
  exact ⟨hvalue', congrArg _ hevents', hmemory', hR⟩

/-- Less has a value behind the effects, and more before them. -/
theorem Alike.weaken {e e' : Exec α} {after₁ : α → List (List NodeId)}
    (h : Alike values after Q e e') (hvalues : ∀ decl, Known values decl → Known values' decl)
    (hafter : ∀ a decl, Known (after₁ a) decl → Known (after a) decl) :
    Alike values' after₁ Q e e' := by
  intro μ μ' hμ
  obtain ⟨hvalue, hevents, hmemory, hQ⟩ := h μ μ'
    ⟨hμ.branches, fun decl hdecl => hμ.slots decl (hvalues decl hdecl)⟩
  exact ⟨hvalue, hevents,
    ⟨hmemory.branches, fun decl hdecl => hmemory.slots decl (hafter _ decl hdecl)⟩, hQ⟩

theorem Alike.emit (event : Event) :
    Alike values (fun _ => values) (fun _ => True) (Exec.emit event) (Exec.emit event) :=
  fun _ _ hμ => ⟨rfl, rfl, hμ, True.intro⟩

theorem Alike.load {decl : NodeId} (h : Known values decl) :
    Alike values (fun _ => values) (fun _ => True) (Exec.load decl) (Exec.load decl) :=
  fun _ _ hμ => ⟨hμ.slots decl h, rfl, hμ, True.intro⟩

/-- What was stored agrees. -/
theorem Alike.store {decl : NodeId} {value : Word}
    (h : ∀ d, Known values' d → d = decl ∨ Known values d) :
    Alike values (fun _ => values') (fun _ => True) (Exec.store decl value)
      (Exec.store decl value) := by
  intro μ μ' hμ
  refine ⟨rfl, rfl, ⟨hμ.branches, fun d hd => ?_⟩, True.intro⟩
  simp only [Exec.store]
  by_cases hdecl : d = decl
  · rw [if_pos hdecl, if_pos hdecl]
  · rw [if_neg hdecl, if_neg hdecl]
    exact hμ.slots d ((h d hd).resolve_left hdecl)

theorem Alike.call {rt rt' : Runtime} (hrt : rt.Alike rt') (callee : NodeId) (words : List Word) :
    Alike values (fun _ => values) (fun _ => True) (Exec.call rt callee words)
      (Exec.call rt' callee words) :=
  fun _ _ hμ => ⟨congrFun (congrFun hrt.calls callee) words, rfl, hμ, True.intro⟩

theorem Alike.branch {rt rt' : Runtime} (hrt : rt.Alike rt') (condition : Word) :
    Alike values (fun _ => values) (fun _ => True) (Exec.branch rt condition)
      (Exec.branch rt' condition) := by
  intro μ μ' hμ
  have houtcome : rt.choose μ.branches condition = rt'.choose μ'.branches condition := by
    rw [hrt.choose, hμ.branches]
  refine ⟨houtcome, ?_, ⟨congrArg (· + 1) hμ.branches, hμ.slots⟩, True.intro⟩
  simp only [Exec.branch, houtcome]

end Exec

/-! ## What the check keeps -/

namespace Check

variable {ctx : IRContext} {known known' : List (List NodeId)}

/-- No declaration becomes known. -/
def Keeps {α : Type} (k : CheckM α) : Prop :=
  ∀ known a known', k known = some (a, known') → known' = known

section Keeps

variable {α β : Type}

theorem Keeps.pure {a : α} : Keeps (Pure.pure a : CheckM α) := by
  intro known b known' h
  cases pure_some.1 h
  rfl

theorem Keeps.failure : Keeps (failure : CheckM α) := fun _ _ _ h => nomatch h

theorem Keeps.bind {k : CheckM α} {f : α → CheckM β} (h : Keeps k) (hf : ∀ a, Keeps (f a)) :
    Keeps (k >>= f) := by
  intro known b known' hbind
  obtain ⟨a, known₁, hk, hb⟩ := bind_some.1 hbind
  exact (hf a _ _ _ hb).trans (h _ _ _ hk)

theorem Keeps.ite {k k' : CheckM α} {p : Prop} [Decidable p] (h : Keeps k) (h' : Keeps k') :
    Keeps (if p then k else k') := by
  by_cases hp : p
  · rw [if_pos hp]
    exact h
  · rw [if_neg hp]
    exact h'

theorem keeps_lookupLocal {decl : NodeId} : Keeps (lookupLocal decl) := by
  have hget : Keeps (get : CheckM (List (List NodeId))) := by
    intro known a known' h
    cases h
    rfl
  exact hget.bind fun _ => .ite .pure .failure

theorem keeps_loadMemory {kind : OperandKind} : Keeps (loadMemory kind) := by
  cases kind with
  | «variable» => exact .pure
  | function type => exact .failure
  | integer | void => exact .pure

theorem keeps_createStore {value pointer : OperandKind} : Keeps (createStore value pointer) := by
  cases pointer with
  | «variable» => exact .ite .pure .failure
  | integer | function | void => exact .failure

theorem keeps_createCall {callee : OperandKind} {kinds : List OperandKind} :
    Keeps (createCall callee kinds) := by
  cases callee with
  | function type => exact .ite .pure .failure
  | integer | «variable» | void => exact .failure

theorem keeps_codegenDeclRefExpr {n : ASTNode} : Keeps (codegenDeclRefExpr ctx n) := by
  unfold codegenDeclRefExpr
  split
  · exact .failure
  · split
    · split
      · exact .pure
      · exact .failure
    · exact keeps_lookupLocal
    · exact keeps_lookupLocal
    · split
      · exact .pure
      · exact .failure
    · exact .failure

theorem keeps_codegenMetaInstantiationExpr {inst : NodeId} :
    Keeps (codegenMetaInstantiationExpr ctx inst) := by
  unfold codegenMetaInstantiationExpr
  split
  · exact .pure
  · exact .failure

theorem keeps_codegenBinaryOperatorExpr {op : ExprBinaryOperator} {l r : CheckM OperandKind}
    (hl : Keeps l) (hr : Keeps r) : Keeps (codegenBinaryOperatorExpr op l r) := by
  refine hl.bind fun _ => hr.bind fun _ => ?_
  by_cases hop : op = .assign
  · rw [if_pos hop]
    exact keeps_loadMemory.bind fun _ => keeps_createStore.bind fun _ => .pure
  · rw [if_neg hop]
    exact keeps_loadMemory.bind fun _ => keeps_loadMemory.bind fun _ => .ite .pure .failure

theorem keeps_codegenArguments {cs : List AST} (h : ∀ c ∈ cs, Keeps (codegenExpr ctx c)) :
    Keeps (codegenArguments ctx cs) := by
  induction cs with
  | nil => exact .pure
  | cons c cs ih =>
    exact (h c List.mem_cons_self).bind fun _ => keeps_loadMemory.bind fun _ =>
      (ih fun x hx => h x (List.mem_cons_of_mem _ hx)).bind fun _ => .pure

theorem keeps_codegenExpr (a : AST) : Keeps (codegenExpr ctx a) := by
  induction a using Rose.ind with
  | h n cs ih =>
    obtain ⟨⟨id, data⟩, decl, exportedDecls⟩ := n
    have hfailure : Keeps (Alternative.failure : CheckM OperandKind) := .failure
    cases data with
    | declRefExpr name => exact keeps_codegenDeclRefExpr
    | metaInstantiationExpr => exact keeps_codegenMetaInstantiationExpr
    | integerLiteralExpr literal => exact .pure
    | booleanLiteralExpr literal => exact .pure
    | binaryOperatorExpr op =>
      rcases cs with _ | ⟨left, _ | ⟨right, _ | ⟨c, cs⟩⟩⟩
      case cons.cons.nil =>
        exact keeps_codegenBinaryOperatorExpr (ih left (by simp)) (ih right (by simp))
      all_goals exact hfailure
    | callOperatorExpr =>
      cases cs with
      | nil => exact hfailure
      | cons callee args =>
        exact (ih callee List.mem_cons_self).bind fun _ =>
          (keeps_codegenArguments fun c hc => ih c (List.mem_cons_of_mem _ hc)).bind
            fun _ => keeps_createCall
    | _ => exact hfailure

theorem keeps_createIsNotNull {kind : OperandKind} : Keeps (createIsNotNull kind) := by
  cases kind with
  | void => exact .failure
  | integer | «variable» | function => exact .pure

end Keeps

theorem lookupLocal_known {decl : NodeId} {r : OperandKind × List (List NodeId)}
    (h : lookupLocal decl known = some r) : Known known decl := by
  have hlookup : lookupLocal decl known =
      (if known.any (·.contains decl) = true then pure OperandKind.variable else failure :
        CheckM OperandKind) known := rfl
  rw [hlookup] at h
  by_cases hknown : known.any (·.contains decl) = true
  · exact hknown
  · rw [if_neg hknown] at h
    cases h

/-- In the innermost scope declarations may become known. -/
def Adds (k : CheckM Unit) : Prop :=
  ∀ known known', known ≠ [] → k known = some ((), known') → AddsValues known known'

theorem Keeps.adds {k : CheckM Unit} (h : Keeps k) : Adds k := by
  intro known known' hne hk
  rw [h _ _ _ hk]
  exact .refl hne

theorem Adds.seq {k k' : CheckM Unit} (h : Adds k) (h' : Adds k') : Adds (do k; k') := by
  intro known known' hne hbind
  obtain ⟨_, known₁, hk, hk'⟩ := bind_some.1 hbind
  have hadds := h _ _ hne hk
  exact hadds.trans (h' _ _ hadds.scope hk')

theorem Keeps.seq {α : Type} {k : CheckM α} {f : α → CheckM Unit} (h : Keeps k)
    (h' : ∀ a, Adds (f a)) : Adds (k >>= f) := by
  intro known known' hne hbind
  obtain ⟨a, known₁, hk, hf⟩ := bind_some.1 hbind
  rw [h _ _ _ hk] at hf
  exact h' a _ _ hne hf

theorem adds_introduce {decl : NodeId} : Adds (introduce decl) := by
  intro known known' hne hk
  cases hk
  exact (AddsValues.introduce hne decl).1

/-- What became known in a scope is forgotten behind it. -/
theorem withValueScope_inv {k : CheckM Unit} (hadds : Adds k)
    (h : withValueScope k known = some ((), known')) :
    known' = known ∧ ∃ known₁, k ([] :: known) = some ((), known₁) ∧ known₁.tail = known := by
  obtain ⟨_, known₁, hopen, hbody⟩ := bind_some.1 h
  obtain ⟨_, known₂, hinner, hclose⟩ := bind_some.1 hbody
  cases hopen
  cases hclose
  have houter := (hadds _ _ (List.cons_ne_nil _ _) hinner).outer
  exact ⟨houter, known₂, hinner, houter⟩

theorem adds_withValueScope {k : CheckM Unit} (h : Adds k) : Adds (withValueScope k) := by
  intro known known' hne hk
  rw [(withValueScope_inv h hk).1]
  exact .refl hne

theorem adds_codegenIfStructure {condition : AST} {k k' : CheckM Unit} (h : Adds k)
    (h' : Adds k') : Adds (codegenIfStructure ctx condition k k') :=
  h.seq (h'.seq ((keeps_codegenExpr condition).bind fun _ => keeps_createIsNotNull).adds)

theorem adds_codegenStmts {cs : List AST} (h : ∀ c ∈ cs, Adds (codegenStmt ctx c)) :
    Adds (codegenStmts ctx cs) := by
  induction cs with
  | nil => exact Keeps.pure.adds
  | cons c cs ih =>
    exact (h c List.mem_cons_self).seq (ih fun x hx => h x (List.mem_cons_of_mem _ hx))

theorem adds_codegenStmt (a : AST) : Adds (codegenStmt ctx a) := by
  induction a using Rose.ind with
  | h n cs ih =>
    obtain ⟨⟨id, data⟩, decl, exportedDecls⟩ := n
    have hfailure : Adds Alternative.failure := Keeps.failure.adds
    cases data with
    | compoundStmt => exact adds_withValueScope (adds_codegenStmts ih)
    | unscopedCompoundStmt => exact adds_codegenStmts ih
    | returnStmt =>
      rcases cs with _ | ⟨expr, _ | ⟨c, cs⟩⟩
      · exact Keeps.pure.adds
      · exact ((keeps_codegenExpr expr).bind fun _ => keeps_loadMemory.bind fun _ => .pure).adds
      · exact hfailure
    | expressionStmt =>
      rcases cs with _ | ⟨expr, _ | ⟨c, cs⟩⟩
      · exact hfailure
      · exact ((keeps_codegenExpr expr).bind fun _ => .pure).adds
      · exact hfailure
    | declStmt name =>
      rcases cs with _ | ⟨expr, _ | ⟨c, cs⟩⟩
      · exact hfailure
      · exact (keeps_codegenExpr expr).seq fun _ => keeps_loadMemory.seq fun _ =>
          keeps_createStore.adds.seq adds_introduce
      · exact hfailure
    | ifStmt =>
      rcases cs with _ | ⟨condition, _ | ⟨trueBranch, _ | ⟨falseBranch, _ | ⟨c, cs⟩⟩⟩⟩
      · exact hfailure
      · exact hfailure
      · exact adds_codegenIfStructure (ih trueBranch (by simp)) Keeps.pure.adds
      · exact adds_codegenIfStructure (ih trueBranch (by simp)) (ih falseBranch (by simp))
      · exact hfailure
    | _ => exact hfailure

theorem adds_storeArguments (args : List AST) : Adds (storeArguments args) := by
  induction args with
  | nil => exact Keeps.pure.adds
  | cons c cs ih =>
    obtain ⟨n, cs'⟩ := c
    rw [storeArguments]
    by_cases h : n.node.kind = .namedArgumentDecl
    · rw [if_pos h]
      exact adds_introduce.seq ih
    · rw [if_neg h]
      exact ih

end Check

/-! ## Expressions -/

/-- An address is the one of a variable with a value. -/
def Value.KnownIn (values : List (List NodeId)) : Value → Prop
  | address decl => Known values decl
  | _ => True

namespace Interpreter

open Exec (Alike)

variable {ctx : IRContext} {rt rt' : Runtime} {values : List (List NodeId)}

/-- What has a value does not change. -/
abbrev Same (values : List (List NodeId)) (Q : Value → Prop) (e e' : Exec Value) : Prop :=
  Alike values (fun _ => values) Q e e'

theorem loadMemory_alike {v : Value} (h : v.KnownIn values) :
    Same values (Value.KnownIn values) (loadMemory v) (loadMemory v) := by
  cases v with
  | address decl => exact (Alike.load h).bind fun _ _ => .same True.intro
  | int | function | void => exact .same True.intro

theorem store_alike (v p : Value) :
    Alike values (fun _ => values) (fun _ => True) (store v p) (store v p) := by
  cases p with
  | address decl => exact .store fun _ => Or.inr
  | int | function | void => exact .same True.intro

theorem evalDeclRefExpr_alike {n : ASTNode} {r : OperandKind × List (List NodeId)}
    (h : Check.codegenDeclRefExpr ctx n values = some r) :
    Same values (Value.KnownIn values) (evalDeclRefExpr ctx n) (evalDeclRefExpr ctx n) := by
  unfold Check.codegenDeclRefExpr at h
  unfold evalDeclRefExpr
  cases hd : n.decl with
  | none => exact .same True.intro
  | some d =>
    simp only [hd] at h
    have hvariable (hknown : Check.lookupLocal d.id values = some r) :
        Same values (Value.KnownIn values)
          (do
            Exec.emit (.reference n.node.id d.id)
            return .address d.id)
          (do
            Exec.emit (.reference n.node.id d.id)
            return .address d.id) := by
      exact (Alike.emit _).bind fun _ _ => .same (Check.lookupLocal_known hknown)
    cases hk : d.kind <;> simp only [hk] at h ⊢
    case functionDecl => split <;> exact .same True.intro
    case globalConstantDecl => split <;> exact .same True.intro
    case namedArgumentDecl => exact hvariable h
    case declStmt => exact hvariable h
    all_goals exact .same True.intro

theorem evalMetaInstantiationExpr_alike {inst : NodeId} :
    Same values (Value.KnownIn values) (evalMetaInstantiationExpr ctx inst)
      (evalMetaInstantiationExpr ctx inst) := by
  unfold evalMetaInstantiationExpr
  split <;> exact .same True.intro

theorem evalBinaryOperatorExpr_alike {op : ExprBinaryOperator} {l l' r r' : Exec Value}
    (hl : Same values (Value.KnownIn values) l l') (hr : Same values (Value.KnownIn values) r r') :
    Same values (Value.KnownIn values) (evalBinaryOperatorExpr op l r)
      (evalBinaryOperatorExpr op l' r') := by
  refine hl.bind fun v hv => hr.bind fun w hw => ?_
  by_cases hop : op = .assign
  · rw [if_pos hop]
    exact (loadMemory_alike hw).bind fun x _ => (store_alike x v).bind fun _ _ => .same hw
  · rw [if_neg hop]
    exact (loadMemory_alike hv).bind fun _ _ => (loadMemory_alike hw).bind fun _ _ =>
      .same True.intro

theorem evalCall_alike (hrt : rt.Alike rt') (callee : Value) (arguments : List Value) :
    Same values (Value.KnownIn values) (evalCall rt callee arguments)
      (evalCall rt' callee arguments) := by
  cases callee with
  | function decl type =>
    refine (Alike.call hrt decl _).bind fun result _ => .same ?_
    split <;> exact True.intro
  | int | address | void => exact .same True.intro

theorem evalArguments_alike {cs : List AST} (h : ∀ c ∈ cs, ∀ r,
    Check.codegenExpr ctx c values = some r →
      Same values (Value.KnownIn values) (evalExpr ctx rt c) (evalExpr ctx rt' c))
    {r : List OperandKind × List (List NodeId)}
    (hcheck : Check.codegenArguments ctx cs values = some r) :
    Alike values (fun _ => values) (fun _ => True) (evalArguments ctx rt cs)
      (evalArguments ctx rt' cs) := by
  induction cs generalizing r with
  | nil => exact .same True.intro
  | cons c cs ih =>
    obtain ⟨kind, known₁, hc, hcheck⟩ := Check.bind_some.1 hcheck
    obtain ⟨kind', known₂, hload, hcheck⟩ := Check.bind_some.1 hcheck
    obtain ⟨kinds, known₃, hcs, -⟩ := Check.bind_some.1 hcheck
    rw [Check.keeps_loadMemory _ _ _ hload, Check.keeps_codegenExpr c _ _ _ hc] at hcs
    exact (h c List.mem_cons_self _ hc).bind fun v hv => (loadMemory_alike hv).bind fun _ _ =>
      (ih (fun x hx => h x (List.mem_cons_of_mem _ hx)) hcs).bind fun _ _ =>
        .same True.intro

/-- An expression that has a kind reads only what has a value. -/
theorem evalExpr_alike (hrt : rt.Alike rt') (a : AST) (r : OperandKind × List (List NodeId))
    (hcheck : Check.codegenExpr ctx a values = some r) :
    Same values (Value.KnownIn values) (evalExpr ctx rt a) (evalExpr ctx rt' a) := by
  induction a using Rose.ind generalizing r with
  | h n cs ih =>
    obtain ⟨⟨id, data⟩, decl, exportedDecls⟩ := n
    cases data with
    | declRefExpr name => exact evalDeclRefExpr_alike hcheck
    | metaInstantiationExpr => exact evalMetaInstantiationExpr_alike
    | binaryOperatorExpr op =>
      rcases cs with _ | ⟨left, _ | ⟨right, _ | ⟨c, cs⟩⟩⟩
      case cons.cons.nil =>
        obtain ⟨kind, known₁, hl, hcheck⟩ := Check.bind_some.1 hcheck
        obtain ⟨kind', known₂, hr, -⟩ := Check.bind_some.1 hcheck
        rw [Check.keeps_codegenExpr left _ _ _ hl] at hr
        exact evalBinaryOperatorExpr_alike (ih left (by simp) _ hl) (ih right (by simp) _ hr)
      all_goals exact .same True.intro
    | callOperatorExpr =>
      cases cs with
      | nil => exact .same True.intro
      | cons callee args =>
        obtain ⟨kind, known₁, hcallee, hcheck⟩ := Check.bind_some.1 hcheck
        obtain ⟨kinds, known₂, hargs, -⟩ := Check.bind_some.1 hcheck
        rw [Check.keeps_codegenExpr callee _ _ _ hcallee] at hargs
        exact (ih callee List.mem_cons_self _ hcallee).bind fun v _ =>
          (evalArguments_alike (fun c hc => ih c (List.mem_cons_of_mem _ hc)) hargs).bind
            fun vs _ => evalCall_alike hrt v vs
    | _ => exact .same True.intro

/-! ## Statements -/

/-- What has a value behind a statement: nothing is executed behind a return. -/
def valuesBehind (values : List (List NodeId)) : Flow → List (List NodeId)
  | .next => values
  | .returned => []

/-- Statements do the same, and what has a value behind them agrees. -/
abbrev SameFlow (values values' : List (List NodeId)) (e e' : Exec Flow) : Prop :=
  Alike values (valuesBehind values') (fun _ => True) e e'

theorem SameFlow.next : SameFlow values values (Pure.pure Flow.next) (Pure.pure Flow.next) :=
  .pure (fun _ => id) True.intro

theorem SameFlow.returned {values' : List (List NodeId)} :
    SameFlow values values' (Pure.pure Flow.returned) (Pure.pure Flow.returned) :=
  .pure (fun _ h => absurd h not_known_nil) True.intro

theorem andThen_alike {values₁ values₂ : List (List NodeId)} {e e' f f' : Exec Flow}
    (he : SameFlow values values₁ e e') (hf : SameFlow values₁ values₂ f f') :
    SameFlow values values₂ (andThen e f) (andThen e' f') := by
  refine he.bind fun flow _ => ?_
  cases flow with
  | next => exact hf
  | returned => exact SameFlow.returned

theorem evalIf_alike (hrt : rt.Alike rt') {x x' : Exec Value} {e e' f f' : Exec Flow}
    {Q : Value → Prop} (hx : Same values Q x x') (he : SameFlow values values e e')
    (hf : SameFlow values values f f') :
    SameFlow values values (evalIf rt x e f) (evalIf rt' x' e' f') := by
  refine hx.bind fun v _ => (Alike.branch hrt _).bind fun outcome _ => ?_
  cases outcome with
  | true => exact he
  | false => exact hf

end Interpreter

/-- The branches of every if are compounds. -/
def AST.ScopesBranches (a : AST) : Prop :=
  ∀ u ∈ a.subtrees, AST.kind u = .ifStmt → ∀ c ∈ u.children.tail, AST.kind c = .compoundStmt

theorem AST.ScopesBranches.child {n : ASTNode} {cs : List AST}
    (h : AST.ScopesBranches (.node n cs)) {c : AST} (hc : c ∈ cs) : c.ScopesBranches :=
  fun u hu => h u (Rose.mem_subtrees_node.2 (.inr ⟨c, hc, hu⟩))

namespace Interpreter

open Exec (Alike)

variable {ctx : IRContext} {rt rt' : Runtime} {values values' : List (List NodeId)}

/-- The statement reads only what has a value before it. -/
def ReadsValues (ctx : IRContext) (rt rt' : Runtime) (a : AST) : Prop :=
  ∀ values values', values ≠ [] → Check.codegenStmt ctx a values = some ((), values') →
    SameFlow values values' (execStmt ctx rt a) (execStmt ctx rt' a)

theorem execStmts_alike {cs : List AST} (h : ∀ c ∈ cs, ReadsValues ctx rt rt' c)
    (hne : values ≠ []) (hcheck : Check.codegenStmts ctx cs values = some ((), values')) :
    SameFlow values values' (execStmts ctx rt cs) (execStmts ctx rt' cs) := by
  induction cs generalizing values with
  | nil =>
    cases Check.pure_some.1 hcheck
    exact .next
  | cons c cs ih =>
    obtain ⟨_, values₁, hc, hcs⟩ := Check.bind_some.1 hcheck
    have hadds := Check.adds_codegenStmt c _ _ hne hc
    exact andThen_alike (h c List.mem_cons_self _ _ hne hc)
      (ih (fun x hx => h x (List.mem_cons_of_mem _ hx)) hadds.scope hcs)

/-- Behind a compound everything has a value that had one before. -/
theorem execCompound_alike {cs : List AST} (h : ∀ c ∈ cs, ReadsValues ctx rt rt' c)
    (hcheck : Check.withValueScope (Check.codegenStmts ctx cs) values = some ((), values')) :
    SameFlow values values' (execStmts ctx rt cs) (execStmts ctx rt' cs) := by
  obtain ⟨rfl, values₁, hcs, htail⟩ :=
    Check.withValueScope_inv (Check.adds_codegenStmts fun c _ => Check.adds_codegenStmt c) hcheck
  refine (execStmts_alike h (List.cons_ne_nil _ _) hcs).weaken (fun decl hdecl => ?_) ?_
  · simpa [Known] using hdecl
  · intro flow decl hdecl
    cases flow with
    | returned => exact hdecl
    | next =>
      obtain ⟨scope, hscope, hdecl⟩ := known_iff.1 hdecl
      rw [← htail] at hscope
      exact known_iff.2 ⟨scope, List.mem_of_mem_tail hscope, hdecl⟩

/-- Behind a branch nothing has a value that had none before. -/
theorem branch_inv {a : AST} (ha : a.kind = .compoundStmt)
    (h : Check.codegenStmt ctx a values = some ((), values')) : values' = values := by
  obtain ⟨⟨⟨id, data⟩, decl, exportedDecls⟩, cs⟩ := a
  cases data with
  | compoundStmt =>
    have h : Check.withValueScope (Check.codegenStmts ctx cs) values = some ((), values') := h
    exact (Check.withValueScope_inv
      (Check.adds_codegenStmts fun c _ => Check.adds_codegenStmt c) h).1
  | _ => cases ha

/-- What is checked of an if whose branches are compounds. -/
theorem codegenIfStructure_inv {condition : AST} {k k' : CheckM Unit}
    (hk : ∀ values₁, k values = some ((), values₁) → values₁ = values)
    (hk' : ∀ values₁, k' values = some ((), values₁) → values₁ = values)
    (h : Check.codegenIfStructure ctx condition k k' values = some ((), values')) :
    values' = values ∧ k values = some ((), values) ∧ k' values = some ((), values) ∧
      ∃ r, Check.codegenExpr ctx condition values = some r := by
  obtain ⟨_, values₁, htrue, hrest⟩ := Check.bind_some.1 h
  obtain rfl : values₁ = values := hk _ htrue
  obtain ⟨_, values₂, hfalse, hlast⟩ := Check.bind_some.1 hrest
  obtain rfl : values₂ = values₁ := hk' _ hfalse
  obtain ⟨kind, values₃, hcondition, hnull⟩ := Check.bind_some.1 hlast
  have hkeeps := Check.keeps_createIsNotNull _ _ _ hnull
  rw [Check.keeps_codegenExpr condition _ _ _ hcondition] at hkeeps
  exact ⟨hkeeps, htrue, hfalse, _, hcondition⟩

/-- A statement that passes the check reads only what has a value, if the branches of every if are
compounds. -/
theorem execStmt_alike (hrt : rt.Alike rt') (a : AST) (ha : a.ScopesBranches) :
    ReadsValues ctx rt rt' a := by
  induction a using Rose.ind with
  | h n cs ih =>
    intro values values' hne hcheck
    have hchild (c : AST) (hc : c ∈ cs) : ReadsValues ctx rt rt' c := ih c hc (ha.child hc)
    obtain ⟨⟨id, data⟩, decl, exportedDecls⟩ := n
    cases data with
    | compoundStmt => exact execCompound_alike hchild hcheck
    | unscopedCompoundStmt => exact execStmts_alike hchild hne hcheck
    | returnStmt =>
      rcases cs with _ | ⟨expr, _ | ⟨c, cs⟩⟩
      · exact (Alike.emit _).bind fun _ _ => SameFlow.returned
      · obtain ⟨kind, known₁, hexpr, -⟩ := Check.bind_some.1 hcheck
        exact (evalExpr_alike hrt expr _ hexpr).bind fun v hv => (loadMemory_alike hv).bind
          fun _ _ => (Alike.emit _).bind fun _ _ => SameFlow.returned
      · cases hcheck
    | expressionStmt =>
      rcases cs with _ | ⟨expr, _ | ⟨c, cs⟩⟩
      · cases hcheck
      · obtain ⟨kind, known₁, hexpr, hpure⟩ := Check.bind_some.1 hcheck
        cases Check.pure_some.1 hpure
        rw [Check.keeps_codegenExpr expr _ _ _ hexpr]
        exact (evalExpr_alike hrt expr _ hexpr).bind fun _ _ =>
          (Alike.emit _).bind fun _ _ => SameFlow.next
      · cases hcheck
    | declStmt name =>
      rcases cs with _ | ⟨expr, _ | ⟨c, cs⟩⟩
      · cases hcheck
      · obtain ⟨kind, known₁, hexpr, hcheck⟩ := Check.bind_some.1 hcheck
        obtain ⟨kind', known₂, hload, hcheck⟩ := Check.bind_some.1 hcheck
        obtain ⟨_, known₃, hstore, hintroduce⟩ := Check.bind_some.1 hcheck
        rw [Check.keeps_createStore _ _ _ hstore, Check.keeps_loadMemory _ _ _ hload,
          Check.keeps_codegenExpr expr _ _ _ hexpr] at hintroduce
        cases hintroduce
        exact (evalExpr_alike hrt expr _ hexpr).bind fun v hv => (Alike.emit _).bind fun _ _ =>
          (loadMemory_alike hv).bind fun w _ =>
            Alike.bind (.store fun d hd => known_introduce hd) fun _ _ => SameFlow.next
      · cases hcheck
    | ifStmt =>
      have hbranch (c : AST) (hc : c ∈ cs.tail) : c.kind = .compoundStmt :=
        ha _ (Rose.mem_subtrees_self _) rfl c hc
      rcases cs with _ | ⟨condition, _ | ⟨trueBranch, _ | ⟨falseBranch, _ | ⟨c, cs⟩⟩⟩⟩
      · cases hcheck
      · cases hcheck
      · obtain ⟨rfl, htrue, -, r, hcondition⟩ := codegenIfStructure_inv
          (fun _ => branch_inv (hbranch trueBranch (by simp)))
          (fun _ h => Check.Keeps.pure _ _ _ h) hcheck
        exact evalIf_alike hrt (evalExpr_alike hrt condition r hcondition)
          (hchild trueBranch (by simp) _ _ hne htrue) .next
      · obtain ⟨rfl, htrue, hfalse, r, hcondition⟩ := codegenIfStructure_inv
          (fun _ => branch_inv (hbranch trueBranch (by simp)))
          (fun _ => branch_inv (hbranch falseBranch (by simp))) hcheck
        exact evalIf_alike hrt (evalExpr_alike hrt condition r hcondition)
          (hchild trueBranch (by simp) _ _ hne htrue)
          (hchild falseBranch (by simp) _ _ hne hfalse)
      · cases hcheck
    | _ => cases hcheck

theorem bindArguments_alike (arguments : List Word) (args : List AST) (index : Nat)
    (hcheck : Check.storeArguments args values = some ((), values')) :
    Alike values (fun _ => values') (fun _ => True) (bindArguments arguments index args)
      (bindArguments arguments index args) := by
  induction args generalizing index values with
  | nil =>
    cases Check.pure_some.1 hcheck
    exact .same True.intro
  | cons arg args ih =>
    obtain ⟨n, cs⟩ := arg
    rw [Check.storeArguments] at hcheck
    rw [bindArguments]
    by_cases h : n.node.kind = .namedArgumentDecl
    · rw [if_pos h] at hcheck ⊢
      obtain ⟨_, values₁, hintroduce, hcheck⟩ := Check.bind_some.1 hcheck
      cases hintroduce
      exact (Alike.emit _).bind fun _ _ =>
        Alike.bind (.store fun d hd => known_introduce hd) fun _ _ => ih _ hcheck
    · rw [if_neg h] at hcheck ⊢
      exact ih _ hcheck

/-- What a function does does not depend on what is found in fresh memory. -/
theorem execBody_alike (hrt : rt.Alike rt') {args body : AST} (hbody : body.ScopesBranches)
    (hcheck : (Check.codegenBody ctx args body []).isSome = true) (arguments : List Word)
    (u u' : NodeId → Word) :
    (execBody ctx rt arguments args body ⟨u, 0⟩).events =
      (execBody ctx rt' arguments args body ⟨u', 0⟩).events := by
  obtain ⟨⟨_, known'⟩, hcheck⟩ := Option.isSome_iff_exists.1 hcheck
  obtain ⟨_, known₁, hopen, hcheck⟩ := Check.bind_some.1 hcheck
  obtain ⟨_, known₂, hinner, -⟩ := Check.bind_some.1 hcheck
  cases hopen
  obtain ⟨_, known₃, hargs, hstmt⟩ := Check.bind_some.1 hinner
  have hadds := Check.adds_storeArguments args.children _ _ (List.cons_ne_nil _ _) hargs
  have halike : SameFlow [[]] [] (execBody ctx rt arguments args body)
      (execBody ctx rt' arguments args body) := by
    refine (bindArguments_alike arguments args.children 0 hargs).bind fun _ _ => ?_
    refine andThen_alike (execStmt_alike hrt body hbody _ _ hadds.scope hstmt) ?_
    exact (Alike.emit _).bind fun _ _ => SameFlow.returned
  exact (halike ⟨u, 0⟩ ⟨u', 0⟩ ⟨rfl, fun _ h => absurd h not_known_nil_scope⟩).2.1

end Interpreter

/-! ## Functions -/

/-- What the grammar derives has compounds as the branches of every if. -/
theorem AST.scopesBranches_of_derived {depth : MetaDepth} (a : AST)
    (h : Tree.derived depth a.shape = true) : a.ScopesBranches := by
  induction a using Rose.ind generalizing depth with
  | h n cs ih =>
    intro u hu hk c hc
    rw [AST.shape_node] at h
    rcases Rose.mem_subtrees_node.1 hu with rfl | ⟨d, hd, hsub⟩
    · obtain ⟨⟨id, data⟩, decl, exportedDecls⟩ := n
      cases data <;> try cases hk
      obtain ⟨hbranches, -⟩ := Bool.and_eq_true_iff.1 h
      have hmem : AST.shape c ∈ (cs.map AST.shape).tail := by
        rw [← List.map_tail]
        exact List.mem_map_of_mem hc
      rw [← AST.kind_shape]
      exact beq_iff_eq.1 (List.all_eq_true.1 hbranches _ hmem)
    · have hchild := Rose.child_mem_subtrees (a := n.node) (List.mem_map_of_mem (f := AST.shape) hd)
      obtain ⟨depth', hderived⟩ := Tree.derived_subtree _ h _ hchild
      exact ih d hd hderived u hsub hk c hc

/-- In a function of a program the branches of every if are compounds. -/
theorem AST.scopesBranches_of_derivedTopLevel {a : AST}
    (h : Tree.derivedTopLevel a.shape = true) (hk : AST.kind a = .functionDecl) :
    a.ScopesBranches := by
  obtain ⟨⟨⟨id, data⟩, decl, exportedDecls⟩, cs⟩ := a
  cases data <;> try cases hk
  rw [AST.shape_node] at h
  obtain ⟨-, hall⟩ := Bool.and_eq_true_iff.1 h
  intro u hu hk c hc
  rcases Rose.mem_subtrees_node.1 hu with rfl | ⟨d, hd, hsub⟩
  · cases hk
  · exact AST.scopesBranches_of_derived d
      (Tree.derivedAll_iff.1 hall _ (List.mem_map_of_mem hd)) u hsub hk c hc

section Functions

variable {ctx : IRContext} {hasBody : NodeId → Bool} {u u' : NodeId → Word}

/-- The body of a function that was generated passes the check. -/
theorem isSome_check_of_generated {function : NodeId} {code : Blocks Instruction}
    (h : ctx.generated function = some code) {a args body : AST}
    (ha : ctx.declaringNode function = some a) (hparts : a.functionParts? = some (args, body)) :
    (Check.codegenBody ctx args body []).isSome = true := by
  obtain ⟨a', args', body', s, ha', hparts', hbody, -⟩ := IRContext.generated_eq_some h
  obtain rfl : a = a' := Option.some.inj (ha.symm.trans ha')
  obtain ⟨rfl, rfl⟩ := Prod.mk.inj (Option.some.inj (hparts.symm.trans hparts'))
  have hnothing := nothingFollows_of_codegenBody ctx hbody
  exact ((codegenBody_abstracts ctx args body hnothing).ok_iff _).1 ⟨_, _, hbody⟩

/-- The branches of every if in the body of a function are compounds. -/
theorem AST.ScopesBranches.body {a args body : AST} (h : a.ScopesBranches)
    (hparts : a.functionParts? = some (args, body)) : body.ScopesBranches := by
  unfold AST.functionParts? at hparts
  split at hparts <;> cases hparts
  · exact h.child (by simp)
  · exact h.child (by simp)

/-- What a function means does not depend on what is found in fresh memory. -/
theorem Means.of_memory
    (hgenerated : ∀ f, hasBody f = true → (ctx.generated f).isSome = true)
    (hscoped : ∀ f a, hasBody f = true → ctx.declaringNode f = some a → a.ScopesBranches)
    {function : NodeId} {arguments : List Word} {result : Option Word}
    (h : Means ctx hasBody u function arguments result) :
    Means ctx hasBody u' function arguments result := by
  induction h with
  | @intro answer function arguments a args body events value hbody ha hparts hevents hvalue
      hcalls ih =>
    obtain ⟨code, hcode⟩ := Option.isSome_iff_exists.1 (hgenerated function hbody)
    have halike : (Runtime.answering u answer).Alike (.answering u' answer) := ⟨rfl, rfl⟩
    have hsame := Interpreter.execBody_alike halike ((hscoped function a hbody ha).body hparts)
      (isSome_check_of_generated hcode ha hparts) arguments u u'
    exact .intro hbody ha hparts (hsame.symm.trans hevents) hvalue ih

/-- What the functions of a module return does not depend on what their storage holds before
something is stored there, if the branches of every if are compounds: no variable is read before it
is written, in whichever order the functions call each other. -/
theorem linkedReturns_uninitialized
    (hgenerated : ∀ f, hasBody f = true → (ctx.generated f).isSome = true)
    (hscoped : ∀ f a, hasBody f = true → ctx.declaringNode f = some a → a.ScopesBranches)
    {function : NodeId} {arguments : List Word} {result : Option Word} :
    (linkedFunctions ctx hasBody u).LinkedReturns function arguments result ↔
      (linkedFunctions ctx hasBody u').LinkedReturns function arguments result := by
  have hmeans (u : NodeId → Word) : (linkedFunctions ctx hasBody u).LinkedReturns function
      arguments result ↔ Means ctx hasBody u function arguments result :=
    Procedures.returns_iff_linked.symm.trans (returns_iff_means hgenerated)
  rw [hmeans, hmeans]
  exact ⟨Means.of_memory hgenerated hscoped, Means.of_memory hgenerated hscoped⟩

end Functions

/-- `f(int n) int -> { int x = n + 1; if x < 9 { int y = x; return y; } return x; }`, where `f(3)`
is `4`. -/
theorem linkedReturns_uninitialized_local :
    let name (id decl : NodeId) (data : NodeData) : AST :=
      .node ⟨⟨id, .declRefExpr "x"⟩, some ⟨decl, data⟩, []⟩ []
    let literal (id : NodeId) (value : Word) : AST :=
      .node ⟨⟨id, .integerLiteralExpr value⟩, none, []⟩ []
    let returnStmt (id : NodeId) (expr : AST) : AST := .node ⟨⟨id, .returnStmt⟩, none, []⟩ [expr]
    let x : AST := .node ⟨⟨6, .declStmt "x"⟩, none, []⟩
      [.node ⟨⟨7, .binaryOperatorExpr .plus⟩, none, []⟩
        [name 8 3 (.namedArgumentDecl "n"), literal 9 1]]
    let y : AST := .node ⟨⟨10, .declStmt "y"⟩, none, []⟩ [name 11 6 (.declStmt "x")]
    let branch : AST := .node ⟨⟨12, .ifStmt⟩, none, []⟩
      [.node ⟨⟨13, .binaryOperatorExpr .lessThan⟩, none, []⟩
          [name 14 6 (.declStmt "x"), literal 15 9],
        .node ⟨⟨16, .compoundStmt⟩, none, []⟩ [y, returnStmt 17 (name 18 10 (.declStmt "y"))]]
    let a : AST := .node ⟨⟨1, .functionDecl "f"⟩, none, []⟩
      [.node ⟨⟨2, .argumentDeclList⟩, none, []⟩ [.node ⟨⟨3, .namedArgumentDecl "n"⟩, none, []⟩ []],
        .node ⟨⟨4, .anonymousArgumentDecl⟩, none, []⟩ [],
        .node ⟨⟨5, .compoundStmt⟩, none, []⟩
          [x, branch, returnStmt 19 (name 20 6 (.declStmt "x"))]]
    let ctx : IRContext := ⟨fun decl => if decl = 1 then some a else none, fun _ => none⟩
    ∀ u, (linkedFunctions ctx (· = 1) u).LinkedReturns 1 [3] (some 4) := by
  intro name literal returnStmt x y branch a ctx u
  have hgenerated (f : NodeId) (hf : decide (f = 1) = true) :
      (ctx.generated f).isSome = true := by
    obtain rfl : f = 1 := of_decide_eq_true hf
    decide +kernel
  have hderived : Tree.derivedTopLevel a.shape = true := by decide
  refine (linkedReturns_uninitialized (u := fun _ => 0) hgenerated fun f b hf hb => ?_).1 ?_
  · obtain rfl : f = 1 := of_decide_eq_true hf
    obtain rfl : a = b := Option.some.inj hb
    exact AST.scopesBranches_of_derivedTopLevel hderived rfl
  · exact Procedures.linkedReturns_iff_execute.2 ⟨100, by decide +kernel⟩

end Swy
