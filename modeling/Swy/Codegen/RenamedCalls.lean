import Swy.Codegen.Expansion

/-!
# Functions at other addresses

The functions that a meta function calls are looked up by address: those of the program, and the
ones that its own instantiations export, which were allocated at some time. What a meta function
writes does not depend on these addresses. Where the lookups agree on what the expressions of a meta
declaration refer to, up to the addresses of exported functions, the same nodes are written
(`execMetaFunction_agrees`).
-/

namespace Swy

open Library

/-- What the callback of an event writes. -/
def Event.writtenData : Event → List (Option NodeData)
  | .contribute node => [some node.data]
  | .reduce => [none]
  | .introduce node value level => node.name?.toList.flatMap fun name =>
    [some (NodeContributor.introduced name level), some (.integerLiteralExpr value)]
  | _ => []

/-- The callback writes it behind the layout, at the next addresses. -/
theorem NodeContributor.handle_eq (event : Event) (c : NodeContributor) :
    c.handle event = ⟨c.layout ++ number c.nextId event.writtenData,
      c.nextId + countNodes event.writtenData⟩ := by
  have nothing : c = ⟨c.layout ++ number c.nextId [], c.nextId + countNodes []⟩ :=
    congrArg (NodeContributor.mk · c.nextId) (List.append_nil _).symm
  cases event with
  | contribute node => rfl
  | reduce => rfl
  | introduce node value level =>
    show c.introduce node value level = _
    rw [introduce, Event.writtenData]
    cases node.name? with
    | none => exact nothing
    | some name =>
      have hframed : (introduced name level).kind.isRequiringReduceMarker = false := by
        cases level <;> rfl
      dsimp only
      rw [write_of_unframed hframed, write_of_unframed rfl]
      simp only [directWrite, List.append_assoc]
      rfl
  | _ => exact nothing

theorem NodeContributor.handles_eq (events : List Event) (c : NodeContributor) :
    events.foldl handle c = ⟨c.layout ++ number c.nextId (events.flatMap Event.writtenData),
      c.nextId + countNodes (events.flatMap Event.writtenData)⟩ := by
  induction events generalizing c with
  | nil => exact congrArg (NodeContributor.mk · c.nextId) (List.append_nil _).symm
  | cons event events ih =>
    rw [List.foldl_cons, ih, handle_eq, List.flatMap_cons, number_append, countNodes_append,
      List.append_assoc, Nat.add_assoc]

/-- What is written is determined by what the events write. -/
theorem Writes.writtenData {events : List Event} {ds : List (Option NodeData)}
    (h : Writes events ds) : events.flatMap Event.writtenData = ds := by
  have hwritten := congrArg NodeContributor.layout
    ((NodeContributor.handles_eq events ⟨[], 0⟩).symm.trans (h ⟨[], 0⟩))
  have hdata := congrArg (List.map (Option.map Node.data)) hwritten
  rwa [List.nil_append, List.nil_append, map_data_number, map_data_number] at hdata

/-! ## Values and effects -/

section

variable {rt rt' : Runtime}

/-- The values are the same, but functions may be at other addresses. -/
inductive Value.Agrees (rt rt' : Runtime) : Value → Value → Prop
  | int (value : Word) : Agrees rt rt' (.int value) (.int value)
  | address (decl : NodeId) : Agrees rt rt' (.address decl) (.address decl)
  | function {decl decl' : NodeId} (type : FunctionType) :
    rt.calls decl = rt'.calls decl' → Agrees rt rt' (.function decl type) (.function decl' type)
  | void : Agrees rt rt' .void .void

theorem Value.Agrees.word {v v' : Value} (h : v.Agrees rt rt' v') : v.word = v'.word := by
  cases h <;> rfl

theorem Value.Agrees.isNotNull {v v' : Value} (h : v.Agrees rt rt' v') :
    v.isNotNull = v'.isNotNull := by
  cases h <;> rfl

namespace Exec

variable {α α' β β' : Type} {Q : α → α' → Prop} {R : β → β' → Prop}

/-- The effects write the same and leave the same memory, and what they return is related. -/
def Agrees (Q : α → α' → Prop) (e : Exec α) (e' : Exec α') : Prop :=
  ∀ μ, Q (e μ).value (e' μ).value ∧ (e μ).memory = (e' μ).memory ∧
    (e μ).events.flatMap Event.writtenData = (e' μ).events.flatMap Event.writtenData

theorem Agrees.pure {a : α} {a' : α'} (h : Q a a') : Agrees Q (Pure.pure a) (Pure.pure a') :=
  fun _ => ⟨h, rfl, rfl⟩

theorem Agrees.refl {Q : α → α → Prop} (h : ∀ a, Q a a) (e : Exec α) : Agrees Q e e :=
  fun _ => ⟨h _, rfl, rfl⟩

theorem Agrees.bind {e : Exec α} {e' : Exec α'} {f : α → Exec β} {f' : α' → Exec β'}
    (he : Agrees Q e e') (hf : ∀ a a', Q a a' → Agrees R (f a) (f' a')) :
    Agrees R (e >>= f) (e' >>= f') := by
  intro μ
  obtain ⟨hvalue, hmemory, hevents⟩ := he μ
  obtain ⟨hvalue', hmemory', hevents'⟩ := hf _ _ hvalue (e μ).memory
  simp only [bind_apply, ← hmemory]
  refine ⟨hvalue', hmemory', ?_⟩
  rw [List.flatMap_append, List.flatMap_append, hevents, hevents']

/-- Calls of functions that return the same. -/
theorem Agrees.call {decl decl' : NodeId} (h : rt.calls decl = rt'.calls decl')
    (arguments : List Word) :
    Agrees (· = ·) (Exec.call rt decl arguments) (Exec.call rt' decl' arguments) :=
  fun _ => ⟨congrFun h arguments, rfl, rfl⟩

theorem Agrees.branch (h : rt.choose = rt'.choose) (condition : Word) :
    Agrees (· = ·) (Exec.branch rt condition) (Exec.branch rt' condition) := by
  intro μ
  unfold Exec.branch
  rw [h]
  exact ⟨rfl, rfl, rfl⟩

end Exec

end

/-! ## The lookups -/

/-- The lookups agree on what the expressions below a node refer to: declarations are the same, and
instantiations export functions that return the same. -/
structure IRContext.AgreesOn (a : AST) (ctx : IRContext) (rt : Runtime) (ctx' : IRContext)
    (rt' : Runtime) : Prop where
  choose : rt.choose = rt'.choose
  uninitialized : rt.uninitialized = rt'.uninitialized
  decls : ∀ x ∈ a.labels, ∀ decl, x.decl = some decl →
    ctx.lookupGlobal decl.id = ctx'.lookupGlobal decl.id ∧
      ctx.constant decl.id = ctx'.constant decl.id ∧ rt.calls decl.id = rt'.calls decl.id
  instantiations : ∀ x ∈ a.labels, x.node.data = .metaInstantiationExpr →
    (ctx.lookupInstantiation x.node.id = none ∧ ctx'.lookupInstantiation x.node.id = none) ∨
      ∃ function function' type, ctx.lookupInstantiation x.node.id = some (function, type) ∧
        ctx'.lookupInstantiation x.node.id = some (function', type) ∧
        rt.calls function = rt'.calls function'

namespace IRContext.AgreesOn

variable {a : AST} {ctx ctx' : IRContext} {rt rt' : Runtime}

theorem refl (a : AST) (ctx : IRContext) (rt : Runtime) : AgreesOn a ctx rt ctx rt where
  choose := rfl
  uninitialized := rfl
  decls _ _ _ _ := ⟨rfl, rfl, rfl⟩
  instantiations x _ _ := by
    cases h : ctx.lookupInstantiation x.node.id with
    | none => exact .inl ⟨rfl, rfl⟩
    | some f => exact .inr ⟨f.1, f.1, f.2, rfl, rfl, rfl⟩

/-- They agree below the children. -/
theorem child {n : ASTNode} {cs : List AST} (h : AgreesOn (.node n cs) ctx rt ctx' rt') {c : AST}
    (hc : c ∈ cs) : AgreesOn c ctx rt ctx' rt' where
  choose := h.choose
  uninitialized := h.uninitialized
  decls x hx := h.decls x (Rose.mem_labels_node.2 (.inr ⟨c, hc, hx⟩))
  instantiations x hx := h.instantiations x (Rose.mem_labels_node.2 (.inr ⟨c, hc, hx⟩))

end IRContext.AgreesOn

namespace Interpreter

variable {ctx ctx' : IRContext} {rt rt' : Runtime}

/-! ## Expressions -/

theorem loadMemory_agrees {v v' : Value} (h : v.Agrees rt rt' v') :
    Exec.Agrees (Value.Agrees rt rt') (loadMemory v) (loadMemory v') := by
  cases h with
  | address decl => exact fun μ => ⟨.int _, rfl, rfl⟩
  | int value => exact .pure (.int value)
  | function type hcalls => exact .pure (.function type hcalls)
  | void => exact .pure .void

theorem store_agrees {v v' w w' : Value} (hv : v.Agrees rt rt' v') (hw : w.Agrees rt rt' w') :
    Exec.Agrees (· = ·) (store v w) (store v' w') := by
  cases hw with
  | address decl =>
    unfold store
    rw [hv.word]
    exact .refl (fun _ => rfl) _
  | _ => exact .pure rfl

theorem evalBinaryOperatorExpr_agrees (op : ExprBinaryOperator)
    {left left' right right' : Exec Value} (hleft : Exec.Agrees (Value.Agrees rt rt') left left')
    (hright : Exec.Agrees (Value.Agrees rt rt') right right') :
    Exec.Agrees (Value.Agrees rt rt') (evalBinaryOperatorExpr op left right)
      (evalBinaryOperatorExpr op left' right') := by
  refine hleft.bind fun v v' hv => hright.bind fun w w' hw => ?_
  by_cases hop : op = .assign
  · rw [if_pos hop, if_pos hop]
    exact (loadMemory_agrees hw).bind fun _ _ hloaded =>
      (store_agrees hloaded hv).bind fun _ _ _ => .pure hw
  · rw [if_neg hop, if_neg hop]
    refine (loadMemory_agrees hv).bind fun x x' hx => (loadMemory_agrees hw).bind fun y y' hy => ?_
    rw [hx.word, hy.word]
    exact .pure (.int _)

theorem evalCall_agrees {callee callee' : Value} (h : callee.Agrees rt rt' callee')
    {arguments arguments' : List Value}
    (hargs : List.Forall₂ (Value.Agrees rt rt') arguments arguments') :
    Exec.Agrees (Value.Agrees rt rt') (evalCall rt callee arguments)
      (evalCall rt' callee' arguments') := by
  cases h with
  | function type hcalls =>
    have hwords : arguments.map Value.word = arguments'.map Value.word := by
      induction hargs with
      | nil => rfl
      | cons hv _ ih => rw [List.map_cons, List.map_cons, hv.word, ih]
    unfold evalCall
    dsimp only
    rw [hwords]
    refine (Exec.Agrees.call hcalls _).bind fun result result' hresult => ?_
    subst hresult
    refine .pure ?_
    split
    · exact .void
    · exact .int result
  | _ => exact .pure .void

theorem evalArguments_agrees {cs : List AST}
    (h : ∀ c ∈ cs, Exec.Agrees (Value.Agrees rt rt') (evalExpr ctx rt c) (evalExpr ctx' rt' c)) :
    Exec.Agrees (List.Forall₂ (Value.Agrees rt rt')) (evalArguments ctx rt cs)
      (evalArguments ctx' rt' cs) := by
  induction cs with
  | nil => exact .pure .nil
  | cons c cs ih =>
    exact (h c List.mem_cons_self).bind fun _ _ hv => (loadMemory_agrees hv).bind fun _ _ harg =>
      (ih fun d hd => h d (List.mem_cons_of_mem _ hd)).bind fun _ _ hargs =>
        .pure (.cons harg hargs)

theorem evalDeclRefExpr_agrees {n : ASTNode} (h : ∀ decl, n.decl = some decl →
      ctx.lookupGlobal decl.id = ctx'.lookupGlobal decl.id ∧
        ctx.constant decl.id = ctx'.constant decl.id ∧ rt.calls decl.id = rt'.calls decl.id) :
    Exec.Agrees (Value.Agrees rt rt') (evalDeclRefExpr ctx n) (evalDeclRefExpr ctx' n) := by
  unfold evalDeclRefExpr
  cases hdecl : n.decl with
  | none => exact .pure .void
  | some decl =>
    obtain ⟨hglobal, hconstant, hcalls⟩ := h decl hdecl
    dsimp only
    rw [hglobal, hconstant]
    cases decl.kind with
    | functionDecl =>
      cases ctx'.lookupGlobal decl.id with
      | none => exact .pure .void
      | some type => exact .pure (.function type hcalls)
    | namedArgumentDecl | declStmt => exact fun μ => ⟨.address _, rfl, rfl⟩
    | globalConstantDecl =>
      cases ctx'.constant decl.id with
      | none => exact .pure .void
      | some value => exact .pure (.int value)
    | _ => exact .pure .void

/-- An expression evaluates to the same. -/
theorem evalExpr_agrees (a : AST) (h : IRContext.AgreesOn a ctx rt ctx' rt') :
    Exec.Agrees (Value.Agrees rt rt') (evalExpr ctx rt a) (evalExpr ctx' rt' a) := by
  induction a using Rose.ind with
  | h n cs ih =>
    have below (c : AST) (hc : c ∈ cs) := ih c hc (h.child hc)
    have hn : n ∈ (Rose.node n cs).labels := Rose.mem_labels_node.2 (.inl rfl)
    have hdecls := h.decls n hn
    have hinst := h.instantiations n hn
    obtain ⟨⟨id, data⟩, decl, exportedDecls⟩ := n
    cases data with
    | declRefExpr name => exact evalDeclRefExpr_agrees hdecls
    | metaInstantiationExpr =>
      show Exec.Agrees _ (evalMetaInstantiationExpr ctx id) (evalMetaInstantiationExpr ctx' id)
      unfold evalMetaInstantiationExpr
      rcases hinst rfl with ⟨hnone, hnone'⟩ | ⟨function, function', type, hsome, hsome', hcalls⟩
      · rw [hnone, hnone']
        exact .pure .void
      · rw [hsome, hsome']
        exact .pure (.function type hcalls)
    | integerLiteralExpr literal => exact .pure (.int _)
    | booleanLiteralExpr literal => exact .pure (.int _)
    | binaryOperatorExpr op =>
      rcases cs with _ | ⟨left, _ | ⟨right, _ | ⟨c, cs⟩⟩⟩
      · exact .pure .void
      · exact .pure .void
      · exact evalBinaryOperatorExpr_agrees op (below left (by simp)) (below right (by simp))
      · exact .pure .void
    | callOperatorExpr =>
      cases cs with
      | nil => exact .pure .void
      | cons callee args =>
        exact (below callee List.mem_cons_self).bind fun _ _ hcallee =>
          (evalArguments_agrees fun c hc => below c (List.mem_cons_of_mem _ hc)).bind
            fun _ _ hargs => evalCall_agrees hcallee hargs
    | _ => exact .pure .void

/-! ## Statements -/

theorem evalIf_agrees (hchoose : rt.choose = rt'.choose) {condition condition' : Exec Value}
    (h : Exec.Agrees (Value.Agrees rt rt') condition condition')
    {trueBranch trueBranch' falseBranch falseBranch' : Exec Flow}
    (htrue : Exec.Agrees (· = ·) trueBranch trueBranch')
    (hfalse : Exec.Agrees (· = ·) falseBranch falseBranch') :
    Exec.Agrees (· = ·) (evalIf rt condition trueBranch falseBranch)
      (evalIf rt' condition' trueBranch' falseBranch') := by
  refine h.bind fun v v' hv => ?_
  rw [hv.isNotNull]
  refine (Exec.Agrees.branch hchoose _).bind fun outcome outcome' houtcome => ?_
  subst houtcome
  cases outcome with
  | true => exact htrue
  | false => exact hfalse

theorem andThen_agrees {first first' second second' : Exec Flow}
    (h : Exec.Agrees (· = ·) first first') (h' : Exec.Agrees (· = ·) second second') :
    Exec.Agrees (· = ·) (andThen first second) (andThen first' second') := by
  refine h.bind fun flow flow' hflow => ?_
  subst hflow
  cases flow with
  | next => exact h'
  | returned => exact .pure rfl

theorem execStmts_agrees {cs : List AST}
    (h : ∀ c ∈ cs, Exec.Agrees (· = ·) (execStmt ctx rt c) (execStmt ctx' rt' c)) :
    Exec.Agrees (· = ·) (execStmts ctx rt cs) (execStmts ctx' rt' cs) := by
  induction cs with
  | nil => exact .pure rfl
  | cons c cs ih =>
    exact andThen_agrees (h c List.mem_cons_self) (ih fun d hd => h d (List.mem_cons_of_mem _ hd))

/-- The events that write nothing may differ. -/
theorem emit_agrees {event event' : Event} (h : event.writtenData = event'.writtenData) :
    Exec.Agrees (· = ·) (Exec.emit event) (Exec.emit event') :=
  fun _ => ⟨rfl, rfl, congrArg (· ++ []) h⟩

theorem execStmt_agrees (a : AST) (h : IRContext.AgreesOn a ctx rt ctx' rt') :
    Exec.Agrees (· = ·) (execStmt ctx rt a) (execStmt ctx' rt' a) := by
  induction a using Rose.ind with
  | h n cs ih =>
    have below (c : AST) (hc : c ∈ cs) := ih c hc (h.child hc)
    have expr (c : AST) (hc : c ∈ cs) := evalExpr_agrees c (h.child hc)
    obtain ⟨⟨id, data⟩, decl, exportedDecls⟩ := n
    cases data with
    | compoundStmt | unscopedCompoundStmt => exact execStmts_agrees below
    | returnStmt =>
      rcases cs with _ | ⟨c, _ | ⟨d, cs⟩⟩
      · exact (emit_agrees rfl).bind fun _ _ _ => .pure rfl
      · exact (expr c List.mem_cons_self).bind fun _ _ hv => (loadMemory_agrees hv).bind
          fun _ _ _ => (emit_agrees rfl).bind fun _ _ _ => .pure rfl
      · exact .pure rfl
    | expressionStmt =>
      rcases cs with _ | ⟨c, _ | ⟨d, cs⟩⟩
      · exact .pure rfl
      · exact (expr c List.mem_cons_self).bind fun _ _ _ =>
          (emit_agrees rfl).bind fun _ _ _ => .pure rfl
      · exact .pure rfl
    | declStmt name =>
      rcases cs with _ | ⟨c, _ | ⟨d, cs⟩⟩
      · exact .pure rfl
      · exact (expr c List.mem_cons_self).bind fun _ _ hv => (emit_agrees rfl).bind fun _ _ _ =>
          (loadMemory_agrees hv).bind fun _ _ hloaded =>
            (store_agrees hloaded (.address id)).bind fun _ _ _ => .pure rfl
      · exact .pure rfl
    | ifStmt =>
      rcases cs with _ | ⟨c, _ | ⟨d, _ | ⟨e, _ | ⟨f, cs⟩⟩⟩⟩
      · exact .pure rfl
      · exact .pure rfl
      · exact evalIf_agrees h.choose (expr c (by simp)) (below d (by simp)) (.pure rfl)
      · exact evalIf_agrees h.choose (expr c (by simp)) (below d (by simp)) (below e (by simp))
      · exact .pure rfl
    | _ => exact .pure rfl

/-! ## Meta functions -/

theorem execMetas_agrees {level : DepthLevel} {cs : List AST}
    (h : ∀ c ∈ cs, Exec.Agrees (· = ·) (execMeta ctx rt level c) (execMeta ctx' rt' level c)) :
    Exec.Agrees (· = ·) (execMetas ctx rt level cs) (execMetas ctx' rt' level cs) := by
  induction cs with
  | nil => exact .pure rfl
  | cons c cs ih =>
    exact andThen_agrees (h c List.mem_cons_self) (ih fun d hd => h d (List.mem_cons_of_mem _ hd))

theorem execMeta_agrees (a : AST) (h : IRContext.AgreesOn a ctx rt ctx' rt') (level : DepthLevel) :
    Exec.Agrees (· = ·) (execMeta ctx rt level a) (execMeta ctx' rt' level a) := by
  induction a using Rose.ind generalizing level with
  | h n cs ih =>
    have below (c : AST) (hc : c ∈ cs) := ih c hc (h.child hc)
    have contributed (level : DepthLevel) : Exec.Agrees (· = ·)
        (execContributed n.node (execMetas ctx rt level cs))
        (execContributed n.node (execMetas ctx' rt' level cs)) :=
      (emit_agrees rfl).bind fun _ _ _ => andThen_agrees
        (execMetas_agrees fun c hc => below c hc level) (.refl (fun _ => rfl) _)
    obtain ⟨⟨id, data⟩, decl, exportedDecls⟩ := n
    cases data with
    | metaDecl name | metaUnit inst => exact .pure rfl
    | metaContribution => exact execMetas_agrees fun c hc => below c hc level
    | metaIfStmt =>
      rcases cs with _ | ⟨c, _ | ⟨d, _ | ⟨e, _ | ⟨f, cs⟩⟩⟩⟩
      · exact .pure rfl
      · exact .pure rfl
      · exact evalIf_agrees h.choose (evalExpr_agrees c (h.child (by simp)))
          (below d (by simp) level) (.pure rfl)
      · exact evalIf_agrees h.choose (evalExpr_agrees c (h.child (by simp)))
          (below d (by simp) level) (below e (by simp) level)
      · exact .pure rfl
    | metaCalculationStmt =>
      rcases cs with _ | ⟨c, _ | ⟨d, cs⟩⟩
      · exact .pure rfl
      · exact andThen_agrees (execStmt_agrees c (h.child (by simp))) (.refl (fun _ => rfl) _)
      · exact .pure rfl
    | _ => exact contributed _

/-- A meta function writes the same nodes. -/
theorem execMetaFunction_agrees {n : ASTNode} {args contribution : AST}
    (h : IRContext.AgreesOn (.node n [args, contribution]) ctx rt ctx' rt')
    (arguments : List Word) :
    (execMetaFunction ctx rt arguments args contribution rt.memory).events.flatMap
        Event.writtenData =
      (execMetaFunction ctx' rt' arguments args contribution rt'.memory).events.flatMap
        Event.writtenData := by
  have hcontribution := execMeta_agrees contribution (h.child (by simp)) .topLevel
  have hagrees : Exec.Agrees (· = ·) (execMetaFunction ctx rt arguments args contribution)
      (execMetaFunction ctx' rt' arguments args contribution) := by
    refine (Exec.Agrees.refl (fun _ => rfl) _).bind fun _ _ _ => ?_
    refine (Exec.Agrees.refl (fun _ => rfl) _).bind fun _ _ _ => ?_
    exact andThen_agrees hcontribution (.refl (fun _ => rfl) _)
  rw [Runtime.memory, Runtime.memory, h.uninitialized]
  exact (hagrees _).2.2

end Interpreter

end Swy
