import Swy.Codegen.Interpreter

/-!
# What expressions and statements can do

The effects of expressions are put together from references, loads, stores and calls, those of
statements in addition from declarations, conditional branches, returns and the marks of expression
statements. A property of effects that these have and that is kept in sequence holds for all
expressions (`IsExprEffect.evalExpr`) and all statements (`IsStmtEffect.execStmt`).
-/

namespace Swy

open Library

/-- The property is kept in sequence, and the effects that expressions are made of have it. -/
structure IsExprEffect (P : {α : Type} → Exec α → Prop) : Prop where
  pure {α : Type} (a : α) : P (Pure.pure a : Exec α)
  bind {α β : Type} {e : Exec α} {f : α → Exec β} (h : P e) (h' : ∀ a, P (f a)) : P (e >>= f)
  reference (ref decl : NodeId) : P (Exec.emit (.reference ref decl))
  load (decl : NodeId) : P (Exec.load decl)
  store (decl : NodeId) (value : Word) : P (Exec.store decl value)
  call (rt : Runtime) (callee : NodeId) (arguments : List Word) : P (Exec.call rt callee arguments)

/-- The effects that statements are made of have the property as well. -/
structure IsStmtEffect (P : {α : Type} → Exec α → Prop) : Prop extends IsExprEffect P where
  alloca (decl : NodeId) : P (Exec.emit (.alloca decl))
  statement (stmt : NodeId) : P (Exec.emit (.statement stmt))
  ret (value : Option Value) : P (Exec.emit (.ret value))
  branch (rt : Runtime) (condition : Word) : P (Exec.branch rt condition)

namespace IsExprEffect

variable {P : {α : Type} → Exec α → Prop} (h : IsExprEffect P) (ctx : IRContext) (rt : Runtime)
include h

theorem loadMemory (v : Value) : P (Interpreter.loadMemory v) := by
  cases v with
  | address decl => exact h.bind (h.load decl) fun _ => h.pure _
  | int | function | void => exact h.pure _

theorem interpreterStore (v p : Value) : P (Interpreter.store v p) := by
  cases p with
  | address decl => exact h.store decl _
  | int | function | void => exact h.pure _

theorem evalCall (v : Value) (vs : List Value) : P (Interpreter.evalCall rt v vs) := by
  cases v with
  | function decl type => exact h.bind (h.call rt decl _) fun _ => h.pure _
  | int | address | void => exact h.pure _

theorem evalDeclRefExpr (n : ASTNode) : P (Interpreter.evalDeclRefExpr ctx n) := by
  unfold Interpreter.evalDeclRefExpr
  split
  · exact h.pure _
  · split
    · split <;> exact h.pure _
    · exact h.bind (h.reference _ _) fun _ => h.pure _
    · exact h.bind (h.reference _ _) fun _ => h.pure _
    · split <;> exact h.pure _
    · exact h.pure _

theorem evalMetaInstantiationExpr (inst : NodeId) :
    P (Interpreter.evalMetaInstantiationExpr ctx inst) := by
  unfold Interpreter.evalMetaInstantiationExpr
  split <;> exact h.pure _

theorem evalBinaryOperatorExpr {op : ExprBinaryOperator} {l r : Exec Value} (hl : P l)
    (hr : P r) : P (Interpreter.evalBinaryOperatorExpr op l r) := by
  unfold Interpreter.evalBinaryOperatorExpr
  refine h.bind hl fun v => h.bind hr fun w => ?_
  split
  · exact h.bind (h.loadMemory w) fun _ => h.bind (h.interpreterStore _ _) fun _ => h.pure _
  · exact h.bind (h.loadMemory v) fun _ => h.bind (h.loadMemory w) fun _ => h.pure _

theorem evalArguments {cs : List AST} (hcs : ∀ c ∈ cs, P (Interpreter.evalExpr ctx rt c)) :
    P (Interpreter.evalArguments ctx rt cs) := by
  induction cs with
  | nil => exact h.pure _
  | cons c cs ih =>
    exact h.bind (hcs c List.mem_cons_self) fun v => h.bind (h.loadMemory v) fun _ =>
      h.bind (ih fun x hx => hcs x (List.mem_cons_of_mem _ hx)) fun _ => h.pure _

/-- Expressions have the property. -/
theorem evalExpr (a : AST) : P (Interpreter.evalExpr ctx rt a) := by
  induction a using Rose.ind with
  | h n cs ih =>
    obtain ⟨⟨id, data⟩, decl, exportedDecls⟩ := n
    cases data with
    | declRefExpr name => exact h.evalDeclRefExpr ctx _
    | metaInstantiationExpr => exact h.evalMetaInstantiationExpr ctx id
    | binaryOperatorExpr op =>
      rcases cs with _ | ⟨left, _ | ⟨right, _ | ⟨c, cs⟩⟩⟩
      case cons.cons.nil =>
        exact h.evalBinaryOperatorExpr (ih left (by simp)) (ih right (by simp))
      all_goals exact h.pure _
    | callOperatorExpr =>
      cases cs with
      | nil => exact h.pure _
      | cons callee args =>
        exact h.bind (ih callee List.mem_cons_self) fun v =>
          h.bind (h.evalArguments ctx rt fun c hc => ih c (List.mem_cons_of_mem _ hc))
            fun vs => h.evalCall rt v vs
    | _ => exact h.pure _

end IsExprEffect

namespace IsStmtEffect

variable {P : {α : Type} → Exec α → Prop} (h : IsStmtEffect P) (ctx : IRContext) (rt : Runtime)
include h

theorem andThen {e f : Exec Flow} (he : P e) (hf : P f) : P (Interpreter.andThen e f) := by
  unfold Interpreter.andThen
  refine h.bind he fun flow => ?_
  cases flow with
  | next => exact hf
  | returned => exact h.pure _

theorem evalIf {x : Exec Value} {e f : Exec Flow} (hx : P x) (he : P e) (hf : P f) :
    P (Interpreter.evalIf rt x e f) := by
  unfold Interpreter.evalIf
  refine h.bind hx fun v => h.bind (h.branch rt _) fun outcome => ?_
  cases outcome with
  | true => exact he
  | false => exact hf

theorem execStmts {cs : List AST} (hcs : ∀ c ∈ cs, P (Interpreter.execStmt ctx rt c)) :
    P (Interpreter.execStmts ctx rt cs) := by
  induction cs with
  | nil => exact h.pure _
  | cons c cs ih =>
    exact h.andThen (hcs c List.mem_cons_self) (ih fun x hx => hcs x (List.mem_cons_of_mem _ hx))

/-- Statements have the property. -/
theorem execStmt (a : AST) : P (Interpreter.execStmt ctx rt a) := by
  have heval := h.evalExpr ctx rt
  induction a using Rose.ind with
  | h n cs ih =>
    obtain ⟨⟨id, data⟩, decl, exportedDecls⟩ := n
    cases data with
    | compoundStmt => exact h.execStmts ctx rt ih
    | unscopedCompoundStmt => exact h.execStmts ctx rt ih
    | returnStmt =>
      rcases cs with _ | ⟨expr, _ | ⟨c, cs⟩⟩
      · exact h.bind (h.ret _) fun _ => h.pure _
      · exact h.bind (heval expr) fun v => h.bind (h.loadMemory v) fun _ =>
          h.bind (h.ret _) fun _ => h.pure _
      · exact h.pure _
    | expressionStmt =>
      rcases cs with _ | ⟨expr, _ | ⟨c, cs⟩⟩
      · exact h.pure _
      · exact h.bind (heval expr) fun _ => h.bind (h.statement _) fun _ => h.pure _
      · exact h.pure _
    | declStmt name =>
      rcases cs with _ | ⟨expr, _ | ⟨c, cs⟩⟩
      · exact h.pure _
      · exact h.bind (heval expr) fun v => h.bind (h.alloca _) fun _ =>
          h.bind (h.loadMemory v) fun w => h.bind (h.interpreterStore w _) fun _ => h.pure _
      · exact h.pure _
    | ifStmt =>
      rcases cs with _ | ⟨condition, _ | ⟨trueBranch, _ | ⟨falseBranch, _ | ⟨c, cs⟩⟩⟩⟩
      · exact h.pure _
      · exact h.pure _
      · exact h.evalIf rt (heval condition) (ih trueBranch (by simp)) (h.pure _)
      · exact h.evalIf rt (heval condition) (ih trueBranch (by simp)) (ih falseBranch (by simp))
      · exact h.pure _
    | _ => exact h.pure _

theorem bindArguments (arguments : List Word) (args : List AST) (index : Nat) :
    P (Interpreter.bindArguments arguments index args) := by
  induction args generalizing index with
  | nil => exact h.pure _
  | cons arg args ih =>
    obtain ⟨n, cs⟩ := arg
    unfold Interpreter.bindArguments
    split
    · exact h.bind (h.alloca _) fun _ => h.bind (h.store _ _) fun _ => ih _
    · exact ih _

end IsStmtEffect

end Swy
