import Swy.Codegen.FunctionCodegen

/-!
# A structural interpreter

What the statements and expressions of an AST do, by recursion on the AST and without any code: the
reference the generated code is compared with. As in the generated code a reference evaluates to the
address of its variable, which is read where an integer is needed, an assignment evaluates to its
right operand, and a condition that is an address is not null.
-/

namespace Swy

/-- Whether the control flow goes on behind a statement. -/
inductive Flow where
  | next | returned
deriving DecidableEq, Repr

namespace Interpreter

variable (ctx : IRContext) (rt : Runtime)

/-! ## Expressions -/

/-- Reads the variable at an address. -/
def loadMemory : Value → Exec Value
  | .address decl => do return .int (← Exec.load decl)
  | value => return value

/-- Writes the variable at an address. -/
def store (value : Value) : Value → Exec Unit
  | .address decl => Exec.store decl value.word
  | _ => return ()

/-- The value of a reference. -/
def evalDeclRefExpr (n : ASTNode) : Exec Value :=
  match n.decl with
  | none => return .void
  | some decl =>
    match decl.kind with
    | .functionDecl =>
      match ctx.lookupGlobal decl.id with
      | some type => return .function decl.id type
      | none => return .void
    | .namedArgumentDecl | .declStmt => do
      Exec.emit (.reference n.node.id decl.id)
      return .address decl.id
    | .globalConstantDecl =>
      match ctx.constant decl.id with
      | some value => return .int value
      | none => return .void
    | _ => return .void

/-- The value of an instantiation. -/
def evalMetaInstantiationExpr (inst : NodeId) : Exec Value :=
  match ctx.lookupInstantiation inst with
  | some (function, type) => return .function function type
  | none => return .void

/-- The value of a binary operator. -/
def evalBinaryOperatorExpr (op : ExprBinaryOperator) (left right : Exec Value) : Exec Value := do
  let left ← left
  let right ← right
  if op = .assign then
    store (← loadMemory right) left
    return right
  else
    let leftLoaded ← loadMemory left
    let rightLoaded ← loadMemory right
    return .int (op.evaluate leftLoaded.word rightLoaded.word)

/-- What a call evaluates to. -/
def evalCall (callee : Value) (arguments : List Value) : Exec Value :=
  match callee with
  | .function decl type => do
    let result ← Exec.call rt decl (arguments.map Value.word)
    return if type.returnsVoid then .void else .int result
  | _ => return .void

mutual
/-- The value of an expression. -/
def evalExpr : AST → Exec Value
  | .node n cs =>
    match n.node.data, cs with
    | .declRefExpr _, _ => evalDeclRefExpr ctx n
    | .metaInstantiationExpr, _ => evalMetaInstantiationExpr ctx n.node.id
    | .integerLiteralExpr literal, _ => return .int literal
    | .booleanLiteralExpr literal, _ => return .int (if literal then 1 else 0)
    | .binaryOperatorExpr op, [left, right] =>
      evalBinaryOperatorExpr op (evalExpr left) (evalExpr right)
    | .callOperatorExpr, callee :: args => do
      let callee ← evalExpr callee
      let args ← evalArguments args
      evalCall rt callee args
    | _, _ => return .void
/-- The values of the arguments of a call. -/
def evalArguments : List AST → Exec (List Value)
  | [] => return []
  | c :: cs => do
    let value ← evalExpr c
    let arg ← loadMemory value
    let args ← evalArguments cs
    return arg :: args
end

/-! ## Statements -/

/-- Takes the branch of a condition. -/
def evalIf (condition : Exec Value) (trueBranch falseBranch : Exec Flow) : Exec Flow := do
  let condition ← condition
  if ← Exec.branch rt condition.isNotNull then trueBranch else falseBranch

/-- The second statement is executed if the control flow goes on behind the first. -/
def andThen (first second : Exec Flow) : Exec Flow := do
  match ← first with
  | .next => second
  | .returned => return .returned

mutual
/-- What a statement does. -/
def execStmt : AST → Exec Flow
  | .node n cs =>
    match n.node.data, cs with
    | .compoundStmt, cs | .unscopedCompoundStmt, cs => execStmts cs
    | .returnStmt, [] => do
      Exec.emit (.ret none)
      return .returned
    | .returnStmt, [expr] => do
      let value ← evalExpr ctx rt expr
      Exec.emit (.ret (some (← loadMemory value)))
      return .returned
    | .expressionStmt, [expr] => do
      let _ ← evalExpr ctx rt expr
      Exec.emit (.statement n.node.id)
      return .next
    | .declStmt _, [expr] => do
      let value ← evalExpr ctx rt expr
      Exec.emit (.alloca n.node.id)
      store (← loadMemory value) (.address n.node.id)
      return .next
    | .ifStmt, [condition, trueBranch] =>
      evalIf rt (evalExpr ctx rt condition) (execStmt trueBranch) (return .next)
    | .ifStmt, [condition, trueBranch, falseBranch] =>
      evalIf rt (evalExpr ctx rt condition) (execStmt trueBranch) (execStmt falseBranch)
    | _, _ => return .next
/-- What the statements of a compound do. -/
def execStmts : List AST → Exec Flow
  | [] => return .next
  | c :: cs => andThen (execStmt c) (execStmts cs)
end

/-- Binds the parameters from the given index on. -/
def bindArguments (arguments : List Word) : Nat → List AST → Exec Unit
  | _, [] => return ()
  | index, .node n _ :: args => do
    if n.node.kind = .namedArgumentDecl then
      Exec.emit (.alloca n.node.id)
      Exec.store n.node.id (arguments.getD index 0)
    bindArguments arguments (index + 1) args

/-- What a function does: at the end of its body it returns. -/
def execBody (arguments : List Word) (args body : AST) : Exec Flow := do
  bindArguments arguments 0 args.children
  andThen (execStmt ctx rt body) do
    Exec.emit (.ret none)
    return .returned

end Interpreter

end Swy
