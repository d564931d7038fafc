import Swy.Codegen.IR
import Swy.Parse.ASTLayout

/-!
# The function codegen

`FunctionCodegen`: the code of expressions, statements and function bodies. The state holds the
blocks of the function, the insert point of the builder and the scoped map of known values. Since
the value of a declaration is always the address of its own storage, the map only says which
declarations are known. The cursor is the one of the meta codegen, which works on the same function
and the same builder.

A failed assertion, `llvm_unreachable`, the dereference of an absent block and an operand the
builder refuses stop the code generation.
-/

namespace Swy

open Library

/-- What stops the code generation. -/
inductive CodegenFault where
  | nullDereference
  | castFailed
  | storeToNonPointer
  | loadOfFunction
  | nonIntegerOperand
  | callOfNonFunction
  | badSignature
  | valueMissing
  | unresolvedDeclRef
  | unhandledDecl
  | instantiationIncomplete
  | erroneousExpr
  | metaStmtInRuntimeCode
  | unexpectedMetaDecl
  | intermediateNode
  | unbalancedTransition
  | controlFlowTerminated
deriving DecidableEq, Repr

/-- The function that is generated and the state of its generators. -/
structure CodegenState where
  blocks : Blocks Instruction
  /-- The block the builder appends to. -/
  insertPoint : BlockId
  nextRegister : Register
  /-- `values_`: the declarations with a value, one list for each open scope. -/
  values : List (List NodeId)
  cursor : ASTCursor

/-- Nothing was generated yet. -/
def CodegenState.initial (cursor : ASTCursor) : CodegenState where
  blocks := []
  insertPoint := 0
  nextRegister := 0
  values := []
  cursor := cursor

/-- Generating code: stops at the first fault. -/
abbrev CodegenM := StateT CodegenState (Except CodegenFault)

/-! ## The context -/

/-- What the code generation looks up outside of the function. -/
structure IRContext where
  /-- `NamedDeclContext::getDeclaringNode`: the AST of a declaration. -/
  declaringNode : NodeId → Option AST
  /-- `MetaUnitASTNode::getExportedNode` of the unit of a completed instantiation. -/
  exportedNode : NodeId → Option NodeId

/-- `getFunctionTypeOf`. -/
def getFunctionTypeOf : AST → Option FunctionType
  | .node n (args :: returnTypeAndBody) =>
    match n.node.data with
    | .functionDecl _ => some ⟨args.children.length, returnTypeAndBody.length < 2⟩
    | _ => none
  | _ => none

/-- The value of a literal. -/
def NodeData.literal? : NodeData → Option Word
  | integerLiteralExpr literal => some literal
  | booleanLiteralExpr literal => some (if literal then 1 else 0)
  | _ => none

namespace IRContext

variable (ctx : IRContext)

/-- `lookupGlobal`: the type of the prototype of a function. -/
def lookupGlobal (function : NodeId) : Option FunctionType :=
  (ctx.declaringNode function).bind getFunctionTypeOf

/-- `lookupGlobal` of an instantiation that has to be completed: the function it exports. -/
def lookupInstantiation (inst : NodeId) : Option (NodeId × FunctionType) := do
  let function ← ctx.exportedNode inst
  let type ← ctx.lookupGlobal function
  return (function, type)

/-- The expression of a global constant, which is a literal. -/
def constant (decl : NodeId) : Option Word :=
  match ctx.declaringNode decl with
  | some (.node n [expr]) =>
    match n.node.data with
    | .globalConstantDecl _ => expr.label.node.data.literal?
    | _ => none
  | _ => none

end IRContext

namespace FunctionCodegen

variable {α : Type}

/-! ## The builder -/

/-- `createBlock` and `createBlockBefore`. -/
def createBlock : CodegenM BlockId := fun s =>
  .ok (s.blocks.length, { s with blocks := s.blocks.create })

/-- `IRBuilder::SetInsertPoint`. -/
def setInsertPoint (block : BlockId) : CodegenM Unit := fun s =>
  .ok ((), { s with insertPoint := block })

/-- `IRBuilder::Insert`. -/
def insert (i : Instruction) : CodegenM Unit := fun s =>
  .ok ((), { s with blocks := s.blocks.append s.insertPoint i })

/-- Inserts an instruction without a result. -/
def emit (o : Operation) : CodegenM Unit := insert (.operation o)

/-- Inserts an instruction with a result. -/
def emitValue (o : Register → Operation) : CodegenM Operand := fun s =>
  .ok (.register s.nextRegister,
    { s with
      blocks := s.blocks.append s.insertPoint (.operation (o s.nextRegister))
      nextRegister := s.nextRegister + 1 })

/-- Inserts a terminator. -/
def terminate (t : Terminator) : CodegenM Unit := insert (.terminator t)

/-- `CreateStore`: the pointer is the address of an integer. -/
def createStore (value pointer : Operand) : CodegenM Unit :=
  match pointer with
  | .alloca decl => if value.isInteger then emit (.store value decl) else throw .nonIntegerOperand
  | _ => throw .storeToNonPointer

/-- `CreateMul`, `CreateSDiv`, `CreateAdd` and `CreateSub`. -/
def createBinary (op : ExprBinaryOperator) (left right : Operand) : CodegenM Operand :=
  if left.isInteger && right.isInteger then emitValue (.binary · op left right)
  else throw .nonIntegerOperand

/-- `CreateICmp##OP`. -/
def createICmp (op : ExprBinaryOperator) (left right : Operand) : CodegenM Operand :=
  if left.isInteger && right.isInteger then emitValue (.icmp · op left right)
  else throw .nonIntegerOperand

/-- `CreateIsNotNull`. -/
def createIsNotNull (value : Operand) : CodegenM Operand :=
  match value with
  | .void => throw .nonIntegerOperand
  | _ => emitValue (.isNotNull · value)

/-- `CreateCall`: the arguments have to match the type of the callee. -/
def createCall (callee : Operand) (arguments : List Operand) : CodegenM Operand :=
  match callee with
  | .function decl type =>
    if type.params = arguments.length ∧ arguments.all Operand.isInteger then do
      let result ← emitValue (.call · decl arguments)
      return if type.returnsVoid then .void else result
    else throw .badSignature
  | _ => throw .callOfNonFunction

/-! ## The known values -/

/-- `ValueMap::ScopeTy`: the scope is left at the end of the body. -/
def withValueScope (body : CodegenM α) : CodegenM α := do
  modify fun s => { s with values := [] :: s.values }
  let result ← body
  modify fun s => { s with values := s.values.tail }
  return result

/-- `introduce`: the declaration is known in the current scope. -/
def introduce (decl : NodeId) : CodegenM Unit :=
  modify fun s => { s with values := s.values.modifyHead (decl :: ·) }

/-- `lookupLocal`: asserts that the value is present. -/
def lookupLocal (decl : NodeId) : CodegenM Operand := do
  if (← get).values.any (·.contains decl) then return .alloca decl
  throw .valueMissing

/-- `createEntryBlock`. -/
def createEntryBlock : CodegenM BlockId := do
  let block ← createBlock
  setInsertPoint block
  return block

/-- `createRegionAfter`: the created block is jumped to. -/
def createRegionAfter (_block : BlockId) : CodegenM BlockId := do
  let created ← createBlock
  terminate (.br created)
  setInsertPoint created
  return created

/-- Stores the arguments of a function from the given index on. -/
def storeArguments : Nat → List AST → CodegenM Unit
  | _, [] => return ()
  | index, .node n _ :: args => do
    if n.node.kind = .namedArgumentDecl then
      emit (.alloca n.node.id)
      emit (.store (.argument index) n.node.id)
      introduce n.node.id
    storeArguments (index + 1) args

/-- `setUpStackFrame`. The context argument of a meta function is no argument here. -/
def setUpStackFrame (args : AST) : CodegenM BlockId := do
  let block ← createEntryBlock
  storeArguments 0 args.children
  return block

/-! ## Expressions -/

/-- `loadMemory`. -/
def loadMemory (value : Operand) : CodegenM Operand :=
  match value with
  | .alloca decl => emitValue (.load · decl)
  | .function _ _ => throw .loadOfFunction
  | _ => return value

section Expressions

variable (ctx : IRContext)

/-- `codegenExpr` of a reference. -/
def codegenDeclRefExpr (n : ASTNode) : CodegenM Operand :=
  match n.decl with
  | none => throw .unresolvedDeclRef
  | some decl =>
    match decl.kind with
    | .functionDecl =>
      match ctx.lookupGlobal decl.id with
      | some type => return .function decl.id type
      | none => throw .castFailed
    | .namedArgumentDecl | .declStmt => do
      let value ← lookupLocal decl.id
      emit (.reference n.node.id decl.id)
      return value
    | .globalConstantDecl =>
      match ctx.constant decl.id with
      | some value => return .constant value
      | none => throw .castFailed
    | _ => throw .unhandledDecl

/-- `codegenExpr` of an instantiation. -/
def codegenMetaInstantiationExpr (inst : NodeId) : CodegenM Operand :=
  match ctx.lookupInstantiation inst with
  | some (function, type) => return .function function type
  | none => throw .instantiationIncomplete

/-- `codegenExpr` of a binary operator: the operands are loaded after both were generated. -/
def codegenBinaryOperatorExpr (op : ExprBinaryOperator) (left right : CodegenM Operand) :
    CodegenM Operand := do
  let left ← left
  let right ← right
  if op = .assign then
    createStore (← loadMemory right) left
    return right
  else
    let leftLoaded ← loadMemory left
    let rightLoaded ← loadMemory right
    if op.isArithmetic then
      createBinary op leftLoaded rightLoaded
    else
      let intermediate ← createICmp op leftLoaded rightLoaded
      emitValue (.zext · intermediate)

mutual
/-- `codegenExpr`. -/
def codegenExpr : AST → CodegenM Operand
  | .node n cs =>
    match n.node.data, cs with
    | .declRefExpr _, _ => codegenDeclRefExpr ctx n
    | .metaInstantiationExpr, _ => codegenMetaInstantiationExpr ctx n.node.id
    | .integerLiteralExpr literal, _ => return .constant literal
    | .booleanLiteralExpr literal, _ => return .constant (if literal then 1 else 0)
    | .erroneousExpr, _ => throw .erroneousExpr
    | .binaryOperatorExpr op, [left, right] =>
      codegenBinaryOperatorExpr op (codegenExpr left) (codegenExpr right)
    | .callOperatorExpr, callee :: args => do
      let callee ← codegenExpr callee
      let args ← codegenArguments args
      createCall callee args
    | _, _ => throw .castFailed
/-- The parameter values of a call. -/
def codegenArguments : List AST → CodegenM (List Operand)
  | [] => return []
  | c :: cs => do
    let value ← codegenExpr c
    let arg ← loadMemory value
    let args ← codegenArguments cs
    return arg :: args
end

end Expressions

/-! ## Statements -/

/-- The continue block of an if structure, created when it is needed. -/
def lazyGetContinueBlock : Option BlockId → CodegenM BlockId
  | some block => return block
  | none => createBlock

/-- The dereference of the current block. -/
def dereference : Option BlockId → CodegenM BlockId
  | some block => return block
  | none => throw .nullDereference

/-- A branch of an if structure: its block, and the continue block if one is needed. -/
def codegenBranch (continueBlock : Option BlockId)
    (codegen : BlockId → CodegenM (Option BlockId)) : CodegenM (BlockId × Option BlockId) := do
  let block ← createBlock
  setInsertPoint block
  match ← codegen block with
  | some _ =>
    let continueBlock ← lazyGetContinueBlock continueBlock
    terminate (.br continueBlock)
    return (block, some continueBlock)
  | none => return (block, continueBlock)

/-- The false branch: without one the condition jumps to the continue block. -/
def codegenFalseBranch (continueBlock : Option BlockId) :
    Option (BlockId → CodegenM (Option BlockId)) → CodegenM (BlockId × Option BlockId)
  | some codegen => codegenBranch continueBlock codegen
  | none => do
    let continueBlock ← lazyGetContinueBlock continueBlock
    return (continueBlock, some continueBlock)

/-- Goes on in the continue block, if there is one. -/
def continueAt : Option BlockId → CodegenM (Option BlockId)
  | some continueBlock => do
    setInsertPoint continueBlock
    return some continueBlock
  | none => return none

section Statements

variable (ctx : IRContext)

/-- `codegenIfStructure`: the branches are generated before the condition. -/
def codegenIfStructure (block : BlockId) (condition : AST)
    (codegenTrue : BlockId → CodegenM (Option BlockId))
    (codegenFalse : Option (BlockId → CodegenM (Option BlockId))) : CodegenM (Option BlockId) := do
  let (trueBlock, continueBlock) ← codegenBranch none codegenTrue
  let (falseBlock, continueBlock) ← codegenFalseBranch continueBlock codegenFalse
  setInsertPoint block
  let conditionResult ← codegenExpr ctx condition
  let predicate ← createIsNotNull conditionResult
  terminate (.condBr predicate trueBlock falseBlock)
  continueAt continueBlock

mutual
/-- `codegenStmt`: the block that continues, none if the control flow was terminated. -/
def codegenStmt (block : BlockId) : AST → CodegenM (Option BlockId)
  | .node n cs =>
    match n.node.data, cs with
    | .compoundStmt, cs => withValueScope (codegenStmts (some block) cs)
    | .unscopedCompoundStmt, cs => codegenStmts (some block) cs
    | .returnStmt, [] => do
      terminate .retVoid
      return none
    | .returnStmt, [expr] => do
      let value ← codegenExpr ctx expr
      terminate (.ret (← loadMemory value))
      return none
    | .expressionStmt, [expr] => do
      let _ ← codegenExpr ctx expr
      emit (.statement n.node.id)
      return some block
    | .declStmt _, [expr] => do
      let value ← codegenExpr ctx expr
      emit (.alloca n.node.id)
      createStore (← loadMemory value) (.alloca n.node.id)
      introduce n.node.id
      return some block
    | .ifStmt, [condition, trueBranch] =>
      codegenIfStructure ctx block condition (fun current => codegenStmt current trueBranch) none
    | .ifStmt, [condition, trueBranch, falseBranch] =>
      codegenIfStructure ctx block condition (fun current => codegenStmt current trueBranch)
        (some fun current => codegenStmt current falseBranch)
    | .metaIfStmt, _ | .metaCalculationStmt, _ => throw .metaStmtInRuntimeCode
    | _, _ => throw .castFailed
/-- The statements of a compound, one after the other. -/
def codegenStmts (current : Option BlockId) : List AST → CodegenM (Option BlockId)
  | [] => return current
  | c :: cs => do
    let block ← dereference current
    codegenStmts (← codegenStmt block c) cs
end

/-- Generates a body behind the arguments, and the return at its end if it is reached. -/
def codegenBody (args body : AST) : CodegenM Unit := withValueScope do
  let block ← setUpStackFrame args
  if (← codegenStmt ctx block body).isSome then terminate .retVoid

/-- `codegen`. -/
def codegen : AST → CodegenM Unit
  | .node _ [args, body] => codegenBody ctx args body
  | .node _ [args, _, body] => codegenBody ctx args body
  | _ => throw .castFailed

end Statements

end FunctionCodegen

end Swy
