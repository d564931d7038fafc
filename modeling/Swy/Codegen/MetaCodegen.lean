import Swy.Codegen.FunctionCodegen

/-!
# The meta codegen

`MetaCodegen`: the meta function of a meta decl, which writes the layout of an instantiation, and
the jump pad that calls it with the arguments of one instantiation. It shares the function, the
builder and the known values with a function codegen. The calls of the three callbacks are
operations of their own.
-/

namespace Swy

namespace MetaCodegen

/-- `createContributeNode`. -/
def createContributeNode (node : Node) : CodegenM Unit := FunctionCodegen.emit (.contribute node)

/-- `createReduceNode`. -/
def createReduceNode : CodegenM Unit := FunctionCodegen.emit .reduce

/-- `createIntroduceNode`: of a declaration with a name, at the depth of the cursor. -/
def createIntroduceNode (decl : Node) (value : Operand) : CodegenM Unit := fun s =>
  match decl.name?, value with
  | some _, .alloca storage => FunctionCodegen.emit (.introduce decl storage s.cursor.depth) s
  | _, _ => .error .castFailed

/-- Introduces declarations with the values of their variables. -/
def introduceDecls : List Node → CodegenM Unit
  | [] => return ()
  | decl :: decls => do
    createIntroduceNode decl (← FunctionCodegen.lookupLocal decl.id)
    introduceDecls decls

/-- `ASTCursor::descend` of the cursor. -/
def descend (kind : ASTKind) : CodegenM Unit := fun s =>
  match s.cursor.descend kind with
  | some cursor => .ok ((), { s with cursor })
  | none => .error .unbalancedTransition

/-- `ASTCursor::ascend` of the cursor. -/
def ascend (kind : ASTKind) : CodegenM Unit := fun s =>
  match s.cursor.ascend kind with
  | some cursor => .ok ((), { s with cursor })
  | none => .error .unbalancedTransition

/-- `codegenMeta` of a calculation: its statement has to be left. -/
def codegenMetaCalculation (exportedDecls : List Node) (block : BlockId)
    (codegenStmt : BlockId → CodegenM (Option BlockId)) : CodegenM (Option BlockId) := do
  let created ← FunctionCodegen.createRegionAfter block
  match ← codegenStmt created with
  | some current => do
    introduceDecls exportedDecls
    return some current
  | none => throw .controlFlowTerminated

/-- `codegenMeta` of a node that is contributed. -/
def codegenContributed (node : Node) (block : BlockId)
    (codegenChildren : BlockId → CodegenM (Option BlockId)) : CodegenM (Option BlockId) := do
  descend node.kind
  createContributeNode node
  let current ← codegenChildren block
  if node.isNodeRequiringReduceMarker then createReduceNode
  ascend node.kind
  return current

section

variable (ctx : IRContext)

mutual
/-- `codegenMeta`: the block that continues. -/
def codegenMeta (block : BlockId) : AST → CodegenM (Option BlockId)
  | .node n cs =>
    match n.node.data, cs with
    | .metaDecl _, _ => throw .unexpectedMetaDecl
    | .metaContribution, cs => codegenChildrenContribution (some block) cs
    | .metaIfStmt, [condition, trueBranch] =>
      FunctionCodegen.codegenIfStructure ctx block condition
        (fun current => codegenMeta current trueBranch) none
    | .metaIfStmt, [condition, trueBranch, falseBranch] =>
      FunctionCodegen.codegenIfStructure ctx block condition
        (fun current => codegenMeta current trueBranch)
        (some fun current => codegenMeta current falseBranch)
    | .metaCalculationStmt, [stmt] =>
      codegenMetaCalculation n.exportedDecls block
        fun created => FunctionCodegen.codegenStmt ctx created stmt
    | .metaIfStmt, _ | .metaCalculationStmt, _ => throw .castFailed
    | .metaUnit _, _ => throw .intermediateNode
    | _, cs =>
      codegenContributed n.node block fun block => codegenChildrenContribution (some block) cs
/-- `codegenChildrenContribution`. -/
def codegenChildrenContribution (current : Option BlockId) : List AST → CodegenM (Option BlockId)
  | [] => return current
  | c :: cs => do
    let block ← FunctionCodegen.dereference current
    codegenChildrenContribution (← codegenMeta block c) cs
end

/-- The arguments with a name. -/
def namedArguments (args : AST) : List Node :=
  (args.children.map fun arg => arg.label.node).filter fun node => node.kind = .namedArgumentDecl

/-- The code of a meta function behind its entry. -/
def codegenMetaFunction (args contribution : AST) : CodegenM Unit :=
  FunctionCodegen.withValueScope do
    let block ← FunctionCodegen.setUpStackFrame args
    introduceDecls (namedArguments args)
    match ← codegenMeta ctx block contribution with
    | some _ => FunctionCodegen.terminate .retVoid
    | none => throw .controlFlowTerminated

/-- `codegen`. -/
def codegen : AST → CodegenM Unit
  | .node _ [args, contribution] => codegenMetaFunction ctx args contribution
  | _ => throw .castFailed

/-- The operands of the arguments of an instantiation. -/
def codegenJumpPadArguments : List AST → CodegenM (List Operand)
  | [] => return []
  | c :: cs => do
    let arg ← FunctionCodegen.codegenExpr ctx c
    let args ← codegenJumpPadArguments cs
    return arg :: args

/-- `CreateCall` of the meta function, which has as many integer parameters as the meta decl. -/
def createMetaCall (params : Nat) (arguments : List Operand) : CodegenM Unit :=
  if params = arguments.length ∧ arguments.all Operand.isInteger then
    FunctionCodegen.emit (.callMeta arguments)
  else throw .badSignature

/-- `codegenJumpPad`: calls the meta function with the arguments of the instantiation. -/
def codegenJumpPad (params : Nat) (args : List AST) : CodegenM Unit :=
  FunctionCodegen.withValueScope do
    let _ ← FunctionCodegen.createEntryBlock
    let arguments ← codegenJumpPadArguments ctx args
    createMetaCall params arguments
    FunctionCodegen.terminate .retVoid

end

end MetaCodegen

/-- The cursor a meta codegen starts with. -/
def ASTCursor.insideMetaDecl : ASTCursor := ⟨.topLevel, .insideMetaDecl⟩

end Swy
