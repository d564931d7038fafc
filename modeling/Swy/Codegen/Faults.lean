import Swy.Codegen.MetaCodegen
import Swy.Library.Rose

/-!
# Faults of the code generation

At which faults the code generation can stop. `StopsAt` is stated for any set of faults, with a rule
for everything the generators are made of: the builder and the known values stop nowhere, what works
on operands stops at the faults of operands. Which other faults a set has to admit depends on the
code that is generated.
-/

namespace Swy

open Library

/-- The faults of operands. That a declaration has no value is none of them. -/
def CodegenFault.isOperandFault : CodegenFault → Bool
  | castFailed | storeToNonPointer | loadOfFunction | nonIntegerOperand | callOfNonFunction
  | badSignature | valueMissing | unresolvedDeclRef | instantiationIncomplete
      | erroneousExpr => true
  | _ => false

/-- Where generating the code stops, in whatever state it starts, it stops at a fault of the set. -/
def StopsAt (S : CodegenFault → Prop) {α : Type} (c : CodegenM α) : Prop :=
  ∀ s fault, c s = .error fault → S fault

namespace StopsAt

variable {S : CodegenFault → Prop} {α β : Type} {c : CodegenM α}

section Rules

variable {f : α → CodegenM β}

theorem bind_of_ok (h : StopsAt S c) (h' : ∀ s a s', c s = .ok (a, s') → StopsAt S (f a)) :
    StopsAt S (c >>= f) := by
  intro s fault hs
  simp only [Bind.bind, StateT.bind] at hs
  cases hc : c s with
  | error fault' =>
    rw [hc] at hs
    obtain rfl : fault' = fault := Except.error.inj hs
    exact h s fault' hc
  | ok r =>
    rw [hc] at hs
    exact h' s r.1 r.2 hc r.2 fault hs

theorem bind (h : StopsAt S c) (h' : ∀ a, StopsAt S (f a)) : StopsAt S (c >>= f) :=
  h.bind_of_ok fun _ a _ _ => h' a

/-- What never fails. -/
theorem of_ok (h : ∀ s, ∃ r, c s = .ok r) : StopsAt S c := by
  intro s fault hs
  obtain ⟨r, hr⟩ := h s
  rw [hr] at hs
  cases hs

theorem pure {a : α} : StopsAt S (Pure.pure a : CodegenM α) := .of_ok fun _ => ⟨_, rfl⟩

theorem throw {fault : CodegenFault} (h : S fault) :
    StopsAt S (MonadExcept.throw fault : CodegenM α) := fun _ _ hs => Except.error.inj hs ▸ h

theorem ite {c' : CodegenM α} {p : Prop} [Decidable p] (h : StopsAt S c) (h' : StopsAt S c') :
    StopsAt S (if p then c else c') := by
  split
  · exact h
  · exact h'

end Rules

/-! ## The builder and the known values -/

open FunctionCodegen

theorem createBlock : StopsAt S createBlock := .of_ok fun _ => ⟨_, rfl⟩

theorem setInsertPoint {block : BlockId} : StopsAt S (setInsertPoint block) :=
  .of_ok fun _ => ⟨_, rfl⟩

theorem insert {i : Instruction} : StopsAt S (insert i) := .of_ok fun _ => ⟨_, rfl⟩

theorem emitValue {o : Register → Operation} : StopsAt S (emitValue o) := .of_ok fun _ => ⟨_, rfl⟩

theorem introduce {decl : NodeId} : StopsAt S (introduce decl) := .of_ok fun _ => ⟨_, rfl⟩

theorem withValueScope (h : StopsAt S c) : StopsAt S (withValueScope c) :=
  bind (.of_ok fun _ => ⟨_, rfl⟩) fun _ => h.bind fun _ =>
    bind (.of_ok fun _ => ⟨_, rfl⟩) fun _ => .pure

theorem dereference (h : S .nullDereference) {current : Option BlockId} :
    StopsAt S (dereference current) := by
  cases current with
  | none => exact .throw h
  | some block => exact .pure

theorem lookupLocal (h : S .valueMissing) {decl : NodeId} : StopsAt S (lookupLocal decl) :=
  bind (.of_ok fun s => ⟨(s, s), rfl⟩) fun _ => .ite .pure (.throw h)

theorem createEntryBlock : StopsAt S createEntryBlock :=
  createBlock.bind fun _ => setInsertPoint.bind fun _ => .pure

theorem createRegionAfter {block : BlockId} : StopsAt S (createRegionAfter block) :=
  createBlock.bind fun _ => insert.bind fun _ => setInsertPoint.bind fun _ => .pure

theorem storeArguments {args : List AST} (index : Nat) : StopsAt S (storeArguments index args) := by
  induction args generalizing index with
  | nil => exact .pure
  | cons c cs ih =>
    obtain ⟨n, cs'⟩ := c
    rw [FunctionCodegen.storeArguments]
    split
    · exact insert.bind fun _ => insert.bind fun _ => introduce.bind fun _ => ih (index + 1)
    · exact ih (index + 1)

theorem setUpStackFrame {args : AST} : StopsAt S (setUpStackFrame args) :=
  createEntryBlock.bind fun _ => (storeArguments 0).bind fun _ => .pure

/-! ## Operands -/

section Operands

variable (hS : ∀ fault, fault.isOperandFault = true → S fault)

include hS

theorem loadMemory {o : Operand} : StopsAt S (loadMemory o) := by
  cases o with
  | alloca decl => exact emitValue (o := (.load · decl))
  | function decl type => exact .throw (hS _ rfl)
  | _ => exact .pure

theorem createStore {value pointer : Operand} : StopsAt S (createStore value pointer) := by
  cases pointer with
  | alloca decl => exact .ite insert (.throw (hS _ rfl))
  | _ => exact .throw (hS _ rfl)

theorem createCall {callee : Operand} {os : List Operand} : StopsAt S (createCall callee os) := by
  cases callee with
  | function decl type => exact .ite (emitValue.bind fun _ => .pure) (.throw (hS _ rfl))
  | _ => exact .throw (hS _ rfl)

theorem createIsNotNull {o : Operand} : StopsAt S (createIsNotNull o) := by
  cases o with
  | void => exact .throw (hS _ rfl)
  | constant | argument | register | alloca | function => exact .of_ok fun _ => ⟨_, rfl⟩

theorem codegenBinaryOperatorExpr {op : ExprBinaryOperator} {l r : CodegenM Operand}
    (hl : StopsAt S l) (hr : StopsAt S r) : StopsAt S (codegenBinaryOperatorExpr op l r) := by
  refine hl.bind fun a => hr.bind fun b => .ite ?_ ?_
  · exact (loadMemory hS).bind fun _ => (createStore hS).bind fun _ => .pure
  · refine (loadMemory hS).bind fun c => (loadMemory hS).bind fun d => .ite ?_ ?_
    · exact .ite emitValue (.throw (hS _ rfl))
    · exact bind (.ite emitValue (.throw (hS _ rfl))) fun _ => emitValue

variable (ctx : IRContext)

theorem codegenDeclRefExpr (hunhandled : S .unhandledDecl) {n : ASTNode} :
    StopsAt S (codegenDeclRefExpr ctx n) := by
  unfold FunctionCodegen.codegenDeclRefExpr
  cases n.decl with
  | none => exact .throw (hS _ rfl)
  | some decl =>
    have hvariable : StopsAt S (do
        let value ← FunctionCodegen.lookupLocal decl.id
        emit (.reference n.node.id decl.id)
        return value) :=
      (lookupLocal (hS _ rfl)).bind fun _ => insert.bind fun _ => .pure
    cases hk : decl.kind <;> simp only [hk] <;> try exact .throw hunhandled
    case functionDecl =>
      cases ctx.lookupGlobal decl.id <;> first | exact .pure | exact .throw (hS _ rfl)
    case globalConstantDecl =>
      cases ctx.constant decl.id <;> first | exact .pure | exact .throw (hS _ rfl)
    all_goals exact hvariable

theorem codegenMetaInstantiationExpr {inst : NodeId} :
    StopsAt S (codegenMetaInstantiationExpr ctx inst) := by
  unfold FunctionCodegen.codegenMetaInstantiationExpr
  cases ctx.lookupInstantiation inst with
  | none => exact .throw (hS _ rfl)
  | some function => exact .pure

theorem codegenArguments {cs : List AST} (h : ∀ c ∈ cs, StopsAt S (codegenExpr ctx c)) :
    StopsAt S (codegenArguments ctx cs) := by
  induction cs with
  | nil => exact .pure
  | cons c cs ih =>
    exact (h c List.mem_cons_self).bind fun _ => (loadMemory hS).bind fun _ =>
      (ih fun x hx => h x (List.mem_cons_of_mem _ hx)).bind fun _ => .pure

/-- Expressions stop at faults of operands, and at declarations without a value. -/
theorem codegenExpr (hunhandled : S .unhandledDecl) (a : AST) : StopsAt S (codegenExpr ctx a) := by
  induction a using Rose.ind with
  | h n cs ih =>
    obtain ⟨⟨id, data⟩, decl, exportedDecls⟩ := n
    have hfault (fault : CodegenFault) (h : fault.isOperandFault = true) :
        StopsAt S (MonadExcept.throw fault : CodegenM Operand) := .throw (hS fault h)
    cases data with
    | declRefExpr name => exact codegenDeclRefExpr hS ctx hunhandled
    | metaInstantiationExpr => exact codegenMetaInstantiationExpr hS ctx
    | integerLiteralExpr literal | booleanLiteralExpr literal => exact .pure
    | binaryOperatorExpr op =>
      rcases cs with _ | ⟨left, _ | ⟨right, _ | ⟨c, cs⟩⟩⟩
      case cons.cons.nil =>
        exact codegenBinaryOperatorExpr hS (ih left (by simp)) (ih right (by simp))
      all_goals exact hfault _ rfl
    | callOperatorExpr =>
      cases cs with
      | nil => exact hfault _ rfl
      | cons callee args =>
        exact (ih callee List.mem_cons_self).bind fun _ =>
          (codegenArguments hS ctx fun c hc => ih c (List.mem_cons_of_mem _ hc)).bind
            fun _ => createCall hS
    | _ => exact hfault _ rfl

end Operands

/-! ## Branches -/

theorem lazyGetContinueBlock {cont : Option BlockId} : StopsAt S (lazyGetContinueBlock cont) := by
  cases cont with
  | none => exact createBlock
  | some block => exact .pure

theorem codegenBranch {cont : Option BlockId} {c : BlockId → CodegenM (Option BlockId)}
    (h : ∀ block, StopsAt S (c block)) : StopsAt S (codegenBranch cont c) := by
  refine createBlock.bind fun block => setInsertPoint.bind fun _ => (h block).bind fun r => ?_
  cases r with
  | none => exact .pure
  | some b => exact lazyGetContinueBlock.bind fun _ => insert.bind fun _ => .pure

theorem codegenFalseBranch {cont : Option BlockId}
    {d : Option (BlockId → CodegenM (Option BlockId))}
    (h : ∀ d', d = some d' → ∀ block, StopsAt S (d' block)) :
    StopsAt S (codegenFalseBranch cont d) := by
  cases d with
  | none => exact lazyGetContinueBlock.bind fun _ => .pure
  | some d => exact codegenBranch (h d rfl)

theorem continueAt {cont : Option BlockId} : StopsAt S (continueAt cont) := by
  cases cont with
  | none => exact .pure
  | some block => exact setInsertPoint.bind fun _ => .pure

/-- An if structure stops where its branches and its condition do. -/
theorem codegenIfStructure {ctx : IRContext} {block : BlockId} {condition : AST}
    {c : BlockId → CodegenM (Option BlockId)} {d : Option (BlockId → CodegenM (Option BlockId))}
    (h : ∀ block, StopsAt S (c block)) (h' : ∀ d', d = some d' → ∀ block, StopsAt S (d' block))
    (hcondition : StopsAt S (FunctionCodegen.codegenExpr ctx condition))
    (hvalue : ∀ s o s', FunctionCodegen.codegenExpr ctx condition s = .ok (o, s') →
      StopsAt S (FunctionCodegen.createIsNotNull o)) :
    StopsAt S (codegenIfStructure ctx block condition c d) :=
  (codegenBranch h).bind fun _ => (codegenFalseBranch h').bind fun _ =>
    setInsertPoint.bind fun _ => hcondition.bind_of_ok fun s o s' ho =>
      (hvalue s o s' ho).bind fun _ => insert.bind fun _ => continueAt

/-! ## Meta code -/

open MetaCodegen

theorem descend (h : S .unbalancedTransition) {kind : ASTKind} : StopsAt S (descend kind) := by
  intro s fault hs
  unfold MetaCodegen.descend at hs
  split at hs
  · cases hs
  · exact Except.error.inj hs ▸ h

theorem ascend (h : S .unbalancedTransition) {kind : ASTKind} : StopsAt S (ascend kind) := by
  intro s fault hs
  unfold MetaCodegen.ascend at hs
  split at hs
  · cases hs
  · exact Except.error.inj hs ▸ h

theorem introduceDecls (hS : ∀ fault, fault.isOperandFault = true → S fault) {decls : List Node} :
    StopsAt S (introduceDecls decls) := by
  induction decls with
  | nil => exact .pure
  | cons decl decls ih =>
    refine (lookupLocal (hS _ rfl)).bind fun value => bind (fun s fault hs => ?_) fun _ => ih
    unfold createIntroduceNode at hs
    split at hs
    · exact insert s fault hs
    · exact Except.error.inj hs ▸ hS _ rfl

theorem codegenContributed (h : S .unbalancedTransition) {node : Node} {block : BlockId}
    {c : BlockId → CodegenM (Option BlockId)} (hc : ∀ block, StopsAt S (c block)) :
    StopsAt S (codegenContributed node block c) := by
  refine (descend h).bind fun _ => insert.bind fun _ => (hc block).bind fun current => ?_
  split
  · exact insert.bind fun _ => (ascend h).bind fun _ => .pure
  · exact (ascend h).bind fun _ => .pure

end StopsAt

end Swy
