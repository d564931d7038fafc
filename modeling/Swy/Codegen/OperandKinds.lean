import Swy.Codegen.ControlFlow
import Swy.Codegen.Termination

/-!
# The kinds of operands

The code generation has one type of operands, `llvm::Value*`, and no rules for where which of them
may stand: an operand of the wrong kind is found by the builder. Whether that happens does not
depend on any code: `Check` is the code generation of expressions and statements with nothing left
of an operand but its kind and nothing of the state but the known declarations, and the code
generation succeeds exactly if the check does (`codegenExpr_abstracts`, `codegenStmt_abstracts`).
-/

namespace Swy

open Library

/-- What kind of value an operand is. -/
inductive OperandKind where
  | integer
  | variable
  | function (type : FunctionType)
  | void
deriving DecidableEq, Repr

/-- The kind of an operand. -/
def Operand.kind : Operand → OperandKind
  | constant _ | argument _ | register _ => .integer
  | alloca _ => .variable
  | function _ type => .function type
  | void => .void

theorem Operand.isInteger_iff {o : Operand} : o.isInteger = true ↔ o.kind = .integer := by
  cases o <;> simp [isInteger, kind]

/-- Checking: the known declarations, one list for each open scope. -/
abbrev CheckM := StateT (List (List NodeId)) Option

namespace Check

variable {α : Type} (ctx : IRContext)

/-! ## Expressions -/

/-- The declaration is known. -/
def lookupLocal (decl : NodeId) : CheckM OperandKind := do
  if (← get).any (·.contains decl) then return .variable
  failure

/-- The kind of what is loaded. -/
def loadMemory (kind : OperandKind) : CheckM OperandKind :=
  match kind with
  | .variable => return .integer
  | .function _ => failure
  | _ => return kind

/-- Integers are stored in variables. -/
def createStore (value pointer : OperandKind) : CheckM Unit :=
  match pointer with
  | .variable => if value = .integer then return () else failure
  | _ => failure

/-- The kind of a reference. -/
def codegenDeclRefExpr (n : ASTNode) : CheckM OperandKind :=
  match n.decl with
  | none => failure
  | some decl =>
    match decl.kind with
    | .functionDecl =>
      match ctx.lookupGlobal decl.id with
      | some type => return .function type
      | none => failure
    | .namedArgumentDecl | .declStmt => lookupLocal decl.id
    | .globalConstantDecl =>
      match ctx.constant decl.id with
      | some _ => return .integer
      | none => failure
    | _ => failure

/-- The kind of an instantiation. -/
def codegenMetaInstantiationExpr (inst : NodeId) : CheckM OperandKind :=
  match ctx.lookupInstantiation inst with
  | some (_, type) => return .function type
  | none => failure

/-- The kind of a binary operator. -/
def codegenBinaryOperatorExpr (op : ExprBinaryOperator) (left right : CheckM OperandKind) :
    CheckM OperandKind := do
  let left ← left
  let right ← right
  if op = .assign then
    createStore (← loadMemory right) left
    return right
  else
    let leftLoaded ← loadMemory left
    let rightLoaded ← loadMemory right
    if leftLoaded = .integer ∧ rightLoaded = .integer then return .integer else failure

/-- The kind of a call. -/
def createCall (callee : OperandKind) (arguments : List OperandKind) : CheckM OperandKind :=
  match callee with
  | .function type =>
    if type.params = arguments.length ∧ ∀ kind ∈ arguments, kind = .integer then
      return if type.returnsVoid then .void else .integer
    else failure
  | _ => failure

mutual
/-- The kind of an expression. -/
def codegenExpr : AST → CheckM OperandKind
  | .node n cs =>
    match n.node.data, cs with
    | .declRefExpr _, _ => codegenDeclRefExpr ctx n
    | .metaInstantiationExpr, _ => codegenMetaInstantiationExpr ctx n.node.id
    | .integerLiteralExpr _, _ | .booleanLiteralExpr _, _ => return .integer
    | .binaryOperatorExpr op, [left, right] =>
      codegenBinaryOperatorExpr op (codegenExpr left) (codegenExpr right)
    | .callOperatorExpr, callee :: args => do
      let callee ← codegenExpr callee
      let args ← codegenArguments args
      createCall callee args
    | _, _ => failure
/-- The kinds of the arguments of a call. -/
def codegenArguments : List AST → CheckM (List OperandKind)
  | [] => return []
  | c :: cs => do
    let value ← codegenExpr c
    let arg ← loadMemory value
    let args ← codegenArguments cs
    return arg :: args
end

/-! ## Statements -/

/-- The declaration becomes known in the current scope. -/
def introduce (decl : NodeId) : CheckM Unit :=
  modify fun known => known.modifyHead (decl :: ·)

/-- What becomes known in the body is forgotten behind it. -/
def withValueScope (body : CheckM Unit) : CheckM Unit := do
  modify fun known => [] :: known
  body
  modify fun known => known.tail

/-- What is void cannot be compared. -/
def createIsNotNull (kind : OperandKind) : CheckM Unit :=
  match kind with
  | .void => failure
  | _ => return ()

/-- The branches come before the condition, as they are generated. -/
def codegenIfStructure (condition : AST) (trueBranch falseBranch : CheckM Unit) : CheckM Unit := do
  trueBranch
  falseBranch
  createIsNotNull (← codegenExpr ctx condition)

mutual
/-- Checks a statement. -/
def codegenStmt : AST → CheckM Unit
  | .node n cs =>
    match n.node.data, cs with
    | .compoundStmt, cs => withValueScope (codegenStmts cs)
    | .unscopedCompoundStmt, cs => codegenStmts cs
    | .returnStmt, [] => return ()
    | .returnStmt, [expr] => do
      let value ← codegenExpr ctx expr
      let _ ← loadMemory value
    | .expressionStmt, [expr] => do
      let _ ← codegenExpr ctx expr
    | .declStmt _, [expr] => do
      let value ← codegenExpr ctx expr
      createStore (← loadMemory value) .variable
      introduce n.node.id
    | .ifStmt, [condition, trueBranch] =>
      codegenIfStructure ctx condition (codegenStmt trueBranch) (return ())
    | .ifStmt, [condition, trueBranch, falseBranch] =>
      codegenIfStructure ctx condition (codegenStmt trueBranch) (codegenStmt falseBranch)
    | _, _ => failure
/-- Checks the statements of a compound. -/
def codegenStmts : List AST → CheckM Unit
  | [] => return ()
  | c :: cs => do
    codegenStmt c
    codegenStmts cs
end

/-- The parameters with a name become known. -/
def storeArguments : List AST → CheckM Unit
  | [] => return ()
  | .node n _ :: args => do
    if n.node.kind = .namedArgumentDecl then introduce n.node.id
    storeArguments args

/-- Checks a body behind the arguments. -/
def codegenBody (args body : AST) : CheckM Unit := withValueScope do
  storeArguments args.children
  codegenStmt ctx body

end Check

/-! ## What passes the check -/

/-- The type of the function that a callee denotes where its code is generated: that of the named
function or the one of the function an instantiation exports. -/
def IRContext.calleeType (ctx : IRContext) : AST → Option FunctionType
  | .node n _ =>
    match n.node.data with
    | .declRefExpr _ =>
      n.decl.bind fun d => if d.kind = .functionDecl then ctx.lookupGlobal d.id else none
    | .metaInstantiationExpr => (ctx.lookupInstantiation n.node.id).map Prod.snd
    | _ => none

namespace Check

variable {ctx : IRContext} {known known' : List (List NodeId)}

theorem bind_some {α β : Type} {x : CheckM α} {f : α → CheckM β} {r : β × List (List NodeId)} :
    (x >>= f) known = some r ↔
      ∃ a known₁, x known = some (a, known₁) ∧ f a known₁ = some r := by
  have hbind : (x >>= f) known = (x known).bind fun p => f p.1 p.2 := by
    simp only [Bind.bind, StateT.bind]
  rw [hbind, Option.bind_eq_some_iff]
  exact ⟨fun ⟨⟨a, known₁⟩, h⟩ => ⟨a, known₁, h⟩, fun ⟨a, known₁, h⟩ => ⟨(a, known₁), h⟩⟩

theorem pure_some {α : Type} {a : α} {r : α × List (List NodeId)} :
    (pure a : CheckM α) known = some r ↔ r = (a, known) := by
  have hpure : (pure a : CheckM α) known = some (a, known) := rfl
  rw [hpure, Option.some.injEq, eq_comm]

theorem lookupLocal_some {decl : NodeId} (h : known.any (·.contains decl) = true) :
    lookupLocal decl known = some (.variable, known) := by
  have hlookup : lookupLocal decl known =
      (if known.any (·.contains decl) = true then pure OperandKind.variable else failure :
        CheckM OperandKind) known := rfl
  rw [hlookup, if_pos h]
  rfl

theorem lookupLocal_kind {decl : NodeId} {kind : OperandKind}
    (h : lookupLocal decl known = some (kind, known')) : kind = .variable := by
  have hlookup : lookupLocal decl known =
      (if known.any (·.contains decl) = true then pure OperandKind.variable else failure :
        CheckM OperandKind) known := rfl
  rw [hlookup] at h
  split at h
  · cases pure_some.1 h
    rfl
  · cases h

/-- What is stored and returned by an assignment is an integer or a variable. -/
theorem assign_kind {left right : CheckM OperandKind} {kind : OperandKind}
    (h : codegenBinaryOperatorExpr .assign left right known = some (kind, known')) :
    (kind = .integer ∨ kind = .variable) ∧ ∃ known₁ known₂, right known₁ = some (kind, known₂) := by
  obtain ⟨l, known₁, hl, h⟩ := bind_some.1 h
  obtain ⟨r, known₂, hr, h⟩ := bind_some.1 h
  rw [if_pos rfl] at h
  obtain ⟨loaded, known₃, hload, h⟩ := bind_some.1 h
  obtain ⟨_, known₄, hstore, h⟩ := bind_some.1 h
  cases pure_some.1 h
  refine ⟨?_, known₁, known₂, hr⟩
  cases kind with
  | integer => exact .inl rfl
  | «variable» => exact .inr rfl
  | function type => cases hload
  | void =>
    cases pure_some.1 hload
    cases l <;> cases hstore

/-- Every other operator has an integer. -/
theorem binary_kind {op : ExprBinaryOperator} (hop : op ≠ .assign) {left right : CheckM OperandKind}
    {kind : OperandKind}
    (h : codegenBinaryOperatorExpr op left right known = some (kind, known')) :
    kind = .integer := by
  obtain ⟨l, known₁, hl, h⟩ := bind_some.1 h
  obtain ⟨r, known₂, hr, h⟩ := bind_some.1 h
  rw [if_neg hop] at h
  obtain ⟨l', known₃, hl', h⟩ := bind_some.1 h
  obtain ⟨r', known₄, hr', h⟩ := bind_some.1 h
  split at h
  · cases pure_some.1 h
    rfl
  · cases h

theorem call_kind {callee : OperandKind} {arguments : List OperandKind} {kind : OperandKind}
    (h : createCall callee arguments known = some (kind, known')) :
    kind = .void ∨ kind = .integer := by
  cases callee with
  | function type =>
    rw [createCall] at h
    split at h
    · cases pure_some.1 h
      cases type.returnsVoid
      · exact .inr rfl
      · exact .inl rfl
    · cases h
  | _ => cases h

/-- The kind of a reference. -/
theorem declRefExpr_kind {n : ASTNode} {kind : OperandKind}
    (h : codegenDeclRefExpr ctx n known = some (kind, known')) :
    ∃ d, n.decl = some d ∧
      ((d.kind = .namedArgumentDecl ∨ d.kind = .declStmt) ∧ kind = .variable ∨
        d.kind = .globalConstantDecl ∧ kind = .integer ∨
        d.kind = .functionDecl ∧ ∃ type, kind = .function type) := by
  unfold codegenDeclRefExpr at h
  cases hd : n.decl with
  | none =>
    rw [hd] at h
    cases h
  | some d =>
    simp only [hd] at h
    refine ⟨d, rfl, ?_⟩
    cases hk : d.kind <;> simp only [hk] at h <;> try cases h
    case functionDecl =>
      cases hlookup : ctx.lookupGlobal d.id with
      | none =>
        rw [hlookup] at h
        cases h
      | some type =>
        rw [hlookup] at h
        cases pure_some.1 h
        exact .inr (.inr ⟨rfl, type, rfl⟩)
    case globalConstantDecl =>
      cases hconstant : ctx.constant d.id with
      | none =>
        rw [hconstant] at h
        cases h
      | some value =>
        rw [hconstant] at h
        cases pure_some.1 h
        exact .inr (.inl ⟨rfl, rfl⟩)
    case namedArgumentDecl => exact .inl ⟨.inl rfl, lookupLocal_kind h⟩
    case declStmt => exact .inl ⟨.inr rfl, lookupLocal_kind h⟩

/-- What is called is a function. -/
theorem callee_kind {a : AST} {type : FunctionType} (h : ctx.calleeType a = some type) :
    codegenExpr ctx a known = some (.function type, known) := by
  obtain ⟨⟨⟨id, data⟩, decl, exportedDecls⟩, cs⟩ := a
  cases data <;> try cases h
  case declRefExpr name =>
    cases decl with
    | none => cases h
    | some d =>
      simp only [IRContext.calleeType, Option.bind_some, Option.ite_none_right_eq_some] at h
      obtain ⟨hk, htype⟩ := h
      show codegenDeclRefExpr ctx ⟨⟨id, .declRefExpr name⟩, some d, exportedDecls⟩ known = _
      simp only [codegenDeclRefExpr, hk, htype]
      rfl
  case metaInstantiationExpr =>
    obtain ⟨function, hlookup, rfl⟩ := Option.map_eq_some_iff.1 h
    show codegenMetaInstantiationExpr ctx id known = _
    simp only [codegenMetaInstantiationExpr, hlookup]
    rfl

/-- A function is what can be called. -/
theorem calleeType_of_kind {a : AST} {type : FunctionType}
    (h : codegenExpr ctx a known = some (.function type, known')) :
    ctx.calleeType a = some type := by
  obtain ⟨⟨⟨id, data⟩, decl, exportedDecls⟩, cs⟩ := a
  cases data with
  | declRefExpr name =>
    obtain ⟨d, hd, hkind⟩ := declRefExpr_kind h
    cases hd
    rcases hkind with ⟨-, hkind⟩ | ⟨-, hkind⟩ | ⟨hk, -⟩ <;> try cases hkind
    have h : codegenDeclRefExpr ctx ⟨⟨id, .declRefExpr name⟩, some d, exportedDecls⟩ known =
      some (.function type, known') := h
    simp only [codegenDeclRefExpr, hk] at h
    cases hlookup : ctx.lookupGlobal d.id with
    | none =>
      rw [hlookup] at h
      cases h
    | some type' =>
      rw [hlookup] at h
      cases pure_some.1 h
      simp only [IRContext.calleeType, Option.bind_some, hk, if_true, hlookup]
  | metaInstantiationExpr =>
    have h : codegenMetaInstantiationExpr ctx id known = some (.function type, known') := h
    unfold codegenMetaInstantiationExpr at h
    cases hlookup : ctx.lookupInstantiation id with
    | none =>
      rw [hlookup] at h
      cases h
    | some function =>
      rw [hlookup] at h
      cases pure_some.1 h
      simp only [IRContext.calleeType, hlookup, Option.map_some]
  | binaryOperatorExpr op =>
    rcases cs with _ | ⟨left, _ | ⟨right, _ | ⟨c, cs⟩⟩⟩
    case cons.cons.nil =>
      by_cases hop : op = .assign
      · subst hop
        obtain ⟨hkind | hkind, -⟩ := assign_kind h <;> cases hkind
      · cases binary_kind hop h
    all_goals cases h
  | callOperatorExpr =>
    cases cs with
    | nil => cases h
    | cons callee args =>
      obtain ⟨f, known₁, -, h⟩ := bind_some.1 h
      obtain ⟨os, known₂, -, h⟩ := bind_some.1 h
      rcases call_kind h with hkind | hkind <;> cases hkind
  | _ => cases h

end Check

/-! ## Success -/

/-- The code generation succeeds exactly if the check does, with related results and the same known
declarations; and it never stops at an absent block. -/
def Abstracts {α β : Type} (rel : α → β → Prop) (c : CodegenM α) (k : CheckM β) : Prop :=
  ∀ s, match k s.values with
    | none => ∃ fault, c s = .error fault ∧ fault ≠ .nullDereference
    | some (b, known) => ∃ a s', c s = .ok (a, s') ∧ rel a b ∧ s'.values = known

section Rules

variable {α β γ δ : Type} {rel : α → β → Prop} {rel' : γ → δ → Prop}

theorem Abstracts.ok_iff {c : CodegenM α} {k : CheckM β} (h : Abstracts rel c k)
    (s : CodegenState) : (∃ a s', c s = .ok (a, s')) ↔ (k s.values).isSome := by
  have hs := h s
  cases hk : k s.values with
  | none =>
    rw [hk] at hs
    obtain ⟨fault, hc, -⟩ := hs
    refine ⟨fun ⟨a, s', ha⟩ => ?_, nofun⟩
    rw [hc] at ha
    cases ha
  | some r =>
    rw [hk] at hs
    obtain ⟨a, s', hc, -⟩ := hs
    exact ⟨fun _ => rfl, fun _ => ⟨a, s', hc⟩⟩

theorem Abstracts.ne_nullDereference {c : CodegenM α} {k : CheckM β} (h : Abstracts rel c k)
    (s : CodegenState) : c s ≠ .error .nullDereference := by
  intro hc
  have hs := h s
  rw [hc] at hs
  cases hk : k s.values with
  | none =>
    rw [hk] at hs
    obtain ⟨fault, heq, hne⟩ := hs
    exact hne (Except.error.inj heq).symm
  | some r =>
    rw [hk] at hs
    obtain ⟨a, s', heq, -⟩ := hs
    cases heq

/-- Where the code generation succeeds its result is the one of the check. -/
theorem Abstracts.of_ok {c : CodegenM α} {k : CheckM β} (h : Abstracts rel c k)
    {s s' : CodegenState} {a : α} (hc : c s = .ok (a, s')) :
    ∃ b, k s.values = some (b, s'.values) ∧ rel a b := by
  have hs := h s
  rw [hc] at hs
  cases hk : k s.values with
  | none =>
    rw [hk] at hs
    obtain ⟨fault, heq, -⟩ := hs
    cases heq
  | some r =>
    rw [hk] at hs
    obtain ⟨a', s'', heq, hrel, hvalues⟩ := hs
    cases heq
    exact ⟨r.1, by rw [hvalues], hrel⟩

theorem Abstracts.pure {a : α} {b : β} (h : rel a b) : Abstracts rel (pure a) (pure b) :=
  fun s => ⟨a, s, rfl, h, rfl⟩

theorem Abstracts.throw {fault : CodegenFault} (h : fault ≠ .nullDereference) :
    Abstracts rel (throw fault) failure :=
  fun _ => ⟨fault, rfl, h⟩

theorem Abstracts.bind {c : CodegenM α} {k : CheckM β} {f : α → CodegenM γ} {g : β → CheckM δ}
    (h : Abstracts rel c k) (h' : ∀ a b, rel a b → Abstracts rel' (f a) (g b)) :
    Abstracts rel' (c >>= f) (k >>= g) := by
  intro s
  have hs := h s
  simp only [Bind.bind, StateT.bind] at hs ⊢
  cases hk : k s.values with
  | none =>
    rw [hk] at hs
    obtain ⟨fault, hc, hfault⟩ := hs
    exact ⟨fault, by rw [hc]; rfl, hfault⟩
  | some r =>
    obtain ⟨b, known⟩ := r
    rw [hk] at hs
    obtain ⟨a, s₁, hc, hab, rfl⟩ := hs
    rw [hc]
    exact h' a b hab s₁

/-- Generating something in between that is not checked. -/
theorem Abstracts.after {c : CodegenM α} {f : α → CodegenM γ} {k : CheckM δ} {b : β}
    (h : Abstracts rel c (Pure.pure b)) (h' : ∀ a, rel a b → Abstracts rel' (f a) k) :
    Abstracts rel' (c >>= f) k := by
  intro s
  obtain ⟨a, s₁, hc, hab, hvalues⟩ := h s
  have hf := h' a hab s₁
  rw [hvalues] at hf
  simp only [Bind.bind, StateT.bind, hc]
  exact hf

/-- Both take a branch, on conditions that are equivalent. -/
theorem Abstracts.ite {c c' : CodegenM α} {k k' : CheckM β} {p q : Prop} [Decidable p]
    [Decidable q] (hpq : p ↔ q) (h : Abstracts rel c k) (h' : Abstracts rel c' k') :
    Abstracts rel (if p then c else c') (if q then k else k') := by
  by_cases hp : p
  · rw [if_pos hp, if_pos (hpq.1 hp)]
    exact h
  · rw [if_neg hp, if_neg fun hq => hp (hpq.2 hq)]
    exact h'

theorem emit_abstracts {o : Operation} :
    Abstracts (fun _ _ => True) (FunctionCodegen.emit o) (Pure.pure ()) :=
  fun _ => ⟨_, _, rfl, True.intro, rfl⟩

theorem terminate_abstracts {t : Terminator} :
    Abstracts (fun _ _ => True) (FunctionCodegen.terminate t) (Pure.pure ()) :=
  fun _ => ⟨_, _, rfl, True.intro, rfl⟩

end Rules

/-! ## Expressions -/

/-- The operand has the kind. -/
def HasKind (o : Operand) (kind : OperandKind) : Prop := o.kind = kind

theorem emitValue_abstracts {o : Register → Operation} :
    Abstracts HasKind (FunctionCodegen.emitValue o) (Pure.pure .integer) :=
  fun _ => ⟨_, _, rfl, rfl, rfl⟩

theorem loadMemory_abstracts {o : Operand} {kind : OperandKind} (h : HasKind o kind) :
    Abstracts HasKind (FunctionCodegen.loadMemory o) (Check.loadMemory kind) := by
  subst h
  cases o with
  | alloca decl => exact emitValue_abstracts (o := (.load · decl))
  | function decl type => exact .throw (by decide)
  | constant | argument | register | void => exact .pure rfl

theorem createStore_abstracts {o p : Operand} {kind kind' : OperandKind} (h : HasKind o kind)
    (h' : HasKind p kind') :
    Abstracts (fun _ _ => True) (FunctionCodegen.createStore o p)
      (Check.createStore kind kind') := by
  subst h h'
  cases p with
  | alloca decl => exact .ite Operand.isInteger_iff emit_abstracts (.throw (by decide))
  | constant | argument | register | function | void => exact .throw (by decide)

theorem isInteger_and_iff {l r : Operand} :
    (l.isInteger && r.isInteger) = true ↔ l.kind = .integer ∧ r.kind = .integer := by
  rw [Bool.and_eq_true, Operand.isInteger_iff, Operand.isInteger_iff]

theorem createBinary_abstracts {op : ExprBinaryOperator} {l r : Operand}
    {kind kind' : OperandKind} (h : HasKind l kind) (h' : HasKind r kind') :
    Abstracts HasKind (FunctionCodegen.createBinary op l r)
      (if kind = .integer ∧ kind' = .integer then Pure.pure .integer else failure) := by
  subst h h'
  exact .ite isInteger_and_iff emitValue_abstracts (.throw (by decide))

theorem createICmp_abstracts {op : ExprBinaryOperator} {l r : Operand}
    {kind kind' : OperandKind} (h : HasKind l kind) (h' : HasKind r kind') :
    Abstracts HasKind (FunctionCodegen.createICmp op l r)
      (if kind = .integer ∧ kind' = .integer then Pure.pure .integer else failure) := by
  subst h h'
  exact .ite isInteger_and_iff emitValue_abstracts (.throw (by decide))

theorem createCall_abstracts {o : Operand} {os : List Operand} {kind : OperandKind}
    {kinds : List OperandKind} (h : HasKind o kind) (h' : os.map Operand.kind = kinds) :
    Abstracts HasKind (FunctionCodegen.createCall o os) (Check.createCall kind kinds) := by
  subst h h'
  cases o with
  | function decl type =>
    have hargs : (type.params = os.length ∧ os.all Operand.isInteger = true) ↔
        type.params = (os.map Operand.kind).length ∧
          ∀ kind ∈ os.map Operand.kind, kind = .integer := by
      simp only [List.length_map, List.forall_mem_map, List.all_eq_true, Operand.isInteger_iff]
    refine .ite hargs (.after emitValue_abstracts fun result hresult => .pure ?_)
      (.throw (by decide))
    cases type.returnsVoid
    · exact hresult
    · rfl
  | constant | argument | register | alloca | void => exact .throw (by decide)

theorem lookupLocal_abstracts {decl : NodeId} :
    Abstracts HasKind (FunctionCodegen.lookupLocal decl) (Check.lookupLocal decl) := by
  unfold FunctionCodegen.lookupLocal Check.lookupLocal
  have hget : Abstracts (fun s v => s.values = v) (get : CodegenM CodegenState)
      (get : CheckM (List (List NodeId))) := fun s => ⟨s, s, rfl, rfl, rfl⟩
  refine hget.bind fun s v hv => ?_
  subst hv
  split
  · exact .pure rfl
  · exact .throw (by decide)

section

variable (ctx : IRContext)

theorem codegenDeclRefExpr_abstracts {n : ASTNode} :
    Abstracts HasKind (FunctionCodegen.codegenDeclRefExpr ctx n)
      (Check.codegenDeclRefExpr ctx n) := by
  unfold FunctionCodegen.codegenDeclRefExpr Check.codegenDeclRefExpr
  cases n.decl with
  | none => exact .throw (by decide)
  | some decl =>
    have hvariable : Abstracts HasKind
        (do
          let value ← FunctionCodegen.lookupLocal decl.id
          FunctionCodegen.emit (.reference n.node.id decl.id)
          return value)
        (Check.lookupLocal decl.id >>= Pure.pure) :=
      lookupLocal_abstracts.bind fun o kind h => .after emit_abstracts fun _ _ => .pure h
    rw [bind_pure] at hvariable
    cases hk : decl.kind <;> simp only [hk] <;> try exact .throw (by decide)
    case functionDecl =>
      cases ctx.lookupGlobal decl.id with
      | none => exact .throw (by decide)
      | some type => exact .pure rfl
    case globalConstantDecl =>
      cases ctx.constant decl.id with
      | none => exact .throw (by decide)
      | some value => exact .pure rfl
    all_goals exact hvariable

theorem codegenMetaInstantiationExpr_abstracts {inst : NodeId} :
    Abstracts HasKind (FunctionCodegen.codegenMetaInstantiationExpr ctx inst)
      (Check.codegenMetaInstantiationExpr ctx inst) := by
  unfold FunctionCodegen.codegenMetaInstantiationExpr Check.codegenMetaInstantiationExpr
  cases ctx.lookupInstantiation inst with
  | none => exact .throw (by decide)
  | some function => exact .pure rfl

theorem codegenBinaryOperatorExpr_abstracts {op : ExprBinaryOperator} {l r : CodegenM Operand}
    {k k' : CheckM OperandKind} (hl : Abstracts HasKind l k) (hr : Abstracts HasKind r k') :
    Abstracts HasKind (FunctionCodegen.codegenBinaryOperatorExpr op l r)
      (Check.codegenBinaryOperatorExpr op k k') := by
  unfold FunctionCodegen.codegenBinaryOperatorExpr Check.codegenBinaryOperatorExpr
  refine hl.bind fun a kind ha => hr.bind fun b kind' hb => ?_
  split
  · exact (loadMemory_abstracts hb).bind fun c kind hc =>
      (createStore_abstracts hc ha).bind fun _ _ _ => .pure hb
  · refine (loadMemory_abstracts ha).bind fun c kind hc => ?_
    refine (loadMemory_abstracts hb).bind fun d kind' hd => ?_
    split
    · exact createBinary_abstracts hc hd
    · have hicmp : Abstracts HasKind (FunctionCodegen.createICmp op c d) _ :=
        createICmp_abstracts hc hd
      have hzext := hicmp.bind (f := fun o => FunctionCodegen.emitValue (.zext · o))
        (g := fun _ => Pure.pure OperandKind.integer) fun _ _ _ => emitValue_abstracts
      by_cases h : kind = .integer ∧ kind' = .integer
      · rw [if_pos h] at hzext ⊢
        exact hzext
      · rw [if_neg h] at hzext ⊢
        exact hzext

theorem codegenArguments_abstracts {cs : List AST}
    (h : ∀ c ∈ cs, Abstracts HasKind (FunctionCodegen.codegenExpr ctx c)
      (Check.codegenExpr ctx c)) :
    Abstracts (fun os kinds => os.map Operand.kind = kinds)
      (FunctionCodegen.codegenArguments ctx cs) (Check.codegenArguments ctx cs) := by
  induction cs with
  | nil => exact .pure rfl
  | cons c cs ih =>
    rw [FunctionCodegen.codegenArguments, Check.codegenArguments]
    refine (h c List.mem_cons_self).bind fun a kind ha => ?_
    refine (loadMemory_abstracts ha).bind fun o kind ho => ?_
    refine (ih fun x hx => h x (List.mem_cons_of_mem _ hx)).bind fun os kinds hos => ?_
    exact .pure (congr (congrArg List.cons ho) hos)

/-- The code of an expression is generated exactly if the expression has a kind. -/
theorem codegenExpr_abstracts (a : AST) :
    Abstracts HasKind (FunctionCodegen.codegenExpr ctx a) (Check.codegenExpr ctx a) := by
  induction a using Rose.ind with
  | h n cs ih =>
    obtain ⟨⟨id, data⟩, decl, exportedDecls⟩ := n
    have hfault (fault : CodegenFault) (h : fault ≠ .nullDereference) :
        Abstracts HasKind (throw fault) failure := .throw h
    cases data with
    | declRefExpr name => exact codegenDeclRefExpr_abstracts ctx
    | metaInstantiationExpr => exact codegenMetaInstantiationExpr_abstracts ctx
    | integerLiteralExpr literal => exact .pure rfl
    | booleanLiteralExpr literal => exact .pure rfl
    | binaryOperatorExpr op =>
      rcases cs with _ | ⟨left, _ | ⟨right, _ | ⟨c, cs⟩⟩⟩
      case cons.cons.nil =>
        exact codegenBinaryOperatorExpr_abstracts (ih left (by simp)) (ih right (by simp))
      all_goals exact hfault _ (by decide)
    | callOperatorExpr =>
      cases cs with
      | nil => exact hfault _ (by decide)
      | cons callee args =>
        refine (ih callee List.mem_cons_self).bind fun o kind ho => ?_
        refine (codegenArguments_abstracts ctx
          fun c hc => ih c (List.mem_cons_of_mem _ hc)).bind fun os kinds hos => ?_
        exact createCall_abstracts ho hos
    | _ => exact hfault _ (by decide)

/-! ## Statements -/

theorem introduce_abstracts {decl : NodeId} :
    Abstracts (fun _ _ => True) (FunctionCodegen.introduce decl) (Check.introduce decl) :=
  fun _ => ⟨_, _, rfl, True.intro, rfl⟩

theorem withValueScope_abstracts {α : Type} {rel : α → Unit → Prop} {c : CodegenM α}
    {k : CheckM Unit} (h : Abstracts rel c k) :
    Abstracts rel (FunctionCodegen.withValueScope c) (Check.withValueScope k) := by
  have hopen : Abstracts (fun _ _ => True)
      (modify fun s => { s with values := [] :: s.values } : CodegenM PUnit)
      (modify fun known => [] :: known : CheckM PUnit) :=
    fun _ => ⟨_, _, rfl, True.intro, rfl⟩
  have hclose : Abstracts (fun _ _ => True)
      (modify fun s => { s with values := s.values.tail } : CodegenM PUnit)
      (modify fun known => known.tail : CheckM PUnit) :=
    fun _ => ⟨_, _, rfl, True.intro, rfl⟩
  have hscope : Abstracts rel (FunctionCodegen.withValueScope c)
      (do
        modify fun known => [] :: known
        let u ← k
        modify fun known => known.tail
        return u) :=
    hopen.bind fun _ _ _ => h.bind fun a b hab => hclose.bind fun _ _ _ => .pure hab
  exact hscope

theorem createIsNotNull_abstracts {o : Operand} {kind : OperandKind} (h : HasKind o kind) :
    Abstracts (fun _ _ => True) (FunctionCodegen.createIsNotNull o)
      (Check.createIsNotNull kind) := by
  subst h
  cases o with
  | void => exact .throw (by decide)
  | constant | argument | register | alloca | function => exact fun _ =>
    ⟨_, _, rfl, True.intro, rfl⟩

/-- The code generation of a statement: no block is returned exactly if it terminates. -/
def Continues (terminates : Bool) (r : Option BlockId) (_ : Unit) : Prop := r.isNone = terminates

/-- A branch needs the continue block if it does not terminate. -/
theorem codegenBranch_abstracts {c : BlockId → CodegenM (Option BlockId)} {k : CheckM Unit}
    {terminates : Bool} (h : ∀ block, Abstracts (Continues terminates) (c block) k)
    (cont : Option BlockId) :
    Abstracts (fun r _ => r.2.isNone = (cont.isNone && terminates))
      (FunctionCodegen.codegenBranch cont c) k := by
  have hok {α : Type} {m : CodegenM α} (hm : ∀ s, ∃ a s', m s = .ok (a, s') ∧
      s'.values = s.values) : Abstracts (fun _ _ => True) m (Pure.pure ()) := fun s => by
    obtain ⟨a, s', h₁, h₂⟩ := hm s
    exact ⟨a, s', h₁, True.intro, h₂⟩
  unfold FunctionCodegen.codegenBranch
  refine .after (hok fun s => ⟨_, _, rfl, rfl⟩) fun block _ =>
    .after (hok fun s => ⟨_, _, rfl, rfl⟩) fun _ _ => ?_
  rw [← bind_pure k]
  refine (h block).bind fun r _ hr => ?_
  cases r with
  | none =>
    rw [Continues] at hr
    exact .pure (by rw [← hr, Option.isNone_none, Bool.and_true])
  | some b =>
    refine .after (hok fun s => ?_) fun c' _ => .after terminate_abstracts fun _ _ => .pure ?_
    · cases cont <;> exact ⟨_, _, rfl, rfl⟩
    · rw [← hr, Option.isNone_some, Option.isNone_some, Bool.and_false]

/-- Without a false branch the continue block is needed. -/
theorem codegenFalseBranch_abstracts {c : Option (BlockId → CodegenM (Option BlockId))}
    {k : CheckM Unit} {terminates : Bool}
    (h : ∀ d, c = some d → ∀ block, Abstracts (Continues terminates) (d block) k)
    (hnone : c = none → k = (do return ()) ∧ terminates = false) (cont : Option BlockId) :
    Abstracts (fun r _ => r.2.isNone = (cont.isNone && terminates))
      (FunctionCodegen.codegenFalseBranch cont c) k := by
  cases c with
  | some d => exact codegenBranch_abstracts (h d rfl) cont
  | none =>
    obtain ⟨rfl, rfl⟩ := hnone rfl
    intro s
    cases cont with
    | none => exact ⟨_, _, rfl, rfl, rfl⟩
    | some b => exact ⟨_, _, rfl, rfl, rfl⟩

theorem codegenIfStructure_abstracts (block : BlockId) (condition : AST)
    {c : BlockId → CodegenM (Option BlockId)} {d : Option (BlockId → CodegenM (Option BlockId))}
    {k k' : CheckM Unit} {t t' : Bool} (h : ∀ block, Abstracts (Continues t) (c block) k)
    (h' : ∀ e, d = some e → ∀ block, Abstracts (Continues t') (e block) k')
    (hnone : d = none → k' = (do return ()) ∧ t' = false) :
    Abstracts (Continues (t && t')) (FunctionCodegen.codegenIfStructure ctx block condition c d)
      (Check.codegenIfStructure ctx condition k k') := by
  unfold FunctionCodegen.codegenIfStructure Check.codegenIfStructure
  refine (codegenBranch_abstracts h none).bind fun r _ hr =>
    (codegenFalseBranch_abstracts h' hnone r.2).bind fun r' _ hr' => ?_
  have hset : Abstracts (fun _ _ => True) (FunctionCodegen.setInsertPoint block)
      (Pure.pure ()) := fun _ => ⟨_, _, rfl, True.intro, rfl⟩
  refine .after hset fun _ _ => (codegenExpr_abstracts ctx condition).bind fun o kind ho => ?_
  rw [← bind_pure (Check.createIsNotNull kind)]
  refine (createIsNotNull_abstracts ho).bind fun _ _ _ => .after terminate_abstracts fun _ _ => ?_
  rw [hr, Option.isNone_none, Bool.true_and] at hr'
  intro s
  cases hcont : r'.2 with
  | none => exact ⟨_, _, rfl, by rw [Continues, ← hr', hcont], rfl⟩
  | some b => exact ⟨_, _, rfl, by rw [Continues, ← hr', hcont], rfl⟩

theorem codegenStmts_abstracts {cs : List AST}
    (h : ∀ c ∈ cs, AST.nothingFollows c → ∀ block, Abstracts (Continues (AST.terminates c))
      (FunctionCodegen.codegenStmt ctx block c) (Check.codegenStmt ctx c))
    (hcs : AST.nothingFollowsIn cs) (block : BlockId) :
    Abstracts (Continues (AST.anyTerminates cs))
      (FunctionCodegen.codegenStmts ctx (some block) cs) (Check.codegenStmts ctx cs) := by
  induction cs generalizing block with
  | nil => exact .pure rfl
  | cons c cs ih =>
    rw [AST.nothingFollowsIn, Bool.and_eq_true, Bool.and_eq_true, Bool.or_eq_true] at hcs
    obtain ⟨⟨hc, hlast⟩, hcs⟩ := hcs
    rw [FunctionCodegen.codegenStmts, FunctionCodegen.dereference, pure_bind, Check.codegenStmts,
      AST.anyTerminates]
    refine (h c List.mem_cons_self hc block).bind fun r _ hr => ?_
    cases r with
    | some b =>
      have hgoes : AST.terminates c = false := hr.symm
      rw [hgoes, Bool.false_or]
      exact ih (fun x hx => h x (List.mem_cons_of_mem _ hx)) hcs b
    | none =>
      -- the statement terminates, so it is the last one
      have hterm : AST.terminates c = true := hr.symm
      obtain rfl : cs = [] := by simpa [hterm] using hlast
      rw [hterm, Bool.true_or]
      exact .pure rfl

/-- The code of a statement in which nothing follows what terminates is generated exactly if the
statement passes the check, and no block is returned exactly if the statement terminates. -/
theorem codegenStmt_abstracts (a : AST) (ha : AST.nothingFollows a) : ∀ block,
    Abstracts (Continues (AST.terminates a)) (FunctionCodegen.codegenStmt ctx block a)
      (Check.codegenStmt ctx a) := by
  induction a using Rose.ind with
  | h n cs ih =>
    intro block
    obtain ⟨⟨id, data⟩, decl, exportedDecls⟩ := n
    have hfault (fault : CodegenFault) (h : fault ≠ .nullDereference) (t : Bool) :
        Abstracts (Continues t) (throw fault) failure := .throw h
    cases data with
    | compoundStmt => exact withValueScope_abstracts (codegenStmts_abstracts ctx ih ha block)
    | unscopedCompoundStmt => exact codegenStmts_abstracts ctx ih ha block
    | returnStmt =>
      rcases cs with _ | ⟨expr, _ | ⟨c, cs⟩⟩
      · exact .after terminate_abstracts fun _ _ => .pure rfl
      · exact (codegenExpr_abstracts ctx expr).bind fun o kind ho =>
          (loadMemory_abstracts ho).bind fun _ _ _ =>
            .after terminate_abstracts fun _ _ => .pure rfl
      · exact hfault _ (by decide) _
    | expressionStmt =>
      rcases cs with _ | ⟨expr, _ | ⟨c, cs⟩⟩
      · exact hfault _ (by decide) _
      · exact (codegenExpr_abstracts ctx expr).bind fun o kind ho =>
          .after emit_abstracts fun _ _ => .pure rfl
      · exact hfault _ (by decide) _
    | declStmt name =>
      rcases cs with _ | ⟨expr, _ | ⟨c, cs⟩⟩
      · exact hfault _ (by decide) _
      · refine (codegenExpr_abstracts ctx expr).bind fun o kind ho =>
          .after emit_abstracts fun _ _ => (loadMemory_abstracts ho).bind fun p kind hp => ?_
        refine (createStore_abstracts hp rfl).bind fun _ _ _ => ?_
        rw [← bind_pure (Check.introduce _)]
        exact introduce_abstracts.bind fun _ _ _ => .pure rfl
      · exact hfault _ (by decide) _
    | ifStmt =>
      rcases cs with _ | ⟨condition, _ | ⟨trueBranch, _ | ⟨falseBranch, _ | ⟨c, cs⟩⟩⟩⟩
      · exact hfault _ (by decide) _
      · exact hfault _ (by decide) _
      · have hif : Abstracts (Continues (AST.terminates trueBranch && false)) _ _ :=
          codegenIfStructure_abstracts ctx block condition (ih trueBranch (by simp) ha)
            (fun _ h => (Option.some_ne_none _ h.symm).elim) (fun _ => ⟨rfl, rfl⟩)
        rw [Bool.and_false] at hif
        exact hif
      · have hboth : AST.nothingFollows trueBranch = true ∧ AST.nothingFollows falseBranch = true :=
          (Bool.and_eq_true _ _).mp ha
        refine codegenIfStructure_abstracts ctx block condition (ih trueBranch (by simp) hboth.1)
          (fun d h => ?_) (fun h => (Option.some_ne_none _ h).elim)
        cases h
        exact ih falseBranch (by simp) hboth.2
      · exact hfault _ (by decide) _
    | _ => exact hfault _ (by decide) _

theorem storeArguments_abstracts (args : List AST) (index : Nat) :
    Abstracts (fun _ _ => True) (FunctionCodegen.storeArguments index args)
      (Check.storeArguments args) := by
  induction args generalizing index with
  | nil => exact .pure True.intro
  | cons c cs ih =>
    obtain ⟨n, cs'⟩ := c
    rw [FunctionCodegen.storeArguments, Check.storeArguments]
    have hstore : Abstracts (fun _ _ => True)
        (do
          FunctionCodegen.emit (.alloca n.node.id)
          FunctionCodegen.emit (.store (.argument index) n.node.id)
          FunctionCodegen.introduce n.node.id)
        (Check.introduce n.node.id) :=
      .after emit_abstracts fun _ _ => .after emit_abstracts fun _ _ => introduce_abstracts
    by_cases h : n.node.kind = .namedArgumentDecl
    · rw [if_pos h, if_pos h]
      exact hstore.bind fun _ _ _ => ih (index + 1)
    · rw [if_neg h, if_neg h]
      exact ih (index + 1)

/-- The code of a body is generated exactly if the body passes the check. -/
theorem codegenBody_abstracts (args body : AST) (h : AST.nothingFollows body) :
    Abstracts (fun _ _ => True) (FunctionCodegen.codegenBody ctx args body)
      (Check.codegenBody ctx args body) := by
  unfold FunctionCodegen.codegenBody Check.codegenBody FunctionCodegen.setUpStackFrame
  refine withValueScope_abstracts ?_
  have hentry : Abstracts (fun _ _ => True) FunctionCodegen.createEntryBlock (Pure.pure ()) :=
    fun _ => ⟨_, _, rfl, True.intro, rfl⟩
  simp only [bind_assoc, pure_bind]
  refine .after hentry fun block _ =>
    (storeArguments_abstracts args.children 0).bind fun _ _ _ => ?_
  rw [← bind_pure (Check.codegenStmt ctx body)]
  refine (codegenStmt_abstracts ctx body h block).bind fun r _ _ => ?_
  cases r with
  | none => exact .pure True.intro
  | some b => exact terminate_abstracts

end

end Swy
