import Swy.Codegen.OperandKinds

/-!
# Evaluation from left to right

What an expression means, without code: `evaluateExpr` evaluates the operands of an operator and the
arguments of a call from left to right, and takes the value of a variable when the reference to it
is evaluated. The generated code passes variables around as addresses and loads the left operand of
an operator behind the code of the right one, so that the two agree as long as no right operand
changes the variable of the left one (`StableOperands`).
-/

namespace Swy

open Library

/-- The values of the variables. -/
abbrev Store := NodeId → Word

/-- `NamedDeclContext::isVarDecl`. -/
def Node.isVarDecl (n : Node) : Bool := n.kind == .namedArgumentDecl || n.kind == .declStmt

/-- The variable whose address `codegenExpr` returns for an expression: a reference to a variable,
or an assignment that ends in one. -/
def AST.address? : AST → Option NodeId
  | .node n cs =>
    match n.node.data, cs with
    | .declRefExpr _, _ => (n.decl.filter Node.isVarDecl).map Node.id
    | .binaryOperatorExpr .assign, [_, right] => address? right
    | _, _ => none

section

variable (ctx : IRContext) (rt : Runtime)

/-- The value of a reference. -/
def evaluateDeclRefExpr (n : ASTNode) (σ : Store) : Value :=
  match n.decl with
  | none => .void
  | some decl =>
    match decl.kind with
    | .functionDecl =>
      match ctx.lookupGlobal decl.id with
      | some type => .function decl.id type
      | none => .void
    | .namedArgumentDecl | .declStmt => .int (σ decl.id)
    | .globalConstantDecl =>
      match ctx.constant decl.id with
      | some value => .int value
      | none => .void
    | _ => .void

/-- The value of an instantiation. -/
def evaluateMetaInstantiationExpr (inst : NodeId) : Value :=
  match ctx.lookupInstantiation inst with
  | some (function, type) => .function function type
  | none => .void

/-- What a call returns. -/
def evaluateCall (callee : Value) (arguments : List Value) : Value :=
  match callee with
  | .function decl type =>
    if type.returnsVoid then .void else .int (rt.calls decl (arguments.map Value.word))
  | _ => .void

/-- The store after an assignment. -/
def Store.assign (σ : Store) (left : AST) (value : Value) : Store :=
  match left.address? with
  | some decl => fun d => if d = decl then value.word else σ d
  | none => σ

mutual
/-- The value of an expression and the store behind it. -/
def evaluateExpr : AST → Store → Value × Store
  | .node n cs, σ =>
    match n.node.data, cs with
    | .declRefExpr _, _ => (evaluateDeclRefExpr ctx n σ, σ)
    | .metaInstantiationExpr, _ => (evaluateMetaInstantiationExpr ctx n.node.id, σ)
    | .integerLiteralExpr literal, _ => (.int literal, σ)
    | .booleanLiteralExpr literal, _ => (.int (if literal then 1 else 0), σ)
    | .binaryOperatorExpr op, [left, right] =>
      if op = .assign then
        let (v, σ₁) := evaluateExpr right σ
        (v, σ₁.assign left v)
      else
        let (v, σ₁) := evaluateExpr left σ
        let (w, σ₂) := evaluateExpr right σ₁
        (.int (op.evaluate v.word w.word), σ₂)
    | .callOperatorExpr, callee :: args =>
      let (v, σ₁) := evaluateExpr callee σ
      let (vs, σ₂) := evaluateArguments args σ₁
      (evaluateCall rt v vs, σ₂)
    | _, _ => (.void, σ)
/-- The values of the arguments of a call, from left to right. -/
def evaluateArguments : List AST → Store → List Value × Store
  | [], σ => ([], σ)
  | c :: cs, σ =>
    let (v, σ₁) := evaluateExpr c σ
    let (vs, σ₂) := evaluateArguments cs σ₁
    (v :: vs, σ₂)
end

mutual
/-- Where the left operand of an operator is a variable, the evaluation of the right operand leaves
the value of the variable as it is. -/
def StableOperands : AST → Store → Prop
  | .node n cs, σ =>
    match n.node.data, cs with
    | .binaryOperatorExpr op, [left, right] =>
      if op = .assign then StableOperands right σ
      else
        let σ₁ := (evaluateExpr ctx rt left σ).2
        StableOperands left σ ∧ StableOperands right σ₁ ∧
          ∀ decl, AST.address? left = some decl → (evaluateExpr ctx rt right σ₁).2 decl = σ₁ decl
    | .callOperatorExpr, callee :: args =>
      StableOperands callee σ ∧ StableArguments args (evaluateExpr ctx rt callee σ).2
    | _, _ => True
/-- `StableOperands` for each argument of a call. -/
def StableArguments : List AST → Store → Prop
  | [], _ => True
  | c :: cs, σ => StableOperands c σ ∧ StableArguments cs (evaluateExpr ctx rt c σ).2
end

end

/-! ## The expressions -/

/-- A reference to a known variable. -/
inductive AST.Variable (known : List (List NodeId)) : AST → Prop
  | declRefExpr {n : ASTNode} {cs : List AST} {name : String} {decl : Node} :
    n.node.data = .declRefExpr name → n.decl = some decl → decl.isVarDecl →
    known.any (·.contains decl.id) → Variable known (.node n cs)

section

variable (ctx : IRContext)

/-- Literals, references to the known variables and to constants, operators and calls with matching
arity; what returns void is no operand. -/
inductive AST.Evaluable (known : List (List NodeId)) : Bool → AST → Prop
  | literal {n : ASTNode} {cs : List AST} {value : Word} :
    n.node.data.literal? = some value → Evaluable known false (.node n cs)
  | declRefExpr {a : AST} : a.Variable known → Evaluable known false a
  | constant {n : ASTNode} {cs : List AST} {name : String} {decl : Node} {value : Word} :
    n.node.data = .declRefExpr name → n.decl = some decl → decl.kind = .globalConstantDecl →
    ctx.constant decl.id = some value → Evaluable known false (.node n cs)
  | assign {n : ASTNode} {left right : AST} :
    n.node.data = .binaryOperatorExpr .assign → left.Variable known →
    Evaluable known false right → Evaluable known false (.node n [left, right])
  | binaryOperatorExpr {n : ASTNode} {op : ExprBinaryOperator} {left right : AST} :
    n.node.data = .binaryOperatorExpr op → op ≠ .assign → Evaluable known false left →
    Evaluable known false right → Evaluable known false (.node n [left, right])
  | callOperatorExpr {n : ASTNode} {callee : AST} {args : List AST} {type : FunctionType} :
    n.node.data = .callOperatorExpr → ctx.calleeType callee = some type →
    type.params = args.length →
    (∀ c ∈ args, Evaluable known false c) →
    Evaluable known type.returnsVoid (.node n (callee :: args))

end

/-! ## What the code evaluates -/

/-- What loading a value yields. -/
def Value.loaded (σ : Store) : Value → Value
  | address decl => .int (σ decl)
  | v => v

section

variable {ctx : IRContext} {rt : Runtime}

@[simp] theorem loadMemory_value (v : Value) (μ : Memory) :
    (Interpreter.loadMemory v μ).value = v.loaded μ.slots := by
  cases v <;> rfl

@[simp] theorem loadMemory_memory (v : Value) (μ : Memory) :
    (Interpreter.loadMemory v μ).memory = μ := by
  cases v <;> rfl

/-- The value of an operator other than the assignment. -/
theorem evalBinaryOperatorExpr_of_ne {op : ExprBinaryOperator} (h : op ≠ .assign)
    (x y : Exec Value) (μ : Memory) :
    let v := x μ
    let w := y v.memory
    (Interpreter.evalBinaryOperatorExpr op x y μ).memory = w.memory ∧
      (Interpreter.evalBinaryOperatorExpr op x y μ).value =
        .int (op.evaluate (v.value.loaded w.memory.slots).word
          (w.value.loaded w.memory.slots).word) := by
  simp only [Interpreter.evalBinaryOperatorExpr, if_neg h, Exec.bind_apply, Exec.pure_apply,
    loadMemory_value, loadMemory_memory, and_self]

theorem evalDeclRefExpr_value_address (n : ASTNode) (μ : Memory) (decl : NodeId) :
    (Interpreter.evalDeclRefExpr ctx n μ).value = .address decl ↔
      (n.decl.filter Node.isVarDecl).map Node.id = some decl := by
  have impossible {v : Value} (h : v ≠ .address decl) :
      v = .address decl ↔ (none : Option NodeId) = some decl :=
    ⟨fun h' => absurd h' h, fun h' => by cases h'⟩
  unfold Interpreter.evalDeclRefExpr
  cases n.decl with
  | none => exact impossible nofun
  | some d =>
    have hvar : (Option.filter Node.isVarDecl (some d)).map Node.id =
        if d.isVarDecl then some d.id else none := by
      rw [Option.filter_some]
      split <;> rfl
    rw [hvar, Node.isVarDecl]
    cases hk : d.kind <;> simp only [hk]
    case functionDecl => cases ctx.lookupGlobal d.id <;> exact impossible nofun
    case globalConstantDecl => cases ctx.constant d.id <;> exact impossible nofun
    case namedArgumentDecl | declStmt =>
      exact ⟨fun h => by cases h; rfl, fun h => by cases h; rfl⟩
    all_goals exact impossible nofun

/-- An expression evaluates to the address of the variable it stands for. -/
theorem evalExpr_value_address (a : AST) (μ : Memory) (decl : NodeId) :
    (Interpreter.evalExpr ctx rt a μ).value = .address decl ↔ a.address? = some decl := by
  have impossible {v : Value} (h : v ≠ .address decl) :
      v = .address decl ↔ (none : Option NodeId) = some decl :=
    ⟨fun h' => absurd h' h, fun h' => by cases h'⟩
  induction a using Rose.ind generalizing μ with
  | h n cs ih =>
    obtain ⟨⟨id, data⟩, d, exportedDecls⟩ := n
    cases data with
    | declRefExpr name => exact evalDeclRefExpr_value_address _ μ decl
    | metaInstantiationExpr =>
      show (Interpreter.evalMetaInstantiationExpr ctx id μ).value = _ ↔ none = _
      unfold Interpreter.evalMetaInstantiationExpr
      cases ctx.lookupInstantiation id <;> exact impossible nofun
    | binaryOperatorExpr op =>
      rcases cs with _ | ⟨left, _ | ⟨right, _ | ⟨c, cs⟩⟩⟩
      case cons.cons.nil =>
        by_cases hop : op = .assign
        · subst hop
          exact ih right (by simp) _
        · have haddress : AST.address? (.node ⟨⟨id, .binaryOperatorExpr op⟩, d, exportedDecls⟩
              [left, right]) = none := by
            cases op <;> first | rfl | exact absurd rfl hop
          rw [haddress]
          have hvalue := (evalBinaryOperatorExpr_of_ne hop (Interpreter.evalExpr ctx rt left)
            (Interpreter.evalExpr ctx rt right) μ).2
          refine impossible fun h => ?_
          have h := hvalue.symm.trans h
          cases h
      all_goals cases op <;> exact impossible nofun
    | callOperatorExpr =>
      cases cs with
      | nil => exact impossible nofun
      | cons callee args =>
        refine impossible fun h => ?_
        have hcall : ∀ v vs μ, (Interpreter.evalCall rt v vs μ).value ≠ .address decl := by
          intro v vs μ
          cases v with
          | function f type =>
            show (if type.returnsVoid then Value.void else .int _) ≠ _
            split <;> exact nofun
          | _ => exact nofun
        exact hcall _ _ _ h
    | _ => exact impossible nofun

/-- Loading what a reference evaluates to yields its value. -/
theorem evalDeclRefExpr_evaluates (n : ASTNode) (μ : Memory) :
    (Interpreter.evalDeclRefExpr ctx n μ).memory = μ ∧
      (Interpreter.evalDeclRefExpr ctx n μ).value.loaded μ.slots =
        evaluateDeclRefExpr ctx n μ.slots := by
  unfold Interpreter.evalDeclRefExpr evaluateDeclRefExpr
  cases n.decl with
  | none => exact ⟨rfl, rfl⟩
  | some d =>
    cases hk : d.kind <;> simp only [hk]
    case functionDecl => cases ctx.lookupGlobal d.id <;> exact ⟨rfl, rfl⟩
    case globalConstantDecl => cases ctx.constant d.id <;> exact ⟨rfl, rfl⟩
    all_goals exact ⟨rfl, rfl⟩

/-- What a run of the interpreter has to do with an evaluation. -/
structure Evaluates (r : Result Value) (x : Value × Store) : Prop where
  value : r.value.loaded r.memory.slots = x.1
  store : r.memory.slots = x.2

/-- Loading yields the same value behind the store of the value itself. -/
theorem loaded_store (v : Value) (σ : Store) (decl : NodeId) :
    v.loaded (fun d => if d = decl then (v.loaded σ).word else σ d) = v.loaded σ := by
  cases v with
  | address d =>
    show Value.int (if d = decl then σ d else σ d) = .int (σ d)
    rw [ite_self]
  | _ => rfl

namespace Evaluates

variable {left right : AST} {μ : Memory} {x y : Exec Value}

/-- The left operand of an assignment is a reference, whose evaluation changes nothing. -/
theorem assign {decl : NodeId} (hleft : left.address? = some decl)
    (hx : (x μ).value = .address decl ∧ (x μ).memory = μ)
    (hy : Evaluates (y μ) (evaluateExpr ctx rt right μ.slots)) :
    Evaluates (Interpreter.evalBinaryOperatorExpr .assign x y μ)
      ((evaluateExpr ctx rt right μ.slots).1, Store.assign (evaluateExpr ctx rt right μ.slots).2
        left (evaluateExpr ctx rt right μ.slots).1) := by
  obtain ⟨hvalue, hmemory⟩ := hx
  obtain ⟨hv, hσ⟩ := hy
  have hstore : Store.assign (evaluateExpr ctx rt right μ.slots).2 left
      (evaluateExpr ctx rt right μ.slots).1 = fun d => if d = decl then
        ((y μ).value.loaded (y μ).memory.slots).word else (y μ).memory.slots d := by
    rw [Store.assign, hleft, ← hv, ← hσ]
  have heval : (Interpreter.evalBinaryOperatorExpr .assign x y μ).value = (y μ).value ∧
      (Interpreter.evalBinaryOperatorExpr .assign x y μ).memory.slots = fun d => if d = decl then
        ((y μ).value.loaded (y μ).memory.slots).word else (y μ).memory.slots d := by
    simp only [Interpreter.evalBinaryOperatorExpr, if_true, Exec.bind_apply, Exec.pure_apply,
      loadMemory_value, loadMemory_memory, hvalue, hmemory, Interpreter.store, Exec.store, and_self]
  refine ⟨?_, heval.2.trans hstore.symm⟩
  rw [heval.1, heval.2, loaded_store]
  exact hv

/-- The value of the left operand is the one it had when it was evaluated. -/
theorem binary {op : ExprBinaryOperator} (hop : op ≠ .assign) {a b : Value × Store}
    (hx : Evaluates (x μ) a) (hy : Evaluates (y (x μ).memory) b)
    (hstable : ∀ decl, (x μ).value = .address decl → b.2 decl = a.2 decl) :
    Evaluates (Interpreter.evalBinaryOperatorExpr op x y μ)
      (.int (op.evaluate a.1.word b.1.word), b.2) := by
  obtain ⟨hmemory, hvalue⟩ := evalBinaryOperatorExpr_of_ne hop x y μ
  have hloaded : (x μ).value.loaded (y (x μ).memory).memory.slots = a.1 := by
    rw [← hx.value]
    cases hv : (x μ).value with
    | address decl =>
      show Value.int ((y (x μ).memory).memory.slots decl) = .int ((x μ).memory.slots decl)
      rw [hx.store, hy.store, hstable decl hv]
    | _ => rfl
  refine ⟨?_, (congrArg Memory.slots hmemory).trans hy.store⟩
  rw [hvalue, hloaded, hy.value]
  rfl

/-- What a call returns does not depend on memory, and a callee is no variable. -/
theorem call {callee v : Value} {values vs : List Value} {σ τ : Store}
    (hcallee : callee.loaded σ = v) (hvalues : values = vs) (hμ : μ.slots = τ) :
    Evaluates (Interpreter.evalCall rt callee values μ) (evaluateCall rt v vs, τ) := by
  subst hcallee hvalues hμ
  cases callee with
  | function f type =>
    obtain ⟨params, returnsVoid⟩ := type
    cases returnsVoid <;> exact ⟨rfl, rfl⟩
  | _ => exact ⟨rfl, rfl⟩

end Evaluates

/-- The arguments are loaded one by one. -/
theorem evaluates_evalArguments (cs : List AST)
    (h : ∀ c ∈ cs, ∀ μ : Memory, StableOperands ctx rt c μ.slots →
      Evaluates (Interpreter.evalExpr ctx rt c μ) (evaluateExpr ctx rt c μ.slots))
    (μ : Memory) (hstable : StableArguments ctx rt cs μ.slots) :
    (Interpreter.evalArguments ctx rt cs μ).value = (evaluateArguments ctx rt cs μ.slots).1 ∧
      (Interpreter.evalArguments ctx rt cs μ).memory.slots =
        (evaluateArguments ctx rt cs μ.slots).2 := by
  induction cs generalizing μ with
  | nil => exact ⟨rfl, rfl⟩
  | cons c cs ih =>
    obtain ⟨hstable, hstable'⟩ := hstable
    obtain ⟨hvalue, hstore⟩ := h c List.mem_cons_self μ hstable
    rw [← hstore] at hstable'
    obtain ⟨hvalue', hstore'⟩ := ih (fun x hx => h x (List.mem_cons_of_mem _ hx)) _ hstable'
    rw [hstore] at hvalue' hstore'
    rw [Interpreter.evalArguments, evaluateArguments]
    simp only [Exec.bind_apply, Exec.pure_apply, loadMemory_value, loadMemory_memory]
    exact ⟨congrArg₂ List.cons hvalue hvalue', hstore'⟩

theorem AST.Variable.address {known : List (List NodeId)} {a : AST} (h : a.Variable known) :
    ∃ decl, a.address? = some decl := by
  cases h with
  | @declRefExpr n cs name decl hdata hdecl hvar hknown =>
    obtain ⟨⟨id, data⟩, d, exportedDecls⟩ := n
    cases hdata
    cases hdecl
    refine ⟨decl.id, ?_⟩
    show (Option.filter Node.isVarDecl (some decl)).map Node.id = some decl.id
    rw [Option.filter_some, if_pos hvar]
    rfl

/-- A reference evaluates without effect, and loading yields its value. -/
theorem evaluates_declRefExpr {n : ASTNode} {cs : List AST} {name : String}
    (hdata : n.node.data = .declRefExpr name) (μ : Memory) :
    (Interpreter.evalExpr ctx rt (.node n cs) μ).memory = μ ∧
      Evaluates (Interpreter.evalExpr ctx rt (.node n cs) μ)
        (evaluateExpr ctx rt (.node n cs) μ.slots) := by
  obtain ⟨⟨id, data⟩, d, exportedDecls⟩ := n
  cases hdata
  obtain ⟨hmemory, hvalue⟩ : (Interpreter.evalDeclRefExpr ctx
    ⟨⟨id, .declRefExpr name⟩, d, exportedDecls⟩ μ).memory = μ ∧ _ :=
    evalDeclRefExpr_evaluates _ μ
  refine ⟨hmemory, ?_, congrArg Memory.slots hmemory⟩
  show Value.loaded (Interpreter.evalDeclRefExpr ctx _ μ).memory.slots _ = _
  rw [hmemory]
  exact hvalue

/-- What is called evaluates without effect to a function. -/
theorem evaluates_callee {a : AST} {type : FunctionType} (h : ctx.calleeType a = some type)
    (μ : Memory) :
    Evaluates (Interpreter.evalExpr ctx rt a μ) (evaluateExpr ctx rt a μ.slots) := by
  obtain ⟨⟨⟨id, data⟩, d, exportedDecls⟩, cs⟩ := a
  cases data <;> try cases h
  case declRefExpr name => exact (evaluates_declRefExpr rfl μ).2
  case metaInstantiationExpr =>
    show Evaluates (Interpreter.evalMetaInstantiationExpr ctx id μ)
      (evaluateMetaInstantiationExpr ctx id, μ.slots)
    unfold Interpreter.evalMetaInstantiationExpr evaluateMetaInstantiationExpr
    cases ctx.lookupInstantiation id <;> exact ⟨rfl, rfl⟩

/-- The interpreter evaluates from left to right. -/
theorem evaluates_evalExpr {known : List (List NodeId)} {returnsVoid : Bool} {a : AST}
    (ha : a.Evaluable ctx known returnsVoid) (μ : Memory) (h : StableOperands ctx rt a μ.slots) :
    Evaluates (Interpreter.evalExpr ctx rt a μ) (evaluateExpr ctx rt a μ.slots) := by
  induction ha generalizing μ with
  | @literal n cs value hvalue =>
    obtain ⟨⟨id, data⟩, d, exportedDecls⟩ := n
    cases data with
    | integerLiteralExpr literal | booleanLiteralExpr literal => exact ⟨rfl, rfl⟩
    | _ => cases hvalue
  | declRefExpr hvar =>
    cases hvar with
    | declRefExpr hdata => exact (evaluates_declRefExpr hdata μ).2
  | constant hdata => exact (evaluates_declRefExpr hdata μ).2
  | @assign n left right hdata hvar hright ih =>
    obtain ⟨⟨id, data⟩, d, exportedDecls⟩ := n
    cases hdata
    obtain ⟨decl, hdecl⟩ := hvar.address
    have hmemory : (Interpreter.evalExpr ctx rt left μ).memory = μ := by
      cases hvar with
      | declRefExpr hdata => exact (evaluates_declRefExpr hdata μ).1
    exact .assign hdecl ⟨(evalExpr_value_address left μ decl).2 hdecl, hmemory⟩ (ih μ h)
  | @binaryOperatorExpr n op left right hdata hop hleft hright ihl ihr =>
    obtain ⟨⟨id, data⟩, d, exportedDecls⟩ := n
    cases hdata
    have hstable : StableOperands ctx rt (.node ⟨⟨id, .binaryOperatorExpr op⟩, d,
        exportedDecls⟩ [left, right]) μ.slots = _ := if_neg hop
    have hevaluate : evaluateExpr ctx rt (.node ⟨⟨id, .binaryOperatorExpr op⟩, d,
        exportedDecls⟩ [left, right]) μ.slots = _ := if_neg hop
    rw [hstable] at h
    rw [hevaluate]
    obtain ⟨hstableLeft, hstableRight, hstable⟩ := h
    have hl := ihl μ hstableLeft
    rw [← hl.store] at hstableRight
    have hr := ihr _ hstableRight
    rw [hl.store] at hr
    exact .binary hop hl hr fun decl hv => hstable decl ((evalExpr_value_address left μ decl).1 hv)
  | @callOperatorExpr n callee args type hdata hcallee hparams hargs ih =>
    obtain ⟨⟨id, data⟩, d, exportedDecls⟩ := n
    cases hdata
    obtain ⟨-, hstable'⟩ := h
    obtain ⟨hvalue, hstore⟩ : Evaluates (Interpreter.evalExpr ctx rt callee μ) _ :=
      evaluates_callee hcallee μ
    rw [← hstore] at hstable'
    obtain ⟨hvalues, hstore'⟩ := evaluates_evalArguments args ih _ hstable'
    rw [hstore] at hvalues hstore'
    have hcall : Evaluates (Interpreter.evalCall rt _ _ _) _ := .call hvalue hvalues hstore'
    exact ⟨hcall.value, hcall.store⟩

end

/-! ## Generating the code -/

section

variable {ctx : IRContext} {known : List (List NodeId)}

/-- A check that succeeds and introduces nothing goes on with what it returned. -/
theorem check_bind {α β : Type} {k : CheckM α} {f : α → CheckM β} {a : α}
    (h : k known = some (a, known)) : (k >>= f) known = f a known := by
  simp only [Bind.bind, StateT.bind, h, Option.bind_some]

theorem AST.Variable.check {a : AST} (h : a.Variable known) :
    Check.codegenExpr ctx a known = some (.variable, known) := by
  cases h with
  | @declRefExpr n cs name decl hdata hdecl hvar hknown =>
    obtain ⟨⟨id, data⟩, d, exportedDecls⟩ := n
    cases hdata
    cases hdecl
    show Check.codegenDeclRefExpr ctx ⟨⟨id, .declRefExpr name⟩, some decl, exportedDecls⟩ known = _
    unfold Check.codegenDeclRefExpr
    have hkind : decl.kind = .namedArgumentDecl ∨ decl.kind = .declStmt := by
      simpa [Node.isVarDecl] using hvar
    rcases hkind with hkind | hkind <;> simp only [hkind] <;>
      exact Check.lookupLocal_some hknown

/-- What is loaded from an integer or a variable is an integer. -/
theorem checkLoadMemory {kind : OperandKind} (h : kind = .integer ∨ kind = .variable) :
    Check.loadMemory kind known = some (.integer, known) := by
  rcases h with rfl | rfl <;> rfl

theorem checkArguments {cs : List AST} (h : ∀ c ∈ cs, ∃ kind,
      Check.codegenExpr ctx c known = some (kind, known) ∧
      (kind = .integer ∨ kind = .variable)) :
    Check.codegenArguments ctx cs known = some (List.replicate cs.length .integer, known) := by
  induction cs with
  | nil => rfl
  | cons c cs ih =>
    obtain ⟨kind, hc, hkind⟩ := h c List.mem_cons_self
    rw [Check.codegenArguments, check_bind hc, check_bind (checkLoadMemory hkind),
      check_bind (ih fun x hx => h x (List.mem_cons_of_mem _ hx))]
    rfl

/-- The operands of the expressions have the kinds they need. -/
theorem AST.Evaluable.check {a : AST} {returnsVoid : Bool} (h : a.Evaluable ctx known returnsVoid) :
    ∃ kind, Check.codegenExpr ctx a known = some (kind, known) ∧
      (if returnsVoid then kind = .void else kind = .integer ∨ kind = .variable) := by
  induction h with
  | @literal n cs value hvalue =>
    obtain ⟨⟨id, data⟩, d, exportedDecls⟩ := n
    cases data with
    | integerLiteralExpr literal | booleanLiteralExpr literal => exact ⟨.integer, rfl, .inl rfl⟩
    | _ => cases hvalue
  | declRefExpr hvar => exact ⟨.variable, hvar.check, .inr rfl⟩
  | @constant n cs name decl value hdata hdecl hkind hconstant =>
    obtain ⟨⟨id, data⟩, d, exportedDecls⟩ := n
    cases hdata
    cases hdecl
    refine ⟨.integer, ?_, .inl rfl⟩
    show Check.codegenDeclRefExpr ctx ⟨⟨id, .declRefExpr name⟩, some decl, exportedDecls⟩ known = _
    unfold Check.codegenDeclRefExpr
    simp only [hkind, hconstant]
    rfl
  | @assign n left right hdata hvar hright ih =>
    obtain ⟨⟨id, data⟩, d, exportedDecls⟩ := n
    cases hdata
    obtain ⟨kind, hkind, hvalue⟩ := ih
    refine ⟨kind, ?_, hvalue⟩
    show Check.codegenBinaryOperatorExpr .assign (Check.codegenExpr ctx left)
      (Check.codegenExpr ctx right) known = _
    unfold Check.codegenBinaryOperatorExpr
    rw [check_bind hvar.check, check_bind hkind, if_pos rfl, check_bind (checkLoadMemory hvalue)]
    rfl
  | @binaryOperatorExpr n op left right hdata hop hleft hright ihl ihr =>
    obtain ⟨⟨id, data⟩, d, exportedDecls⟩ := n
    cases hdata
    obtain ⟨kind, hkind, hvalue⟩ := ihl
    obtain ⟨kind', hkind', hvalue'⟩ := ihr
    refine ⟨.integer, ?_, .inl rfl⟩
    show Check.codegenBinaryOperatorExpr op (Check.codegenExpr ctx left)
      (Check.codegenExpr ctx right) known = _
    unfold Check.codegenBinaryOperatorExpr
    rw [check_bind hkind, check_bind hkind', if_neg hop, check_bind (checkLoadMemory hvalue),
      check_bind (checkLoadMemory hvalue')]
    rfl
  | @callOperatorExpr n callee args type hdata hcallee hparams hargs ih =>
    obtain ⟨⟨id, data⟩, d, exportedDecls⟩ := n
    cases hdata
    refine ⟨if type.returnsVoid then .void else .integer, ?_, ?_⟩
    · show (Check.codegenExpr ctx callee >>= fun kind => Check.codegenArguments ctx args >>=
        fun kinds => Check.createCall kind kinds) known = _
      rw [check_bind (Check.callee_kind hcallee), check_bind (checkArguments fun c hc => ih c hc)]
      have hkinds : type.params = (List.replicate args.length OperandKind.integer).length ∧
          ∀ kind ∈ List.replicate args.length OperandKind.integer, kind = .integer :=
        ⟨by rw [hparams, List.length_replicate], fun kind h => List.eq_of_mem_replicate h⟩
      have hcall : Check.createCall (.function type)
          (List.replicate args.length OperandKind.integer) = _ := if_pos hkinds
      rw [hcall]
      rfl
    · cases type.returnsVoid
      · exact .inl rfl
      · rfl

/-! ## Left to right -/

/-- Code is generated for the expression, and running it yields the value and the store of the
evaluation. -/
def ComputesLeftToRight (ctx : IRContext) (rt : Runtime) (arguments : List Word) (a : AST)
    (s : CodegenState) (m : Machine) : Prop :=
  ∃ o s', (FunctionCodegen.codegenExpr ctx a >>= FunctionCodegen.loadMemory) s = .ok (o, s') ∧
    ∀ code, s'.blocks.Extends code → ∃ m',
      Reaches (step rt arguments code) (s.here, m) (s'.here, m') ∧
        (o.denote arguments m'.registers, m'.memory.slots) = evaluateExpr ctx rt a m.memory.slots

/-- As long as no right operand changes the variable the left one stands for, the code computes the
evaluation from left to right. -/
theorem codegenExpr_evaluates (rt : Runtime) (arguments : List Word) {a : AST} {s : CodegenState}
    {returnsVoid : Bool} (ha : a.Evaluable ctx s.values returnsVoid) (hs : s.Positioned)
    (m : Machine) (hstable : StableOperands ctx rt a m.memory.slots) :
    ComputesLeftToRight ctx rt arguments a s m := by
  obtain ⟨kind, hkind, hvalue⟩ := ha.check
  have hload : ((Check.codegenExpr ctx a >>= Check.loadMemory) s.values).isSome := by
    rw [check_bind hkind]
    cases returnsVoid with
    | false => rw [checkLoadMemory hvalue, Option.isSome_some]
    | true =>
      obtain rfl : kind = .void := hvalue
      rfl
  have habstracts : Abstracts HasKind
      (FunctionCodegen.codegenExpr ctx a >>= FunctionCodegen.loadMemory)
      (Check.codegenExpr ctx a >>= Check.loadMemory) :=
    (codegenExpr_abstracts ctx a).bind fun _ _ => loadMemory_abstracts
  obtain ⟨o, s', hc⟩ := (habstracts.ok_iff s).2 hload
  have hemits : Emits rt arguments .trivial _ _ _ := returnExpr_emits ctx a
  obtain ⟨-, hrun⟩ := hemits hs hc
  refine ⟨o, s', hc, fun code hcode => ?_⟩
  obtain ⟨m', hp, ho⟩ := hrun code hcode m True.intro
  obtain ⟨hv, hσ⟩ := evaluates_evalExpr ha m.memory hstable
  refine ⟨m', hp.reaches, Prod.ext ?_ ?_⟩
  · rw [← hv, ho.2, Exec.bind_apply]
    exact loadMemory_value _ _
  · rw [← hσ, hp.after.memory, Exec.bind_apply]
    exact congrArg Memory.slots (loadMemory_memory _ _)

/-- `(x = 5) + x` is 10. -/
theorem codegenExpr_evaluates_assign :
    let x (id : NodeId) : AST := .node ⟨⟨id, .declRefExpr "x"⟩, some ⟨1, .declStmt "x"⟩, []⟩ []
    let assign : AST := .node ⟨⟨3, .binaryOperatorExpr .assign⟩, none, []⟩
      [x 4, .node ⟨⟨5, .integerLiteralExpr 5⟩, none, []⟩ []]
    let a : AST := .node ⟨⟨2, .binaryOperatorExpr .plus⟩, none, []⟩ [assign, x 6]
    let ctx : IRContext := ⟨fun _ => none, fun _ => none⟩
    let rt : Runtime := ⟨fun _ _ => 0, fun _ _ => true, fun _ => 1⟩
    let s : CodegenState := ⟨[[]], 0, 0, [[1]], ⟨.topLevel, .outside⟩⟩
    ComputesLeftToRight ctx rt [] a s (.start rt.memory) ∧
      (evaluateExpr ctx rt a rt.memory.slots).1 = .int 10 := by
  intro x assign a ctx rt s
  have hx (id : NodeId) : (x id).Variable s.values := .declRefExpr rfl rfl rfl (by decide)
  have ha : a.Evaluable ctx s.values false :=
    .binaryOperatorExpr rfl (by decide) (.assign rfl (hx 4) (.literal rfl)) (.declRefExpr (hx 6))
  exact ⟨codegenExpr_evaluates rt [] ha Nat.zero_lt_one (.start rt.memory)
    ⟨True.intro, True.intro, fun decl h => by cases h⟩, rfl⟩

/-- `x + (x = 5)` with 1 in `x`: the code adds 5 and 5. -/
theorem codegenExpr_not_evaluates :
    ¬ ∀ (ctx : IRContext) (rt : Runtime) (arguments : List Word) (a : AST) (s : CodegenState)
      (returnsVoid : Bool) (m : Machine), a.Evaluable ctx s.values returnsVoid → s.Positioned →
      ComputesLeftToRight ctx rt arguments a s m := by
  intro h
  let x (id : NodeId) : AST := .node ⟨⟨id, .declRefExpr "x"⟩, some ⟨1, .declStmt "x"⟩, []⟩ []
  let assign : AST := .node ⟨⟨3, .binaryOperatorExpr .assign⟩, none, []⟩
    [x 4, .node ⟨⟨5, .integerLiteralExpr 5⟩, none, []⟩ []]
  let a : AST := .node ⟨⟨2, .binaryOperatorExpr .plus⟩, none, []⟩ [x 6, assign]
  let ctx : IRContext := ⟨fun _ => none, fun _ => none⟩
  let s : CodegenState := ⟨[[]], 0, 0, [[1]], ⟨.topLevel, .outside⟩⟩
  let rt : Runtime := ⟨fun _ _ => 0, fun _ _ => true, fun _ => 1⟩
  have hx (id : NodeId) : (x id).Variable s.values := .declRefExpr rfl rfl rfl (by decide)
  have ha : a.Evaluable ctx s.values false :=
    .binaryOperatorExpr rfl (by decide) (.declRefExpr (hx 6)) (.assign rfl (hx 4) (.literal rfl))
  obtain ⟨o, s', hc, hrun⟩ := h ctx rt [] a s false (.start rt.memory) ha Nat.zero_lt_one
  -- the five instructions of the code
  obtain ⟨s₁, m₁, hok, hfive, hstuck, hten⟩ : ∃ s₁ m₁,
      (FunctionCodegen.codegenExpr ctx a >>= FunctionCodegen.loadMemory) s =
        .ok (.register 1, s₁) ∧
      Reaches (step rt [] s₁.blocks) (s.here, .start rt.memory) (s₁.here, m₁) ∧
      (∀ m, step rt [] s₁.blocks (s₁.here, m) = .stuck) ∧ m₁.registers 1 = 10 :=
    ⟨_, _, rfl, ⟨5, rfl⟩, fun _ => rfl, by decide⟩
  obtain ⟨rfl, rfl⟩ := Prod.mk.inj (Except.ok.inj (hok.symm.trans hc))
  obtain ⟨m', hreaches, hvalue⟩ := hrun _ .refl
  obtain rfl : m₁ = m' := congrArg Prod.snd (hfive.unique hreaches (hstuck _) (hstuck _))
  have hsix : Operand.denote [] m₁.registers (.register 1) = .int 6 := congrArg Prod.fst hvalue
  rw [Operand.denote, hten] at hsix
  exact absurd hsix (by decide)

end

end Swy
