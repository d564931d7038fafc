import Swy.Codegen.Values
import Swy.Sema.OperandPositions

/-!
# Which functions are generated

No check of the front end looks at what an operand is. `operandKind` and `fits` are the rules the
code generation imposes by itself: the kind of an operand is told by the form of the expression and
by what the names in it were resolved to, and every node asks for operands of certain kinds. A
function of an accepted unit is generated exactly if its body follows these rules, nothing follows
what terminates, and the named return declaration is not used (`codegen_iff_wellKinded`).
-/

namespace Swy

open Library

/-- What is loaded of the operand is an integer. -/
def OperandKind.holdsInteger : OperandKind → Bool
  | integer | .variable => true
  | function _ | void => false

/-- The operand can be loaded. -/
def OperandKind.isLoadable : OperandKind → Bool
  | function _ => false
  | _ => true

/-- The children are compiled with the node. An instantiation is compiled to the function it
exports, without its arguments. -/
def ASTKind.compilesChildren (k : ASTKind) : Bool := k.hasChildren && k != .metaInstantiationExpr

namespace IRContext

variable (ctx : IRContext)

/-! ## The rules -/

/-- The kind of the operand that an expression is compiled to. -/
def operandKind : AST → OperandKind
  | .node n cs =>
    match n.node.data, cs with
    | .declRefExpr _, _ =>
      if n.decl.any Node.isVarDecl then .variable
      else (ctx.calleeType (.node n cs)).elim .integer .function
    | .metaInstantiationExpr, _ => (ctx.calleeType (.node n cs)).elim .integer .function
    | .binaryOperatorExpr op, [_, right] => if op = .assign then operandKind right else .integer
    | .callOperatorExpr, callee :: _ =>
      if (ctx.calleeType callee).any FunctionType.returnsVoid then .void else .integer
    | _, _ => .integer

/-- What the code generation asks of a node. A call by name was already checked by the analysis, and
nothing is loaded for an expression statement or a condition. -/
def fits : AST → Bool
  | .node n cs =>
    match n.node.data, cs with
    | .declRefExpr _, _ => n.decl.any fun d =>
      d.isVarDecl || d.kind == .globalConstantDecl || d.kind == .functionDecl
    | .metaInstantiationExpr, _ => (ctx.lookupInstantiation n.node.id).isSome
    | .binaryOperatorExpr op, [left, right] =>
      (if op = .assign then ctx.operandKind left == .variable
        else (ctx.operandKind left).holdsInteger) && (ctx.operandKind right).holdsInteger
    | .callOperatorExpr, callee :: args =>
      (AST.kind callee == .declRefExpr ||
        (ctx.calleeType callee).any fun type => type.params == args.length) &&
          args.all fun arg => (ctx.operandKind arg).holdsInteger
    | .returnStmt, cs => cs.all fun expr => (ctx.operandKind expr).isLoadable
    | .declStmt _, cs => cs.all fun expr => (ctx.operandKind expr).holdsInteger
    | .ifStmt, condition :: _ => ctx.operandKind condition != .void
    | .metaIfStmt, _ | .metaCalculationStmt, _ => false
    | _, _ => true

mutual
/-- Every node that is compiled with a tree follows its rule. -/
def wellKinded : AST → Bool
  | .node n cs => ctx.fits (.node n cs) && (!n.node.kind.compilesChildren || wellKindedAll cs)
/-- `wellKinded` of each tree of a list. -/
def wellKindedAll : List AST → Bool
  | [] => true
  | c :: cs => wellKinded c && wellKindedAll cs
end

variable {ctx}

theorem wellKindedAll_iff {cs : List AST} :
    ctx.wellKindedAll cs = true ↔ ∀ c ∈ cs, ctx.wellKinded c = true := by
  induction cs with
  | nil => simp [wellKindedAll]
  | cons c cs ih => simp [wellKindedAll, ih]

theorem wellKinded_node {n : ASTNode} {cs : List AST} (hn : n.node.kind.compilesChildren = true) :
    ctx.wellKinded (.node n cs) = true ↔
      ctx.fits (.node n cs) = true ∧ ∀ c ∈ cs, ctx.wellKinded c = true := by
  rw [wellKinded, hn, Bool.and_eq_true, Bool.not_true, Bool.false_or, wellKindedAll_iff]

theorem wellKinded_leaf {n : ASTNode} {cs : List AST} (hn : n.node.kind.compilesChildren = false) :
    ctx.wellKinded (.node n cs) = ctx.fits (.node n cs) := by
  rw [wellKinded, hn, Bool.not_false, Bool.true_or, Bool.and_true]

/-- What can be called is a function. -/
theorem operandKind_of_calleeType {a : AST} {type : FunctionType}
    (h : ctx.calleeType a = some type) : ctx.operandKind a = .function type := by
  obtain ⟨⟨⟨id, data⟩, decl, exportedDecls⟩, cs⟩ := a
  cases data <;> try cases h
  case declRefExpr name =>
    cases decl with
    | none => cases h
    | some d =>
      have hk : d.kind = .functionDecl := by
        simp only [calleeType, Option.bind_some, Option.ite_none_right_eq_some] at h
        exact h.1
      have hvar : d.isVarDecl = false := by rw [Node.isVarDecl, hk]; rfl
      simp [operandKind, hvar, h]
  case metaInstantiationExpr => simp [operandKind, h]

end IRContext

namespace Check

variable {ctx : IRContext} {known known' : List (List NodeId)}

/-! ## What passes the check follows the rules -/

/-- The kind of what is loaded. -/
theorem loadMemory_some {kind kind' : OperandKind}
    (h : loadMemory kind known = some (kind', known')) :
    kind.isLoadable = true ∧ (kind' = .integer ↔ kind.holdsInteger = true) := by
  cases kind with
  | function type => cases h
  | integer | «variable» | void =>
    cases h
    simp [OperandKind.isLoadable, OperandKind.holdsInteger]

/-- A function is what can be called, and of a variable or a constant nothing can. -/
theorem declRefExpr_operandKind {n : ASTNode} {cs : List AST} {name : Identifier}
    {kind : OperandKind} (hn : n.node.data = .declRefExpr name)
    (h : codegenDeclRefExpr ctx n known = some (kind, known')) :
    ctx.fits (.node n cs) = true ∧ kind = ctx.operandKind (.node n cs) := by
  obtain ⟨⟨id, data⟩, decl, exportedDecls⟩ := n
  cases hn
  obtain ⟨d, hd, hkind⟩ := declRefExpr_kind h
  cases hd
  rcases hkind with ⟨hk | hk, rfl⟩ | ⟨hk, rfl⟩ | ⟨hk, type, rfl⟩
  · simp [IRContext.fits, IRContext.operandKind, Node.isVarDecl, hk]
  · simp [IRContext.fits, IRContext.operandKind, Node.isVarDecl, hk]
  · simp [IRContext.fits, IRContext.operandKind, IRContext.calleeType, Node.isVarDecl, hk]
  · have htype : ctx.calleeType (.node ⟨⟨id, .declRefExpr name⟩, some d, exportedDecls⟩ cs) =
        some type := calleeType_of_kind h
    refine ⟨by simp [IRContext.fits, hk], ?_⟩
    exact (IRContext.operandKind_of_calleeType htype).symm

/-- Where an expression passes the check, it follows the rules and has the kind they tell. -/
def FollowsRules (ctx : IRContext) (a : AST) : Prop :=
  ∀ {known known' kind}, codegenExpr ctx a known = some (kind, known') →
    ctx.wellKinded a = true ∧ kind = ctx.operandKind a

/-- The operands of a binary operator are what it asks for. -/
theorem followsRules_binaryOperatorExpr {n : ASTNode} {op : ExprBinaryOperator} {left right : AST}
    (hn : n.node.data = .binaryOperatorExpr op) (hl : FollowsRules ctx left)
    (hr : FollowsRules ctx right) : FollowsRules ctx (.node n [left, right]) := by
  intro known known' kind h
  obtain ⟨⟨id, data⟩, decl, exportedDecls⟩ := n
  cases hn
  obtain ⟨target, known₁, hleft, h⟩ := bind_some.1 h
  obtain ⟨value, known₂, hright, h⟩ := bind_some.1 h
  obtain ⟨hl, rfl⟩ := hl hleft
  obtain ⟨hr, rfl⟩ := hr hright
  rw [IRContext.wellKinded_node rfl]
  by_cases hop : op = .assign
  · rw [if_pos hop] at h
    obtain ⟨loaded, known₃, hload, h⟩ := bind_some.1 h
    obtain ⟨_, known₄, hstore, h⟩ := bind_some.1 h
    obtain ⟨rfl, rfl⟩ := Prod.mk.inj (pure_some.1 h)
    have hinteger := (loadMemory_some hload).2
    have hvariable : ctx.operandKind left = .variable ∧ loaded = .integer := by
      cases hk : ctx.operandKind left <;> rw [hk] at hstore <;> try cases hstore
      by_cases hloaded : loaded = .integer
      · exact ⟨rfl, hloaded⟩
      · rw [createStore, if_neg hloaded] at hstore
        cases hstore
    have hholds := hinteger.1 hvariable.2
    simp [IRContext.fits, IRContext.operandKind, hop, hvariable.1, hholds, hl, hr]
  · rw [if_neg hop] at h
    obtain ⟨l, known₃, hloadLeft, h⟩ := bind_some.1 h
    obtain ⟨r, known₄, hloadRight, h⟩ := bind_some.1 h
    by_cases hboth : l = .integer ∧ r = .integer
    · rw [if_pos hboth] at h
      obtain ⟨rfl, rfl⟩ := Prod.mk.inj (pure_some.1 h)
      have hleft := (loadMemory_some hloadLeft).2.1 hboth.1
      have hright := (loadMemory_some hloadRight).2.1 hboth.2
      simp [IRContext.fits, IRContext.operandKind, hop, hleft, hright, hl, hr]
    · rw [if_neg hboth] at h
      cases h

/-- Arguments that are all integers are loaded of operands that hold one. -/
theorem followsRules_codegenArguments {cs : List AST} {kinds : List OperandKind}
    (hcs : ∀ c ∈ cs, FollowsRules ctx c)
    (h : codegenArguments ctx cs known = some (kinds, known')) :
    kinds.length = cs.length ∧ (∀ c ∈ cs, ctx.wellKinded c = true) ∧
      ((∀ kind ∈ kinds, kind = .integer) →
        ∀ c ∈ cs, (ctx.operandKind c).holdsInteger = true) := by
  induction cs generalizing known kinds with
  | nil =>
    cases pure_some.1 h
    simp
  | cons c cs ih =>
    rw [codegenArguments] at h
    obtain ⟨value, known₁, hvalue, h⟩ := bind_some.1 h
    obtain ⟨arg, known₂, harg, h⟩ := bind_some.1 h
    obtain ⟨args, known₃, hargs, h⟩ := bind_some.1 h
    cases pure_some.1 h
    obtain ⟨hc, rfl⟩ := hcs c List.mem_cons_self hvalue
    obtain ⟨hlength, hall, hintegers⟩ := ih (fun x hx => hcs x (List.mem_cons_of_mem _ hx)) hargs
    refine ⟨by simp [hlength], List.forall_mem_cons.2 ⟨hc, hall⟩, fun hkinds => ?_⟩
    obtain ⟨hfirst, hrest⟩ := List.forall_mem_cons.1 hkinds
    exact List.forall_mem_cons.2 ⟨(loadMemory_some harg).2.1 hfirst, hintegers hrest⟩

/-- What is called is a function with as many parameters as there are arguments. -/
theorem followsRules_callOperatorExpr {n : ASTNode} {callee : AST} {args : List AST}
    (hn : n.node.data = .callOperatorExpr) (hcallee : FollowsRules ctx callee)
    (hargs : ∀ c ∈ args, FollowsRules ctx c) : FollowsRules ctx (.node n (callee :: args)) := by
  intro known known' kind h
  obtain ⟨⟨id, data⟩, decl, exportedDecls⟩ := n
  cases hn
  obtain ⟨function, known₁, hfunction, h⟩ := bind_some.1 h
  obtain ⟨kinds, known₂, hkinds, h⟩ := bind_some.1 h
  obtain ⟨hlength, hall, hintegers⟩ := followsRules_codegenArguments hargs hkinds
  rw [IRContext.wellKinded_node rfl]
  cases function with
  | function type =>
    have htype := calleeType_of_kind hfunction
    have hwell := (hcallee hfunction).1
    rw [createCall] at h
    by_cases hcall : type.params = kinds.length ∧ ∀ kind ∈ kinds, kind = .integer
    · rw [if_pos hcall] at h
      obtain ⟨rfl, rfl⟩ := Prod.mk.inj (pure_some.1 h)
      have hholds := hintegers hcall.2
      have hfits : ctx.fits (.node ⟨⟨id, .callOperatorExpr⟩, decl, exportedDecls⟩
          (callee :: args)) = true := by
        simpa [IRContext.fits, htype, hcall.1, hlength] using hholds
      refine ⟨⟨hfits, List.forall_mem_cons.2 ⟨hwell, hall⟩⟩, ?_⟩
      simp [IRContext.operandKind, htype]
    · rw [if_neg hcall] at h
      cases h
  | _ => cases h

theorem followsRules_codegenExpr (a : AST) : FollowsRules ctx a := by
  induction a using Rose.ind with
  | h n cs ih =>
    intro known known' kind h
    obtain ⟨⟨id, data⟩, decl, exportedDecls⟩ := n
    cases data with
    | declRefExpr name =>
      rw [IRContext.wellKinded_leaf rfl]
      exact declRefExpr_operandKind rfl h
    | metaInstantiationExpr =>
      have h : codegenMetaInstantiationExpr ctx id known = some (kind, known') := h
      unfold codegenMetaInstantiationExpr at h
      cases hlookup : ctx.lookupInstantiation id with
      | none =>
        rw [hlookup] at h
        cases h
      | some function =>
        rw [hlookup] at h
        cases pure_some.1 h
        rw [IRContext.wellKinded_leaf rfl]
        simp [IRContext.fits, IRContext.operandKind, IRContext.calleeType, hlookup]
    | integerLiteralExpr literal | booleanLiteralExpr literal =>
      cases h
      exact ⟨IRContext.wellKinded_leaf rfl, rfl⟩
    | binaryOperatorExpr op =>
      rcases cs with _ | ⟨left, _ | ⟨right, _ | ⟨c, cs⟩⟩⟩
      case cons.cons.nil =>
        exact followsRules_binaryOperatorExpr rfl (ih left (by simp)) (ih right (by simp)) h
      all_goals cases h
    | callOperatorExpr =>
      cases cs with
      | nil => cases h
      | cons callee args =>
        exact followsRules_callOperatorExpr rfl (ih callee List.mem_cons_self)
          (fun c hc => ih c (List.mem_cons_of_mem _ hc)) h
    | _ => cases h

theorem codegenStmts_wellKinded {cs : List AST}
    (hcs : ∀ c ∈ cs, ∀ {known known'}, codegenStmt ctx c known = some ((), known') →
      ctx.wellKinded c = true)
    (h : codegenStmts ctx cs known = some ((), known')) : ∀ c ∈ cs, ctx.wellKinded c = true := by
  induction cs generalizing known with
  | nil => simp
  | cons c cs ih =>
    obtain ⟨_, known₁, hc, hrest⟩ := bind_some.1 h
    exact List.forall_mem_cons.2 ⟨hcs c List.mem_cons_self hc,
      ih (fun x hx => hcs x (List.mem_cons_of_mem _ hx)) hrest⟩

/-- Both branches of an if structure pass the check, and the condition is not void. -/
theorem codegenIfStructure_wellKinded {condition : AST} {k k' : CheckM Unit}
    (h : codegenIfStructure ctx condition k k' known = some ((), known')) :
    (∃ known₁, k known = some ((), known₁) ∧ ∃ known₂, k' known₁ = some ((), known₂)) ∧
      ctx.wellKinded condition = true ∧ ctx.operandKind condition ≠ .void := by
  obtain ⟨_, known₁, htrue, h⟩ := bind_some.1 h
  obtain ⟨_, known₂, hfalse, h⟩ := bind_some.1 h
  obtain ⟨kind, known₃, hcondition, h⟩ := bind_some.1 h
  obtain ⟨hwell, rfl⟩ := followsRules_codegenExpr condition hcondition
  refine ⟨⟨known₁, htrue, known₂, hfalse⟩, hwell, fun hvoid => ?_⟩
  rw [hvoid] at h
  cases h

/-- A statement that passes the check follows the rules. -/
theorem codegenStmt_wellKinded (a : AST) : ∀ {known known'},
    codegenStmt ctx a known = some ((), known') → ctx.wellKinded a = true := by
  induction a using Rose.ind with
  | h n cs ih =>
    intro known known' h
    obtain ⟨⟨id, data⟩, decl, exportedDecls⟩ := n
    cases data with
    | compoundStmt =>
      obtain ⟨_, known₁, -, h⟩ := bind_some.1 h
      obtain ⟨_, known₂, hstmts, -⟩ := bind_some.1 h
      exact (IRContext.wellKinded_node rfl).2 ⟨rfl, codegenStmts_wellKinded ih hstmts⟩
    | unscopedCompoundStmt =>
      exact (IRContext.wellKinded_node rfl).2 ⟨rfl, codegenStmts_wellKinded ih h⟩
    | returnStmt =>
      rcases cs with _ | ⟨expr, _ | ⟨c, cs⟩⟩
      · exact (IRContext.wellKinded_node rfl).2 ⟨rfl, by simp⟩
      · obtain ⟨value, known₁, hvalue, h⟩ := bind_some.1 h
        obtain ⟨loaded, known₂, hload, -⟩ := bind_some.1 h
        obtain ⟨hexpr, rfl⟩ := followsRules_codegenExpr expr hvalue
        have hloadable := (loadMemory_some hload).1
        exact (IRContext.wellKinded_node rfl).2
          ⟨by simp [IRContext.fits, hloadable], List.forall_mem_singleton.2 hexpr⟩
      · cases h
    | expressionStmt =>
      rcases cs with _ | ⟨expr, _ | ⟨c, cs⟩⟩
      · cases h
      · obtain ⟨value, known₁, hvalue, -⟩ := bind_some.1 h
        have hexpr := (followsRules_codegenExpr expr hvalue).1
        exact (IRContext.wellKinded_node rfl).2 ⟨rfl, List.forall_mem_singleton.2 hexpr⟩
      · cases h
    | declStmt name =>
      rcases cs with _ | ⟨expr, _ | ⟨c, cs⟩⟩
      · cases h
      · obtain ⟨value, known₁, hvalue, h⟩ := bind_some.1 h
        obtain ⟨loaded, known₂, hload, h⟩ := bind_some.1 h
        obtain ⟨_, known₃, hstore, -⟩ := bind_some.1 h
        obtain ⟨hexpr, rfl⟩ := followsRules_codegenExpr expr hvalue
        have hholds : (ctx.operandKind expr).holdsInteger = true := by
          by_cases hloaded : loaded = .integer
          · exact (loadMemory_some hload).2.1 hloaded
          · rw [createStore, if_neg hloaded] at hstore
            cases hstore
        exact (IRContext.wellKinded_node rfl).2
          ⟨by simp [IRContext.fits, hholds], List.forall_mem_singleton.2 hexpr⟩
      · cases h
    | ifStmt =>
      rcases cs with _ | ⟨condition, _ | ⟨trueBranch, _ | ⟨falseBranch, _ | ⟨c, cs⟩⟩⟩⟩
      · cases h
      · cases h
      · obtain ⟨⟨known₁, htrue, -⟩, hcondition, hvoid⟩ := codegenIfStructure_wellKinded h
        have hbranch := ih trueBranch (by simp) htrue
        refine (IRContext.wellKinded_node rfl).2 ⟨by simpa [IRContext.fits] using hvoid, ?_⟩
        simp [hcondition, hbranch]
      · obtain ⟨⟨known₁, htrue, known₂, hfalse⟩, hcondition, hvoid⟩ :=
          codegenIfStructure_wellKinded h
        have hbranch := ih trueBranch (by simp) htrue
        have hbranch' := ih falseBranch (by simp) hfalse
        refine (IRContext.wellKinded_node rfl).2 ⟨by simpa [IRContext.fits] using hvoid, ?_⟩
        simp [hcondition, hbranch, hbranch']
      · cases h
    | _ => cases h

end Check

/-! ## What follows the rules is generated -/

/-- Generating the code stops at nothing but a missing value. -/
abbrev StopsAtValues {α : Type} (c : CodegenM α) : Prop := StopsAt (· = .valueMissing) c

/-- What the reader and the analysis say of a node that is visited in a unit. -/
structure Visit.Backed (ctx : IRContext) (v : Visit) : Prop where
  shape : v.base.shape.WellShaped
  function : ∀ d, v.base.label.decl = some d → d.kind = .functionDecl →
    ∃ type, ctx.lookupGlobal d.id = some type
  constant : ∀ d, v.base.label.decl = some d → d.kind = .globalConstantDecl →
    ∃ value, ctx.constant d.id = some value
  call : v.base.kind = .callOperatorExpr → v.callsByName = true → v.isWellFormedCall ctx = true

theorem AST.Below.stage {P : Visit → Prop} {n : ASTNode} {cs : List AST}
    (h : AST.Below P (.node n cs)) {c : AST} (hc : (false, c) ∈ childStages false n.node.data cs) :
    AST.Below P c := by
  obtain ⟨above, h⟩ := h
  exact ⟨n :: above, fun v hv => h v (mem_visited_node.2 (.inr ⟨_, hc, hv⟩))⟩

namespace FunctionCodegen

variable {ctx : IRContext} {s s' : CodegenState}

theorem kind_of_codegenExpr {a : AST} {o : Operand} (h : codegenExpr ctx a s = .ok (o, s')) :
    o.kind = ctx.operandKind a := by
  obtain ⟨kind, hkind, rfl⟩ := (codegenExpr_abstracts ctx a).of_ok h
  exact (Check.followsRules_codegenExpr a hkind).2

theorem isInteger_of_loadMemory {o loaded : Operand} (ho : o.kind.holdsInteger = true)
    (h : loadMemory o s = .ok (loaded, s')) : loaded.isInteger = true := by
  obtain ⟨kind, hkind, rfl⟩ := (loadMemory_abstracts (o := o) rfl).of_ok h
  exact Operand.isInteger_iff.2 ((Check.loadMemory_some hkind).2.2 ho)

theorem stopsAtValues_loadMemory {o : Operand} (h : o.kind.isLoadable = true) :
    StopsAtValues (loadMemory o) := by
  cases o with
  | alloca decl => exact StopsAt.emitValue (o := (.load · decl))
  | function decl type => cases h
  | _ => exact .pure

theorem isLoadable_of_holdsInteger {kind : OperandKind} (h : kind.holdsInteger = true) :
    kind.isLoadable = true := by
  cases kind with
  | function type => cases h
  | _ => rfl

theorem stopsAtValues_createStore {value pointer : Operand} (hvalue : value.isInteger = true)
    (hpointer : pointer.kind = .variable) : StopsAtValues (createStore value pointer) := by
  cases pointer <;> try cases hpointer
  rw [createStore, if_pos hvalue]
  exact .insert

theorem stopsAtValues_createCall {callee : Operand} {type : FunctionType} {os : List Operand}
    (hcallee : callee.kind = .function type) (hlength : type.params = os.length)
    (hos : ∀ o ∈ os, o.isInteger = true) : StopsAtValues (createCall callee os) := by
  cases callee <;> try cases hcallee
  rw [createCall, if_pos ⟨hlength, List.all_eq_true.2 hos⟩]
  exact StopsAt.emitValue.bind fun _ => .pure

theorem stopsAtValues_createIsNotNull {o : Operand} (h : o.kind ≠ .void) :
    StopsAtValues (createIsNotNull o) := by
  cases o with
  | void => exact absurd rfl h
  | constant | argument | register | alloca | function => exact .of_ok fun _ => ⟨_, rfl⟩

/-- A name that was resolved to a variable, a constant or a function is compiled. -/
theorem stopsAtValues_codegenDeclRefExpr {contributed : Bool} {above : List ASTNode} {n : ASTNode}
    {cs : List AST} {name : Identifier} (hn : n.node.data = .declRefExpr name)
    (hbacked : Visit.Backed ctx ⟨contributed, above, .node n cs⟩)
    (hfits : ctx.fits (.node n cs) = true) : StopsAtValues (codegenDeclRefExpr ctx n) := by
  obtain ⟨⟨id, data⟩, decl, exportedDecls⟩ := n
  cases hn
  cases decl with
  | none => cases hfits
  | some d =>
    have hfits : (d.isVarDecl || d.kind == .globalConstantDecl || d.kind == .functionDecl) = true :=
      hfits
    have hlookup : StopsAtValues (lookupLocal d.id) := .lookupLocal (S := (· = .valueMissing)) rfl
    have hvariable : StopsAtValues (do
        let value ← lookupLocal d.id
        emit (.reference id d.id)
        return value) :=
      hlookup.bind fun _ => StopsAt.insert.bind fun _ => .pure
    unfold codegenDeclRefExpr
    cases hk : d.kind <;> simp only [hk] <;> try exact hvariable
    case functionDecl =>
      obtain ⟨type, htype⟩ := hbacked.function d rfl hk
      simp only [htype]
      exact .pure
    case globalConstantDecl =>
      obtain ⟨value, hvalue⟩ := hbacked.constant d rfl hk
      simp only [hvalue]
      exact .pure
    all_goals simp [Node.isVarDecl, hk] at hfits

/-- A binary operator is compiled if its operands are what it asks for. -/
theorem stopsAtValues_codegenBinaryOperatorExpr {op : ExprBinaryOperator} {left right : AST}
    (hl : StopsAtValues (codegenExpr ctx left)) (hr : StopsAtValues (codegenExpr ctx right))
    (hleft : if op = .assign then ctx.operandKind left = .variable
      else (ctx.operandKind left).holdsInteger = true)
    (hright : (ctx.operandKind right).holdsInteger = true) :
    StopsAtValues
      (codegenBinaryOperatorExpr op (codegenExpr ctx left) (codegenExpr ctx right)) := by
  unfold codegenBinaryOperatorExpr
  refine hl.bind_of_ok fun s l s₁ hl => hr.bind_of_ok fun s₂ r s₃ hr => ?_
  rw [← kind_of_codegenExpr hl] at hleft
  rw [← kind_of_codegenExpr hr] at hright
  have hload := stopsAtValues_loadMemory (isLoadable_of_holdsInteger hright)
  by_cases hop : op = .assign
  · simp only [hop, if_true] at hleft ⊢
    refine hload.bind_of_ok fun s loaded s' hloaded => ?_
    have hinteger := isInteger_of_loadMemory hright hloaded
    exact (stopsAtValues_createStore hinteger hleft).bind fun _ => .pure
  · simp only [hop, if_false] at hleft ⊢
    have hloadLeft := stopsAtValues_loadMemory (isLoadable_of_holdsInteger hleft)
    refine hloadLeft.bind_of_ok fun s l' s' hl' => hload.bind_of_ok fun t r' t' hr' => ?_
    have hintegers : (l'.isInteger && r'.isInteger) = true := by
      simp [isInteger_of_loadMemory hleft hl', isInteger_of_loadMemory hright hr']
    by_cases harithmetic : op.isArithmetic = true
    · rw [if_pos harithmetic, createBinary, if_pos hintegers]
      exact .emitValue
    · rw [if_neg harithmetic, createICmp, if_pos hintegers]
      exact StopsAt.emitValue.bind fun _ => StopsAt.emitValue

theorem stopsAtValues_codegenArguments {cs : List AST}
    (h : ∀ c ∈ cs, StopsAtValues (codegenExpr ctx c))
    (hcs : ∀ c ∈ cs, (ctx.operandKind c).holdsInteger = true) :
    StopsAtValues (codegenArguments ctx cs) := by
  induction cs with
  | nil => exact .pure
  | cons c cs ih =>
    have hrest := ih (fun x hx => h x (List.mem_cons_of_mem _ hx))
      fun x hx => hcs x (List.mem_cons_of_mem _ hx)
    rw [codegenArguments]
    refine (h c List.mem_cons_self).bind_of_ok fun s o s' ho => ?_
    have hholds := hcs c List.mem_cons_self
    rw [← kind_of_codegenExpr ho] at hholds
    exact (stopsAtValues_loadMemory (isLoadable_of_holdsInteger hholds)).bind fun _ =>
      hrest.bind fun _ => .pure

theorem isInteger_of_codegenArguments {cs : List AST} {os : List Operand}
    (hcs : ∀ c ∈ cs, (ctx.operandKind c).holdsInteger = true)
    (h : codegenArguments ctx cs s = .ok (os, s')) : ∀ o ∈ os, o.isInteger = true := by
  induction cs generalizing s os with
  | nil =>
    obtain ⟨rfl, -⟩ := CodegenM.pure_ok.1 h
    simp
  | cons c cs ih =>
    rw [codegenArguments] at h
    obtain ⟨value, s₁, hvalue, h⟩ := CodegenM.bind_ok.1 h
    obtain ⟨arg, s₂, harg, h⟩ := CodegenM.bind_ok.1 h
    obtain ⟨args, s₃, hargs, h⟩ := CodegenM.bind_ok.1 h
    obtain ⟨rfl, rfl⟩ := CodegenM.pure_ok.1 h
    have hholds := hcs c List.mem_cons_self
    rw [← kind_of_codegenExpr hvalue] at hholds
    exact List.forall_mem_cons.2 ⟨isInteger_of_loadMemory hholds harg,
      ih (fun x hx => hcs x (List.mem_cons_of_mem _ hx)) hargs⟩

/-- A call that follows its rule calls a function with as many parameters as it has arguments: the
analysis has checked this of a call by name. -/
theorem calleeType_of_fits {contributed : Bool} {above : List ASTNode} {n : ASTNode} {callee : AST}
    {args : List AST} (hn : n.node.data = .callOperatorExpr)
    (hbacked : Visit.Backed ctx ⟨contributed, above, .node n (callee :: args)⟩)
    (hfits : ctx.fits (.node n (callee :: args)) = true) :
    (∃ type, ctx.calleeType callee = some type ∧ type.params = args.length) ∧
      ∀ c ∈ args, (ctx.operandKind c).holdsInteger = true := by
  have hkind : AST.kind (.node n (callee :: args)) = .callOperatorExpr := congrArg NodeData.kind hn
  simp only [IRContext.fits, hn, Bool.and_eq_true, Bool.or_eq_true, List.all_eq_true] at hfits
  refine ⟨?_, hfits.2⟩
  rcases hfits.1 with hname | hcall
  · have hcall := hbacked.call hkind hname
    obtain ⟨type, htype, hcount⟩ := (Option.any_eq_true _ _).1 hcall
    rw [Bool.and_eq_true, beq_iff_eq] at hcount
    exact ⟨type, htype, hcount.1⟩
  · obtain ⟨type, htype, hcount⟩ := (Option.any_eq_true _ _).1 hcall
    exact ⟨type, htype, beq_iff_eq.1 hcount⟩

/-- An expression that follows the rules is compiled where its variables have values. -/
theorem stopsAtValues_codegenExpr {a : AST} (ha : a.Below (Visit.Backed ctx))
    (hk : a.kind.isExprNode = true) (hwell : ctx.wellKinded a = true) :
    StopsAtValues (codegenExpr ctx a) := by
  induction a using Rose.ind with
  | h n cs ih =>
    obtain ⟨above, hbacked⟩ := ha.self
    have hfit := (AST.wellShaped_node.1 hbacked.shape).1
    have hexprs := ASTKind.isExprNode_of_fits hfit hk
    have part (hparts : n.node.kind.compilesChildren = true) :
        ∀ c ∈ cs, StopsAtValues (codegenExpr ctx c) := by
      intro c hc
      have hwell := ((IRContext.wellKinded_node hparts).1 hwell).2 c hc
      exact ih c hc (ha.child hk hc) (hexprs _ (List.mem_map_of_mem hc)) hwell
    obtain ⟨⟨id, data⟩, decl, exportedDecls⟩ := n
    cases data with
    | declRefExpr name =>
      rw [IRContext.wellKinded_leaf rfl] at hwell
      exact stopsAtValues_codegenDeclRefExpr rfl hbacked hwell
    | metaInstantiationExpr =>
      rw [IRContext.wellKinded_leaf rfl] at hwell
      obtain ⟨function, hfunction⟩ := Option.isSome_iff_exists.1 hwell
      show StopsAtValues (codegenMetaInstantiationExpr ctx id)
      simp only [codegenMetaInstantiationExpr, hfunction]
      exact .pure
    | integerLiteralExpr literal | booleanLiteralExpr literal => exact .pure
    | erroneousExpr => cases cs <;> cases hfit
    | binaryOperatorExpr op =>
      have hfits := ((IRContext.wellKinded_node rfl).1 hwell).1
      rcases cs with _ | ⟨left, _ | ⟨right, _ | ⟨c, cs⟩⟩⟩ <;> try cases hfit
      have hparts := part rfl
      obtain ⟨hleft, hright⟩ := Bool.and_eq_true_iff.1 hfits
      refine stopsAtValues_codegenBinaryOperatorExpr (hparts left (by simp))
        (hparts right (by simp)) ?_ hright
      by_cases hop : op = .assign
      · simpa [hop] using hleft
      · simpa [hop] using hleft
    | callOperatorExpr =>
      have hfits := ((IRContext.wellKinded_node rfl).1 hwell).1
      cases cs with
      | nil => cases hfit
      | cons callee args =>
        have hparts := part rfl
        obtain ⟨⟨type, htype, hcount⟩, hholds⟩ := calleeType_of_fits rfl hbacked hfits
        have hargs := stopsAtValues_codegenArguments
          (fun c hc => hparts c (List.mem_cons_of_mem _ hc)) hholds
        refine (hparts callee List.mem_cons_self).bind_of_ok fun s o s' ho =>
          hargs.bind_of_ok fun s₁ os s₂ hos => ?_
        have hfunction := kind_of_codegenExpr ho
        rw [IRContext.operandKind_of_calleeType htype] at hfunction
        refine stopsAtValues_createCall hfunction ?_ (isInteger_of_codegenArguments hholds hos)
        rw [hcount, length_codegenArguments hos]
    | _ => cases hk

/-! ## Statements -/

/-- An if structure is compiled if its branches are and its condition is not void. -/
theorem stopsAtValues_codegenIfStructure {block : BlockId} {condition : AST}
    {c : BlockId → CodegenM (Option BlockId)} {d : Option (BlockId → CodegenM (Option BlockId))}
    (h : ∀ block, StopsAtValues (c block))
    (h' : ∀ d', d = some d' → ∀ block, StopsAtValues (d' block))
    (hcondition : StopsAtValues (codegenExpr ctx condition))
    (hvoid : ctx.operandKind condition ≠ .void) :
    StopsAtValues (codegenIfStructure ctx block condition c d) := by
  refine .codegenIfStructure h h' hcondition fun s o s' ho => ?_
  rw [← kind_of_codegenExpr ho] at hvoid
  exact stopsAtValues_createIsNotNull hvoid

/-- A statement that follows the rules is compiled where its variables have values. -/
theorem stopsAtValues_codegenStmt {a : AST} (ha : a.Below (Visit.Backed ctx))
    (hk : a.kind.isStmtNode = true) (hwell : ctx.wellKinded a = true)
    (hfollows : AST.nothingFollows a) : ∀ block, StopsAtValues (codegenStmt ctx block a) := by
  induction a using Rose.ind with
  | h n cs ih =>
    intro block
    obtain ⟨above, hbacked⟩ := ha.self
    have hfit := (AST.wellShaped_node.1 hbacked.shape).1
    have below (hstage : AST.childStages false n.node.data cs = cs.map (false, ·)) :
        ∀ c ∈ cs, AST.Below (Visit.Backed ctx) c := fun c hc =>
      ha.stage (by rw [hstage]; exact List.mem_map_of_mem hc)
    obtain ⟨⟨id, data⟩, decl, exportedDecls⟩ := n
    have stmts (hbelow : ∀ c ∈ cs, AST.Below (Visit.Backed ctx) c)
        (hstmts : (cs.map AST.kind).all ASTKind.isStmtNode = true)
        (hwell : ∀ c ∈ cs, ctx.wellKinded c = true) : ∀ c ∈ cs, AST.nothingFollows c → ∀ block,
          StopsAtValues (codegenStmt ctx block c) := fun c hc =>
      ih c hc (hbelow c hc) (List.all_eq_true.1 hstmts _ (List.mem_map_of_mem hc)) (hwell c hc)
    cases data with
    | compoundStmt =>
      have hparts := ((IRContext.wellKinded_node rfl).1 hwell).2
      exact .withValueScope
        (stopsAt_codegenStmts ctx (stmts (below rfl) hfit hparts) hfollows block)
    | unscopedCompoundStmt =>
      have hparts := ((IRContext.wellKinded_node rfl).1 hwell).2
      exact stopsAt_codegenStmts ctx (stmts (below rfl) hfit hparts) hfollows block
    | returnStmt =>
      obtain ⟨hfits, hparts⟩ := (IRContext.wellKinded_node rfl).1 hwell
      rcases cs with _ | ⟨expr, _ | ⟨c, cs⟩⟩ <;> try cases hfit
      · exact StopsAt.insert.bind fun _ => .pure
      · have hexpr := stopsAtValues_codegenExpr (below rfl expr (by simp)) hfit
          (hparts expr (by simp))
        have hloadable := List.all_eq_true.1 hfits expr (by simp)
        refine hexpr.bind_of_ok fun s o s' ho => ?_
        rw [← kind_of_codegenExpr ho] at hloadable
        exact (stopsAtValues_loadMemory hloadable).bind fun _ => StopsAt.insert.bind
          fun _ => .pure
    | expressionStmt =>
      obtain ⟨-, hparts⟩ := (IRContext.wellKinded_node rfl).1 hwell
      rcases cs with _ | ⟨expr, _ | ⟨c, cs⟩⟩ <;> try cases hfit
      have hexpr := stopsAtValues_codegenExpr (below rfl expr (by simp)) hfit
        (hparts expr (by simp))
      exact hexpr.bind fun _ => StopsAt.insert.bind fun _ => .pure
    | declStmt name =>
      obtain ⟨hfits, hparts⟩ := (IRContext.wellKinded_node rfl).1 hwell
      rcases cs with _ | ⟨expr, _ | ⟨c, cs⟩⟩ <;> try cases hfit
      have hexpr := stopsAtValues_codegenExpr (below rfl expr (by simp)) hfit
        (hparts expr (by simp))
      have hholds := List.all_eq_true.1 hfits expr (by simp)
      refine hexpr.bind_of_ok fun s o s' ho => StopsAt.insert.bind fun _ => ?_
      rw [← kind_of_codegenExpr ho] at hholds
      refine (stopsAtValues_loadMemory (isLoadable_of_holdsInteger hholds)).bind_of_ok
        fun s loaded s' hloaded => ?_
      exact (stopsAtValues_createStore (isInteger_of_loadMemory hholds hloaded) rfl).bind
        fun _ => StopsAt.introduce.bind fun _ => .pure
    | ifStmt =>
      obtain ⟨hfits, hparts⟩ := (IRContext.wellKinded_node rfl).1 hwell
      rcases cs with _ | ⟨condition, _ | ⟨trueBranch, _ | ⟨falseBranch, _ | ⟨c, cs⟩⟩⟩⟩ <;>
        try cases hfit
      · obtain ⟨hexpr, htrue⟩ := Bool.and_eq_true_iff.1 hfit
        have hcondition := stopsAtValues_codegenExpr (below rfl condition (by simp)) hexpr
          (hparts condition (by simp))
        have hbranch := ih trueBranch (by simp) (below rfl trueBranch (by simp)) htrue
          (hparts trueBranch (by simp)) hfollows
        exact stopsAtValues_codegenIfStructure hbranch (fun _ h => nomatch h) hcondition
          (bne_iff_ne.1 hfits)
      · obtain ⟨hfit, hfalse⟩ := Bool.and_eq_true_iff.1 hfit
        obtain ⟨hexpr, htrue⟩ := Bool.and_eq_true_iff.1 hfit
        have hboth : AST.nothingFollows trueBranch = true ∧ AST.nothingFollows falseBranch = true :=
          (Bool.and_eq_true _ _).mp hfollows
        have hcondition := stopsAtValues_codegenExpr (below rfl condition (by simp)) hexpr
          (hparts condition (by simp))
        have hbranch := ih trueBranch (by simp) (below rfl trueBranch (by simp)) htrue
          (hparts trueBranch (by simp)) hboth.1
        have hbranch' := ih falseBranch (by simp) (below rfl falseBranch (by simp)) hfalse
          (hparts falseBranch (by simp)) hboth.2
        refine stopsAtValues_codegenIfStructure hbranch (fun d h => ?_) hcondition
          (bne_iff_ne.1 hfits)
        cases h
        exact hbranch'
    | metaIfStmt | metaCalculationStmt =>
      rw [IRContext.wellKinded_node rfl] at hwell
      cases hwell.1
    | _ => cases hk

/-! ## Functions -/

theorem stopsAtValues_codegenBody {args body : AST} (ha : body.Below (Visit.Backed ctx))
    (hk : body.kind.isStmtNode = true) (hwell : ctx.wellKinded body = true)
    (hfollows : AST.nothingFollows body) : StopsAtValues (codegenBody ctx args body) := by
  refine .withValueScope (StopsAt.setUpStackFrame.bind fun block =>
    (stopsAtValues_codegenStmt ha hk hwell hfollows block).bind fun r => ?_)
  cases r with
  | none => exact .pure
  | some b => exact .insert

/-- A body that is generated follows the rules. -/
theorem wellKinded_of_codegenBody {args body : AST}
    (h : codegenBody ctx args body s = .ok ((), s')) : AST.nothingFollows body ∧
    ctx.wellKinded body = true := by
  have hfollows := nothingFollows_of_codegenBody ctx h
  refine ⟨hfollows, ?_⟩
  obtain ⟨_, hcheck, -⟩ := (codegenBody_abstracts ctx args body hfollows).of_ok h
  obtain ⟨_, known₁, -, hcheck⟩ := Check.bind_some.1 hcheck
  obtain ⟨_, known₂, hbody, -⟩ := Check.bind_some.1 hcheck
  obtain ⟨_, known₃, -, hbody⟩ := Check.bind_some.1 hbody
  exact Check.codegenStmt_wellKinded body hbody

end FunctionCodegen

section

variable {similarTo : ScopeChain → Identifier → Option Node} {k : ASTKind} {layout : Layout}
  {heap : ASTHeap} {a : AST} {s : ASTLayoutReader.State} {ctx : IRContext}

/-- What is visited of an accepted unit without semantic errors is backed. -/
theorem Visit.backed_of_accepted
    (haccept : ASTLayoutReader.AcceptsUnit similarTo k layout heap a s) (hcovers : ctx.Covers a)
    {ds : List Diagnostic} (hcheck : SemaAnalysis.checkAST ctx a = .ok ds)
    (herrors : hasErrors ds = false) :
    ∀ v ∈ a.visited false [], v.contributed = false → v.Backed ctx := by
  intro v hv hc
  have hsub := AST.base_mem_subtrees hv
  have hlabel := Rose.label_mem_labels hsub
  exact {
    shape := AST.wellShaped_subtree haccept.reads.1 hsub
    function := fun d hd hk => SemaAnalysis.lookupGlobal_of_covers hcovers hlabel hd hk
    constant := fun d hd hk => SemaAnalysis.constant_of_covers hcovers hlabel hd hk
    call := fun hk hname =>
      SemaAnalysis.isWellFormedCall_of_callsByName haccept hcheck herrors hv hk hc hname }

/-- A function of an accepted unit is generated without missing a value, if it does not use its
named return declaration. -/
theorem AST.codegen_ne_valueMissing (hk : k.isUnitNode = true)
    (hheap : ASTLayoutReader.ReadHeap similarTo heap)
    (haccept : ASTLayoutReader.AcceptsUnit similarTo k layout heap a s) {f : AST}
    (hf : f ∈ a.children) (hfunction : AST.kind f = .functionDecl) (cursor : ASTCursor)
    (huses : f.usesReturnDecl = false) :
    FunctionCodegen.codegen ctx f (.initial cursor) ≠ .error .valueMissing := by
  obtain ⟨hresolve, herrors⟩ := haccept.resolve
  have hreads := haccept.reads
  have hunit : a.shape.kind.isUnitNode = true := by
    rw [hreads.unit hk]
    exact hk
  have hchild := hf
  rw [← hresolve] at hchild
  obtain ⟨t, ht, r, htop, hres, he⟩ := Resolution.mem_children_resolve hreads.1 hunit
    hheap.topLevelNames herrors f hchild
  have ht : Tree.WellShaped t := hreads.1.child ht
  have hkind : Tree.kind t = .functionDecl := by
    rw [← Resolution.resolve_shape t ht false r, AST.kind_shape, hres]
    exact hfunction
  have hvariables : ∀ entry ∈ r.env, entry.2.isVarDecl = false := by
    intro entry hentry
    have htop := htop entry hentry
    cases hk : entry.2.kind <;> rw [hk] at htop <;> simp [Node.isVarDecl, hk] <;> cases htop
  rw [← hres] at huses ⊢
  exact FunctionCodegen.codegen_resolve_findsValues ctx ht hkind hvariables he huses cursor

end

/-- The body of a function is its last child, behind the arguments and the return declaration. -/
theorem AST.children_functionDecl {f body : AST} (hs : f.shape.WellShaped)
    (hk : AST.kind f = .functionDecl) (hbody : f.children.getLast? = some body) :
    body.kind.isStmtNode = true ∧ ∃ args, (∀ ctx, FunctionCodegen.codegen ctx f =
      FunctionCodegen.codegenBody ctx args body) := by
  obtain ⟨n, cs⟩ := f
  have hfit := (AST.wellShaped_node.1 hs).1
  rw [show n.node.kind = .functionDecl from hk] at hfit
  rcases cs with _ | ⟨args, _ | ⟨c, _ | ⟨d, _ | ⟨e, cs⟩⟩⟩⟩ <;> try cases hfit
  · obtain rfl : c = body := Option.some.inj hbody
    exact ⟨(Bool.and_eq_true_iff.1 hfit).2, args, fun _ => rfl⟩
  · obtain rfl : d = body := Option.some.inj hbody
    exact ⟨(Bool.and_eq_true_iff.1 hfit).2, args, fun _ => rfl⟩

/-- The body of a function of a unit stands at the stage of the unit. -/
theorem AST.below_functionBody {P : Visit → Prop} {a f body : AST} (ha : a.kind.isUnitNode = true)
    (hf : f ∈ a.children) (hfunction : AST.kind f = .functionDecl)
    (hbody : f.children.getLast? = some body) (h : a.Below P) : body.Below P := by
  obtain ⟨⟨⟨id, data⟩, decl, exportedDecls⟩, cs⟩ := a
  have hf : f.Below P := by
    cases data <;> try cases ha
    all_goals exact h.stage (List.mem_map_of_mem hf)
  obtain ⟨⟨⟨id, data⟩, decl, exportedDecls⟩, cs⟩ := f
  cases data <;> try cases hfunction
  exact hf.stage (List.mem_map_of_mem (List.mem_of_getLast? hbody))

/-- A function of an accepted unit without semantic errors is generated exactly if nothing follows
what terminates in its body, the body does not use the named return declaration, and every node of
the body that is compiled gets operands of the kinds it asks for. -/
theorem codegen_iff_wellKinded {similarTo : ScopeChain → Identifier → Option Node} {k : ASTKind}
    (hk : k.isUnitNode = true) {layout : Layout} {heap : ASTHeap}
    (hheap : ASTLayoutReader.ReadHeap similarTo heap) {a : AST} {s : ASTLayoutReader.State}
    (haccept : ASTLayoutReader.AcceptsUnit similarTo k layout heap a s)
    (hdistinct : (a.shape.labels.map Node.id).Nodup) {ctx : IRContext} (hcovers : ctx.Covers a)
    {ds : List Diagnostic} (hcheck : SemaAnalysis.checkAST ctx a = .ok ds)
    (herrors : hasErrors ds = false) {f body : AST} (hf : f ∈ a.children)
    (hfunction : AST.kind f = .functionDecl) (hbody : f.children.getLast? = some body)
    (cursor : ASTCursor) :
    (∃ s', FunctionCodegen.codegen ctx f (.initial cursor) = .ok ((), s')) ↔
      AST.nothingFollows body ∧ f.usesReturnDecl = false ∧ ctx.wellKinded body = true := by
  have hmem : f ∈ a.subtrees := by
    obtain ⟨n, cs⟩ := a
    exact Rose.child_mem_subtrees hf
  have hshape := AST.wellShaped_subtree haccept.reads.1 hmem
  obtain ⟨hstmt, args, hcode⟩ := AST.children_functionDecl hshape hfunction hbody
  constructor
  · rintro ⟨s', hs'⟩
    have hnodup : (f.shape.labels.map Node.id).Nodup := by
      rw [AST.shape, Rose.labels_map, List.map_map] at hdistinct ⊢
      exact ((Rose.labels_sublist hmem).map _).nodup hdistinct
    have huses := FunctionCodegen.usesReturnDecl_of_codegen ctx hshape hnodup hfunction hs'
    rw [hcode] at hs'
    obtain ⟨hfollows, hwell⟩ := FunctionCodegen.wellKinded_of_codegenBody hs'
    exact ⟨hfollows, huses, hwell⟩
  · rintro ⟨hfollows, huses, hwell⟩
    have hvalues : FunctionCodegen.codegen ctx f (.initial cursor) ≠ .error .valueMissing :=
      AST.codegen_ne_valueMissing hk hheap haccept hf hfunction cursor huses
    have hunit : a.kind.isUnitNode = true := by
      rw [← AST.kind_shape, haccept.reads.unit hk]
      exact hk
    have hbelow := AST.below_functionBody hunit hf hfunction hbody
      ⟨[], Visit.backed_of_accepted haccept hcovers hcheck herrors⟩
    have hstops : StopsAtValues (FunctionCodegen.codegenBody ctx args body) :=
      FunctionCodegen.stopsAtValues_codegenBody hbelow hstmt hwell hfollows
    rw [hcode] at hvalues ⊢
    cases hc : FunctionCodegen.codegenBody ctx args body (.initial cursor) with
    | ok r => exact ⟨r.2, rfl⟩
    | error fault =>
      rw [hstops _ fault hc] at hc
      exact absurd hc hvalues

/-- `f(int x) int -> { int y = x; return y; }`. -/
theorem codegen_iff_wellKinded_variable :
    ∃ (a f : AST) (s : ASTLayoutReader.State),
      ASTLayoutReader.AcceptsUnit (fun _ _ => none) .compilationUnit a.shape.encode .empty a s ∧
      a.children = [f] ∧ ∃ s', FunctionCodegen.codegen (.ofUnits [a] fun _ => none) f
        (.initial .insideMetaDecl) = .ok ((), s') := by
  let f : AST := .node ⟨⟨1, .functionDecl "f"⟩, none, []⟩
    [.node ⟨⟨2, .argumentDeclList⟩, none, []⟩ [.node ⟨⟨3, .namedArgumentDecl "x"⟩, none, []⟩ []],
      .node ⟨⟨4, .anonymousArgumentDecl⟩, none, []⟩ [],
      .node ⟨⟨5, .compoundStmt⟩, none, []⟩
        [.node ⟨⟨6, .declStmt "y"⟩, none, []⟩
          [.node ⟨⟨7, .declRefExpr "x"⟩, some ⟨3, .namedArgumentDecl "x"⟩, []⟩ []],
        .node ⟨⟨8, .returnStmt⟩, none, []⟩
          [.node ⟨⟨9, .declRefExpr "y"⟩, some ⟨6, .declStmt "y"⟩, []⟩ []]]]
  let a : AST := .node ⟨⟨0, .compilationUnit⟩, none, []⟩ [f]
  have hread := ASTLayoutReader.consume_complete (fun _ _ => none) (p := .kind .compilationUnit)
    (t := a.shape) ⟨by decide, .inl rfl⟩ [] (.start .empty)
  have ha : (ASTLayoutReader.readTree (fun _ _ => none) a.shape (.start .empty)).1 = a := by rfl
  rw [List.append_nil, ha] at hread
  have haccept := ASTLayoutReader.AcceptsUnit.mk hread (by decide) (by decide)
  have hprogram : a.shape.IsProgram := ⟨rfl, by decide, by decide, by decide⟩
  have hcovers := IRContext.covers_program hprogram haccept fun _ => none
  have hcheck : SemaAnalysis.checkAST (.ofUnits [a] fun _ => none) a = .ok [] := rfl
  exact ⟨a, f, _, haccept, rfl, (codegen_iff_wellKinded rfl .empty haccept (by decide) hcovers
    hcheck rfl List.mem_cons_self rfl rfl .insideMetaDecl).2 ⟨by decide, by decide, by decide⟩⟩

end Swy
