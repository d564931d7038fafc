import Swy.Codegen.FunctionCodegen
import Swy.Parse.References

/-!
# The semantic analysis

`SemaAnalysis`: a visitor that checks calls, conditions, reserved names and instantiations. A unit
is checked right after it was read, so the analysis only sees what the reader resolved.

`visited` lists the nodes in the order in which the visitor accepts them, each with the nodes above
it and with whether a meta declaration contributes it. What the analysis does on a tree is what it
does on each of them (`accept_reports`, `accept_ok`).
-/

namespace Swy

open Library

/-- What stops the analysis. -/
inductive SemaFault where
  | nullDereference
  | behindOutOfRange
  | unexpectedNode
deriving DecidableEq, Repr

/-- The diagnostics that are reported, unless the analysis stops at a fault. -/
abbrev Reports := Except SemaFault (List Diagnostic)

/-! ## Declarations -/

/-- `getArgDeclList()->children().size()` of a meta declaration. -/
def getMetaArgCountOf : AST → Option Nat
  | .node n [args, _] =>
    match n.node.data with
    | .metaDecl _ => some args.children.length
    | _ => none
  | _ => none

/-- `NamedDeclContext::getName`. -/
def Node.getName (n : Node) : Identifier := n.name?.getD ""

namespace SemaAnalysis

/-! ## The visitor -/

/-- `behind`: the node that many levels above the one that is visited. -/
def behind (depth : List ASTNode) (back : Nat) : Except SemaFault ASTNode :=
  match depth[back]? with
  | some n => .ok n
  | none => .error .behindOutOfRange

/-- Reports the diagnostics if the condition holds. -/
def reportIf (c : Bool) (ds : List Diagnostic) : List Diagnostic := if c then ds else []

/-- `isIdentifierReserved`. -/
def isIdentifierReserved (name : Identifier) : Bool := name == "int"

/-- `visit` of a function declaration. -/
def visitFunctionDecl (name : Identifier) : List Diagnostic :=
  reportIf (isIdentifierReserved name) [.errorFunctionNameReserved name]

/-- `visit` of a meta declaration. -/
def visitMetaDecl (name : Identifier) : List Diagnostic :=
  reportIf (isIdentifierReserved name) [.errorMetaNameReserved name]

/-- `visit` of an if statement. -/
def visitIfStmt (expression : AST) : List Diagnostic :=
  reportIf (expression.label.node.data == .binaryOperatorExpr .assign) [.warningDidYouMeanEquals]

section

variable (ctx : IRContext)

/-- The check of a call of a function: an absent result is not expected, and the arguments are as
many as the function has. -/
def visitFunctionCall (depth : List ASTNode) (name : Identifier) (function : Node) (actual : Nat) :
    Reports :=
  match ctx.lookupGlobal function.id with
  | none => .error .nullDereference
  | some type => do
    let parent ← behind depth 1
    let returnsVoid := reportIf (type.returnsVoid && parent.node.kind != .expressionStmt)
      [.errorFunctionCallReturnsVoid name, .noteDeclarationHint function.getName]
    let argCount := reportIf (actual != type.params)
      [.errorFunctionCallArgCountMismatch name actual type.params,
        .noteDeclarationHint function.getName]
    return returnsVoid ++ argCount

/-- `visit` of a call. The callee is only checked if it is a resolved name. -/
def visitCallOperatorExpr (depth : List ASTNode) (callee : AST)
    (expressions : List AST) : Reports :=
  match callee.label.node.data, callee.label.decl with
  | .declRefExpr name, some decl =>
    match decl.kind with
    | .functionDecl => visitFunctionCall ctx depth name decl expressions.length
    | kind =>
      if kind.isNamedDeclContext then
        .ok [.errorCanOnlyCallFunctions, .noteDeclarationHint decl.getName]
      else .error .unexpectedNode
  | _, _ => .ok []

/-- The check that a meta instantiation instantiates a meta declaration, with as many arguments as
it has. The hint names the meta declaration also where there is none. -/
def visitInstantiated (name : Identifier) (decl : Node) (actual : Nat) : Reports :=
  match decl.kind with
  | .metaDecl =>
    match (ctx.declaringNode decl.id).bind getMetaArgCountOf with
    | none => .error .nullDereference
    | some expected =>
      .ok (reportIf (actual != expected)
        [.errorInstantiationArgCountMismatch decl.getName actual expected,
          .noteDeclarationHint decl.getName])
  | _ => do
    let _ ← Except.ok [Diagnostic.errorInstantiatedNonMetaDecl name]
    .error .nullDereference

/-- `visit` of a meta instantiation: the arguments are literals, and the name is resolved. -/
def visitMetaInstantiationExpr (decl : AST) (arguments : List AST) : Reports := do
  let integral := arguments.flatMap fun expr =>
    reportIf (expr.kind != .integerLiteralExpr) [.errorIntegralForMetaDecl]
  match decl.label.node.data, decl.label.decl with
  | .declRefExpr name, some metaDecl =>
    return integral ++ (← visitInstantiated ctx name metaDecl arguments.length)
  | _, _ => .error .nullDereference

/-- `visit`, up to the visit of the children. The node is the innermost one of `depth`. -/
def visit (depth : List ASTNode) : AST → Reports
  | .node n cs =>
    match n.node.data, cs with
    | .callOperatorExpr, callee :: expressions =>
      visitCallOperatorExpr ctx depth callee expressions
    | .ifStmt, expression :: _ => .ok (visitIfStmt expression)
    | .functionDecl name, _ => .ok (visitFunctionDecl name)
    | .metaDecl name, _ => .ok (visitMetaDecl name)
    | .metaInstantiationExpr, decl :: arguments => visitMetaInstantiationExpr ctx decl arguments
    | _, _ => .ok []

mutual
/-- `accept`: visits the node and then its children. -/
def accept (depth : List ASTNode) : AST → Reports
  | .node n cs => do
    let ds ← visit ctx (n :: depth) (.node n cs)
    let ds' ← acceptAll (n :: depth) cs
    return ds ++ ds'
/-- `visitChildren`. -/
def acceptAll (depth : List ASTNode) : List AST → Reports
  | [] => .ok []
  | c :: cs => do
    let ds ← accept depth c
    let ds' ← acceptAll depth cs
    return ds ++ ds'
end

/-- `checkAST`. -/
def checkAST (base : AST) : Reports := accept ctx [] base

end

end SemaAnalysis

/-! ## The visited nodes -/

/-- A visited node: whether a meta declaration contributes it, the nodes above it, the innermost
first, and the node with what is below it. -/
structure Visit where
  contributed : Bool
  above : List ASTNode
  base : AST

namespace AST

mutual
/-- The nodes of a tree in the order in which they are accepted. -/
def visited (contributed : Bool) (above : List ASTNode) : AST → List Visit
  | .node n cs => ⟨contributed, above, .node n cs⟩ ::
    match n.node.data with
    | .metaDecl _ =>
      match cs with
      | [] => []
      | args :: contribution =>
        visited contributed (n :: above) args ++ visitedAll true (n :: above) contribution
    | .metaIfStmt =>
      match cs with
      | [] => []
      | expression :: branches =>
        visited false (n :: above) expression ++ visitedAll contributed (n :: above) branches
    | .metaCalculationStmt => visitedAll false (n :: above) cs
    | _ => visitedAll contributed (n :: above) cs
/-- `visited` of each tree of a list. -/
def visitedAll (contributed : Bool) (above : List ASTNode) : List AST → List Visit
  | [] => []
  | c :: cs => visited contributed above c ++ visitedAll contributed above cs
end

/-- The children of a node with their stages. -/
def childStages (contributed : Bool) : NodeData → List AST → List (Bool × AST)
  | .metaDecl _, args :: contribution => (contributed, args) :: contribution.map (true, ·)
  | .metaIfStmt, expression :: branches => (false, expression) :: branches.map (contributed, ·)
  | .metaCalculationStmt, cs => cs.map (false, ·)
  | _, cs => cs.map (contributed, ·)

theorem childStages_snd (contributed : Bool) (data : NodeData) (cs : List AST) :
    (childStages contributed data cs).map Prod.snd = cs := by
  have map (c : Bool) (ds : List AST) : (ds.map (c, ·)).map Prod.snd = ds := by
    rw [List.map_map]
    exact List.map_id ds
  cases data with
  | metaDecl name | metaIfStmt =>
    cases cs with
    | nil => rfl
    | cons c cs => exact congrArg (List.cons c) (map _ cs)
  | _ => exact map _ cs

theorem mem_childStages {contributed : Bool} {data : NodeData} {cs : List AST} {p : Bool × AST}
    (h : p ∈ childStages contributed data cs) : p.2 ∈ cs := by
  rw [← childStages_snd contributed data cs]
  exact List.mem_map_of_mem h

/-- Below a node the children are visited, each at its stage. -/
theorem visited_node (contributed : Bool) (above : List ASTNode) (n : ASTNode) (cs : List AST) :
    visited contributed above (.node n cs) = ⟨contributed, above, .node n cs⟩ ::
      (childStages contributed n.node.data cs).flatMap fun p => visited p.1 (n :: above) p.2 := by
  have all (c : Bool) (ds : List AST) : visitedAll c (n :: above) ds =
      (ds.map (c, ·)).flatMap fun p : Bool × AST => visited p.1 (n :: above) p.2 := by
    induction ds with
    | nil => rfl
    | cons d ds ih => rw [visitedAll, ih, List.map_cons, List.flatMap_cons]
  obtain ⟨⟨id, data⟩, decl, exportedDecls⟩ := n
  cases data with
  | metaDecl name | metaIfStmt =>
    cases cs with
    | nil => rfl
    | cons c cs => exact congrArg (List.cons _) (congrArg _ (all _ cs))
  | _ => exact congrArg (List.cons _) (all _ cs)

theorem staged_node (contributed : Bool) (n : ASTNode) (cs : List AST) :
    staged contributed (.node n cs) = (contributed, n) ::
      (childStages contributed n.node.data cs).flatMap fun p => staged p.1 p.2 := by
  have all (c : Bool) (ds : List AST) : stagedAll c ds =
      (ds.map (c, ·)).flatMap fun p : Bool × AST => staged p.1 p.2 := by
    induction ds with
    | nil => rfl
    | cons d ds ih => rw [stagedAll, ih, List.map_cons, List.flatMap_cons]
  obtain ⟨⟨id, data⟩, decl, exportedDecls⟩ := n
  cases data with
  | metaDecl name | metaIfStmt =>
    cases cs with
    | nil => rfl
    | cons c cs => exact congrArg (List.cons _) (congrArg _ (all _ cs))
  | _ => exact congrArg (List.cons _) (all _ cs)

section Visited

variable {contributed : Bool} {above : List ASTNode} {a : AST} {n : ASTNode} {cs : List AST}
  {v w : Visit}

theorem mem_visited_node : v ∈ visited contributed above (.node n cs) ↔
    v = ⟨contributed, above, .node n cs⟩ ∨ ∃ p ∈ childStages contributed n.node.data cs,
      v ∈ visited p.1 (n :: above) p.2 := by
  rw [visited_node, List.mem_cons, List.mem_flatMap]

theorem mem_visited_self : (⟨contributed, above, a⟩ : Visit) ∈ visited contributed above a := by
  cases a with
  | node n cs => exact mem_visited_node.2 (.inl rfl)

/-- What is visited below a visited node is visited. -/
theorem visited_trans (hv : v ∈ visited contributed above a)
    (hw : w ∈ visited v.contributed v.above v.base) : w ∈ visited contributed above a := by
  induction a using Rose.ind generalizing contributed above with
  | h n cs ih =>
    rcases mem_visited_node.1 hv with rfl | ⟨p, hp, hv⟩
    · exact hw
    · exact mem_visited_node.2 (.inr ⟨p, hp, ih p.2 (mem_childStages hp) hv⟩)

/-- What is visited is a subtree. -/
theorem base_mem_subtrees (h : v ∈ visited contributed above a) : v.base ∈ a.subtrees := by
  induction a using Rose.ind generalizing contributed above with
  | h n cs ih =>
    rcases mem_visited_node.1 h with rfl | ⟨p, hp, hv⟩
    · exact Rose.mem_subtrees_self _
    · have hc := mem_childStages hp
      exact Rose.mem_subtrees_node.2 (.inr ⟨p.2, hc, ih p.2 hc hv⟩)

/-- There is something above what is visited below a node. -/
theorem above_ne_nil (h : v ∈ visited contributed above a) (habove : above ≠ []) :
    v.above ≠ [] := by
  induction a using Rose.ind generalizing contributed above with
  | h n cs ih =>
    rcases mem_visited_node.1 h with rfl | ⟨p, hp, hv⟩
    · exact habove
    · exact ih p.2 (mem_childStages hp) hv (List.cons_ne_nil _ _)

/-- The visited nodes with their stages. -/
theorem staged_eq_visited (contributed : Bool) (above : List ASTNode) (a : AST) :
    staged contributed a =
      (visited contributed above a).map fun v => (v.contributed, v.base.label) := by
  induction a using Rose.ind generalizing contributed above with
  | h n cs ih =>
    rw [staged_node, visited_node, List.map_cons, List.map_flatMap]
    exact congrArg (List.cons _)
      (List.flatMap_congr fun p hp => ih p.2 (mem_childStages hp) p.1 (n :: above))

/-- A visited node with its stage. -/
theorem mem_staged (h : v ∈ visited contributed above a) :
    (v.contributed, v.base.label) ∈ staged contributed a := by
  rw [staged_eq_visited contributed above]
  exact List.mem_map_of_mem h

end Visited

end AST

/-- What the analysis does on a visited node. -/
def Visit.check (ctx : IRContext) (v : Visit) : Reports :=
  SemaAnalysis.visit ctx (v.base.label :: v.above) v.base

namespace SemaAnalysis

open AST

variable (ctx : IRContext)

theorem append_ok {x y : Reports} {ds : List Diagnostic} :
    (do
      let a ← x
      let b ← y
      return a ++ b : Reports) = .ok ds ↔ ∃ a b, x = .ok a ∧ y = .ok b ∧ a ++ b = ds := by
  cases x with
  | error fault => exact ⟨fun h => (by cases h), fun ⟨_, _, h, _⟩ => (by cases h)⟩
  | ok a =>
    cases y with
    | error fault => exact ⟨fun h => (by cases h), fun ⟨_, _, _, h, _⟩ => (by cases h)⟩
    | ok b =>
      constructor
      · intro h
        exact ⟨a, b, rfl, rfl, Except.ok.inj h⟩
      · rintro ⟨a', b', ha, hb, rfl⟩
        cases ha
        cases hb
        rfl

/-- Every node is checked, and what its check reports is reported. -/
theorem accept_reports {contributed : Bool} {above : List ASTNode} {a : AST}
    {ds : List Diagnostic} (h : accept ctx above a = .ok ds) :
    ∀ v ∈ visited contributed above a, ∃ ds', v.check ctx = .ok ds' ∧ ∀ d ∈ ds', d ∈ ds := by
  induction a using Rose.ind generalizing contributed above ds with
  | h n cs ih =>
    obtain ⟨ds₁, ds₂, h₁, h₂, rfl⟩ := append_ok.1 h
    have all (es : List AST) (hes : ∀ e ∈ es, e ∈ cs) {ds : List Diagnostic}
        (h : acceptAll ctx (n :: above) es = .ok ds) :
        ∀ c ∈ es, ∃ ds', accept ctx (n :: above) c = .ok ds' ∧ ∀ d ∈ ds', d ∈ ds := by
      induction es generalizing ds with
      | nil => exact fun c hc => absurd hc List.not_mem_nil
      | cons e es ih' =>
        obtain ⟨ds₁, ds₂, h₁, h₂, rfl⟩ := append_ok.1 h
        intro c hc
        rcases List.mem_cons.1 hc with rfl | hc
        · exact ⟨ds₁, h₁, fun d hd => List.mem_append_left _ hd⟩
        · obtain ⟨ds', hds', hsub⟩ := ih' (fun x hx => hes x (List.mem_cons_of_mem _ hx)) h₂ c hc
          exact ⟨ds', hds', fun d hd => List.mem_append_right _ (hsub d hd)⟩
    intro v hv
    rcases mem_visited_node.1 hv with rfl | ⟨p, hp, hv⟩
    · exact ⟨ds₁, h₁, fun d hd => List.mem_append_left _ hd⟩
    · have hc := mem_childStages hp
      obtain ⟨ds', hds', hsub⟩ := all cs (fun _ hx => hx) h₂ p.2 hc
      obtain ⟨ds'', hcheck, hsub'⟩ := ih p.2 hc hds' v hv
      exact ⟨ds'', hcheck, fun d hd => List.mem_append_right _ (hsub d (hsub' d hd))⟩

/-- The analysis ends if it ends on every node. -/
theorem accept_ok {contributed : Bool} {above : List ASTNode} {a : AST}
    (h : ∀ v ∈ visited contributed above a, ∃ ds, v.check ctx = .ok ds) :
    ∃ ds, accept ctx above a = .ok ds := by
  induction a using Rose.ind generalizing contributed above with
  | h n cs ih =>
    have hchild : ∀ c ∈ cs, ∃ ds, accept ctx (n :: above) c = .ok ds := by
      intro c hc
      rw [← childStages_snd contributed n.node.data cs] at hc
      obtain ⟨p, hp, rfl⟩ := List.mem_map.1 hc
      exact ih p.2 (mem_childStages hp) fun v hv => h v (mem_visited_node.2 (.inr ⟨p, hp, hv⟩))
    have all (es : List AST) (hes : ∀ e ∈ es, e ∈ cs) :
        ∃ ds, acceptAll ctx (n :: above) es = .ok ds := by
      induction es with
      | nil => exact ⟨[], rfl⟩
      | cons e es ih' =>
        obtain ⟨ds₁, h₁⟩ := hchild e (hes e List.mem_cons_self)
        obtain ⟨ds₂, h₂⟩ := ih' fun x hx => hes x (List.mem_cons_of_mem _ hx)
        exact ⟨_, append_ok.2 ⟨ds₁, ds₂, h₁, h₂, rfl⟩⟩
    obtain ⟨ds₁, h₁⟩ := h _ mem_visited_self
    obtain ⟨ds₂, h₂⟩ := all cs fun _ hx => hx
    exact ⟨_, append_ok.2 ⟨ds₁, ds₂, h₁, h₂, rfl⟩⟩

end SemaAnalysis

end Swy
