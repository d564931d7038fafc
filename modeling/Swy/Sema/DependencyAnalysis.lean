import Swy.Codegen.MetaCodegen

/-!
# The dependency analysis

`consumeMetaInstantiationsOf`: the instantiations that are instantiated before a function or a meta
function is generated, in the order in which the consumer is called with them. `references` lists
what the code generation looks up in its context instead. The instantiations that a function looks
up are all consumed (`mem_consumeAll_of_functionReferences`), and code only depends on what the
references are looked up to (`codegen_congr`).
-/

namespace Swy

open Library

namespace AST

mutual
/-- `consumeAll`. -/
def consumeAll : AST → List AST
  | .node n cs =>
    (if n.node.kind = .metaInstantiationExpr then [.node n cs] else []) ++ consumeAllChildren cs
/-- `consumeAll` of each child. -/
def consumeAllChildren : List AST → List AST
  | [] => []
  | c :: cs => consumeAll c ++ consumeAllChildren cs
end

mutual
/-- `consumeMeta`: the branches of a meta if are left out. -/
def consumeMeta : AST → List AST
  | .node n cs =>
    match n.node.data, cs with
    | .metaIfStmt, expression :: _ => consumeAll expression
    | .metaCalculationStmt, cs => consumeAll (.node n cs)
    | _, cs => consumeAllMeta cs
/-- `consumeMeta` of each child, which is `consumeAllMeta` of the node. -/
def consumeAllMeta : List AST → List AST
  | [] => []
  | c :: cs => consumeMeta c ++ consumeAllMeta cs
end

end AST

/-- What the code generation looks up in its context. -/
inductive Reference where
  | function (decl : NodeId)
  | instantiation (inst : AST)

namespace AST

mutual
/-- The references that are looked up for an expression or a statement, in order. The condition of
an if statement is generated behind its branches. -/
def references : AST → List Reference
  | .node n cs =>
    match n.node.data, cs with
    | .declRefExpr _, _ =>
      match n.decl with
      | some decl => if decl.kind = .functionDecl then [.function decl.id] else []
      | none => []
    | .metaInstantiationExpr, cs => [.instantiation (.node n cs)]
    | .ifStmt, condition :: branches => allReferences branches ++ references condition
    | _, cs => allReferences cs
/-- `references` of each tree of a list. -/
def allReferences : List AST → List Reference
  | [] => []
  | c :: cs => references c ++ allReferences cs
end

mutual
/-- The references that are looked up for a part of a contribution. -/
def metaReferences : AST → List Reference
  | .node n cs =>
    match n.node.data, cs with
    | .metaIfStmt, condition :: branches => allMetaReferences branches ++ references condition
    | .metaCalculationStmt, cs => allReferences cs
    | _, cs => allMetaReferences cs
/-- `metaReferences` of each tree of a list. -/
def allMetaReferences : List AST → List Reference
  | [] => []
  | c :: cs => metaReferences c ++ allMetaReferences cs
end

/-- The references of the body of a function. -/
def functionReferences : AST → List Reference
  | .node _ [_, body] => references body
  | .node _ [_, _, body] => references body
  | _ => []

/-- The references of a meta function. -/
def metaFunctionReferences : AST → List Reference
  | .node _ [_, contribution] => metaReferences contribution
  | _ => []

/-! ## Coverage -/

theorem mem_consumeAllChildren {cs : List AST} {inst : AST} :
    inst ∈ consumeAllChildren cs ↔ ∃ c ∈ cs, inst ∈ consumeAll c := by
  induction cs with
  | nil => simp [consumeAllChildren]
  | cons c cs ih => simp [consumeAllChildren, ih]

theorem mem_allReferences {cs : List AST} {r : Reference} :
    r ∈ allReferences cs ↔ ∃ c ∈ cs, r ∈ references c := by
  induction cs with
  | nil => simp [allReferences]
  | cons c cs ih => simp [allReferences, ih]

theorem consumeAll_of_mem_child {n : ASTNode} {cs : List AST} {c inst : AST} (hc : c ∈ cs)
    (h : inst ∈ consumeAll c) : inst ∈ consumeAll (.node n cs) := by
  unfold consumeAll
  exact List.mem_append_right _ (mem_consumeAllChildren.2 ⟨c, hc, h⟩)

/-- What a statement or an expression looks up is consumed. -/
theorem mem_consumeAll_of_references (a : AST) {inst : AST}
    (h : .instantiation inst ∈ a.references) : inst ∈ a.consumeAll := by
  induction a using Rose.ind with
  | h n cs ih =>
    have hchildren {ds : List AST} (hds : ∀ d ∈ ds, d ∈ cs)
        (h : .instantiation inst ∈ allReferences ds) : inst ∈ consumeAll (.node n cs) := by
      obtain ⟨d, hd, h⟩ := mem_allReferences.1 h
      exact consumeAll_of_mem_child (hds d hd) (ih d (hds d hd) h)
    unfold references at h
    split at h
    · split at h
      · split at h <;> simp at h
      · simp at h
    · rename_i hdata
      have hk : n.node.kind = .metaInstantiationExpr := by rw [Node.kind, hdata]; rfl
      obtain rfl := Reference.instantiation.inj (List.mem_singleton.1 h)
      unfold consumeAll
      rw [if_pos hk]
      exact List.mem_append_left _ (List.mem_singleton.2 rfl)
    · rename_i condition branches hdata
      rcases List.mem_append.1 h with h | h
      · exact hchildren (fun d hd => List.mem_cons_of_mem _ hd) h
      · exact consumeAll_of_mem_child List.mem_cons_self (ih _ List.mem_cons_self h)
    · exact hchildren (fun d hd => hd) h

/-- The instantiations that the body of a function looks up are consumed. -/
theorem mem_consumeAll_of_functionReferences {a inst : AST}
    (h : .instantiation inst ∈ a.functionReferences) : inst ∈ a.consumeAll := by
  unfold functionReferences at h
  split at h
  · exact consumeAll_of_mem_child (by simp) (mem_consumeAll_of_references _ h)
  · exact consumeAll_of_mem_child (by simp) (mem_consumeAll_of_references _ h)
  · exact absurd h List.not_mem_nil

end AST

/-! ## What the code depends on -/

namespace IRContext

/-- What a reference is looked up to. -/
def lookup (ctx : IRContext) : Reference → Option (NodeId × FunctionType)
  | .function decl => (ctx.lookupGlobal decl).map (decl, ·)
  | .instantiation inst => ctx.lookupInstantiation inst.label.node.id

/-- Two contexts have the same constants, and look the references up to the same functions. -/
structure Agree (ctx ctx' : IRContext) (refs : List Reference) : Prop where
  constant : ∀ decl, ctx.constant decl = ctx'.constant decl
  lookup : ∀ r ∈ refs, ctx.lookup r = ctx'.lookup r

variable {ctx ctx' : IRContext} {refs refs' : List Reference}

theorem Agree.of_append_left (h : Agree ctx ctx' (refs ++ refs')) : Agree ctx ctx' refs :=
  ⟨h.constant, fun r hr => h.lookup r (List.mem_append_left _ hr)⟩

theorem Agree.of_append_right (h : Agree ctx ctx' (refs ++ refs')) : Agree ctx ctx' refs' :=
  ⟨h.constant, fun r hr => h.lookup r (List.mem_append_right _ hr)⟩

theorem Agree.child {cs : List AST} (h : Agree ctx ctx' (AST.allReferences cs)) {c : AST}
    (hc : c ∈ cs) : Agree ctx ctx' c.references :=
  ⟨h.constant, fun r hr => h.lookup r (AST.mem_allReferences.2 ⟨c, hc, hr⟩)⟩

end IRContext

namespace FunctionCodegen

variable {ctx ctx' : IRContext}

theorem codegenDeclRefExpr_congr {n : ASTNode} {cs : List AST} {name : Identifier}
    (hdata : n.node.data = .declRefExpr name)
    (h : IRContext.Agree ctx ctx' (AST.references (.node n cs))) :
    codegenDeclRefExpr ctx n = codegenDeclRefExpr ctx' n := by
  unfold codegenDeclRefExpr
  cases hdecl : n.decl with
  | none => rfl
  | some decl =>
    have hrefs : AST.references (.node n cs) =
        if decl.kind = .functionDecl then [.function decl.id] else [] := by
      unfold AST.references
      rw [hdata]
      simp only [hdecl]
    rw [hrefs] at h
    cases hk : decl.kind with
    | functionDecl =>
      rw [if_pos hk] at h
      have hlookup := h.lookup _ (List.mem_singleton.2 rfl)
      simp only [IRContext.lookup] at hlookup
      have hglobal : ctx.lookupGlobal decl.id = ctx'.lookupGlobal decl.id :=
        Option.map_injective (fun _ _ h => (Prod.mk.inj h).2) hlookup
      simp only [hk, hglobal]
    | globalConstantDecl => simp only [hk, h.constant]
    | _ => simp only [hk]

theorem codegenArguments_congr {cs : List AST}
    (h : ∀ c ∈ cs, codegenExpr ctx c = codegenExpr ctx' c) :
    codegenArguments ctx cs = codegenArguments ctx' cs := by
  induction cs with
  | nil => rfl
  | cons c cs ih =>
    rw [codegenArguments, codegenArguments, h c List.mem_cons_self,
      ih fun x hx => h x (List.mem_cons_of_mem _ hx)]

/-- The code of an expression depends on what its references are looked up to. -/
theorem codegenExpr_congr (a : AST) (h : IRContext.Agree ctx ctx' a.references) :
    codegenExpr ctx a = codegenExpr ctx' a := by
  induction a using Rose.ind with
  | h n cs ih =>
    obtain ⟨⟨id, data⟩, decl, exportedDecls⟩ := n
    cases data with
    | declRefExpr name => exact codegenDeclRefExpr_congr rfl h
    | metaInstantiationExpr =>
      have hlookup : ctx.lookupInstantiation id = ctx'.lookupInstantiation id :=
        h.lookup _ (List.mem_singleton.2 rfl)
      show codegenMetaInstantiationExpr ctx id = codegenMetaInstantiationExpr ctx' id
      rw [codegenMetaInstantiationExpr, codegenMetaInstantiationExpr, hlookup]
    | binaryOperatorExpr op =>
      have hrefs : IRContext.Agree ctx ctx' (AST.allReferences cs) := h
      have hchild (c : AST) (hc : c ∈ cs) := ih c hc (hrefs.child hc)
      rcases cs with _ | ⟨left, _ | ⟨right, _ | ⟨c, cs⟩⟩⟩
      case cons.cons.nil =>
        show codegenBinaryOperatorExpr op (codegenExpr ctx left) (codegenExpr ctx right) =
          codegenBinaryOperatorExpr op (codegenExpr ctx' left) (codegenExpr ctx' right)
        rw [hchild left (by simp), hchild right (by simp)]
      all_goals rfl
    | callOperatorExpr =>
      have hrefs : IRContext.Agree ctx ctx' (AST.allReferences cs) := h
      have hchild (c : AST) (hc : c ∈ cs) := ih c hc (hrefs.child hc)
      cases cs with
      | nil => rfl
      | cons callee args =>
        have hargs : codegenArguments ctx args = codegenArguments ctx' args :=
          codegenArguments_congr fun c hc => hchild c (List.mem_cons_of_mem _ hc)
        show (do createCall (← codegenExpr ctx callee) (← codegenArguments ctx args)) =
          (do createCall (← codegenExpr ctx' callee) (← codegenArguments ctx' args))
        rw [hchild callee List.mem_cons_self, hargs]
    | _ => rfl

theorem codegenStmts_congr {cs : List AST}
    (h : ∀ c ∈ cs, ∀ block, codegenStmt ctx block c = codegenStmt ctx' block c)
    (current : Option BlockId) : codegenStmts ctx current cs = codegenStmts ctx' current cs := by
  induction cs generalizing current with
  | nil => rfl
  | cons c cs ih =>
    simp only [codegenStmts, h c List.mem_cons_self, ih fun x hx => h x (List.mem_cons_of_mem _ hx)]

/-- The code of a statement depends on what its references are looked up to. -/
theorem codegenStmt_congr (a : AST) (h : IRContext.Agree ctx ctx' a.references) (block : BlockId) :
    codegenStmt ctx block a = codegenStmt ctx' block a := by
  induction a using Rose.ind generalizing block with
  | h n cs ih =>
    obtain ⟨⟨id, data⟩, decl, exportedDecls⟩ := n
    have hstmt (h : IRContext.Agree ctx ctx' (AST.allReferences cs)) (c : AST) (hc : c ∈ cs)
        (block : BlockId) := ih c hc (h.child hc) block
    have hexpr (h : IRContext.Agree ctx ctx' (AST.allReferences cs)) (c : AST) (hc : c ∈ cs) :=
      codegenExpr_congr c (h.child hc)
    cases data with
    | compoundStmt =>
      show withValueScope (codegenStmts ctx (some block) cs) =
        withValueScope (codegenStmts ctx' (some block) cs)
      rw [codegenStmts_congr (hstmt h)]
    | unscopedCompoundStmt => exact codegenStmts_congr (hstmt h) (some block)
    | returnStmt =>
      rcases cs with _ | ⟨expr, _ | ⟨c, cs⟩⟩
      case cons.nil =>
        show (do
          terminate (.ret (← loadMemory (← codegenExpr ctx expr)))
          return none) = (do
          terminate (.ret (← loadMemory (← codegenExpr ctx' expr)))
          return none)
        rw [hexpr h expr List.mem_cons_self]
      all_goals rfl
    | expressionStmt =>
      rcases cs with _ | ⟨expr, _ | ⟨c, cs⟩⟩
      case cons.nil =>
        show (do
          let _ ← codegenExpr ctx expr
          emit (.statement id)
          return some block) = (do
          let _ ← codegenExpr ctx' expr
          emit (.statement id)
          return some block)
        rw [hexpr h expr List.mem_cons_self]
      all_goals rfl
    | declStmt name =>
      rcases cs with _ | ⟨expr, _ | ⟨c, cs⟩⟩
      case cons.nil =>
        show (do
          let value ← codegenExpr ctx expr
          emit (.alloca id)
          createStore (← loadMemory value) (.alloca id)
          introduce id
          return some block) = (do
          let value ← codegenExpr ctx' expr
          emit (.alloca id)
          createStore (← loadMemory value) (.alloca id)
          introduce id
          return some block)
        rw [hexpr h expr List.mem_cons_self]
      all_goals rfl
    | ifStmt =>
      cases cs with
      | nil => rfl
      | cons condition branches =>
        have h : IRContext.Agree ctx ctx'
            (AST.allReferences branches ++ AST.references condition) := h
        have hcondition := codegenExpr_congr condition h.of_append_right
        have hbranch (c : AST) (hc : c ∈ branches) (block : BlockId) :=
          ih c (List.mem_cons_of_mem _ hc) (h.of_append_left.child hc) block
        have hif (codegenTrue : BlockId → CodegenM (Option BlockId))
            (codegenFalse : Option (BlockId → CodegenM (Option BlockId))) :
            codegenIfStructure ctx block condition codegenTrue codegenFalse =
              codegenIfStructure ctx' block condition codegenTrue codegenFalse := by
          rw [codegenIfStructure, codegenIfStructure, hcondition]
        rcases branches with _ | ⟨trueBranch, _ | ⟨falseBranch, _ | ⟨c, cs⟩⟩⟩
        · rfl
        · have htrue := funext (hbranch trueBranch (by simp))
          show codegenIfStructure ctx block condition
              (fun current => codegenStmt ctx current trueBranch) none = _
          rw [hif, htrue]
          rfl
        · have htrue := funext (hbranch trueBranch (by simp))
          have hfalse := funext (hbranch falseBranch (by simp))
          show codegenIfStructure ctx block condition
              (fun current => codegenStmt ctx current trueBranch)
              (some fun current => codegenStmt ctx current falseBranch) = _
          rw [hif, htrue, hfalse]
          rfl
        · rfl
    | _ => rfl

/-- The code of a function depends on what the references of its body are looked up to. -/
theorem codegen_congr {a : AST} (h : IRContext.Agree ctx ctx' a.functionReferences) :
    codegen ctx a = codegen ctx' a := by
  have hbody {args body : AST} (h : IRContext.Agree ctx ctx' body.references) :
      codegenBody ctx args body = codegenBody ctx' args body := by
    simp only [codegenBody, codegenStmt_congr body h]
  obtain ⟨n, cs⟩ := a
  rcases cs with _ | ⟨args, _ | ⟨body, _ | ⟨body', _ | ⟨c, cs⟩⟩⟩⟩
  · rfl
  · rfl
  · exact hbody h
  · exact hbody h
  · rfl

end FunctionCodegen

end Swy
