import Swy.Sema.SemaSafety
import Swy.Codegen.Instantiation

/-!
# Calls that reach the code generation

The analysis checks a call against the function its callee names. A callee that is an instantiation
is not looked at, and nothing else looks at it before the code of the call is generated: what it
exports is only known once the instantiation was run. So of an accepted unit without semantic errors
the calls by name are well formed (`isWellFormedCall_of_callsByName`).
-/

namespace Swy

open Library

/-- The callee of the call is a function with as many parameters as the call passes arguments, and
where it returns nothing, the call is an expression statement. -/
def Visit.isWellFormedCall (ctx : IRContext) (v : Visit) : Bool :=
  match v.base with
  | .node _ [] => false
  | .node _ (callee :: args) =>
    (ctx.calleeType callee).any fun type =>
      type.params == args.length &&
        (!type.returnsVoid || v.above.head?.any fun n => n.node.kind == .expressionStmt)

/-- The callee is a name. -/
def Visit.callsByName (v : Visit) : Bool :=
  v.base.children.head?.any fun callee => AST.kind callee == .declRefExpr

namespace FunctionCodegen

variable {ctx : IRContext} {s s' : CodegenState}

theorem length_codegenArguments {cs : List AST} {os : List Operand}
    (h : codegenArguments ctx cs s = .ok (os, s')) : os.length = cs.length := by
  induction cs generalizing s os with
  | nil =>
    obtain ⟨rfl, rfl⟩ := CodegenM.pure_ok.1 h
    rfl
  | cons c cs ih =>
    rw [codegenArguments] at h
    obtain ⟨_, s₁, -, h⟩ := CodegenM.bind_ok.1 h
    obtain ⟨_, s₂, -, h⟩ := CodegenM.bind_ok.1 h
    obtain ⟨args, s₃, hargs, h⟩ := CodegenM.bind_ok.1 h
    obtain ⟨rfl, rfl⟩ := CodegenM.pure_ok.1 h
    rw [List.length_cons, List.length_cons, ih hargs]

/-- What the code of a callee is. -/
theorem codegenExpr_callee {callee : AST} {type : FunctionType}
    (h : ctx.calleeType callee = some type) {o : Operand}
    (hcode : codegenExpr ctx callee s = .ok (o, s')) : ∃ decl, o = .function decl type := by
  obtain ⟨⟨⟨id, data⟩, decl, exportedDecls⟩, cs⟩ := callee
  cases data <;> try cases h
  case declRefExpr name =>
    cases decl with
    | none => cases h
    | some d =>
      simp only [IRContext.calleeType, Option.bind_some, Option.ite_none_right_eq_some] at h
      obtain ⟨hk, htype⟩ := h
      have hcode : codegenDeclRefExpr ctx ⟨⟨id, .declRefExpr name⟩, some d, exportedDecls⟩ s =
        .ok (o, s') := hcode
      simp only [codegenDeclRefExpr, hk, htype] at hcode
      obtain ⟨rfl, -⟩ := CodegenM.pure_ok.1 hcode
      exact ⟨d.id, rfl⟩
  case metaInstantiationExpr =>
    have hcode : codegenMetaInstantiationExpr ctx id s = .ok (o, s') := hcode
    unfold codegenMetaInstantiationExpr at hcode
    cases hlookup : ctx.lookupInstantiation id with
    | none =>
      simp only [hlookup] at hcode
      exact (CodegenM.throw_ok.1 hcode).elim
    | some function =>
      simp only [hlookup] at hcode
      obtain ⟨rfl, -⟩ := CodegenM.pure_ok.1 hcode
      simp only [IRContext.calleeType, hlookup, Option.map_some, Option.some.injEq] at h
      exact ⟨function.1, by rw [← h]⟩

/-- There is no code for a call with a wrong number of arguments. -/
theorem codegenExpr_call_ne_ok {n : ASTNode} {callee : AST} {args : List AST} {type : FunctionType}
    (hn : n.node.data = .callOperatorExpr) (htype : ctx.calleeType callee = some type)
    (hcount : type.params ≠ args.length) (r : Operand × CodegenState) :
    codegenExpr ctx (.node n (callee :: args)) s ≠ .ok r := by
  intro h
  obtain ⟨⟨id, data⟩, decl, exportedDecls⟩ := n
  cases hn
  obtain ⟨o, s₁, hcallee, h⟩ := CodegenM.bind_ok.1 h
  obtain ⟨os, s₂, hargs, h⟩ := CodegenM.bind_ok.1 h
  obtain ⟨function, rfl⟩ := codegenExpr_callee htype hcallee
  have hlength : ¬(type.params = os.length ∧ os.all Operand.isInteger = true) := fun hcall =>
    hcount (hcall.1.trans (length_codegenArguments hargs))
  rw [createCall, if_neg hlength] at h
  exact CodegenM.throw_ok.1 h

end FunctionCodegen

namespace SemaAnalysis

variable {ctx : IRContext}

theorem isError_of_hasErrors {ds : List Diagnostic} (h : hasErrors ds = false) :
    ∀ d ∈ ds, d.isError = false := by
  intro d hd
  cases herror : d.isError with
  | false => rfl
  | true =>
    have hany : hasErrors ds = true := List.any_eq_true.2 ⟨d, hd, herror⟩
    rw [h] at hany
    cases hany

/-- Without a diagnostic that is an error, what is reported only under a condition does not hold. -/
theorem eq_false_of_reportIf {c : Bool} {d : Diagnostic} {ds : List Diagnostic}
    (h : ∀ d' ∈ reportIf c (d :: ds), d'.isError = false) (hd : d.isError = true) : c = false := by
  cases c with
  | false => rfl
  | true =>
    have herror := h d List.mem_cons_self
    rw [hd] at herror
    cases herror

/-- A call by name without an error is well formed. -/
theorem isWellFormedCall_of_visit {contributed : Bool} {above : List ASTNode} {n callee : ASTNode}
    {cs args : List AST} {name : Identifier} {d : Node} {ds : List Diagnostic}
    (hname : callee.node.data = .declRefExpr name) (hd : callee.decl = some d)
    (h : visitCallOperatorExpr ctx (n :: above) (.node callee cs) args = .ok ds)
    (herrors : ∀ d ∈ ds, d.isError = false) :
    Visit.isWellFormedCall ctx ⟨contributed, above, .node n (.node callee cs :: args)⟩ = true := by
  unfold visitCallOperatorExpr at h
  simp only [Rose.label_node, hname, hd] at h
  split at h
  · rename_i hfunction
    unfold visitFunctionCall at h
    cases htype : ctx.lookupGlobal d.id with
    | none =>
      rw [htype] at h
      cases h
    | some type =>
      simp only [htype] at h
      cases habove : above with
      | nil =>
        subst habove
        cases h
      | cons parent above' =>
        subst habove
        cases h
        have hvoid := eq_false_of_reportIf (fun d hd => herrors d (List.mem_append_left _ hd)) rfl
        have hcount := eq_false_of_reportIf (fun d hd => herrors d (List.mem_append_right _ hd)) rfl
        have hcount : args.length = type.params := by
          rw [bne_eq_false_iff_eq] at hcount
          exact hcount
        have hcallee : ctx.calleeType (.node callee cs) = some type := by
          simp only [IRContext.calleeType, hname, hd, Option.bind_some, hfunction, if_true, htype]
        simp only [Visit.isWellFormedCall, hcallee, Option.any_some, List.head?_cons, hcount,
          beq_self_eq_true, Bool.true_and]
        rcases Bool.and_eq_false_iff.1 hvoid with hreturns | hparent
        · rw [hreturns]
          rfl
        · rw [bne_eq_false_iff_eq] at hparent
          rw [hparent, beq_self_eq_true, Bool.or_true]
  · split at h
    · cases h
      exact absurd (herrors _ List.mem_cons_self) (by decide)
    · cases h

section Accepted

variable {similarTo : ScopeChain → Identifier → Option Node} {k : ASTKind} {layout : Layout}
  {heap : ASTHeap} {a : AST} {s : ASTLayoutReader.State}

/-- In an accepted unit that was analysed without an error, every call by name is well formed. -/
theorem isWellFormedCall_of_callsByName
    (haccept : ASTLayoutReader.AcceptsUnit similarTo k layout heap a s) {ds : List Diagnostic}
    (hcheck : checkAST ctx a = .ok ds) (herrors : hasErrors ds = false) {v : Visit}
    (hv : v ∈ a.visited false []) (hk : v.base.kind = .callOperatorExpr)
    (hc : v.contributed = false) (hname : v.callsByName = true) :
    v.isWellFormedCall ctx = true := by
  obtain ⟨ds', hds', hsub⟩ := accept_reports ctx hcheck v hv
  have herrors' : ∀ d ∈ ds', d.isError = false := fun d hd =>
    isError_of_hasErrors herrors d (hsub d hd)
  obtain ⟨contributed, above, ⟨⟨id, data⟩, target, exportedDecls⟩, cs⟩ := v
  cases data <;> try cases hk
  cases hc
  cases cs with
  | nil => cases hname
  | cons callee args =>
    obtain ⟨⟨⟨calleeId, calleeData⟩, decl, calleeDecls⟩, ds⟩ := callee
    cases calleeData <;> try cases hname
    -- the callee stands at the stage of the call, so it is resolved
    have hcallee := AST.visited_trans hv (AST.mem_visited_node.2 (.inr
      ⟨(false, _), List.mem_cons_self, AST.mem_visited_self⟩))
    have hstage := haccept.stagedRefs _ (AST.mem_staged hcallee) rfl
    cases decl with
    | none => exact absurd (hstage.1 rfl) Bool.false_ne_true
    | some d => exact isWellFormedCall_of_visit rfl rfl hds' herrors'

end Accepted

end SemaAnalysis

end Swy
