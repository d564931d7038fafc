import Swy.Codegen.TerminatedFlow

/-!
# Returns and signatures

A return statement returns what its expression evaluates to, and a body that is left returns void;
no one compares either with the return type of the declaration. Which of the two a function does is
read off its body (`AST.returnsAgree`).
-/

namespace Swy

open Library

/-- The return fits to the signature: an integer, or nothing if the function returns void. -/
def Terminator.Agrees (returnsVoid : Bool) : Terminator → Prop
  | .ret value => returnsVoid = false ∧ value.isInteger = true
  | .retVoid => returnsVoid = true
  | .br _ | .condBr _ _ _ => True

/-- All returns of the code fit to the signature. -/
def ReturnsAgree (returnsVoid : Bool) (bs : Blocks Instruction) : Prop :=
  ∀ b t, .terminator t ∈ bs.code b → t.Agrees returnsVoid

section

variable (ctx : IRContext)

/-- The expression calls a function that returns void. -/
def AST.callsVoid : AST → Bool
  | .node n cs =>
    match n.node.data, cs with
    | .callOperatorExpr, callee :: _ => (ctx.calleeType callee).any FunctionType.returnsVoid
    | _, _ => false

mutual
/-- All return statements fit to the signature. -/
def AST.returnsAgree (returnsVoid : Bool) : AST → Bool
  | .node n cs =>
    match n.node.data, cs with
    | .compoundStmt, cs | .unscopedCompoundStmt, cs => AST.returnsAgreeIn returnsVoid cs
    | .returnStmt, [] => returnsVoid
    | .returnStmt, [expr] => !returnsVoid && !AST.callsVoid ctx expr
    | .ifStmt, [_, trueBranch] => AST.returnsAgree returnsVoid trueBranch
    | .ifStmt, [_, trueBranch, falseBranch] =>
      AST.returnsAgree returnsVoid trueBranch && AST.returnsAgree returnsVoid falseBranch
    | _, _ => true
/-- `returnsAgree` for each statement of a compound. -/
def AST.returnsAgreeIn (returnsVoid : Bool) : List AST → Bool
  | [] => true
  | c :: cs => AST.returnsAgree returnsVoid c && AST.returnsAgreeIn returnsVoid cs
end

end

/-! ## What instructions add -/

section

variable {rv : Bool} {bs : Blocks Instruction}

theorem returnsAgree_create : ReturnsAgree rv bs.create ↔ ReturnsAgree rv bs := by
  simp only [ReturnsAgree, Blocks.code_create]

theorem returnsAgree_append {b : BlockId} (hb : b < bs.length) (t : Terminator) :
    ReturnsAgree rv (bs.append b (.terminator t)) ↔ ReturnsAgree rv bs ∧ t.Agrees rv := by
  constructor
  · intro h
    refine ⟨fun c u hu => h c u ?_, h b t ?_⟩
    · by_cases hc : c = b
      · subst hc
        rw [Blocks.code_append_self hb]
        exact List.mem_append_left _ hu
      · rw [Blocks.code_append_of_ne hc]
        exact hu
    · rw [Blocks.code_append_self hb]
      exact List.mem_append_right _ (List.mem_singleton.2 rfl)
  · rintro ⟨h, ht⟩ c u hu
    by_cases hc : c = b
    · subst hc
      rw [Blocks.code_append_self hb] at hu
      rcases List.mem_append.1 hu with hu | hu
      · exact h c u hu
      · cases List.mem_singleton.1 hu
        exact ht
    · rw [Blocks.code_append_of_ne hc] at hu
      exact h c u hu

/-- Straight code returns nowhere. -/
theorem CodegenState.Straight.returnsAgree {s s' : CodegenState} (h : s.Straight s') (rv : Bool) :
    ReturnsAgree rv s'.blocks ↔ ReturnsAgree rv s.blocks := by
  obtain ⟨os, hos⟩ := h.operations
  have hcode (b : BlockId) (t : Terminator) :
      .terminator t ∈ s'.blocks.code b ↔ .terminator t ∈ s.blocks.code b := by
    by_cases hb : b = s.insertPoint
    · subst hb
      rw [hos, List.mem_append]
      refine or_iff_left fun ht => ?_
      obtain ⟨o, -, ho⟩ := List.mem_map.1 ht
      cases ho
    · by_cases hlength : b < s.blocks.length
      · rw [h.blocks.frame b hlength hb]
      · have hle := Nat.le_of_not_lt hlength
        rw [Blocks.code_of_length_le hle, Blocks.code_of_length_le (h.length ▸ hle)]
  simp only [ReturnsAgree, hcode]

end

/-! ## What a call returns -/

section

variable (ctx : IRContext)

/-- An expression is void exactly if it calls a function that returns void. -/
theorem callsVoid_iff {a : AST} {known known' : List (List NodeId)} {kind : OperandKind}
    (h : Check.codegenExpr ctx a known = some (kind, known')) :
    AST.callsVoid ctx a = true ↔ kind = .void := by
  have impossible {kind : OperandKind} (hk : kind ≠ .void) : false = true ↔ kind = .void :=
    ⟨fun h => Bool.noConfusion h, fun h => absurd h hk⟩
  obtain ⟨⟨⟨id, data⟩, decl, exportedDecls⟩, cs⟩ := a
  cases data with
  | declRefExpr name =>
    obtain ⟨d, -, hkind⟩ := Check.declRefExpr_kind h
    rcases hkind with ⟨-, rfl⟩ | ⟨-, rfl⟩ | ⟨-, type, rfl⟩ <;> exact impossible (by simp)
  | metaInstantiationExpr =>
    have h : Check.codegenMetaInstantiationExpr ctx id known = some (kind, known') := h
    unfold Check.codegenMetaInstantiationExpr at h
    cases hlookup : ctx.lookupInstantiation id with
    | none =>
      rw [hlookup] at h
      cases h
    | some function =>
      rw [hlookup] at h
      cases Check.pure_some.1 h
      exact impossible (by simp)
  | integerLiteralExpr literal | booleanLiteralExpr literal =>
    cases h
    exact impossible (by simp)
  | binaryOperatorExpr op =>
    rcases cs with _ | ⟨left, _ | ⟨right, _ | ⟨c, cs⟩⟩⟩
    case cons.cons.nil =>
      by_cases hop : op = .assign
      · subst hop
        obtain ⟨rfl | rfl, -⟩ := Check.assign_kind h <;> exact impossible (by simp)
      · obtain rfl := Check.binary_kind hop h
        exact impossible (by simp)
    all_goals cases h
  | callOperatorExpr =>
    cases cs with
    | nil => cases h
    | cons callee args =>
      obtain ⟨f, known₁, hcallee, h⟩ := Check.bind_some.1 h
      obtain ⟨os, known₂, -, h⟩ := Check.bind_some.1 h
      cases f with
      | function type =>
        show (ctx.calleeType callee).any FunctionType.returnsVoid = true ↔ _
        rw [Check.calleeType_of_kind hcallee, Option.any_some]
        rw [Check.createCall] at h
        split at h
        · cases Check.pure_some.1 h
          cases type.returnsVoid
          · exact impossible (by simp)
          · exact ⟨fun _ => rfl, fun _ => rfl⟩
        · cases h
      | _ => cases h
  | _ => cases h

/-- What a return statement loads is an integer, unless it is void. -/
theorem isInteger_iff_of_load {expr : AST} {s s₁ s₂ : CodegenState} {value loaded : Operand}
    (hvalue : FunctionCodegen.codegenExpr ctx expr s = .ok (value, s₁))
    (hload : FunctionCodegen.loadMemory value s₁ = .ok (loaded, s₂)) :
    loaded.isInteger = true ↔ AST.callsVoid ctx expr = false := by
  obtain ⟨kind, hkind, rfl⟩ := (codegenExpr_abstracts ctx expr).of_ok hvalue
  have hvoid := callsVoid_iff ctx hkind
  rw [← Bool.not_eq_true, hvoid]
  cases value with
  | alloca decl =>
    cases hload
    exact ⟨fun _ => nofun, fun _ => rfl⟩
  | function decl type => exact (CodegenM.throw_ok.1 hload).elim
  | constant | argument | register =>
    obtain ⟨rfl, -⟩ := CodegenM.pure_ok.1 hload
    exact ⟨fun _ => nofun, fun _ => rfl⟩
  | void =>
    obtain ⟨rfl, -⟩ := CodegenM.pure_ok.1 hload
    exact ⟨fun h => (by cases h), fun h => absurd rfl h⟩

end

/-! ## The returns of a statement -/

/-- Behind the code the returns agree exactly if they did before and those of the code agree. -/
def AddsReturns (rv agree : Bool) (c : BlockId → CodegenM (Option BlockId)) : Prop :=
  ∀ ⦃s r s'⦄, s.Positioned → c s.insertPoint s = .ok (r, s') →
    (ReturnsAgree rv s'.blocks ↔ ReturnsAgree rv s.blocks ∧ agree = true)

section

variable {rv : Bool}

theorem AddsReturns.throw {agree : Bool} {fault : CodegenFault} :
    AddsReturns rv agree fun _ => throw fault :=
  fun _ _ _ _ h => (CodegenM.throw_ok.1 h).elim

/-- Straight code returns nowhere. -/
theorem AddsReturns.of_emits {α β : Type} {c : CodegenM α} {e : Exec β}
    {post : α → β → Assertion} (h : Emits default [] .trivial c e post) :
    AddsReturns rv true fun block => do let _ ← c; return some block := by
  intro s r s' hs hok
  obtain ⟨a, s₁, hc, hok⟩ := CodegenM.bind_ok.1 hok
  obtain ⟨-, rfl⟩ := CodegenM.pure_ok.1 hok
  rw [(h hs hc).1.returnsAgree rv, and_iff_left rfl]

/-- A jump or a conditional branch returns nowhere. -/
theorem returnsAgree_append_of_agrees {bs : Blocks Instruction} {b : BlockId} (hb : b < bs.length)
    {t : Terminator} (ht : t.Agrees rv) :
    ReturnsAgree rv (bs.append b (.terminator t)) ↔ ReturnsAgree rv bs := by
  rw [returnsAgree_append hb, and_iff_left ht]

variable (ctx : IRContext)

theorem returnVoid_addsReturns :
    AddsReturns rv rv fun _ => do
      FunctionCodegen.terminate .retVoid
      return none := by
  intro s r s' hs hok
  cases hok
  exact returnsAgree_append hs .retVoid

theorem returnExpr_addsReturns (expr : AST) :
    AddsReturns rv (!rv && !AST.callsVoid ctx expr) fun _ => do
      let value ← FunctionCodegen.codegenExpr ctx expr
      FunctionCodegen.terminate (.ret (← FunctionCodegen.loadMemory value))
      return none := by
  intro s r s' hs hok
  obtain ⟨value, s₁, hvalue, hok⟩ := CodegenM.bind_ok.1 hok
  obtain ⟨loaded, s₂, hload, hok⟩ := CodegenM.bind_ok.1 hok
  cases hok
  have hemits : Emits default [] .trivial _ _ _ := returnExpr_emits ctx expr
  obtain ⟨hst, -⟩ := hemits hs (CodegenM.bind_ok.2 ⟨value, s₁, hvalue, hload⟩)
  show ReturnsAgree rv (s₂.blocks.append s₂.insertPoint _) ↔ _
  rw [returnsAgree_append hst.positioned, hst.returnsAgree rv, Terminator.Agrees,
    isInteger_iff_of_load ctx hvalue hload]
  simp

theorem codegenBranch_addsReturns {agree : Bool} {c : BlockId → CodegenM (Option BlockId)}
    {e : Exec Flow} (h : AddsReturns rv agree c) {s s' : CodegenState}
    (hc : Compiles default [] s.cursor c e) {cont : Option BlockId}
    {r : BlockId × Option BlockId} (hok : FunctionCodegen.codegenBranch cont c s = .ok (r, s')) :
    ReturnsAgree rv s'.blocks ↔ ReturnsAgree rv s.blocks ∧ agree = true := by
  obtain ⟨-, r, s₃, h₃, hend⟩ := codegenBranch_inv hok
  obtain ⟨hlater, -⟩ := hc positioned_enterBlock rfl h₃
  have hbranch := h positioned_enterBlock h₃
  rw [CodegenState.enterBlock, returnsAgree_create] at hbranch
  rcases hend with ⟨-, -, rfl⟩ | ⟨b, c', s₄, -, h₄, -, rfl⟩
  · exact hbranch
  · have hpos := hlater.positioned
    rw [← hbranch]
    cases cont with
    | some b' =>
      obtain ⟨rfl, rfl⟩ := CodegenM.pure_ok.1 h₄
      exact returnsAgree_append_of_agrees (t := .br _) hpos True.intro
    | none =>
      cases h₄
      rw [returnsAgree_append_of_agrees (t := .br _) _ True.intro, returnsAgree_create]
      rw [Blocks.length_create]
      exact Nat.lt_succ_of_lt hpos

theorem codegenIfStructure_addsReturns (condition : AST) {agree agree' : Bool}
    {c : BlockId → CodegenM (Option BlockId)} {d : Option (BlockId → CodegenM (Option BlockId))}
    {e f : Exec Flow} (hc : AddsReturns rv agree c)
    (hc' : ∀ cursor, Compiles default [] cursor c e)
    (hd : ∀ d', d = some d' → AddsReturns rv agree' d' ∧ ∀ cursor, Compiles default [] cursor d' f)
    (hnone : d = none → agree' = true ∧ f = return .next) :
    AddsReturns rv (agree && agree') fun block =>
      FunctionCodegen.codegenIfStructure ctx block condition c d := by
  intro s r s' hs hok
  obtain ⟨trueBlock, falseBlock, cont, s₁, s₂, predicate, s₃, h₁, h₂, h₃, hblocks, -⟩ :=
    codegenIfStructure_inv hok
  have htrue := codegenBranch_ok (hc' s.cursor) rfl (Nat.le_refl _)
    (fun _ h => (Option.some_ne_none _ h.symm).elim) h₁
  have hfalse := codegenFalseBranch_ok (fun d' h => (hd d' h).2 s.cursor)
    (fun h => (hnone h).2) htrue.cursor htrue.grows.length htrue.continueBlock h₂
  have hadds : ReturnsAgree rv s₂.blocks ↔ ReturnsAgree rv s₁.blocks ∧ agree' = true := by
    cases d with
    | some d' => exact codegenBranch_addsReturns (hd d' rfl).1 ((hd d' rfl).2 _) h₂
    | none =>
      rw [and_iff_left (hnone rfl).1]
      obtain ⟨b, s₅, h₅, h₂⟩ := CodegenM.bind_ok.1 h₂
      obtain ⟨-, rfl⟩ := CodegenM.pure_ok.1 h₂
      cases cont with
      | some b' =>
        obtain ⟨-, rfl⟩ := CodegenM.pure_ok.1 h₅
        exact Iff.rfl
      | none =>
        cases h₅
        exact returnsAgree_create
  have hpos₂ : CodegenState.Positioned { s₂ with insertPoint := s.insertPoint } :=
    Nat.lt_of_lt_of_le hs (Nat.le_trans htrue.grows.length hfalse.grows.length)
  have hcondition : Emits default [] .trivial _ _ _ := condition_emits ctx condition
  obtain ⟨hst, -⟩ := hcondition hpos₂ h₃
  have hbranches := codegenBranch_addsReturns hc (hc' s.cursor) h₁
  rw [hblocks, returnsAgree_append_of_agrees (t := .condBr _ _ _) hst.positioned True.intro,
    hst.returnsAgree rv, Bool.and_eq_true, ← and_assoc, ← hbranches]
  exact hadds

theorem codegenStmts_addsReturns {cs : List AST}
    (h : ∀ c ∈ cs, AddsReturns rv (AST.returnsAgree ctx rv c)
      fun block => FunctionCodegen.codegenStmt ctx block c) :
    AddsReturns rv (AST.returnsAgreeIn ctx rv cs)
      fun block => FunctionCodegen.codegenStmts ctx (some block) cs := by
  induction cs with
  | nil =>
    intro s r s' _ hok
    obtain ⟨-, rfl⟩ := CodegenM.pure_ok.1 hok
    exact (and_iff_left rfl).symm
  | cons c cs ih =>
    intro s r s' hs hok
    obtain ⟨_, s₁, hblock, hok⟩ := CodegenM.bind_ok.1 hok
    obtain ⟨rfl, rfl⟩ := CodegenM.pure_ok.1 hblock
    obtain ⟨r₁, s₁, hc, hok⟩ := CodegenM.bind_ok.1 hok
    have hadds := h c List.mem_cons_self hs hc
    have hcompiles : Compiles default [] s.cursor _ _ := codegenStmt_compiles ctx c
    obtain ⟨hlater, hpoint, -⟩ := hcompiles hs rfl hc
    rw [AST.returnsAgreeIn, Bool.and_eq_true, ← and_assoc, ← hadds]
    cases r₁ with
    | some b =>
      rw [← hpoint b rfl] at hok
      exact ih (fun x hx => h x (List.mem_cons_of_mem _ hx)) hlater.positioned hok
    | none =>
      cases cs with
      | nil =>
        obtain ⟨-, rfl⟩ := codegenStmts_none ctx hok
        exact (and_iff_left rfl).symm
      | cons x xs =>
        obtain ⟨_, _, hthrow, -⟩ := CodegenM.bind_ok.1 hok
        exact (CodegenM.throw_ok.1 hthrow).elim

theorem AddsReturns.withValueScope {agree : Bool} {c : BlockId → CodegenM (Option BlockId)}
    (h : AddsReturns rv agree c) :
    AddsReturns rv agree fun block => FunctionCodegen.withValueScope (c block) := by
  intro s r s' hs hok
  obtain ⟨_, s₁, hopen, hok⟩ := CodegenM.bind_ok.1 hok
  obtain ⟨a, s₂, hc, hok⟩ := CodegenM.bind_ok.1 hok
  obtain ⟨_, s₃, hclose, hok⟩ := CodegenM.bind_ok.1 hok
  obtain ⟨-, rfl⟩ := CodegenM.pure_ok.1 hok
  cases hopen
  cases hclose
  have hs' : CodegenState.Positioned { s with values := [] :: s.values } := hs
  have hadds := h hs' hc
  exact hadds

/-- The returns of a statement agree exactly if its return statements do. -/
theorem codegenStmt_addsReturns (a : AST) :
    AddsReturns rv (AST.returnsAgree ctx rv a)
      fun block => FunctionCodegen.codegenStmt ctx block a := by
  induction a using Rose.ind with
  | h n cs ih =>
    obtain ⟨⟨id, data⟩, decl, exportedDecls⟩ := n
    have hfault (fault : CodegenFault) (agree : Bool) :
        AddsReturns rv agree fun _ => throw fault := .throw
    cases data with
    | compoundStmt => exact (codegenStmts_addsReturns ctx ih).withValueScope
    | unscopedCompoundStmt => exact codegenStmts_addsReturns ctx ih
    | returnStmt =>
      rcases cs with _ | ⟨expr, _ | ⟨c, cs⟩⟩
      · exact returnVoid_addsReturns
      · exact returnExpr_addsReturns ctx expr
      · exact hfault _ _
    | expressionStmt =>
      rcases cs with _ | ⟨expr, _ | ⟨c, cs⟩⟩
      · exact hfault _ _
      · have hemits : Emits default [] .trivial _ _ _ := exprStmt_emits ctx id expr
        have h : AddsReturns rv true _ := AddsReturns.of_emits hemits
        simp only [bind_assoc] at h
        exact h
      · exact hfault _ _
    | declStmt name =>
      rcases cs with _ | ⟨expr, _ | ⟨c, cs⟩⟩
      · exact hfault _ _
      · have hemits : Emits default [] .trivial _ _ _ := declStmt_emits ctx id expr
        have h : AddsReturns rv true _ := AddsReturns.of_emits hemits
        simp only [bind_assoc] at h
        exact h
      · exact hfault _ _
    | ifStmt =>
      rcases cs with _ | ⟨condition, _ | ⟨trueBranch, _ | ⟨falseBranch, _ | ⟨c, cs⟩⟩⟩⟩
      · exact hfault _ _
      · exact hfault _ _
      · have h : AddsReturns rv (AST.returnsAgree ctx rv trueBranch && true) _ :=
          codegenIfStructure_addsReturns ctx condition (ih trueBranch (by simp))
            (fun _ => codegenStmt_compiles ctx trueBranch)
            (fun _ h => (Option.some_ne_none _ h.symm).elim) fun _ => ⟨rfl, rfl⟩
        rw [Bool.and_true] at h
        exact h
      · have hfalse (d : BlockId → CodegenM (Option BlockId))
            (h : (some fun current => FunctionCodegen.codegenStmt ctx current falseBranch) =
              some d) :
            AddsReturns rv (AST.returnsAgree ctx rv falseBranch) d ∧
              ∀ cursor, Compiles default [] cursor d
                (Interpreter.execStmt ctx default falseBranch) := by
          cases h
          exact ⟨ih falseBranch (by simp), fun _ => codegenStmt_compiles ctx falseBranch⟩
        exact codegenIfStructure_addsReturns ctx condition (ih trueBranch (by simp))
          (fun _ => codegenStmt_compiles ctx trueBranch) hfalse
          fun h => (Option.some_ne_none _ h).elim
      · exact hfault _ _
    | _ => exact hfault _ _

/-- A body that is left returns void at its end. -/
theorem finish_addsReturns {a : AST} (ha : AST.nothingFollows a) :
    AddsReturns rv (AST.returnsAgree ctx rv a && (rv || AST.terminates a)) (fun block =>
      FunctionCodegen.codegenStmt ctx block a >>= FunctionCodegen.finish) := by
  intro s r s' hs hok
  obtain ⟨r₁, s₁, hstmt, hok⟩ := CodegenM.bind_ok.1 hok
  have hstmtAdds : AddsReturns rv _ _ := codegenStmt_addsReturns ctx a
  have hadds := hstmtAdds hs hstmt
  have hterminates := FunctionCodegen.codegenStmt_isSome ctx ha hstmt
  have hcompiles : Compiles default [] s.cursor _ _ := codegenStmt_compiles ctx a
  obtain ⟨hlater, -⟩ := hcompiles hs rfl hstmt
  rw [Bool.and_eq_true, ← and_assoc, ← hadds, ← hterminates]
  cases r₁ with
  | none =>
    obtain ⟨-, rfl⟩ := CodegenM.pure_ok.1 hok
    rw [Option.isNone_none, Bool.or_true, and_iff_left rfl]
  | some b =>
    cases hok
    rw [Option.isNone_some, Bool.or_false]
    exact returnsAgree_append hlater.positioned .retVoid

/-- The returns of a function agree exactly if its return statements do, and where it returns an
integer its body is not left. -/
theorem codegenBody_returns {args body : AST} {cursor : ASTCursor} {s : CodegenState}
    (hok : FunctionCodegen.codegenBody ctx args body (.initial cursor) = .ok ((), s)) :
    ReturnsAgree rv s.blocks ↔
      (AST.returnsAgree ctx rv body && (rv || AST.terminates body)) = true := by
  have hfollows := nothingFollows_of_codegenBody ctx hok
  obtain ⟨s', hfrom, hblocks⟩ := codegenBody_ok ctx hok
  obtain ⟨_, s₁, hargs, hbody⟩ := CodegenM.bind_ok.1 hfrom
  have hemits : Emits default [] .trivial _ _ _ := storeArguments_emits args.children 0
  obtain ⟨hst, -⟩ := hemits (by exact Nat.zero_lt_one) hargs
  have hpoint : s₁.insertPoint = 0 := hst.insertPoint
  rw [← hpoint] at hbody
  have hempty : ReturnsAgree rv (FunctionCodegen.entered cursor).blocks := by
    intro b t ht
    cases b <;> cases ht
  rw [← hblocks, finish_addsReturns ctx hfollows hst.positioned hbody, hst.returnsAgree rv,
    and_iff_right hempty]

end

/-- The returns of a function agree with its declaration exactly if its return statements have an
expression with a value where there is a return type and none where there is not, and the body of a
function with a return type is not left. -/
theorem codegen_returns_iff (ctx : IRContext) (cursor : ASTCursor) (n : ASTNode)
    (args body : AST) (returnDecl : Option AST) {s : CodegenState}
    (hok : FunctionCodegen.codegen ctx (.node n (args :: (returnDecl.toList ++ [body])))
      (.initial cursor) = .ok ((), s)) :
    (∀ b t, .terminator t ∈ s.blocks.code b → t.Agrees returnDecl.isNone) ↔
      AST.returnsAgree ctx returnDecl.isNone body = true ∧
        (returnDecl.isSome → AST.terminates body = true) := by
  have hbody : FunctionCodegen.codegenBody ctx args body (.initial cursor) = .ok ((), s) := by
    cases returnDecl <;> exact hok
  have hreturns : ReturnsAgree returnDecl.isNone s.blocks ↔ _ := codegenBody_returns ctx hbody
  rw [Bool.and_eq_true, Bool.or_eq_true] at hreturns
  refine hreturns.trans (and_congr_right fun _ => ?_)
  cases returnDecl <;> simp

/-- `f(int x) int -> { if x { return 1; } return 2; }`. -/
theorem codegen_returns_iff_if :
    let literal (id : NodeId) (w : Word) : AST := .node ⟨⟨id, .integerLiteralExpr w⟩, none, []⟩ []
    let x : AST := .node ⟨⟨5, .declRefExpr "x"⟩, some ⟨3, .namedArgumentDecl "x"⟩, []⟩ []
    let args : AST := .node ⟨⟨2, .argumentDeclList⟩, none, []⟩
      [.node ⟨⟨3, .namedArgumentDecl "x"⟩, none, []⟩ []]
    let returnDecl : AST := .node ⟨⟨12, .anonymousArgumentDecl⟩, none, []⟩ []
    let body : AST := .node ⟨⟨4, .compoundStmt⟩, none, []⟩
      [.node ⟨⟨6, .ifStmt⟩, none, []⟩ [x, .node ⟨⟨7, .returnStmt⟩, none, []⟩ [literal 8 1]],
        .node ⟨⟨9, .returnStmt⟩, none, []⟩ [literal 10 2]]
    ∃ s, FunctionCodegen.codegen ⟨fun _ => none, fun _ => none⟩
        (.node ⟨⟨1, .functionDecl "f"⟩, none, []⟩ [args, returnDecl, body])
        (.initial .insideMetaDecl) = .ok ((), s) ∧
      ∀ b t, .terminator t ∈ s.blocks.code b → t.Agrees false := by
  intro literal x args returnDecl body
  obtain ⟨_, s, hs⟩ := ((codegenBody_abstracts ⟨fun _ => none, fun _ => none⟩ args body
    (by decide)).ok_iff (.initial .insideMetaDecl)).2 (by decide)
  exact ⟨s, hs, (codegen_returns_iff ⟨fun _ => none, fun _ => none⟩ .insideMetaDecl
    ⟨⟨1, .functionDecl "f"⟩, none, []⟩ args body (some returnDecl) hs).2
    ⟨by decide, fun _ => by decide⟩⟩

/-- `f() int -> { }` and `g() -> { return 1; }` are accepted without a diagnostic. The code of the
one returns void, that of the other an integer. -/
theorem codegen_returns_disagree :
    ∃ (t : Tree) (a f g : AST) (s : ASTLayoutReader.State) (s₁ s₂ : CodegenState), t.IsProgram ∧
      ASTLayoutReader.AcceptsUnit (fun _ _ => none) .compilationUnit t.encode .empty a s ∧
      SemaAnalysis.checkAST (.ofUnits [a] fun _ => none) a = .ok [] ∧ a.children = [f, g] ∧
      getFunctionTypeOf f = some ⟨0, false⟩ ∧
      FunctionCodegen.codegen (.ofUnits [a] fun _ => none) f (.initial .insideMetaDecl) =
        .ok ((), s₁) ∧ s₁.blocks.code 0 = [.terminator .retVoid] ∧
      getFunctionTypeOf g = some ⟨0, true⟩ ∧
      FunctionCodegen.codegen (.ofUnits [a] fun _ => none) g (.initial .insideMetaDecl) =
        .ok ((), s₂) ∧ s₂.blocks.code 0 = [.terminator (.ret (.constant 1))] := by
  let f : AST := .node ⟨⟨1, .functionDecl "f"⟩, none, []⟩
    [.node ⟨⟨2, .argumentDeclList⟩, none, []⟩ [], .node ⟨⟨3, .anonymousArgumentDecl⟩, none, []⟩ [],
      .node ⟨⟨4, .compoundStmt⟩, none, []⟩ []]
  let g : AST := .node ⟨⟨5, .functionDecl "g"⟩, none, []⟩
    [.node ⟨⟨6, .argumentDeclList⟩, none, []⟩ [], .node ⟨⟨7, .compoundStmt⟩, none, []⟩
      [.node ⟨⟨8, .returnStmt⟩, none, []⟩ [.node ⟨⟨9, .integerLiteralExpr 1⟩, none, []⟩ []]]]
  let a : AST := .node ⟨⟨0, .compilationUnit⟩, none, []⟩ [f, g]
  have hread := ASTLayoutReader.consume_complete (fun _ _ => none) (p := .kind .compilationUnit)
    (t := a.shape) ⟨by decide, .inl rfl⟩ [] (.start .empty)
  have ha : (ASTLayoutReader.readTree (fun _ _ => none) a.shape (.start .empty)).1 = a := by rfl
  rw [List.append_nil, ha] at hread
  have haccept := ASTLayoutReader.AcceptsUnit.mk hread (by decide) (by decide)
  exact ⟨a.shape, a, f, g, _, _, _, ⟨rfl, by decide, by decide, by decide⟩, haccept, rfl, rfl, rfl,
    rfl, rfl, rfl, rfl, rfl⟩

end Swy
