import Swy.Codegen.Evaluation
import Swy.Codegen.TerminatedFlow
import Swy.Parse.ReadHeap

/-!
# Scopes of names and scopes of values

The reader resolves a name in its scopes, and the code generation looks the value of the declaration
up in scopes of its own. `KeepsValues` says that both go together: what is visible behind a piece of
code has a value behind its code. It holds of every statement, and of a function up to its named
return declaration, which the reader introduces but which never gets a value
(`codegen_findsValues`).
-/

namespace Swy

open Library

/-! ## What is compiled -/

namespace AST

mutual
/-- What the references are resolved to that are compiled with a tree. An instantiation is compiled
to the function it exports, without its arguments. -/
def compiledDecls : AST → List Node
  | .node n cs =>
    match n.node.data with
    | .declRefExpr _ => n.decl.toList
    | .metaInstantiationExpr | .integerLiteralExpr _ | .booleanLiteralExpr _ => []
    | _ => compiledDeclsAll cs
/-- `compiledDecls` of each tree of a list. -/
def compiledDeclsAll : List AST → List Node
  | [] => []
  | c :: cs => compiledDecls c ++ compiledDeclsAll cs
end

/-- A compiled reference in the body of a function is resolved to its return declaration. -/
def usesReturnDecl : AST → Bool
  | .node _ [_, returnDecl, body] => (compiledDecls body).contains returnDecl.label.node
  | _ => false

theorem mem_compiledDeclsAll {cs : List AST} {d : Node} :
    d ∈ compiledDeclsAll cs ↔ ∃ c ∈ cs, d ∈ c.compiledDecls := by
  induction cs with
  | nil => simp [compiledDeclsAll]
  | cons c cs ih => simp [compiledDeclsAll, ih]

end AST

/-! ## Values -/

/-- The value map holds a value of the declaration. -/
def Known (values : List (List NodeId)) (decl : NodeId) : Prop :=
  values.any (·.contains decl) = true

theorem known_iff {values : List (List NodeId)} {decl : NodeId} :
    Known values decl ↔ ∃ scope ∈ values, decl ∈ scope := by
  simp [Known]

/-- Every visible parameter and variable has a value, the exempt one apart. -/
def HasValues (exempt : Option Node) (env : Environment) (values : List (List NodeId)) : Prop :=
  ∀ entry ∈ env, entry.2.isVarDecl = true → some entry.2 ≠ exempt → Known values entry.2.id

/-- In the innermost scope values may be added. -/
structure AddsValues (values values' : List (List NodeId)) : Prop where
  outer : values'.tail = values.tail
  scope : values' ≠ []
  keeps : ∀ decl, Known values decl → Known values' decl

theorem AddsValues.refl {values : List (List NodeId)} (h : values ≠ []) :
    AddsValues values values := ⟨rfl, h, fun _ hd => hd⟩

theorem AddsValues.trans {v v' v'' : List (List NodeId)} (h : AddsValues v v')
    (h' : AddsValues v' v'') : AddsValues v v'' :=
  ⟨h'.outer.trans h.outer, h'.scope, fun decl hd => h'.keeps decl (h.keeps decl hd)⟩

theorem AddsValues.introduce {values : List (List NodeId)} (h : values ≠ []) (decl : NodeId) :
    AddsValues values (values.modifyHead (decl :: ·)) ∧
      Known (values.modifyHead (decl :: ·)) decl := by
  cases values with
  | nil => exact absurd rfl h
  | cons scope outer =>
    refine ⟨⟨rfl, List.cons_ne_nil _ _, fun d hd => ?_⟩, by simp [Known]⟩
    simp only [Known, List.modifyHead_cons, List.any_cons, List.contains_cons] at hd ⊢
    by_cases h : d == decl
    · simp [h]
    · simpa [h] using hd

theorem hasValues_append {exempt : Option Node} {env env' : Environment}
    {values : List (List NodeId)} : HasValues exempt (env ++ env') values ↔
      HasValues exempt env values ∧ HasValues exempt env' values := List.forall_mem_append

theorem HasValues.keep {exempt : Option Node} {env : Environment} {v v' : List (List NodeId)}
    (h : HasValues exempt env v) (h' : AddsValues v v') : HasValues exempt env v' :=
  fun entry he hv hx => h'.keeps _ (h entry he hv hx)

/-- The code is generated where the names of `env` are visible: no value is missed, and behind it
the names of `env'` have values. -/
def KeepsValues (exempt : Option Node) (env env' : Environment) {α : Type} (c : CodegenM α) :
    Prop :=
  ∀ s, s.values ≠ [] → HasValues exempt env s.values →
    (∀ a s', c s = .ok (a, s') → AddsValues s.values s'.values ∧ HasValues exempt env' s'.values) ∧
      c s ≠ .error .valueMissing

section Rules

variable {exempt : Option Node} {env env' env'' : Environment} {α β : Type}

theorem KeepsValues.bind {c : CodegenM α} {f : α → CodegenM β} (h : KeepsValues exempt env env' c)
    (h' : ∀ a, KeepsValues exempt env' env'' (f a)) : KeepsValues exempt env env'' (c >>= f) := by
  intro s hne hs
  obtain ⟨hok, herror⟩ := h s hne hs
  simp only [Bind.bind, StateT.bind]
  cases hc : c s with
  | error fault =>
    rw [hc] at herror
    exact ⟨fun _ _ h => (nomatch h), fun h => herror (congrArg _ (Except.error.inj h))⟩
  | ok r =>
    obtain ⟨a, s₁⟩ := r
    obtain ⟨hadds, hs₁⟩ := hok a s₁ hc
    obtain ⟨hok', herror'⟩ := h' a s₁ hadds.scope hs₁
    refine ⟨fun b s₂ hf => ?_, herror'⟩
    obtain ⟨hadds', hs₂⟩ := hok' b s₂ hf
    exact ⟨hadds.trans hadds', hs₂⟩

/-- The names that were visible before still have values. -/
theorem KeepsValues.frame {c : CodegenM α} (h : KeepsValues exempt env env' c) :
    KeepsValues exempt (env'' ++ env) (env'' ++ env') c := by
  intro s hne hs
  obtain ⟨hs', hs⟩ := hasValues_append.1 hs
  obtain ⟨hok, herror⟩ := h s hne hs
  refine ⟨fun a s' hc => ?_, herror⟩
  obtain ⟨hadds, hs₁⟩ := hok a s' hc
  exact ⟨hadds, hasValues_append.2 ⟨hs'.keep hadds, hs₁⟩⟩

theorem KeepsValues.mono {c : CodegenM α} {e e' : Environment} (h : KeepsValues exempt e e' c)
    (hpre : ∀ entry ∈ e, entry ∈ env)
    (hpost : ∀ entry ∈ env', entry ∈ e' ∨ some entry.2 = exempt) :
    KeepsValues exempt env env' c := by
  intro s hne hs
  obtain ⟨hok, herror⟩ := h s hne fun entry he => hs entry (hpre entry he)
  refine ⟨fun a s' hc => ?_, herror⟩
  obtain ⟨hadds, hs₁⟩ := hok a s' hc
  refine ⟨hadds, fun entry he hv hx => ?_⟩
  rcases hpost entry he with he | he
  · exact hs₁ entry he hv hx
  · exact absurd he hx

/-- What succeeds and adds no value. -/
theorem KeepsValues.of_ok {c : CodegenM α}
    (h : ∀ s, ∃ a s', c s = .ok (a, s') ∧ s'.values = s.values) : KeepsValues exempt env env c := by
  intro s hne hs
  obtain ⟨a, s₁, hc, hvalues⟩ := h s
  rw [hc]
  refine ⟨fun b s' hb => ?_, nofun⟩
  cases hb
  rw [hvalues]
  exact ⟨.refl hne, hs⟩

theorem KeepsValues.pure {a : α} : KeepsValues exempt env env (Pure.pure a : CodegenM α) :=
  .of_ok fun s => ⟨a, s, rfl, rfl⟩

theorem KeepsValues.throw {fault : CodegenFault} (h : fault ≠ .valueMissing) :
    KeepsValues exempt env env' (throw fault : CodegenM α) :=
  fun _ _ _ => ⟨fun _ _ hc => (nomatch hc), fun hc => h (Except.error.inj hc)⟩

theorem KeepsValues.ite {c c' : CodegenM α} {p : Prop} [Decidable p]
    (h : KeepsValues exempt env env' c) (h' : KeepsValues exempt env env' c') :
    KeepsValues exempt env env' (if p then c else c') := by
  split
  · exact h
  · exact h'

end Rules

namespace FunctionCodegen

section

variable {exempt : Option Node} {env env' : Environment}

theorem keepsValues_insert {i : Instruction} : KeepsValues exempt env env (insert i) :=
  .of_ok fun _ => ⟨_, _, rfl, rfl⟩

theorem keepsValues_emitValue {o : Register → Operation} :
    KeepsValues exempt env env (emitValue o) := .of_ok fun _ => ⟨_, _, rfl, rfl⟩

theorem keepsValues_createBlock : KeepsValues exempt env env createBlock :=
  .of_ok fun _ => ⟨_, _, rfl, rfl⟩

theorem keepsValues_setInsertPoint {block : BlockId} :
    KeepsValues exempt env env (setInsertPoint block) := .of_ok fun _ => ⟨_, _, rfl, rfl⟩

/-- The declaration has a value afterwards. -/
theorem keepsValues_introduce {n : Node} (h : ∀ entry ∈ env', entry ∈ env ∨ entry.2 = n) :
    KeepsValues exempt env env' (introduce n.id) := by
  intro s hne hs
  refine ⟨fun a s' hc => ?_, nofun⟩
  cases hc
  obtain ⟨hadds, hknown⟩ := AddsValues.introduce hne n.id
  refine ⟨hadds, fun entry he hv hx => ?_⟩
  rcases h entry he with he | heq
  · exact hadds.keeps _ (hs entry he hv hx)
  · rw [heq]
    exact hknown

/-- A visible variable is found. -/
theorem keepsValues_lookupLocal {d : Node} {name : Identifier} (hd : (name, d) ∈ env)
    (hv : d.isVarDecl = true) (hx : some d ≠ exempt) :
    KeepsValues exempt env env (lookupLocal d.id) := by
  intro s hne hs
  have hknown : s.values.any (·.contains d.id) = true := hs (name, d) hd hv hx
  have hlookup : lookupLocal d.id s = .ok (.alloca d.id, s) := by
    have hunfold : lookupLocal d.id s = (if s.values.any (·.contains d.id) = true then
      Pure.pure (Operand.alloca d.id) else MonadExcept.throw .valueMissing : CodegenM Operand) s :=
        rfl
    rw [hunfold, if_pos hknown]
    rfl
  rw [hlookup]
  refine ⟨fun a s' hc => ?_, nofun⟩
  cases hc
  exact ⟨.refl hne, hs⟩

/-- A scope is left only if its body was generated. -/
theorem withValueScope_cases {α : Type} (c : CodegenM α) (s : CodegenState) :
    (∃ fault, withValueScope c s = .error fault ∧
        c { s with values := [] :: s.values } = .error fault) ∨
      ∃ a s', withValueScope c s = .ok (a, { s' with values := s'.values.tail }) ∧
        c { s with values := [] :: s.values } = .ok (a, s') := by
  have happly : withValueScope c s = Except.bind (c { s with values := [] :: s.values }) fun r =>
      .ok (r.1, { r.2 with values := r.2.values.tail }) := rfl
  rw [happly]
  cases hc : c { s with values := [] :: s.values } with
  | error fault => exact .inl ⟨fault, rfl, rfl⟩
  | ok r => exact .inr ⟨r.1, r.2, rfl, rfl⟩

/-- The values that are added in a scope are dropped at its end. -/
theorem keepsValues_withValueScope {α : Type} {c : CodegenM α}
    (h : KeepsValues exempt env env' c) : KeepsValues exempt env env (withValueScope c) := by
  intro s hne hs
  have hopened : HasValues exempt env ([] :: s.values) := by
    intro entry he hv hx
    simpa [Known] using hs entry he hv hx
  obtain ⟨hok, herror⟩ := h { s with values := [] :: s.values } (List.cons_ne_nil _ _) hopened
  obtain ⟨fault, hscope, hc⟩ | ⟨a, s', hscope, hc⟩ := withValueScope_cases c s
  · rw [hscope]
    rw [hc] at herror
    exact ⟨fun _ _ h => (nomatch h), herror⟩
  · rw [hscope]
    refine ⟨fun b s'' hb => ?_, nofun⟩
    have houter : s'.values.tail = s.values := (hok a s' hc).1.outer
    cases hb
    show AddsValues s.values s'.values.tail ∧ HasValues exempt env s'.values.tail
    rw [houter]
    exact ⟨.refl hne, hs⟩

theorem keepsValues_loadMemory {o : Operand} : KeepsValues exempt env env (loadMemory o) := by
  cases o with
  | alloca decl => exact keepsValues_emitValue (o := (.load · decl))
  | function decl type => exact .throw (by decide)
  | _ => exact .pure

theorem keepsValues_createStore {value pointer : Operand} :
    KeepsValues exempt env env (createStore value pointer) := by
  cases pointer with
  | alloca decl => exact .ite keepsValues_insert (.throw (by decide))
  | _ => exact .throw (by decide)

theorem keepsValues_createCall {callee : Operand} {os : List Operand} :
    KeepsValues exempt env env (createCall callee os) := by
  cases callee with
  | function decl type =>
    exact .ite (keepsValues_emitValue.bind fun _ => .pure) (.throw (by decide))
  | _ => exact .throw (by decide)

theorem keepsValues_createIsNotNull {o : Operand} :
    KeepsValues exempt env env (createIsNotNull o) := by
  cases o with
  | void => exact .throw (by decide)
  | constant | argument | register | alloca | function => exact .of_ok fun _ => ⟨_, _, rfl, rfl⟩

/-- The variables among the compiled references are visible, and none of them is exempt. -/
def RefsIn (exempt : Option Node) (env : Environment) (a : AST) : Prop :=
  ∀ d ∈ a.compiledDecls, d.isVarDecl = true → (∃ name, (name, d) ∈ env) ∧ some d ≠ exempt

theorem RefsIn.children {n : ASTNode} {cs : List AST} (h : RefsIn exempt env (.node n cs))
    (hn : AST.compiledDecls (.node n cs) = AST.compiledDeclsAll cs) :
    ∀ c ∈ cs, RefsIn exempt env c := by
  intro c hc d hd
  apply h d
  rw [hn]
  exact AST.mem_compiledDeclsAll.2 ⟨c, hc, hd⟩

variable (ctx : IRContext)

theorem keepsValues_codegenDeclRefExpr {n : ASTNode} {cs : List AST} {name : Identifier}
    (hn : n.node.data = .declRefExpr name) (h : RefsIn exempt env (.node n cs)) :
    KeepsValues exempt env env (codegenDeclRefExpr ctx n) := by
  unfold codegenDeclRefExpr
  cases hdecl : n.decl with
  | none => exact .throw (by decide)
  | some d =>
    have hmem : d ∈ AST.compiledDecls (.node n cs) := by
      rw [AST.compiledDecls]
      simp [hn, hdecl]
    have hvariable (hv : d.isVarDecl = true) : KeepsValues exempt env env (do
        let value ← lookupLocal d.id
        emit (.reference n.node.id d.id)
        return value) := by
      obtain ⟨⟨name, hname⟩, hx⟩ := h d hmem hv
      exact (keepsValues_lookupLocal hname hv hx).bind fun _ =>
        keepsValues_insert.bind fun _ => .pure
    cases hk : d.kind <;> simp only [hk] <;> try exact .throw (by decide)
    case functionDecl =>
      cases ctx.lookupGlobal d.id with
      | none => exact .throw (by decide)
      | some type => exact .pure
    case globalConstantDecl =>
      cases ctx.constant d.id with
      | none => exact .throw (by decide)
      | some value => exact .pure
    all_goals exact hvariable (by simp [Node.isVarDecl, hk])

theorem keepsValues_codegenBinaryOperatorExpr {op : ExprBinaryOperator} {l r : CodegenM Operand}
    (hl : KeepsValues exempt env env l) (hr : KeepsValues exempt env env r) :
    KeepsValues exempt env env (codegenBinaryOperatorExpr op l r) := by
  refine hl.bind fun a => hr.bind fun b => .ite ?_ ?_
  · exact keepsValues_loadMemory.bind fun _ => keepsValues_createStore.bind fun _ => .pure
  · refine keepsValues_loadMemory.bind fun c => keepsValues_loadMemory.bind fun d => .ite ?_ ?_
    · exact .ite keepsValues_emitValue (.throw (by decide))
    · exact KeepsValues.bind (.ite keepsValues_emitValue (.throw (by decide)))
        fun _ => keepsValues_emitValue

theorem keepsValues_codegenArguments {cs : List AST}
    (h : ∀ c ∈ cs, KeepsValues exempt env env (codegenExpr ctx c)) :
    KeepsValues exempt env env (codegenArguments ctx cs) := by
  induction cs with
  | nil => exact .pure
  | cons c cs ih =>
    exact (h c List.mem_cons_self).bind fun _ => keepsValues_loadMemory.bind fun _ =>
      (ih fun x hx => h x (List.mem_cons_of_mem _ hx)).bind fun _ => .pure

/-- The variables of an expression are found where they are visible. -/
theorem keepsValues_codegenExpr (a : AST) (h : RefsIn exempt env a) :
    KeepsValues exempt env env (codegenExpr ctx a) := by
  induction a using Rose.ind with
  | h n cs ih =>
    obtain ⟨⟨id, data⟩, decl, exportedDecls⟩ := n
    have hfault (fault : CodegenFault) (hne : fault ≠ .valueMissing) :
        KeepsValues exempt env env (throw fault : CodegenM Operand) := .throw hne
    cases data with
    | declRefExpr name => exact keepsValues_codegenDeclRefExpr ctx rfl h
    | metaInstantiationExpr =>
      show KeepsValues exempt env env (codegenMetaInstantiationExpr ctx id)
      unfold codegenMetaInstantiationExpr
      cases ctx.lookupInstantiation id with
      | none => exact .throw (by decide)
      | some function => exact .pure
    | integerLiteralExpr literal | booleanLiteralExpr literal => exact .pure
    | binaryOperatorExpr op =>
      have hchildren := h.children rfl
      rcases cs with _ | ⟨left, _ | ⟨right, _ | ⟨c, cs⟩⟩⟩
      case cons.cons.nil =>
        exact keepsValues_codegenBinaryOperatorExpr (ih left (by simp) (hchildren left (by simp)))
          (ih right (by simp) (hchildren right (by simp)))
      all_goals exact hfault _ (by decide)
    | callOperatorExpr =>
      have hchildren := h.children rfl
      cases cs with
      | nil => exact hfault _ (by decide)
      | cons callee args =>
        have hcallee := ih callee List.mem_cons_self (hchildren callee List.mem_cons_self)
        have hargs := keepsValues_codegenArguments ctx fun c hc =>
          ih c (List.mem_cons_of_mem _ hc) (hchildren c (List.mem_cons_of_mem _ hc))
        exact hcallee.bind fun _ => hargs.bind fun _ => keepsValues_createCall
    | _ => exact hfault _ (by decide)

theorem keepsValues_lazyGetContinueBlock {cont : Option BlockId} :
    KeepsValues exempt env env (lazyGetContinueBlock cont) := by
  cases cont with
  | none => exact keepsValues_createBlock
  | some block => exact .pure

theorem keepsValues_codegenBranch {cont : Option BlockId}
    {c : BlockId → CodegenM (Option BlockId)} (h : ∀ block, KeepsValues exempt env env' (c block)) :
    KeepsValues exempt env env' (codegenBranch cont c) := by
  refine keepsValues_createBlock.bind fun block => keepsValues_setInsertPoint.bind fun _ =>
    (h block).bind fun r => ?_
  cases r with
  | none => exact .pure
  | some b =>
    exact keepsValues_lazyGetContinueBlock.bind fun _ => keepsValues_insert.bind fun _ => .pure

/-- The condition is generated behind the branches, where its variables still have values. -/
theorem keepsValues_codegenIfStructure {block : BlockId} {condition : AST} {env'' : Environment}
    {c : BlockId → CodegenM (Option BlockId)} {d : Option (BlockId → CodegenM (Option BlockId))}
    (hcondition : RefsIn exempt env condition)
    (hc : ∀ block, KeepsValues exempt env env' (c block))
    (hd : ∀ d', d = some d' → ∀ block, KeepsValues exempt env' env'' (d' block))
    (hnone : d = none → env'' = env') :
    KeepsValues exempt env env'' (codegenIfStructure ctx block condition c d) := by
  have hfalse (cont : Option BlockId) :
      KeepsValues exempt env' env'' (codegenFalseBranch cont d) := by
    cases d with
    | none =>
      rw [hnone rfl]
      exact keepsValues_lazyGetContinueBlock.bind fun _ => .pure
    | some d => exact keepsValues_codegenBranch (hd d rfl)
  have hboth : RefsIn exempt (env ++ env'') condition := by
    intro d hd hv
    obtain ⟨⟨name, hname⟩, hx⟩ := hcondition d hd hv
    exact ⟨⟨name, List.mem_append_left _ hname⟩, hx⟩
  have hbranches : KeepsValues exempt (env ++ env) (env ++ env'')
      (codegenIfStructure ctx block condition c d) := by
    refine (keepsValues_codegenBranch hc).frame.bind fun r => (hfalse r.2).frame.bind fun r' =>
      keepsValues_setInsertPoint.bind fun _ => (keepsValues_codegenExpr ctx condition hboth).bind
        fun _ => keepsValues_createIsNotNull.bind fun _ => keepsValues_insert.bind fun _ => ?_
    cases r'.2 with
    | none => exact .pure
    | some cont => exact keepsValues_setInsertPoint.bind fun _ => .pure
  exact hbranches.mono (fun _ he => (List.mem_append.1 he).elim id id)
    fun _ he => .inl (List.mem_append_right _ he)

end

end FunctionCodegen

/-! ## What is visible -/

namespace Resolution

theorem compiledDecls_resolveAll {cs : List Tree} {r : Resolution}
    (h : ∀ t ∈ cs, ∀ r, (resolve false t r).2.errors = [] →
      ∀ d ∈ (resolve false t r).1.compiledDecls, ∃ name, (name, d) ∈ r.env)
    (henv : ∀ t ∈ cs, ∀ r, (resolve false t r).2.env = r.env)
    (he : (resolveAll false cs r).2.errors = []) :
    ∀ a ∈ (resolveAll false cs r).1, ∀ d ∈ a.compiledDecls, ∃ name, (name, d) ∈ r.env := by
  induction cs generalizing r with
  | nil => exact fun a ha => absurd ha List.not_mem_nil
  | cons t ts ih =>
    intro a ha d hd
    rcases List.mem_cons.1 ha with rfl | ha
    · apply h t List.mem_cons_self r _ d hd
      exact errors_resolveAll (fun u _ => errors_resolve u) he
    · have hrest := ih (fun u hu => h u (List.mem_cons_of_mem t hu))
        (fun u hu => henv u (List.mem_cons_of_mem t hu)) he a ha d hd
      rwa [henv t List.mem_cons_self r] at hrest

/-- What is compiled of an expression refers to visible names. -/
theorem compiledDecls_resolve_expr (t : Tree) (hs : t.WellShaped) (hk : t.kind.isExprNode = true)
    (r : Resolution) (he : (resolve false t r).2.errors = []) :
    ∀ d ∈ (resolve false t r).1.compiledDecls, ∃ name, (name, d) ∈ r.env := by
  induction t using Rose.ind generalizing r with
  | h n cs ih =>
    obtain ⟨hfit, hcs⟩ := Tree.wellShaped_node.1 hs
    have children (hks : ∀ k ∈ cs.map Tree.kind, k.isExprNode = true)
        (he : (resolveAll false cs r).2.errors = []) :
        ∀ d ∈ AST.compiledDeclsAll (resolveAll false cs r).1, ∃ name, (name, d) ∈ r.env := by
      intro d hd
      obtain ⟨a, ha, hd⟩ := AST.mem_compiledDeclsAll.1 hd
      refine compiledDecls_resolveAll (fun t ht r he => ?_) (fun t ht r => ?_) he a ha d hd
      · exact ih t ht (hcs t ht) (hks _ (List.mem_map_of_mem ht)) r he
      · exact env_resolve_expr t (hcs t ht) (hks _ (List.mem_map_of_mem ht)) false r
    obtain ⟨id, data⟩ := n
    cases data with
    | declRefExpr name =>
      simp only [resolve, Bool.false_eq_true, ↓reduceIte] at he ⊢
      cases hname : r.env.lookup name with
      | none =>
        simp only [hname] at he
        exact absurd (List.append_eq_nil_iff.1 he).2 (List.cons_ne_nil _ _)
      | some decl =>
        intro d hd
        obtain rfl : d = decl := List.mem_singleton.1 hd
        obtain ⟨l₁, l₂, hl, -⟩ := List.lookup_eq_some_iff.1 hname
        exact ⟨name, by rw [hl]; exact List.mem_append_right _ List.mem_cons_self⟩
    | integerLiteralExpr | booleanLiteralExpr | erroneousExpr =>
      rw [show cs = [] from hs.leaf rfl]
      exact fun d hd => absurd hd List.not_mem_nil
    | metaInstantiationExpr => exact fun d hd => absurd hd List.not_mem_nil
    | binaryOperatorExpr | callOperatorExpr =>
      exact children (ASTKind.isExprNode_of_fits hfit hk) he
    | _ => cases hk

theorem refsIn_resolve_expr {exempt : Option Node} {t : Tree} (hs : t.WellShaped)
    (hk : t.kind.isExprNode = true) {r : Resolution} (he : (resolve false t r).2.errors = [])
    (hexempt : ∀ d ∈ (resolve false t r).1.compiledDecls, some d ≠ exempt) :
    FunctionCodegen.RefsIn exempt r.env (resolve false t r).1 :=
  fun d hd _ => ⟨compiledDecls_resolve_expr t hs hk r he d hd, hexempt d hd⟩

end Resolution

/-! ## Statements -/

namespace FunctionCodegen

open Resolution
variable {exempt : Option Node} (ctx : IRContext)

theorem keepsValues_codegenStmts {cs : List Tree}
    (h : ∀ t ∈ cs, ∀ r, (resolve false t r).2.errors = [] →
      (∀ d ∈ (resolve false t r).1.compiledDecls, some d ≠ exempt) → ∀ block,
      KeepsValues exempt r.env (resolve false t r).2.env
        (codegenStmt ctx block (resolve false t r).1))
    {r : Resolution} (he : (resolveAll false cs r).2.errors = [])
    (hexempt : ∀ d ∈ AST.compiledDeclsAll (resolveAll false cs r).1, some d ≠ exempt)
    (current : Option BlockId) :
    KeepsValues exempt r.env (resolveAll false cs r).2.env
      (codegenStmts ctx current (resolveAll false cs r).1) := by
  induction cs generalizing r current with
  | nil => exact .pure
  | cons t ts ih =>
    have hfirst : (resolve false t r).2.errors = [] :=
      errors_resolveAll (fun u _ => errors_resolve u) he
    have hdereference : KeepsValues exempt r.env r.env (dereference current) := by
      cases current with
      | none => exact .throw (by decide)
      | some block => exact .pure
    refine hdereference.bind fun block =>
      (h t List.mem_cons_self r hfirst (fun d hd => ?_) block).bind
      fun current => ih (fun u hu => h u (List.mem_cons_of_mem t hu)) he (fun d hd => ?_) current
    · exact hexempt d (List.mem_append_left _ hd)
    · exact hexempt d (List.mem_append_right _ hd)

/-- What is no statement of a function body is not compiled. -/
theorem codegenStmt_throws {a : AST} (h : a.kind.isStmtNode = false ∨ a.kind = .metaIfStmt ∨
    a.kind = .metaCalculationStmt) :
    ∃ fault, fault ≠ .valueMissing ∧ ∀ block, codegenStmt ctx block a = throw fault := by
  obtain ⟨⟨⟨id, data⟩, decl, exportedDecls⟩, cs⟩ := a
  rcases h with h | h | h <;> cases data <;> first | exact ⟨_, by decide, fun _ => rfl⟩ | cases h

/-- Behind a statement the variables have values that are visible behind it. -/
theorem keepsValues_codegenStmt (t : Tree) (hs : t.WellShaped) (r : Resolution)
    (he : (resolve false t r).2.errors = [])
    (hexempt : ∀ d ∈ (resolve false t r).1.compiledDecls, some d ≠ exempt) (block : BlockId) :
    KeepsValues exempt r.env (resolve false t r).2.env
      (codegenStmt ctx block (resolve false t r).1) := by
  induction t using Rose.ind generalizing r block with
  | h n cs ih =>
    obtain ⟨hfit, hcs⟩ := Tree.wellShaped_node.1 hs
    have below : ∀ t ∈ cs, ∀ r, (resolve false t r).2.errors = [] →
        (∀ d ∈ (resolve false t r).1.compiledDecls, some d ≠ exempt) → ∀ block,
        KeepsValues exempt r.env (resolve false t r).2.env
          (codegenStmt ctx block (resolve false t r).1) := fun t ht => ih t ht (hcs t ht)
    have throws (h : n.kind.isStmtNode = false ∨ n.kind = .metaIfStmt ∨
        n.kind = .metaCalculationStmt) : KeepsValues exempt r.env
          (resolve false (.node n cs) r).2.env
          (codegenStmt ctx block (resolve false (.node n cs) r).1) := by
      have hkind : AST.kind (resolve false (.node n cs) r).1 = n.kind := by
        rw [← AST.kind_shape, resolve_shape _ hs]
        rfl
      rw [← hkind] at h
      obtain ⟨fault, hne, hfault⟩ := codegenStmt_throws ctx h
      rw [hfault]
      exact .throw hne
    obtain ⟨id, data⟩ := n
    cases data with
    | compoundStmt =>
      exact keepsValues_withValueScope (keepsValues_codegenStmts ctx below he hexempt (some block))
    | unscopedCompoundStmt => exact keepsValues_codegenStmts ctx below he hexempt (some block)
    | returnStmt =>
      match cs, hfit, hcs with
      | [], _, _ => exact keepsValues_insert.bind fun _ => .pure
      | [expr], hfit, hcs =>
        have hexpr := hcs expr List.mem_cons_self
        have henv := env_resolve_expr expr hexpr hfit false r
        have hrefs := refsIn_resolve_expr hexpr hfit he fun d hd =>
          hexempt d (List.mem_append_left _ hd)
        show KeepsValues exempt r.env (resolve false expr r).2.env _
        rw [henv]
        exact (keepsValues_codegenExpr ctx _ hrefs).bind fun _ =>
          keepsValues_loadMemory.bind fun _ => keepsValues_insert.bind fun _ => .pure
    | expressionStmt =>
      match cs, hfit, hcs with
      | [expr], hfit, hcs =>
        have hexpr := hcs expr List.mem_cons_self
        have henv := env_resolve_expr expr hexpr hfit false r
        have hrefs := refsIn_resolve_expr hexpr hfit he fun d hd =>
          hexempt d (List.mem_append_left _ hd)
        show KeepsValues exempt r.env (resolve false expr r).2.env _
        rw [henv]
        exact (keepsValues_codegenExpr ctx _ hrefs).bind fun _ =>
          keepsValues_insert.bind fun _ => .pure
    | declStmt name =>
      match cs, hfit, hcs with
      | [expr], hfit, hcs =>
        have hexpr := hcs expr List.mem_cons_self
        have henv := env_resolve_expr expr hexpr hfit false r
        have hdecl : (declare ⟨id, .declStmt name⟩ (resolve false expr r).2).errors = [] := he
        have hrefs := refsIn_resolve_expr hexpr hfit (errors_declare hdecl) fun d hd =>
          hexempt d (List.mem_append_left _ hd)
        have hadded (entry : Identifier × Node)
            (h : entry ∈ (declare ⟨id, .declStmt name⟩ (resolve false expr r).2).env) :
            entry ∈ r.env ∨ entry.2 = ⟨id, .declStmt name⟩ := by
          rw [← henv]
          exact env_declare h
        exact (keepsValues_codegenExpr ctx _ hrefs).bind fun _ => keepsValues_insert.bind fun _ =>
          keepsValues_loadMemory.bind fun _ => keepsValues_createStore.bind fun _ =>
            (keepsValues_introduce hadded).bind fun _ => .pure
    | ifStmt =>
      have hbranch (t : Tree) (ht : t ∈ cs) (r : Resolution) := below t ht r
      match cs, hfit, hcs, hbranch with
      | [condition, trueBranch], hfit, hcs, hbranch =>
        have hk := (Bool.and_eq_true_iff.1 hfit).1
        have henv := env_resolve_expr condition (hcs condition (by simp)) hk false r
        have htrue : (resolve false trueBranch (resolve false condition r).2).2.errors = [] := he
        have hrefs := refsIn_resolve_expr (hcs condition (by simp)) hk (errors_resolve _ _ _ htrue)
          fun d hd => hexempt d (List.mem_append_left _ hd)
        have hc := hbranch trueBranch (by simp) _ htrue fun d hd =>
          hexempt d (List.mem_append_right _ (List.mem_append_left _ hd))
        rw [henv] at hc
        exact keepsValues_codegenIfStructure ctx hrefs hc
          (fun _ h => (Option.some_ne_none _ h.symm).elim) fun _ => rfl
      | [condition, trueBranch, falseBranch], hfit, hcs, hbranch =>
        have hk := (Bool.and_eq_true_iff.1 (Bool.and_eq_true_iff.1 hfit).1).1
        have henv := env_resolve_expr condition (hcs condition (by simp)) hk false r
        have hfalse : (resolve false falseBranch
          (resolve false trueBranch (resolve false condition r).2).2).2.errors = [] := he
        have htrue := errors_resolve _ _ _ hfalse
        have hrefs := refsIn_resolve_expr (hcs condition (by simp)) hk (errors_resolve _ _ _ htrue)
          fun d hd => hexempt d (List.mem_append_left _ hd)
        have hc := hbranch trueBranch (by simp) _ htrue fun d hd =>
          hexempt d (List.mem_append_right _ (List.mem_append_left _ hd))
        have hd := hbranch falseBranch (by simp) _ hfalse fun d hd =>
          hexempt d (List.mem_append_right _ (List.mem_append_right _ (List.mem_append_left _ hd)))
        rw [henv] at hc
        refine keepsValues_codegenIfStructure ctx hrefs hc (fun d' h => ?_)
          fun h => (Option.some_ne_none _ h).elim
        cases h
        exact hd
    | metaIfStmt => exact throws (.inr (.inl rfl))
    | metaCalculationStmt => exact throws (.inr (.inr rfl))
    | _ => exact throws (.inl rfl)

/-! ## Functions -/

/-- The parameters with a name get values. -/
theorem keepsValues_storeArguments {cs : List Tree} (hs : ∀ c ∈ cs, Tree.WellShaped c)
    (hargs : ∀ c ∈ cs, (Tree.kind c).isArgumentDecl = true) (r : Resolution) (index : Nat) :
    KeepsValues exempt r.env (resolveAll false cs r).2.env
      (storeArguments index (resolveAll false cs r).1) := by
  induction cs generalizing r index with
  | nil => exact .pure
  | cons c cs ih =>
    have hrest := ih (fun d hd => hs d (List.mem_cons_of_mem _ hd))
      (fun d hd => hargs d (List.mem_cons_of_mem _ hd)) (resolve false c r).2 (index + 1)
    have hleaf := hs c List.mem_cons_self
    have hkind := hargs c List.mem_cons_self
    obtain ⟨⟨id, data⟩, ds⟩ := c
    cases data with
    | anonymousArgumentDecl =>
      obtain rfl : ds = [] := hleaf.leaf rfl
      exact hrest
    | namedArgumentDecl name =>
      have hadded (entry : Identifier × Node)
          (h : entry ∈ (r.declare ⟨id, .namedArgumentDecl name⟩).env) :
          entry ∈ r.env ∨ entry.2 = ⟨id, .namedArgumentDecl name⟩ := env_declare h
      have hstore : KeepsValues exempt r.env
          (resolveAll false cs (r.declare ⟨id, .namedArgumentDecl name⟩)).2.env
          (do
            emit (.alloca id)
            emit (.store (.argument index) id)
            introduce id
            storeArguments (index + 1)
              (resolveAll false cs (r.declare ⟨id, .namedArgumentDecl name⟩)).1) :=
        keepsValues_insert.bind fun _ => keepsValues_insert.bind fun _ =>
          (keepsValues_introduce hadded).bind fun _ => hrest
      exact hstore
    | _ => cases hkind

/-- A body is generated behind its arguments, and behind a return declaration without a value. -/
theorem codegenBody_findsValues {args body : Tree} (hargs : args.WellShaped)
    (hkind : args.kind = .argumentDeclList) (hbody : body.WellShaped) {r r' : Resolution}
    (htop : ∀ entry ∈ r.env, entry.2.isVarDecl = false)
    (hr' : ∀ entry ∈ r'.env, entry ∈ (resolve false args r).2.env ∨ some entry.2 = exempt)
    (he : (resolve false body r').2.errors = [])
    (hexempt : ∀ d ∈ (resolve false body r').1.compiledDecls, some d ≠ exempt)
    (cursor : ASTCursor) :
    codegenBody ctx (resolve false args r).1 (resolve false body r').1 (.initial cursor) ≠
      .error .valueMissing := by
  have hstart : HasValues exempt r.env [[]] := fun entry he hv => by
    rw [htop entry he] at hv
    cases hv
  have hstore : KeepsValues exempt r.env r'.env
      (storeArguments 0 (resolve false args r).1.children) := by
    obtain ⟨⟨id, data⟩, cs⟩ := args
    obtain ⟨hfit, hcs⟩ := Tree.wellShaped_node.1 hargs
    cases data <;> try cases hkind
    have hkinds (c : Tree) (hc : c ∈ cs) : c.kind.isArgumentDecl = true :=
      List.all_eq_true.1 hfit _ (List.mem_map_of_mem hc)
    exact (keepsValues_storeArguments hcs hkinds r 0).mono (fun _ he => he) hr'
  have hframe : KeepsValues exempt r.env r'.env (setUpStackFrame (resolve false args r).1) :=
    (keepsValues_createBlock.bind fun _ => keepsValues_setInsertPoint.bind fun _ => .pure).bind
      fun _ => hstore.bind fun _ => .pure
  have hinside : KeepsValues exempt r.env (resolve false body r').2.env (do
      let block ← setUpStackFrame (resolve false args r).1
      if (← codegenStmt ctx block (resolve false body r').1).isSome then terminate .retVoid) :=
    hframe.bind fun block => (keepsValues_codegenStmt ctx body hbody r' he hexempt block).bind
      fun current => .ite keepsValues_insert .pure
  have hfound := (hinside { CodegenState.initial cursor with values := [[]] }
    (List.cons_ne_nil _ _) hstart).2
  unfold codegenBody
  obtain ⟨fault, hscope, hc⟩ | ⟨a, s', hscope, hc⟩ := withValueScope_cases (do
      let block ← setUpStackFrame (resolve false args r).1
      if (← codegenStmt ctx block (resolve false body r').1).isSome then terminate .retVoid)
    (.initial cursor)
  · rw [hscope]
    intro herror
    cases herror
    exact hfound hc
  · rw [hscope]
    exact nofun

/-- A function that is resolved at the top level of a unit finds all values, unless it uses its
named return declaration. -/
theorem codegen_resolve_findsValues {t : Tree} (hs : t.WellShaped) (hk : t.kind = .functionDecl)
    {r : Resolution} (htop : ∀ entry ∈ r.env, entry.2.isVarDecl = false)
    (he : (resolve false t r).2.errors = [])
    (huses : AST.usesReturnDecl (resolve false t r).1 = false) (cursor : ASTCursor) :
    codegen ctx (resolve false t r).1 (.initial cursor) ≠ .error .valueMissing := by
  obtain ⟨⟨id, data⟩, cs⟩ := t
  cases data <;> try cases hk
  have hcs := (Tree.wellShaped_node.1 hs).2
  obtain ⟨args, body, rfl | ⟨ret, rfl, hret⟩, hargs, -⟩ := hs.functionDecl rfl
  · have hexempt : ∀ d ∈ (resolve false body (resolve false args r).2).1.compiledDecls,
        some d ≠ none := fun _ _ => nofun
    exact codegenBody_findsValues ctx (hcs args (by simp)) hargs (hcs body (by simp)) htop
      (fun _ he => .inl he) he hexempt cursor
  · have hreturn (entry : Identifier × Node)
        (h : entry ∈ (resolve false ret (resolve false args r).2).2.env) :
        entry ∈ (resolve false args r).2.env ∨ some entry.2 = some ret.label := by
      have hleaf := hcs ret (by simp)
      obtain ⟨⟨id, data⟩, ds⟩ := ret
      cases data with
      | anonymousArgumentDecl =>
        obtain rfl : ds = [] := hleaf.leaf rfl
        exact .inl h
      | namedArgumentDecl name =>
        have hdeclared : entry ∈
            (declare ⟨id, .namedArgumentDecl name⟩ (resolve false args r).2).env := h
        rcases env_declare hdeclared with h | h
        · exact .inl h
        · exact .inr (by rw [h]; rfl)
      | _ => cases hret
    have hlabel : (resolve false ret (resolve false args r).2).1.label.node = ret.label := by
      have hshape := resolve_shape ret (hcs ret (by simp)) false (resolve false args r).2
      rw [← Rose.label_map ASTNode.node, ← AST.shape, hshape]
    refine codegenBody_findsValues ctx (hcs args (by simp)) hargs (hcs body (by simp)) htop hreturn
      he (fun d hd hid => ?_) cursor
    have hmem := List.contains_iff_mem.2 hd
    rw [Option.some.inj hid, ← hlabel] at hmem
    exact Bool.false_ne_true (huses.symm.trans hmem)

end FunctionCodegen

/-! ## The named return declaration -/

/-- What passes the check refers to none of the compiled declarations with the node, as long as the
node has no value. -/
def Misses (n : Node) (decls : List Node) {α : Type} (k : CheckM α) : Prop :=
  ∀ known a known', k known = some (a, known') → ¬ Known known n.id →
    n ∉ decls ∧ ¬ Known known' n.id

theorem Misses.mono {n : Node} {decls decls' : List Node} {α : Type} {k : CheckM α}
    (h : Misses n decls k) (h' : ∀ d ∈ decls', d ∈ decls) : Misses n decls' k := by
  intro known a known' hk hn
  obtain ⟨hdecls, hn'⟩ := h known a known' hk hn
  exact ⟨fun hmem => hdecls (h' n hmem), hn'⟩

namespace Check

section

variable {n : Node} {decls decls' : List Node} {α β : Type}

theorem misses_bind {k : CheckM α} {f : α → CheckM β} (h : Misses n decls k)
    (h' : ∀ a, Misses n decls' (f a)) : Misses n (decls ++ decls') (k >>= f) := by
  intro known b known' hk hn
  obtain ⟨a, known₁, ha, hb⟩ := bind_some.1 hk
  obtain ⟨hdecls, hn₁⟩ := h known a known₁ ha hn
  obtain ⟨hdecls', hn'⟩ := h' a known₁ b known' hb hn₁
  refine ⟨fun hmem => ?_, hn'⟩
  rcases List.mem_append.1 hmem with hmem | hmem
  · exact hdecls hmem
  · exact hdecls' hmem

theorem misses_pure {a : α} : Misses n [] (pure a : CheckM α) := by
  intro known b known' hk hn
  cases pure_some.1 hk
  exact ⟨List.not_mem_nil, hn⟩

theorem misses_failure : Misses n decls (failure : CheckM α) := fun _ _ _ hk => nomatch hk

theorem misses_ite {k k' : CheckM α} {p : Prop} [Decidable p] (h : Misses n decls k)
    (h' : Misses n decls k') : Misses n decls (if p then k else k') := by
  split
  · exact h
  · exact h'

/-- A step without references goes before or behind. -/
theorem misses_then {k : CheckM α} {f : α → CheckM β} (h : Misses n decls k)
    (h' : ∀ a, Misses n [] (f a)) : Misses n decls (k >>= f) := by
  have hbind := misses_bind h h'
  rwa [List.append_nil] at hbind

theorem misses_loadMemory {kind : OperandKind} : Misses n [] (loadMemory kind) := by
  cases kind with
  | function type => exact misses_failure
  | _ => exact misses_pure

theorem misses_createStore {value pointer : OperandKind} :
    Misses n [] (createStore value pointer) := by
  cases pointer with
  | «variable» => exact misses_ite misses_pure misses_failure
  | _ => exact misses_failure

theorem misses_createCall {callee : OperandKind} {arguments : List OperandKind} :
    Misses n [] (createCall callee arguments) := by
  cases callee with
  | function type => exact misses_ite misses_pure misses_failure
  | _ => exact misses_failure

theorem misses_createIsNotNull {kind : OperandKind} : Misses n [] (createIsNotNull kind) := by
  cases kind with
  | void => exact misses_failure
  | _ => exact misses_pure

theorem misses_introduce {decl : NodeId} (h : decl ≠ n.id) : Misses n [] (introduce decl) := by
  intro known a known' hk hn
  cases hk
  refine ⟨List.not_mem_nil, fun hknown => hn ?_⟩
  cases known with
  | nil => exact hknown
  | cons scope outer =>
    have hknown : Known ((decl :: scope) :: outer) n.id := hknown
    rw [known_iff] at hknown
    rw [known_iff]
    obtain ⟨scope', hscope, hmem⟩ := hknown
    rcases List.mem_cons.1 hscope with rfl | hscope
    · rcases List.mem_cons.1 hmem with heq | hmem
      · exact absurd heq.symm h
      · exact ⟨scope, List.mem_cons_self, hmem⟩
    · exact ⟨scope', List.mem_cons_of_mem _ hscope, hmem⟩

theorem misses_withValueScope {k : CheckM Unit} (h : Misses n decls k) :
    Misses n decls (withValueScope k) := by
  intro known a known' hk hn
  obtain ⟨_, known₁, hopen, hk⟩ := bind_some.1 hk
  obtain ⟨_, known₂, hbody, hclose⟩ := bind_some.1 hk
  cases hopen
  cases hclose
  obtain ⟨hdecls, hn'⟩ := h _ _ known₂ hbody (by simpa [Known] using hn)
  refine ⟨hdecls, fun hknown => hn' ?_⟩
  rw [known_iff] at hknown ⊢
  obtain ⟨scope, hscope, hmem⟩ := hknown
  exact ⟨scope, List.mem_of_mem_tail hscope, hmem⟩

/-- What is found has a value. -/
theorem misses_lookupLocal {d : Node} : Misses n [d] (lookupLocal d.id) := by
  intro known kind known' hk hn
  have hlookup : lookupLocal d.id known =
      (if known.any (·.contains d.id) = true then pure OperandKind.variable else failure :
        CheckM OperandKind) known := rfl
  rw [hlookup] at hk
  by_cases hknown : known.any (·.contains d.id) = true
  · rw [if_pos hknown] at hk
    cases pure_some.1 hk
    refine ⟨fun hmem => ?_, hn⟩
    obtain rfl : n = d := List.mem_singleton.1 hmem
    exact hn hknown
  · rw [if_neg hknown] at hk
    cases hk

theorem misses_other {d : Node} {k : CheckM α} (hd : n.kind ≠ d.kind) (h : Misses n [] k) :
    Misses n [d] k := by
  intro known a known' hk hn
  refine ⟨fun hmem => ?_, (h known a known' hk hn).2⟩
  obtain rfl : n = d := List.mem_singleton.1 hmem
  exact hd rfl

variable (ctx : IRContext)

/-- A parameter or a variable that is referred to has a value. -/
theorem misses_codegenDeclRefExpr
    (hn : n.kind ≠ .functionDecl ∧ n.kind ≠ .globalConstantDecl) {m : ASTNode} :
    Misses n m.decl.toList (codegenDeclRefExpr ctx m) := by
  unfold codegenDeclRefExpr
  cases m.decl with
  | none => exact misses_failure
  | some d =>
    show Misses n [d] _
    cases hk : d.kind <;> simp only [hk] <;> try exact misses_failure
    case functionDecl =>
      have hother : n.kind ≠ d.kind := hk ▸ hn.1
      cases ctx.lookupGlobal d.id with
      | none => exact misses_failure
      | some type => exact misses_other hother misses_pure
    case globalConstantDecl =>
      have hother : n.kind ≠ d.kind := hk ▸ hn.2
      cases ctx.constant d.id with
      | none => exact misses_failure
      | some value => exact misses_other hother misses_pure
    all_goals exact misses_lookupLocal

theorem misses_codegenArguments {cs : List AST}
    (h : ∀ c ∈ cs, Misses n c.compiledDecls (codegenExpr ctx c)) :
    Misses n (AST.compiledDeclsAll cs) (codegenArguments ctx cs) := by
  induction cs with
  | nil => exact misses_pure
  | cons c cs ih =>
    have hrest := ih fun x hx => h x (List.mem_cons_of_mem _ hx)
    refine misses_bind (h c List.mem_cons_self) fun value => ?_
    exact misses_bind misses_loadMemory fun arg => misses_then hrest fun args => misses_pure

theorem misses_codegenExpr (hn : n.kind ≠ .functionDecl ∧ n.kind ≠ .globalConstantDecl) (a : AST) :
    Misses n a.compiledDecls (codegenExpr ctx a) := by
  induction a using Rose.ind with
  | h m cs ih =>
    obtain ⟨⟨id, data⟩, decl, exportedDecls⟩ := m
    cases data with
    | declRefExpr name => exact misses_codegenDeclRefExpr ctx hn
    | metaInstantiationExpr =>
      show Misses n [] (codegenMetaInstantiationExpr ctx id)
      unfold codegenMetaInstantiationExpr
      cases ctx.lookupInstantiation id with
      | none => exact misses_failure
      | some function => exact misses_pure
    | integerLiteralExpr literal | booleanLiteralExpr literal =>
      exact misses_pure
    | binaryOperatorExpr op =>
      rcases cs with _ | ⟨left, _ | ⟨right, _ | ⟨c, cs⟩⟩⟩
      case cons.cons.nil =>
        refine misses_bind (ih left (by simp)) fun l => ?_
        show Misses n (AST.compiledDecls right ++ []) _
        refine misses_bind (ih right (by simp)) fun r => misses_ite ?_ ?_
        · exact misses_bind misses_loadMemory fun loaded =>
            misses_then misses_createStore fun _ => misses_pure
        · exact misses_bind misses_loadMemory fun leftLoaded => misses_then misses_loadMemory
            fun rightLoaded => misses_ite misses_pure misses_failure
      all_goals exact misses_failure
    | callOperatorExpr =>
      cases cs with
      | nil => exact misses_failure
      | cons callee args =>
        have hargs := misses_codegenArguments ctx fun c hc => ih c (List.mem_cons_of_mem _ hc)
        exact misses_bind (ih callee List.mem_cons_self) fun f =>
          misses_then hargs fun os => misses_createCall
    | _ => exact misses_failure

theorem misses_codegenIfStructure (hn : n.kind ≠ .functionDecl ∧ n.kind ≠ .globalConstantDecl)
    (condition : AST) {k k' : CheckM Unit} (h : Misses n decls k) (h' : Misses n decls' k') :
    Misses n (condition.compiledDecls ++ (decls ++ decls'))
      (codegenIfStructure ctx condition k k') := by
  have hcondition : Misses n condition.compiledDecls (do
      createIsNotNull (← codegenExpr ctx condition)) :=
    misses_then (misses_codegenExpr ctx hn condition) fun _ => misses_createIsNotNull
  have hif : Misses n (decls ++ (decls' ++ condition.compiledDecls))
      (codegenIfStructure ctx condition k k') :=
    misses_bind h fun _ => misses_bind h' fun _ => hcondition
  apply hif.mono
  intro d hd
  simp only [List.mem_append] at hd ⊢
  tauto

theorem misses_codegenStmts {cs : List AST}
    (h : ∀ c ∈ cs, Misses n c.compiledDecls (codegenStmt ctx c)) :
    Misses n (AST.compiledDeclsAll cs) (codegenStmts ctx cs) := by
  induction cs with
  | nil => exact misses_pure
  | cons c cs ih =>
    exact misses_bind (h c List.mem_cons_self) fun _ => ih fun x hx =>
      h x (List.mem_cons_of_mem _ hx)

/-- In what passes the check no reference is resolved to a parameter or a variable that is
introduced nowhere. -/
theorem misses_codegenStmt (hn : n.kind ≠ .functionDecl ∧ n.kind ≠ .globalConstantDecl) (a : AST)
    (ha : ∀ m ∈ a.labels, m.node.id ≠ n.id) : Misses n a.compiledDecls (codegenStmt ctx a) := by
  induction a using Rose.ind with
  | h m cs ih =>
    have hself := ha m (Rose.mem_labels_node.2 (.inl rfl))
    have below : ∀ c ∈ cs, Misses n (AST.compiledDecls c) (codegenStmt ctx c) := fun c hc =>
      ih c hc fun x hx => ha x (Rose.mem_labels_node.2 (.inr ⟨c, hc, hx⟩))
    have expr (expr : AST) : Misses n (expr.compiledDecls ++ []) (codegenExpr ctx expr) := by
      rw [List.append_nil]
      exact misses_codegenExpr ctx hn expr
    obtain ⟨⟨id, data⟩, decl, exportedDecls⟩ := m
    cases data with
    | compoundStmt => exact misses_withValueScope (misses_codegenStmts ctx below)
    | unscopedCompoundStmt => exact misses_codegenStmts ctx below
    | returnStmt =>
      rcases cs with _ | ⟨e, _ | ⟨c, cs⟩⟩
      · exact misses_pure
      · exact misses_then (expr e) fun _ => misses_then misses_loadMemory fun _ => misses_pure
      · exact misses_failure
    | expressionStmt =>
      rcases cs with _ | ⟨e, _ | ⟨c, cs⟩⟩
      · exact misses_failure
      · exact misses_then (expr e) fun _ => misses_pure
      · exact misses_failure
    | declStmt name =>
      rcases cs with _ | ⟨e, _ | ⟨c, cs⟩⟩
      · exact misses_failure
      · exact misses_then (expr e) fun _ => misses_then misses_loadMemory fun _ =>
          misses_then misses_createStore fun _ => misses_introduce hself
      · exact misses_failure
    | ifStmt =>
      rcases cs with _ | ⟨condition, _ | ⟨trueBranch, _ | ⟨falseBranch, _ | ⟨c, cs⟩⟩⟩⟩
      · exact misses_failure
      · exact misses_failure
      · have hif := misses_codegenIfStructure ctx hn condition (below trueBranch (by simp))
          (misses_pure (a := ()))
        exact hif.mono (by simp [AST.compiledDecls, AST.compiledDeclsAll])
      · have hif := misses_codegenIfStructure ctx hn condition (below trueBranch (by simp))
          (below falseBranch (by simp))
        exact hif.mono (by simp [AST.compiledDecls, AST.compiledDeclsAll])
      · exact misses_failure
    | _ => exact misses_failure

theorem misses_storeArguments {args : List AST}
    (h : ∀ a ∈ args, ∀ m ∈ a.labels, m.node.id ≠ n.id) : Misses n [] (storeArguments args) := by
  induction args with
  | nil => exact misses_pure
  | cons c cs ih =>
    have hrest := ih fun a ha => h a (List.mem_cons_of_mem _ ha)
    have hself := h c List.mem_cons_self
    obtain ⟨m, ds⟩ := c
    rw [storeArguments]
    by_cases hk : m.node.kind = .namedArgumentDecl
    · simp only [hk, if_true]
      have hintroduce : Misses n ([] ++ []) (do
          introduce m.node.id
          storeArguments cs) :=
        misses_bind (misses_introduce (hself m (Rose.mem_labels_node.2 (.inl rfl)))) fun _ => hrest
      exact hintroduce
    · simp only [hk, if_false]
      exact hrest

/-- In a body that passes the check no reference is resolved to a parameter that is introduced
nowhere. -/
theorem misses_codegenBody (hn : n.kind ≠ .functionDecl ∧ n.kind ≠ .globalConstantDecl)
    {args body : AST} (hargs : ∀ m ∈ args.labels, m.node.id ≠ n.id)
    (hbody : ∀ m ∈ body.labels, m.node.id ≠ n.id) :
    Misses n body.compiledDecls (codegenBody ctx args body) := by
  refine misses_withValueScope (misses_bind (misses_storeArguments fun a ha m hm => ?_) fun _ =>
    misses_codegenStmt ctx hn body hbody)
  obtain ⟨m', cs⟩ := args
  exact hargs m (Rose.mem_labels_node.2 (.inr ⟨a, ha, hm⟩))

end

end Check

namespace FunctionCodegen

/-- A function that is generated does not use its named return declaration. -/
theorem usesReturnDecl_of_codegen (ctx : IRContext) {f : AST} (hs : f.shape.WellShaped)
    (hdistinct : (f.shape.labels.map Node.id).Nodup) (hk : AST.kind f = .functionDecl)
    {cursor : ASTCursor} {s : CodegenState} (h : codegen ctx f (.initial cursor) = .ok ((), s)) :
    f.usesReturnDecl = false := by
  obtain ⟨n, cs⟩ := f
  rcases cs with _ | ⟨args, _ | ⟨ret, _ | ⟨body, _ | ⟨c, cs⟩⟩⟩⟩ <;> try rfl
  have hret : (AST.kind ret).isArgumentDecl = true := by
    have hfit := (AST.wellShaped_node.1 hs).1
    rw [show n.node.kind = .functionDecl from hk] at hfit
    exact (Bool.and_eq_true_iff.1 (Bool.and_eq_true_iff.1 hfit).1).2
  have hkind {k : ASTKind} (hk : k.isArgumentDecl = false) : AST.kind ret ≠ k := by
    rintro rfl
    exact Bool.false_ne_true (hk.symm.trans hret)
  have hids (x : AST) (hx : x = args ∨ x = body) (m : ASTNode) (hm : m ∈ x.labels) :
      m.node.id ≠ ret.label.node.id := by
    have hm' : m.node.id ∈ x.labels.map (·.node.id) := List.mem_map_of_mem hm
    have hret' : ret.label.node.id ∈ ret.labels.map (·.node.id) :=
      List.mem_map_of_mem (Rose.label_mem_labels (Rose.mem_subtrees_self ret))
    rw [AST.shape, Rose.labels_map, List.map_map, Rose.labels_node] at hdistinct
    simp only [List.map_cons, List.flatMap_cons, List.flatMap_nil, List.append_nil,
      List.map_append, List.nodup_cons, List.nodup_append] at hdistinct
    obtain ⟨-, -, ⟨-, -, hretBody⟩, hargs⟩ := hdistinct
    rcases hx with rfl | rfl
    · exact hargs _ hm' _ (List.mem_append_left _ hret')
    · exact (hretBody _ hret' _ hm').symm
  have hfollows := nothingFollows_of_codegenBody ctx h
  have hcheck := ((codegenBody_abstracts ctx args body hfollows).ok_iff (.initial cursor)).1
    ⟨(), s, h⟩
  obtain ⟨⟨a, known⟩, hcheck⟩ := Option.isSome_iff_exists.1 hcheck
  have hmisses := (Check.misses_codegenBody (n := ret.label.node) ctx ⟨hkind rfl, hkind rfl⟩
    (hids args (.inl rfl)) (hids body (.inr rfl)) _ a known hcheck
    (by simp [Known, CodegenState.initial])).1
  exact Bool.eq_false_iff.2 fun huses => hmisses (List.contains_iff_mem.1 huses)

end FunctionCodegen

section

variable {similarTo : ScopeChain → Identifier → Option Node}

/-- Scopes of names and scopes of values agree up to named return declarations. A function of an
accepted unit is generated without missing the value of a variable, if no compiled reference is
resolved to its return declaration; and unless something else stops the generation, this is the
only way not to miss one. -/
theorem codegen_findsValues {k : ASTKind} (hk : k.isUnitNode = true) {layout : Layout}
    {heap : ASTHeap} (hheap : ASTLayoutReader.ReadHeap similarTo heap) {a : AST}
    {s : ASTLayoutReader.State} (haccept : ASTLayoutReader.AcceptsUnit similarTo k layout heap a s)
    (hdistinct : (a.shape.labels.map Node.id).Nodup) {f : AST} (hf : f ∈ a.children)
    (hfunction : AST.kind f = .functionDecl) (ctx : IRContext) (cursor : ASTCursor) :
    (f.usesReturnDecl = false →
      FunctionCodegen.codegen ctx f (.initial cursor) ≠ .error .valueMissing) ∧
    ((∀ fault, FunctionCodegen.codegen ctx f (.initial cursor) = .error fault →
        fault = .valueMissing) →
      (FunctionCodegen.codegen ctx f (.initial cursor) ≠ .error .valueMissing ↔
        f.usesReturnDecl = false)) := by
  obtain ⟨hresolve, herrors⟩ := haccept.resolve
  have hreads := haccept.reads
  have hunit : a.shape.kind.isUnitNode = true := by
    rw [hreads.unit hk]
    exact hk
  have hfinds (huses : f.usesReturnDecl = false) :
      FunctionCodegen.codegen ctx f (.initial cursor) ≠ .error .valueMissing := by
    have hchild := hf
    rw [← hresolve] at hchild
    obtain ⟨t, ht, r, htop, hres, he⟩ := Resolution.mem_children_resolve hreads.1 hunit
      hheap.topLevelNames herrors f hchild
    have ht : Tree.WellShaped t := hreads.1.child ht
    have hkind : Tree.kind t = .functionDecl := by
      rw [← Resolution.resolve_shape t ht false r, AST.kind_shape, hres]
      exact hfunction
    rw [← hres] at huses ⊢
    refine FunctionCodegen.codegen_resolve_findsValues ctx ht hkind
      (fun entry hentry => ?_) he huses cursor
    have htop := htop entry hentry
    unfold Node.isVarDecl
    cases hk : entry.2.kind <;> rw [hk] at htop <;> first | rfl | cases htop
  refine ⟨hfinds, fun hfault => ⟨fun hfound => ?_, hfinds⟩⟩
  cases hc : FunctionCodegen.codegen ctx f (.initial cursor) with
  | error fault =>
    rw [hfault fault hc] at hc
    exact absurd hc hfound
  | ok r =>
    have hmem : f ∈ a.subtrees := by
      obtain ⟨n, cs⟩ := a
      exact Rose.child_mem_subtrees hf
    have hnodup : (f.shape.labels.map Node.id).Nodup := by
      rw [AST.shape, Rose.labels_map, List.map_map] at hdistinct ⊢
      exact ((Rose.labels_sublist hmem).map _).nodup hdistinct
    exact FunctionCodegen.usesReturnDecl_of_codegen ctx (AST.wellShaped_subtree hreads.1 hmem)
      hnodup hfunction hc

end

/-- `f(int x) int y -> return x;`. -/
theorem codegen_findsValues_argument :
    ∃ (a f : AST) (s : ASTLayoutReader.State),
      ASTLayoutReader.AcceptsUnit (fun _ _ => none) .compilationUnit a.shape.encode .empty a s ∧
      a.children = [f] ∧ f.usesReturnDecl = false ∧
      FunctionCodegen.codegen (.ofUnits [a] fun _ => none) f (.initial .insideMetaDecl) ≠
        .error .valueMissing := by
  let f : AST := .node ⟨⟨1, .functionDecl "f"⟩, none, []⟩
    [.node ⟨⟨2, .argumentDeclList⟩, none, []⟩ [.node ⟨⟨3, .namedArgumentDecl "x"⟩, none, []⟩ []],
      .node ⟨⟨4, .namedArgumentDecl "y"⟩, none, []⟩ [],
      .node ⟨⟨5, .returnStmt⟩, none, []⟩
        [.node ⟨⟨6, .declRefExpr "x"⟩, some ⟨3, .namedArgumentDecl "x"⟩, []⟩ []]]
  let a : AST := .node ⟨⟨0, .compilationUnit⟩, none, []⟩ [f]
  have hread := ASTLayoutReader.consume_complete (fun _ _ => none) (p := .kind .compilationUnit)
    (t := a.shape) ⟨by decide, .inl rfl⟩ [] (.start .empty)
  have ha : (ASTLayoutReader.readTree (fun _ _ => none) a.shape (.start .empty)).1 = a := by rfl
  rw [List.append_nil, ha] at hread
  have haccept := ASTLayoutReader.AcceptsUnit.mk hread (by decide) (by decide)
  have hf : f ∈ a.children := List.mem_cons_self
  exact ⟨a, f, _, haccept, rfl, by decide,
    (codegen_findsValues rfl .empty haccept (by decide) hf rfl
    (.ofUnits [a] fun _ => none) .insideMetaDecl).1 (by decide)⟩

/-- `f() int x -> return x;` is accepted without a diagnostic, and its named return declaration has
no value. -/
theorem codegen_not_findsValues :
    ∃ (t : Tree) (a f : AST) (s : ASTLayoutReader.State), t.IsProgram ∧
      ASTLayoutReader.AcceptsUnit (fun _ _ => none) .compilationUnit t.encode .empty a s ∧
      SemaAnalysis.checkAST (.ofUnits [a] fun _ => none) a = .ok [] ∧ a.children = [f] ∧
      FunctionCodegen.codegen (.ofUnits [a] fun _ => none) f (.initial .insideMetaDecl) =
        .error .valueMissing := by
  let f : AST := .node ⟨⟨1, .functionDecl "f"⟩, none, []⟩
    [.node ⟨⟨2, .argumentDeclList⟩, none, []⟩ [],
      .node ⟨⟨3, .namedArgumentDecl "x"⟩, none, []⟩ [],
      .node ⟨⟨4, .returnStmt⟩, none, []⟩
        [.node ⟨⟨5, .declRefExpr "x"⟩, some ⟨3, .namedArgumentDecl "x"⟩, []⟩ []]]
  let a : AST := .node ⟨⟨0, .compilationUnit⟩, none, []⟩ [f]
  have hread := ASTLayoutReader.consume_complete (fun _ _ => none) (p := .kind .compilationUnit)
    (t := a.shape) ⟨by decide, .inl rfl⟩ [] (.start .empty)
  have ha : (ASTLayoutReader.readTree (fun _ _ => none) a.shape (.start .empty)).1 = a := by rfl
  rw [List.append_nil, ha] at hread
  have haccept := ASTLayoutReader.AcceptsUnit.mk hread (by decide) (by decide)
  exact ⟨a.shape, a, f, _, ⟨rfl, by decide, by decide, by decide⟩, haccept, rfl, rfl, rfl⟩

end Swy
