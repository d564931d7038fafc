import Swy.Codegen.FunctionBody
import Swy.Codegen.Faults
import Swy.Codegen.MetaEmission
import Swy.Sema.SemaSafety

/-!
# Generating code behind a terminated control flow

`codegenStmt` returns no block for a statement that terminates, and what is generated next
dereferences the block it is given. Neither the reader nor the semantic analysis looks at what
follows a return, so this fails for a function with a statement behind one, and for a meta
calculation that returns (`codegen_flows_function`, `codegen_flows_meta`).
-/

namespace Swy

open Library

/-- The faults of a control flow that was terminated: the dereference of an absent block and the
failed assertions of the meta codegen. -/
def CodegenFault.isControlFlow : CodegenFault → Bool
  | nullDereference | controlFlowTerminated => true
  | _ => false

/-- Generating the code never stops at a control flow that was terminated. -/
abbrev Flows {α : Type} (c : CodegenM α) : Prop := StopsAt (·.isControlFlow = false) c

theorem CodegenFault.isControlFlow_of_isOperandFault {fault : CodegenFault}
    (h : fault.isOperandFault = true) : fault.isControlFlow = false := by
  cases fault <;> first | rfl | cases h

namespace FunctionCodegen

variable (ctx : IRContext)

/-- Expressions do not touch the control flow. -/
theorem flows_codegenExpr (a : AST) : Flows (codegenExpr ctx a) :=
  .codegenExpr (fun _ => CodegenFault.isControlFlow_of_isOperandFault) ctx rfl a

theorem flows_codegenIfStructure {block : BlockId} {condition : AST}
    {c : BlockId → CodegenM (Option BlockId)} {d : Option (BlockId → CodegenM (Option BlockId))}
    (h : ∀ block, Flows (c block)) (h' : ∀ d', d = some d' → ∀ block, Flows (d' block)) :
    Flows (codegenIfStructure ctx block condition c d) :=
  .codegenIfStructure h h' (flows_codegenExpr ctx condition) fun _ _ _ _ =>
    .createIsNotNull fun _ => CodegenFault.isControlFlow_of_isOperandFault

/-- Behind a statement that does not terminate there is a block. -/
theorem codegenStmt_isSome {a : AST} (ha : AST.nothingFollows a) {block : BlockId}
    {s s' : CodegenState} {r : Option BlockId} (h : codegenStmt ctx block a s = .ok (r, s')) :
    r.isNone = AST.terminates a := by
  obtain ⟨_, -, hr⟩ := (codegenStmt_abstracts ctx a ha block).of_ok h
  exact hr

/-- A list in which nothing follows what terminates stops where its statements do. -/
theorem stopsAt_codegenStmts {S : CodegenFault → Prop} {cs : List AST}
    (h : ∀ c ∈ cs, AST.nothingFollows c → ∀ block, StopsAt S (codegenStmt ctx block c))
    (hcs : AST.nothingFollowsIn cs) (block : BlockId) :
    StopsAt S (codegenStmts ctx (some block) cs) := by
  induction cs generalizing block with
  | nil => exact .pure
  | cons c cs ih =>
    rw [AST.nothingFollowsIn, Bool.and_eq_true, Bool.and_eq_true, Bool.or_eq_true] at hcs
    obtain ⟨⟨hc, hlast⟩, hcs⟩ := hcs
    refine StopsAt.bind .pure fun _ => ?_
    refine (h c List.mem_cons_self hc _).bind_of_ok fun s r s' hok => ?_
    cases r with
    | some b => exact ih (fun x hx => h x (List.mem_cons_of_mem _ hx)) hcs b
    | none =>
      -- the statement terminates, so it is the last one
      have hterm : AST.terminates c = true := (codegenStmt_isSome ctx hc hok).symm
      obtain rfl : cs = [] := by simpa [hterm] using hlast
      exact .pure

theorem flows_codegenStmt (a : AST) (ha : AST.nothingFollows a) :
    ∀ block, Flows (codegenStmt ctx block a) := by
  induction a using Rose.ind with
  | h n cs ih =>
    intro block
    obtain ⟨⟨id, data⟩, decl, exportedDecls⟩ := n
    have hfault (fault : CodegenFault) (h : fault.isControlFlow = false) :
        Flows (throw fault : CodegenM (Option BlockId)) := .throw h
    have hS (fault : CodegenFault) (h : fault.isOperandFault = true) :
        fault.isControlFlow = false := CodegenFault.isControlFlow_of_isOperandFault h
    cases data with
    | compoundStmt => exact .withValueScope (stopsAt_codegenStmts ctx ih ha block)
    | unscopedCompoundStmt => exact stopsAt_codegenStmts ctx ih ha block
    | returnStmt =>
      rcases cs with _ | ⟨expr, _ | ⟨c, cs⟩⟩
      · exact StopsAt.insert.bind fun _ => .pure
      · exact (flows_codegenExpr ctx expr).bind fun _ => (StopsAt.loadMemory hS).bind fun _ =>
          StopsAt.insert.bind fun _ => .pure
      · exact hfault _ rfl
    | expressionStmt =>
      rcases cs with _ | ⟨expr, _ | ⟨c, cs⟩⟩
      · exact hfault _ rfl
      · exact (flows_codegenExpr ctx expr).bind fun _ => StopsAt.insert.bind fun _ => .pure
      · exact hfault _ rfl
    | declStmt name =>
      rcases cs with _ | ⟨expr, _ | ⟨c, cs⟩⟩
      · exact hfault _ rfl
      · exact (flows_codegenExpr ctx expr).bind fun _ => StopsAt.insert.bind fun _ =>
          (StopsAt.loadMemory hS).bind fun _ => (StopsAt.createStore hS).bind fun _ =>
            StopsAt.introduce.bind fun _ => .pure
      · exact hfault _ rfl
    | ifStmt =>
      rcases cs with _ | ⟨condition, _ | ⟨trueBranch, _ | ⟨falseBranch, _ | ⟨c, cs⟩⟩⟩⟩
      · exact hfault _ rfl
      · exact hfault _ rfl
      · exact flows_codegenIfStructure ctx (ih trueBranch (by simp) ha) fun _ h => nomatch h
      · have hboth : AST.nothingFollows trueBranch = true ∧ AST.nothingFollows falseBranch = true :=
          (Bool.and_eq_true _ _).mp ha
        refine flows_codegenIfStructure ctx (ih trueBranch (by simp) hboth.1) fun d h => ?_
        cases h
        exact ih falseBranch (by simp) hboth.2
      · exact hfault _ rfl
    | _ => exact hfault _ rfl

/-! ## What is generated has nothing behind a return -/

theorem nothingFollowsIn_of_ok {cs : List AST}
    (h : ∀ c ∈ cs, ∀ {block s r s'}, codegenStmt ctx block c s = .ok (r, s') → AST.nothingFollows c)
    {block : BlockId} {s s' : CodegenState} {r : Option BlockId}
    (hok : codegenStmts ctx (some block) cs s = .ok (r, s')) : AST.nothingFollowsIn cs := by
  induction cs generalizing block s with
  | nil => rfl
  | cons c cs ih =>
    obtain ⟨_, s₁, hblock, hok⟩ := CodegenM.bind_ok.1 hok
    obtain ⟨rfl, rfl⟩ := CodegenM.pure_ok.1 hblock
    obtain ⟨r₁, s₁, hc, hok⟩ := CodegenM.bind_ok.1 hok
    have hfollows := h c List.mem_cons_self hc
    have hnone := codegenStmt_isSome ctx hfollows hc
    rw [AST.nothingFollowsIn, hfollows, Bool.true_and, Bool.and_eq_true, Bool.or_eq_true]
    cases r₁ with
    | some b =>
      rw [← hnone]
      exact ⟨.inl rfl, ih (fun x hx => h x (List.mem_cons_of_mem _ hx)) hok⟩
    | none =>
      cases cs with
      | nil => exact ⟨.inr rfl, rfl⟩
      | cons x xs =>
        obtain ⟨_, _, hthrow, -⟩ := CodegenM.bind_ok.1 hok
        exact (CodegenM.throw_ok.1 hthrow).elim

/-- Where a branch is generated, its code is. -/
theorem codegenIfStructure_branches_ok {block : BlockId} {condition : AST}
    {c : BlockId → CodegenM (Option BlockId)} {d : Option (BlockId → CodegenM (Option BlockId))}
    {s s' : CodegenState} {r : Option BlockId}
    (h : codegenIfStructure ctx block condition c d s = .ok (r, s')) :
    (∃ block s r s', c block s = .ok (r, s')) ∧
      ∀ d', d = some d' → ∃ block s r s', d' block s = .ok (r, s') := by
  obtain ⟨trueBlock, falseBlock, cont, s₁, s₂, p, s₃, htrue, hfalse, -⟩ := codegenIfStructure_inv h
  obtain ⟨-, r₁, s₄, hc, -⟩ := codegenBranch_inv htrue
  refine ⟨⟨_, _, _, _, hc⟩, fun d' hd => ?_⟩
  subst hd
  obtain ⟨-, r₂, s₅, hd, -⟩ := codegenBranch_inv hfalse
  exact ⟨_, _, _, _, hd⟩

theorem withValueScope_ok {α : Type} {c : CodegenM α} {s s' : CodegenState} {a : α}
    (h : withValueScope c s = .ok (a, s')) : ∃ s₁ s₂, c s₁ = .ok (a, s₂) := by
  obtain ⟨_, s₁, -, h⟩ := CodegenM.bind_ok.1 h
  obtain ⟨a', s₂, hc, h⟩ := CodegenM.bind_ok.1 h
  obtain ⟨_, s₃, -, h⟩ := CodegenM.bind_ok.1 h
  obtain ⟨rfl, -⟩ := CodegenM.pure_ok.1 h
  exact ⟨s₁, s₂, hc⟩

theorem nothingFollows_of_ok (a : AST) : ∀ {block s r s'},
    codegenStmt ctx block a s = .ok (r, s') → AST.nothingFollows a := by
  induction a using Rose.ind with
  | h n cs ih =>
    intro block s r s' hok
    obtain ⟨⟨id, data⟩, decl, exportedDecls⟩ := n
    cases data with
    | compoundStmt =>
      obtain ⟨s₁, s₂, hok⟩ := withValueScope_ok hok
      exact nothingFollowsIn_of_ok ctx ih hok
    | unscopedCompoundStmt => exact nothingFollowsIn_of_ok ctx ih hok
    | ifStmt =>
      rcases cs with _ | ⟨condition, _ | ⟨trueBranch, _ | ⟨falseBranch, _ | ⟨c, cs⟩⟩⟩⟩
      · rfl
      · rfl
      · obtain ⟨⟨_, _, _, _, htrue⟩, -⟩ := codegenIfStructure_branches_ok ctx hok
        exact ih trueBranch (by simp) htrue
      · obtain ⟨⟨_, _, _, _, htrue⟩, hfalse⟩ := codegenIfStructure_branches_ok ctx hok
        obtain ⟨_, _, _, _, hfalse⟩ := hfalse _ rfl
        exact (Bool.and_eq_true _ _).mpr
          ⟨ih trueBranch (by simp) htrue, ih falseBranch (by simp) hfalse⟩
      · rfl
    | _ => cases cs <;> rfl

end FunctionCodegen

/-! ## Nothing else stops the generation -/

/-- What passes the check is generated in the state, or the generation stops at a control flow that
was terminated. -/
def Settles {α : Type} (s : CodegenState) (c : CodegenM α) (k : CheckM Unit) : Prop :=
  ∀ known, k s.values = some ((), known) →
    (∃ a s', c s = .ok (a, s') ∧ s'.values = known) ∨
      ∃ fault, c s = .error fault ∧ fault.isControlFlow = true

section Settles

variable {α β γ : Type} {rel : α → β → Prop} {s : CodegenState}

theorem Abstracts.of_check {c : CodegenM α} {k : CheckM β} (h : Abstracts rel c k)
    {b : β} {known : List (List NodeId)} (hk : k s.values = some (b, known)) :
    ∃ a s', c s = .ok (a, s') ∧ rel a b ∧ s'.values = known := by
  have hs := h s
  rw [hk] at hs
  exact hs

theorem Settles.of_abstracts {rel : α → Unit → Prop} {c : CodegenM α} {k : CheckM Unit}
    (h : Abstracts rel c k) : Settles s c k := by
  intro known hk
  obtain ⟨a, s', hc, -, hvalues⟩ := h.of_check hk
  exact .inl ⟨a, s', hc, hvalues⟩

theorem Settles.of_failure {c : CodegenM α} : Settles s c failure := fun _ h => nomatch h

/-- First what abstracts its check, then what settles. -/
theorem Settles.after {c : CodegenM α} {k : CheckM β} {f : α → CodegenM γ} {g : β → CheckM Unit}
    (h : Abstracts rel c k) (h' : ∀ a b s', rel a b → c s = .ok (a, s') → Settles s' (f a) (g b)) :
    Settles s (c >>= f) (k >>= g) := by
  intro known hk
  obtain ⟨b, known₁, hk, hg⟩ := Check.bind_some.1 hk
  obtain ⟨a, s₁, hc, hab, rfl⟩ := h.of_check hk
  simp only [Bind.bind, StateT.bind, hc]
  exact h' a b s₁ hab hc known hg

/-- First what settles, then what settles behind it. -/
theorem Settles.bind {c : CodegenM α} {k : CheckM Unit} {f : α → CodegenM γ} {k' : CheckM Unit}
    (h : Settles s c k) (h' : ∀ a s', c s = .ok (a, s') → Settles s' (f a) k') :
    Settles s (c >>= f) (do k; k') := by
  intro known hk
  obtain ⟨_, known₁, hk, hk'⟩ := Check.bind_some.1 hk
  simp only [Bind.bind, StateT.bind]
  rcases h known₁ hk with ⟨a, s₁, hc, rfl⟩ | ⟨fault, hc, hfault⟩
  · rw [hc]
    exact h' a s₁ hc known hk'
  · rw [hc]
    exact .inr ⟨fault, rfl, hfault⟩

/-- Something that is not checked in front. -/
theorem Settles.pass {c : CodegenM α} {f : α → CodegenM γ} {k : CheckM Unit} {a : α}
    {s₁ : CodegenState} (h : c s = .ok (a, s₁)) (hvalues : s₁.values = s.values)
    (h' : Settles s₁ (f a) k) : Settles s (c >>= f) k := by
  intro known hk
  simp only [Bind.bind, StateT.bind, h]
  exact h' known (by rw [hvalues]; exact hk)

/-- Something that is not checked behind. -/
theorem Settles.then {c : CodegenM α} {f : α → CodegenM γ} {k : CheckM Unit} (h : Settles s c k)
    (h' : ∀ a s', c s = .ok (a, s') → ∃ b s'', f a s' = .ok (b, s'') ∧ s''.values = s'.values) :
    Settles s (c >>= f) k := by
  intro known hk
  simp only [Bind.bind, StateT.bind]
  rcases h known hk with ⟨a, s₁, hc, rfl⟩ | ⟨fault, hc, hfault⟩
  · rw [hc]
    exact .inl (h' a s₁ hc)
  · rw [hc]
    exact .inr ⟨fault, rfl, hfault⟩

theorem Settles.withValueScope {c : CodegenM α} {k : CheckM Unit}
    (h : Settles { s with values := [] :: s.values } c k) :
    Settles s (FunctionCodegen.withValueScope c) (Check.withValueScope k) := by
  intro known hk
  obtain ⟨_, known₁, hopen, hbody⟩ := Check.bind_some.1 hk
  obtain ⟨_, known₂, hinner, hclose⟩ := Check.bind_some.1 hbody
  cases hopen
  cases hclose
  have hscope : FunctionCodegen.withValueScope c s = (do
      let a ← c
      modify fun s => { s with values := s.values.tail }
      return a : CodegenM α) { s with values := [] :: s.values } := rfl
  rw [hscope]
  simp only [Bind.bind, StateT.bind]
  rcases h known₂ hinner with ⟨a, s₁, hc, rfl⟩ | ⟨fault, hc, hfault⟩
  · rw [hc]
    exact .inl ⟨_, _, rfl, rfl⟩
  · rw [hc]
    exact .inr ⟨fault, rfl, hfault⟩

/-! ### Statements -/

/-- The end of a branch that was entered with the block. -/
def leaveBranch (cont : Option BlockId) (block : BlockId) :
    Option BlockId → CodegenM (BlockId × Option BlockId)
  | some _ => do
    let continueBlock ← FunctionCodegen.lazyGetContinueBlock cont
    FunctionCodegen.terminate (.br continueBlock)
    return (block, some continueBlock)
  | none => return (block, cont)

theorem codegenBranch_settles {c : BlockId → CodegenM (Option BlockId)} {k : CheckM Unit}
    (h : Settles s.enterBlock (c s.blocks.length) k) (cont : Option BlockId) :
    Settles s (FunctionCodegen.codegenBranch cont c) k := by
  have hbranch : Settles s.enterBlock
      (c s.blocks.length >>= leaveBranch cont s.blocks.length) k := by
    refine h.then fun r s' _ => ?_
    cases r with
    | none => exact ⟨_, _, rfl, rfl⟩
    | some b => cases cont <;> exact ⟨_, _, rfl, rfl⟩
  exact hbranch

variable (ctx : IRContext)

/-- The branches settle where they are entered. -/
theorem codegenIfStructure_settles (block : BlockId) (condition : AST)
    {c : BlockId → CodegenM (Option BlockId)} {d : Option (BlockId → CodegenM (Option BlockId))}
    {k k' : CheckM Unit} (h : Settles s.enterBlock (c s.blocks.length) k)
    (h' : ∀ e, d = some e → ∀ r s₁, FunctionCodegen.codegenBranch none c s = .ok (r, s₁) →
      Settles s₁.enterBlock (e s₁.blocks.length) k')
    (hnone : d = none → k' = return ()) :
    Settles s (FunctionCodegen.codegenIfStructure ctx block condition c d)
      (Check.codegenIfStructure ctx condition k k') := by
  refine (codegenBranch_settles h none).bind fun r s₁ hr => ?_
  have hfalse : Settles s₁ (FunctionCodegen.codegenFalseBranch r.2 d) k' := by
    cases d with
    | some e => exact codegenBranch_settles (h' e rfl r s₁ hr) r.2
    | none =>
      obtain rfl := hnone rfl
      intro known hk
      cases hk
      cases r.2 <;> exact .inl ⟨_, _, rfl, rfl⟩
  refine hfalse.bind fun r' s₂ _ => .pass rfl rfl (.after (codegenExpr_abstracts ctx condition)
    fun o kind s₃ ho _ => ?_)
  refine (Settles.of_abstracts (createIsNotNull_abstracts ho)).then fun _ s _ => ?_
  cases hcont : r'.2 <;> exact ⟨_, _, rfl, rfl⟩

theorem codegenStmts_settles {cs : List AST}
    (h : ∀ c ∈ cs, ∀ block s, Settles s (FunctionCodegen.codegenStmt ctx block c)
      (Check.codegenStmt ctx c)) (current : Option BlockId) (s : CodegenState) :
    Settles s (FunctionCodegen.codegenStmts ctx current cs) (Check.codegenStmts ctx cs) := by
  induction cs generalizing current s with
  | nil => exact .of_abstracts (.pure True.intro : Abstracts (fun _ _ => True) _ _)
  | cons c cs ih =>
    cases current with
    | none => exact fun known _ => .inr ⟨.nullDereference, rfl, rfl⟩
    | some block =>
      exact .pass (a := block) rfl rfl ((h c List.mem_cons_self block s).bind fun r s₁ _ =>
        ih (fun x hx => h x (List.mem_cons_of_mem _ hx)) r s₁)

theorem codegenStmt_settles (a : AST) : ∀ block s,
    Settles s (FunctionCodegen.codegenStmt ctx block a) (Check.codegenStmt ctx a) := by
  induction a using Rose.ind with
  | h n cs ih =>
    intro block s
    obtain ⟨⟨id, data⟩, decl, exportedDecls⟩ := n
    -- a statement without statements in it has nothing behind a return
    have hplain (a : AST) (ha : AST.nothingFollows a) :
        Settles s (FunctionCodegen.codegenStmt ctx block a) (Check.codegenStmt ctx a) :=
      .of_abstracts (codegenStmt_abstracts ctx a ha block)
    cases data with
    | compoundStmt => exact (codegenStmts_settles ctx ih (some block) _).withValueScope
    | unscopedCompoundStmt => exact codegenStmts_settles ctx ih (some block) s
    | ifStmt =>
      rcases cs with _ | ⟨condition, _ | ⟨trueBranch, _ | ⟨falseBranch, _ | ⟨c, cs⟩⟩⟩⟩
      · exact .of_failure
      · exact .of_failure
      · exact codegenIfStructure_settles ctx block condition (ih trueBranch (by simp) _ _)
          (fun _ h => nomatch h) fun _ => rfl
      · refine codegenIfStructure_settles ctx block condition (ih trueBranch (by simp) _ _)
          (fun e h => ?_) fun h => nomatch h
        cases h
        exact fun _ _ _ => ih falseBranch (by simp) _ _
      · exact .of_failure
    | _ => exact hplain _ (by cases cs <;> rfl)

theorem codegenBody_settles (args body : AST) :
    Settles s (FunctionCodegen.codegenBody ctx args body) (Check.codegenBody ctx args body) := by
  refine Settles.withValueScope ?_
  unfold FunctionCodegen.setUpStackFrame
  simp only [bind_assoc, pure_bind]
  refine .pass rfl rfl ((Settles.of_abstracts (storeArguments_abstracts args.children 0)).bind
    fun _ s₁ _ => (codegenStmt_settles ctx body _ s₁).then fun r s _ => ?_)
  cases r <;> exact ⟨_, _, rfl, rfl⟩

end Settles

/-! ## Meta functions -/

mutual
/-- In no calculation does the statement terminate, or something follow what terminates. -/
def AST.calculationsContinue : AST → Bool
  | .node n cs =>
    match n.node.data, cs with
    | .metaDecl _, _ | .metaUnit _, _ => true
    | .metaIfStmt, [_, trueBranch] => AST.calculationsContinue trueBranch
    | .metaIfStmt, [_, trueBranch, falseBranch] =>
      AST.calculationsContinue trueBranch && AST.calculationsContinue falseBranch
    | .metaCalculationStmt, [stmt] => AST.nothingFollows stmt && !AST.terminates stmt
    | .metaIfStmt, _ | .metaCalculationStmt, _ => true
    | _, cs => AST.calculationsContinueIn cs
/-- `calculationsContinue` for each node of a list. -/
def AST.calculationsContinueIn : List AST → Bool
  | [] => true
  | c :: cs => AST.calculationsContinue c && AST.calculationsContinueIn cs
end

namespace MetaCodegen

variable (ctx : IRContext)

theorem flows_codegenMetaCalculation {decls : List Node} {block : BlockId} {stmt : AST}
    (h : AST.nothingFollows stmt) (hterm : AST.terminates stmt = false) :
    Flows (codegenMetaCalculation decls block
      fun created => FunctionCodegen.codegenStmt ctx created stmt) := by
  refine StopsAt.createRegionAfter.bind fun created =>
    (FunctionCodegen.flows_codegenStmt ctx stmt h created).bind_of_ok fun s r s' hok => ?_
  have hsome := FunctionCodegen.codegenStmt_isSome ctx h hok
  rw [hterm] at hsome
  cases r with
  | none => cases hsome
  | some current =>
    exact (StopsAt.introduceDecls fun _ => CodegenFault.isControlFlow_of_isOperandFault).bind
      fun _ => .pure

theorem flows_codegenChildrenContribution {cs : List AST}
    (h : ∀ c ∈ cs, AST.calculationsContinue c → ∀ block, Flows (codegenMeta ctx block c))
    (hcs : AST.calculationsContinueIn cs) (block : BlockId) :
    Flows (codegenChildrenContribution ctx (some block) cs) := by
  induction cs generalizing block with
  | nil => exact .pure
  | cons c cs ih =>
    obtain ⟨hc, hcs⟩ := Bool.and_eq_true_iff.1 hcs
    refine StopsAt.bind .pure fun b => (h c List.mem_cons_self hc b).bind_of_ok fun s r s' hok => ?_
    obtain ⟨b', rfl⟩ := Option.isSome_iff_exists.1 (codegenMeta_continues ctx c hok)
    exact ih (fun x hx => h x (List.mem_cons_of_mem _ hx)) hcs b'

theorem flows_codegenMeta (a : AST) (ha : AST.calculationsContinue a) :
    ∀ block, Flows (codegenMeta ctx block a) := by
  induction a using Rose.ind with
  | h n cs ih =>
    intro block
    obtain ⟨⟨id, data⟩, decl, exportedDecls⟩ := n
    have hfault (fault : CodegenFault) (h : fault.isControlFlow = false) :
        Flows (throw fault : CodegenM (Option BlockId)) := .throw h
    cases data with
    | metaDecl name => exact hfault _ rfl
    | metaUnit inst => exact hfault _ rfl
    | metaContribution => exact flows_codegenChildrenContribution ctx ih ha block
    | metaIfStmt =>
      rcases cs with _ | ⟨condition, _ | ⟨trueBranch, _ | ⟨falseBranch, _ | ⟨c, cs⟩⟩⟩⟩
      · exact hfault _ rfl
      · exact hfault _ rfl
      · exact FunctionCodegen.flows_codegenIfStructure ctx (ih trueBranch (by simp) ha)
          fun _ h => nomatch h
      · obtain ⟨htrue, hfalse⟩ : AST.calculationsContinue trueBranch = true ∧
            AST.calculationsContinue falseBranch = true := Bool.and_eq_true_iff.1 ha
        refine FunctionCodegen.flows_codegenIfStructure ctx (ih trueBranch (by simp) htrue)
          fun d h => ?_
        cases h
        exact ih falseBranch (by simp) hfalse
      · exact hfault _ rfl
    | metaCalculationStmt =>
      rcases cs with _ | ⟨stmt, _ | ⟨c, cs⟩⟩
      · exact hfault _ rfl
      · obtain ⟨hfollows, hterm⟩ : AST.nothingFollows stmt = true ∧
            (!AST.terminates stmt) = true := Bool.and_eq_true_iff.1 ha
        exact flows_codegenMetaCalculation ctx hfollows (Bool.not_eq_true' _ ▸ hterm)
      · exact hfault _ rfl
    | _ =>
      exact .codegenContributed (S := (·.isControlFlow = false)) rfl fun block =>
        flows_codegenChildrenContribution ctx ih ha block

theorem calculationsContinueIn_of_ok {cs : List AST}
    (h : ∀ c ∈ cs, ∀ {block s r s'}, codegenMeta ctx block c s = .ok (r, s') →
      AST.calculationsContinue c)
    {current : Option BlockId} {s s' : CodegenState} {r : Option BlockId}
    (hok : codegenChildrenContribution ctx current cs s = .ok (r, s')) :
    AST.calculationsContinueIn cs := by
  induction cs generalizing current s with
  | nil => rfl
  | cons c cs ih =>
    obtain ⟨b, s₁, -, hok⟩ := CodegenM.bind_ok.1 hok
    obtain ⟨r₁, s₂, hc, hok⟩ := CodegenM.bind_ok.1 hok
    exact (Bool.and_eq_true _ _).mpr
      ⟨h c List.mem_cons_self hc, ih (fun x hx => h x (List.mem_cons_of_mem _ hx)) hok⟩

theorem calculationsContinue_of_ok (a : AST) : ∀ {block s r s'},
    codegenMeta ctx block a s = .ok (r, s') → AST.calculationsContinue a := by
  induction a using Rose.ind with
  | h n cs ih =>
    intro block s r s' hok
    obtain ⟨⟨id, data⟩, decl, exportedDecls⟩ := n
    cases data with
    | metaDecl name | metaUnit inst => rfl
    | metaContribution => exact calculationsContinueIn_of_ok ctx ih hok
    | metaIfStmt =>
      rcases cs with _ | ⟨condition, _ | ⟨trueBranch, _ | ⟨falseBranch, _ | ⟨c, cs⟩⟩⟩⟩
      · rfl
      · rfl
      · obtain ⟨⟨_, _, _, _, htrue⟩, -⟩ := FunctionCodegen.codegenIfStructure_branches_ok ctx hok
        exact ih trueBranch (by simp) htrue
      · obtain ⟨⟨_, _, _, _, htrue⟩, hfalse⟩ :=
          FunctionCodegen.codegenIfStructure_branches_ok ctx hok
        obtain ⟨_, _, _, _, hfalse⟩ := hfalse _ rfl
        exact (Bool.and_eq_true _ _).mpr
          ⟨ih trueBranch (by simp) htrue, ih falseBranch (by simp) hfalse⟩
      · rfl
    | metaCalculationStmt =>
      rcases cs with _ | ⟨stmt, _ | ⟨c, cs⟩⟩
      · rfl
      · obtain ⟨created, s₁, -, hok⟩ := CodegenM.bind_ok.1 hok
        obtain ⟨current, s₂, hstmt, hok⟩ := CodegenM.bind_ok.1 hok
        have hfollows := FunctionCodegen.nothingFollows_of_ok ctx stmt hstmt
        have hterm := FunctionCodegen.codegenStmt_isSome ctx hfollows hstmt
        cases current with
        | none => exact (CodegenM.throw_ok.1 hok).elim
        | some b => exact (Bool.and_eq_true _ _).mpr ⟨hfollows, by rw [← hterm]; rfl⟩
      · rfl
    | _ =>
      unfold codegenMeta codegenContributed at hok
      obtain ⟨_, s₁, -, hok⟩ := CodegenM.bind_ok.1 hok
      obtain ⟨_, s₂, -, hok⟩ := CodegenM.bind_ok.1 hok
      obtain ⟨current, s₃, hchildren, -⟩ := CodegenM.bind_ok.1 hok
      exact calculationsContinueIn_of_ok ctx ih hchildren

end MetaCodegen

/-! ### The check of a meta function -/

namespace Check

/-- The declarations have names and are known. -/
def introduceDecls : List Node → CheckM Unit
  | [] => return ()
  | decl :: decls => do
    let _ ← lookupLocal decl.id
    if decl.name?.isSome then introduceDecls decls else failure

variable (ctx : IRContext)

mutual
/-- Checks a node below the cursor. -/
def codegenMeta (cursor : ASTCursor) : AST → CheckM Unit
  | .node n cs =>
    match n.node.data, cs with
    | .metaContribution, cs => codegenChildrenContribution cursor cs
    | .metaIfStmt, [condition, trueBranch] =>
      codegenIfStructure ctx condition (codegenMeta cursor trueBranch) (return ())
    | .metaIfStmt, [condition, trueBranch, falseBranch] =>
      codegenIfStructure ctx condition (codegenMeta cursor trueBranch)
        (codegenMeta cursor falseBranch)
    | .metaCalculationStmt, [stmt] => do
      codegenStmt ctx stmt
      introduceDecls n.exportedDecls
    | .metaDecl _, _ | .metaUnit _, _ | .metaIfStmt, _ | .metaCalculationStmt, _ => failure
    | _, cs =>
      match cursor.descend n.node.kind with
      | some below => codegenChildrenContribution below cs
      | none => failure
/-- Checks each node of a list. -/
def codegenChildrenContribution (cursor : ASTCursor) : List AST → CheckM Unit
  | [] => return ()
  | c :: cs => do
    codegenMeta cursor c
    codegenChildrenContribution cursor cs
end

/-- Checks a meta function. -/
def codegenMetaFunction (cursor : ASTCursor) (args contribution : AST) : CheckM Unit :=
  withValueScope do
    storeArguments args.children
    introduceDecls (MetaCodegen.namedArguments args)
    codegenMeta ctx cursor contribution

end Check

/-- `Settles` for what is generated from the current block on, with the cursor at its place. -/
def SettlesAt (cursor : ASTCursor) (c : BlockId → CodegenM (Option BlockId)) (k : CheckM Unit) :
    Prop :=
  ∀ s : CodegenState, s.Positioned → s.cursor = cursor → Settles s (c s.insertPoint) k

section SettlesAt

variable {cursor : ASTCursor}

/-- Where the meta code goes on. -/
theorem codegenMeta_ok (ctx : IRContext) {a : AST} {s s' : CodegenState} {r : Option BlockId}
    (hs : s.Positioned) (h : MetaCodegen.codegenMeta ctx s.insertPoint a s = .ok (r, s')) :
    s'.Positioned ∧ s'.cursor = s.cursor ∧ r = some s'.insertPoint := by
  have hcompiles : Compiles (default : Runtime) [] s.cursor _ _ :=
    codegenMeta_compiles ctx a s.cursor
  obtain ⟨hlater, hblock, -⟩ := hcompiles hs rfl h
  obtain ⟨b, rfl⟩ := Option.isSome_iff_exists.1 (codegenMeta_continues ctx a h)
  exact ⟨hlater.positioned, hlater.cursor, by rw [hblock b rfl]⟩

theorem lookupLocal_alloca {decl : NodeId} :
    Abstracts (fun o _ => o = .alloca decl) (FunctionCodegen.lookupLocal decl)
      (Check.lookupLocal decl) := by
  have hget : Abstracts (fun s v => s.values = v) (get : CodegenM CodegenState)
      (get : CheckM (List (List NodeId))) := fun s => ⟨s, s, rfl, rfl, rfl⟩
  refine hget.bind fun s v hv => ?_
  subst hv
  exact .ite Iff.rfl (.pure rfl) (.throw (by decide))

theorem introduceDecls_abstracts {decls : List Node} :
    Abstracts (fun _ _ => True) (MetaCodegen.introduceDecls decls)
      (Check.introduceDecls decls) := by
  induction decls with
  | nil => exact .pure True.intro
  | cons decl decls ih =>
    have hlookup : Abstracts _ (FunctionCodegen.lookupLocal decl.id) _ := lookupLocal_alloca
    refine hlookup.bind fun o kind ho => ?_
    subst ho
    have hintroduce : MetaCodegen.createIntroduceNode decl (.alloca decl.id) = fun s =>
        if decl.name?.isSome = true then
          FunctionCodegen.emit (.introduce decl decl.id s.cursor.depth) s
        else .error .castFailed := by
      funext s
      unfold MetaCodegen.createIntroduceNode
      cases decl.name? <;> rfl
    by_cases hname : decl.name?.isSome = true
    · have hok : Abstracts (fun _ _ => True)
          (MetaCodegen.createIntroduceNode decl (.alloca decl.id)) (Pure.pure ()) := by
        rw [hintroduce]
        intro s
        exact ⟨_, _, if_pos hname, True.intro, rfl⟩
      rw [if_pos hname]
      exact .after hok fun _ _ => ih
    · rw [if_neg hname]
      intro s
      refine ⟨.castFailed, ?_, by decide⟩
      simp only [Bind.bind, StateT.bind, hintroduce, if_neg hname, Except.bind]

variable (ctx : IRContext)

theorem codegenChildrenContribution_settles {cs : List AST}
    (h : ∀ c ∈ cs, SettlesAt cursor (fun block => MetaCodegen.codegenMeta ctx block c)
      (Check.codegenMeta ctx cursor c)) :
    SettlesAt cursor (fun block => MetaCodegen.codegenChildrenContribution ctx (some block) cs)
      (Check.codegenChildrenContribution ctx cursor cs) := by
  induction cs with
  | nil => exact fun s _ _ => .of_abstracts (.pure True.intro : Abstracts (fun _ _ => True) _ _)
  | cons c cs ih =>
    intro s hs hcursor
    refine .pass (a := s.insertPoint) rfl rfl
      ((h c List.mem_cons_self s hs hcursor).bind fun r s₁ hr => ?_)
    obtain ⟨hs₁, hcursor₁, rfl⟩ := codegenMeta_ok ctx hs hr
    exact ih (fun x hx => h x (List.mem_cons_of_mem _ hx)) s₁ hs₁ (hcursor₁.trans hcursor)

/-- A branch of a meta if leaves the cursor where it is. -/
theorem codegenBranch_cursor {a : AST} {s s₁ : CodegenState} {r : BlockId × Option BlockId}
    (h : FunctionCodegen.codegenBranch none
      (fun current => MetaCodegen.codegenMeta ctx current a) s = .ok (r, s₁)) :
    s₁.cursor = s.cursor := by
  have hcompiles : Compiles (default : Runtime) [] s.cursor _ _ :=
    codegenMeta_compiles ctx a s.cursor
  exact (codegenBranch_ok hcompiles rfl (Nat.le_refl _)
    (fun _ hnone => (Option.some_ne_none _ hnone.symm).elim) h).cursor

theorem codegenMetaCalculation_settles {decls : List Node} {stmt : AST} {s : CodegenState}
    {block : BlockId} :
    Settles s (MetaCodegen.codegenMetaCalculation decls block
        fun created => FunctionCodegen.codegenStmt ctx created stmt)
      (do
        Check.codegenStmt ctx stmt
        Check.introduceDecls decls) := by
  refine .pass rfl rfl ((codegenStmt_settles ctx stmt _ _).bind fun r s₁ _ => ?_)
  cases r with
  | none => exact fun known _ => .inr ⟨.controlFlowTerminated, rfl, rfl⟩
  | some current =>
    exact (Settles.of_abstracts introduceDecls_abstracts).then fun _ _ _ => ⟨_, _, rfl, rfl⟩

theorem codegenContributed_settles {node : Node} {below : ASTCursor}
    (hdescend : cursor.descend node.kind = some below) {cs : List AST}
    (h : SettlesAt below (fun block => MetaCodegen.codegenChildrenContribution ctx (some block) cs)
      (Check.codegenChildrenContribution ctx below cs)) :
    SettlesAt cursor
      (fun block => MetaCodegen.codegenContributed node block fun block =>
        MetaCodegen.codegenChildrenContribution ctx (some block) cs)
      (Check.codegenChildrenContribution ctx below cs) := by
  intro s hs hcursor
  have hdescended : MetaCodegen.descend node.kind s = .ok ((), { s with cursor := below }) := by
    rw [MetaCodegen.descend, hcursor, hdescend]
  let s₂ : CodegenState := { s with
    cursor := below
    blocks := s.blocks.append s.insertPoint (.operation (.contribute node)) }
  have hs₂ : s₂.Positioned := Nat.lt_of_lt_of_eq hs Blocks.length_append.symm
  have hcontributed : FunctionCodegen.emit (.contribute node) { s with cursor := below } =
      .ok ((), s₂) := rfl
  refine .pass hdescended rfl (.pass hcontributed rfl ((h s₂ hs₂ rfl).then fun r s₃ hr => ?_))
  have hcompiles : Compiles (default : Runtime) [] below
      (fun block => MetaCodegen.codegenChildrenContribution ctx (some block) cs) _ :=
    codegenChildrenContribution_compiles ctx fun c _ => codegenMeta_compiles ctx c below
  have hcursor₃ : s₃.cursor = below := (hcompiles hs₂ rfl hr).1.cursor
  have hascend (s₄ : CodegenState) (h₄ : s₄.cursor = below) :
      MetaCodegen.ascend node.kind s₄ = .ok ((), { s₄ with cursor := cursor }) := by
    rw [MetaCodegen.ascend, h₄, ASTCursor.ascend_descend hdescend]
  by_cases hmarker : node.isNodeRequiringReduceMarker = true
  · refine ⟨r, { s₃ with
      cursor := cursor
      blocks := s₃.blocks.append s₃.insertPoint (.operation .reduce) }, ?_, rfl⟩
    simp only [if_pos hmarker]
    exact CodegenM.bind_ok.2 ⟨(), _, rfl, CodegenM.bind_ok.2 ⟨(), _, hascend _ hcursor₃, rfl⟩⟩
  · refine ⟨r, { s₃ with cursor := cursor }, ?_, rfl⟩
    simp only [if_neg hmarker]
    exact CodegenM.bind_ok.2 ⟨(), _, hascend _ hcursor₃, rfl⟩

theorem codegenMeta_settles (a : AST) : ∀ cursor,
    SettlesAt cursor (fun block => MetaCodegen.codegenMeta ctx block a)
      (Check.codegenMeta ctx cursor a) := by
  induction a using Rose.ind with
  | h n cs ih =>
    intro cursor
    obtain ⟨⟨id, data⟩, decl, exportedDecls⟩ := n
    cases data with
    | metaDecl name | metaUnit inst => exact fun _ _ _ => .of_failure
    | metaContribution => exact codegenChildrenContribution_settles ctx fun c hc => ih c hc cursor
    | metaIfStmt =>
      rcases cs with _ | ⟨condition, _ | ⟨trueBranch, _ | ⟨falseBranch, _ | ⟨c, cs⟩⟩⟩⟩
      · exact fun _ _ _ => .of_failure
      · exact fun _ _ _ => .of_failure
      · exact fun s hs hcursor => codegenIfStructure_settles ctx _ condition
          (ih trueBranch (by simp) cursor _ positioned_enterBlock hcursor)
          (fun _ h => nomatch h) fun _ => rfl
      · refine fun s hs hcursor => codegenIfStructure_settles ctx _ condition
          (ih trueBranch (by simp) cursor _ positioned_enterBlock hcursor) (fun e h => ?_)
          fun h => nomatch h
        cases h
        exact fun r s₁ hr => ih falseBranch (by simp) cursor _ positioned_enterBlock
          ((codegenBranch_cursor ctx hr).trans hcursor)
      · exact fun _ _ _ => .of_failure
    | metaCalculationStmt =>
      rcases cs with _ | ⟨stmt, _ | ⟨c, cs⟩⟩
      · exact fun _ _ _ => .of_failure
      · exact fun s _ _ => codegenMetaCalculation_settles ctx
      · exact fun _ _ _ => .of_failure
    | _ =>
      intro s hs hcursor
      unfold MetaCodegen.codegenMeta Check.codegenMeta
      dsimp only
      split
      next below hdescend =>
        exact codegenContributed_settles ctx hdescend
          (codegenChildrenContribution_settles ctx fun c hc => ih c hc below) s hs hcursor
      next => exact .of_failure

theorem codegenMetaFunction_settles (args contribution : AST) (cursor : ASTCursor) :
    Settles (.initial cursor) (MetaCodegen.codegenMetaFunction ctx args contribution)
      (Check.codegenMetaFunction ctx cursor args contribution) := by
  refine Settles.withValueScope ?_
  unfold FunctionCodegen.setUpStackFrame
  simp only [bind_assoc, pure_bind]
  refine .pass rfl rfl ((Settles.of_abstracts (storeArguments_abstracts args.children 0)).bind
    fun _ s₁ h₁ => (Settles.of_abstracts introduceDecls_abstracts).bind fun _ s₂ h₂ => ?_)
  have hstore : Emits (default : Runtime) [] .trivial _ _ _ :=
    storeArguments_emits args.children 0
  obtain ⟨hst, -⟩ := hstore (by exact Nat.zero_lt_one) h₁
  have hcompiles : Compiles (default : Runtime) [] s₁.cursor _ _ :=
    introduceDecls_compiles (MetaCodegen.namedArguments args)
  obtain ⟨hlater, hblock, -⟩ := hcompiles hst.positioned rfl
    (CodegenM.bind_ok.2 ⟨(), s₂, h₂, rfl⟩)
  have hpoint : s₂.insertPoint = 0 := (hblock _ rfl).trans hst.insertPoint
  have hmeta := codegenMeta_settles ctx contribution cursor s₂ hlater.positioned
    (hlater.cursor.trans hst.cursor)
  rw [hpoint] at hmeta
  refine hmeta.then fun r s hr => ?_
  obtain ⟨b, rfl⟩ := Option.isSome_iff_exists.1 (codegenMeta_continues ctx contribution hr)
  exact ⟨_, _, rfl, rfl⟩

end SettlesAt

/-- The generation did not stop at a control flow that was terminated. -/
def KeepsControlFlow (generated : Except CodegenFault (Unit × CodegenState)) : Prop :=
  ∀ fault, generated = .error fault → fault.isControlFlow = false

/-- What passes its check and is not stopped by the control flow is generated. -/
theorem Settles.exists_ok {s : CodegenState} {c : CodegenM Unit} {k : CheckM Unit}
    (h : Settles s c k) (hk : (k s.values).isSome) (hflows : KeepsControlFlow (c s)) :
    ∃ s', c s = .ok ((), s') := by
  obtain ⟨⟨_, known⟩, hk⟩ := Option.isSome_iff_exists.1 hk
  rcases h known hk with ⟨_, s', hc, -⟩ | ⟨fault, hc, hfault⟩
  · exact ⟨s', hc⟩
  · rw [hflows fault hc] at hfault
    cases hfault

section

variable (ctx : IRContext)

theorem flows_codegenBody {args body : AST} (h : AST.nothingFollows body) :
    Flows (FunctionCodegen.codegenBody ctx args body) := by
  refine .withValueScope (StopsAt.setUpStackFrame.bind fun block =>
    (FunctionCodegen.flows_codegenStmt ctx body h block).bind fun r => ?_)
  cases r with
  | none => exact .pure
  | some b => exact .insert

theorem flows_codegenMetaFunction {args contribution : AST}
    (h : AST.calculationsContinue contribution) :
    Flows (MetaCodegen.codegenMetaFunction ctx args contribution) := by
  refine .withValueScope (StopsAt.setUpStackFrame.bind fun block =>
    (StopsAt.introduceDecls fun _ => CodegenFault.isControlFlow_of_isOperandFault).bind fun _ =>
      (MetaCodegen.flows_codegenMeta ctx contribution h block).bind_of_ok fun s r s' hr => ?_)
  obtain ⟨b, rfl⟩ := Option.isSome_iff_exists.1 (codegenMeta_continues ctx contribution hr)
  exact .insert

theorem nothingFollows_of_codegenBody {args body : AST} {s s' : CodegenState}
    (h : FunctionCodegen.codegenBody ctx args body s = .ok ((), s')) :
    AST.nothingFollows body := by
  obtain ⟨s₁, s₂, h⟩ := FunctionCodegen.withValueScope_ok h
  obtain ⟨block, s₃, -, h⟩ := CodegenM.bind_ok.1 h
  obtain ⟨r, s₄, hbody, -⟩ := CodegenM.bind_ok.1 h
  exact FunctionCodegen.nothingFollows_of_ok ctx body hbody

theorem calculationsContinue_of_codegenMetaFunction {args contribution : AST}
    {s s' : CodegenState}
    (h : MetaCodegen.codegenMetaFunction ctx args contribution s = .ok ((), s')) :
    AST.calculationsContinue contribution := by
  obtain ⟨s₁, s₂, h⟩ := FunctionCodegen.withValueScope_ok h
  obtain ⟨block, s₃, -, h⟩ := CodegenM.bind_ok.1 h
  obtain ⟨_, s₄, -, h⟩ := CodegenM.bind_ok.1 h
  obtain ⟨r, s₅, hcontribution, -⟩ := CodegenM.bind_ok.1 h
  exact MetaCodegen.calculationsContinue_of_ok ctx contribution hcontribution

end

/-- The code of a function is generated without a fault of the control flow if nothing follows what
terminates, and the code of a meta function if its calculations do not terminate either; where
nothing else stops the generation only then. -/
theorem codegen_keepsControlFlow_iff (ctx : IRContext) (cursor : ASTCursor) :
    (∀ (n : ASTNode) (args body : AST) (returnDecl : Option AST),
      let generated := FunctionCodegen.codegen ctx
        (.node n (args :: (returnDecl.toList ++ [body]))) (.initial cursor)
      (AST.nothingFollows body → KeepsControlFlow generated) ∧
        ((Check.codegenBody ctx args body []).isSome →
          (KeepsControlFlow generated ↔ AST.nothingFollows body))) ∧
    ∀ (n : ASTNode) (args contribution : AST),
      let generated := MetaCodegen.codegen ctx (.node n [args, contribution]) (.initial cursor)
      (AST.calculationsContinue contribution → KeepsControlFlow generated) ∧
        ((Check.codegenMetaFunction ctx cursor args contribution []).isSome →
          (KeepsControlFlow generated ↔ AST.calculationsContinue contribution)) := by
  constructor
  · intro n args body returnDecl
    have hgenerated : FunctionCodegen.codegen ctx
        (.node n (args :: (returnDecl.toList ++ [body]))) =
        FunctionCodegen.codegenBody ctx args body := by
      cases returnDecl <;> rfl
    simp only [hgenerated]
    have hflows (h : AST.nothingFollows body) :
        KeepsControlFlow (FunctionCodegen.codegenBody ctx args body (.initial cursor)) :=
      flows_codegenBody ctx h _
    refine ⟨hflows, fun hcheck => ⟨fun hkeeps => ?_, hflows⟩⟩
    obtain ⟨s, hs⟩ := (codegenBody_settles ctx args body).exists_ok hcheck hkeeps
    exact nothingFollows_of_codegenBody ctx hs
  · intro n args contribution
    have hflows (h : AST.calculationsContinue contribution) : KeepsControlFlow
        (MetaCodegen.codegenMetaFunction ctx args contribution (.initial cursor)) :=
      flows_codegenMetaFunction ctx h _
    refine ⟨hflows, fun hcheck => ⟨fun hkeeps => ?_, hflows⟩⟩
    obtain ⟨s, hs⟩ :=
      (codegenMetaFunction_settles ctx args contribution cursor).exists_ok hcheck hkeeps
    exact calculationsContinue_of_codegenMetaFunction ctx hs

/-- `f(int x) int -> { if x { return 1; } return 2; }` and
`m<int n> -> { meta { int y = n; } m() -> { } }`. -/
theorem codegen_keepsControlFlow_if :
    let literal (id : NodeId) (w : Word) : AST := .node ⟨⟨id, .integerLiteralExpr w⟩, none, []⟩ []
    let node (id : NodeId) (data : NodeData) (cs : List AST) : AST :=
      .node ⟨⟨id, data⟩, none, []⟩ cs
    let argument (name : Identifier) : Node := ⟨3, .namedArgumentDecl name⟩
    let args (name : Identifier) : AST :=
      node 2 .argumentDeclList [.node ⟨argument name, none, []⟩ []]
    let ref (name : Identifier) : AST := .node ⟨⟨5, .declRefExpr name⟩, some (argument name), []⟩ []
    let returnStmt (id : NodeId) (w : Word) : AST := node id .returnStmt [literal (id + 1) w]
    let body : AST := node 4 .compoundStmt
      [node 6 .ifStmt [ref "x", node 7 .compoundStmt [returnStmt 8 1]], returnStmt 10 2]
    let y : Node := ⟨7, .declStmt "y"⟩
    let calculation : AST := .node ⟨⟨6, .metaCalculationStmt⟩, none, [y]⟩
      [node 8 .unscopedCompoundStmt [.node ⟨y, none, []⟩ [ref "n"]]]
    let contribution : AST := node 4 .metaContribution
      [calculation, node 9 (.functionDecl "m")
        [node 10 .argumentDeclList [], node 11 .compoundStmt []]]
    KeepsControlFlow (FunctionCodegen.codegen ⟨fun _ => none, fun _ => none⟩
        (node 1 (.functionDecl "f") [args "x", node 12 .anonymousArgumentDecl [], body])
        (.initial .insideMetaDecl)) ∧
      KeepsControlFlow (MetaCodegen.codegen ⟨fun _ => none, fun _ => none⟩
        (node 1 (.metaDecl "m") [args "n", contribution]) (.initial .insideMetaDecl)) := by
  intro literal node argument args ref returnStmt body y calculation contribution
  obtain ⟨hfunction, hmeta⟩ :=
    codegen_keepsControlFlow_iff ⟨fun _ => none, fun _ => none⟩ .insideMetaDecl
  constructor
  · exact ((hfunction ⟨⟨1, .functionDecl "f"⟩, none, []⟩ (args "x") body
      (some (node 12 .anonymousArgumentDecl []))).2 (by decide)).2 (by decide)
  · exact ((hmeta ⟨⟨1, .metaDecl "m"⟩, none, []⟩ (args "n") contribution).2
      (by decide)).2 (by decide)

/-- `f() int -> { return 1; return 2; }` and `m<int> -> { meta { return 1; } m() -> { } }` are
accepted without a diagnostic; the code of the second return, and what follows the calculation, has
no block to go to. -/
theorem codegen_not_keepsControlFlow :
    ∃ (t t' : Tree) (a a' f m : AST) (s s' : ASTLayoutReader.State), t.IsProgram ∧ t'.IsProgram ∧
      ASTLayoutReader.AcceptsUnit (fun _ _ => none) .compilationUnit t.encode .empty a s ∧
      ASTLayoutReader.AcceptsUnit (fun _ _ => none) .compilationUnit t'.encode .empty a' s' ∧
      SemaAnalysis.checkAST (.ofUnits [a] fun _ => none) a = .ok [] ∧
      SemaAnalysis.checkAST (.ofUnits [a'] fun _ => none) a' = .ok [] ∧
      f ∈ a.children ∧ AST.kind f = .functionDecl ∧ m ∈ a'.children ∧ AST.kind m = .metaDecl ∧
      FunctionCodegen.codegen (.ofUnits [a] fun _ => none) f (.initial .insideMetaDecl) =
        .error .nullDereference ∧
      MetaCodegen.codegen (.ofUnits [a'] fun _ => none) m (.initial .insideMetaDecl) =
        .error .controlFlowTerminated := by
  let returnStmt (id : NodeId) (w : Word) : AST := .node ⟨⟨id, .returnStmt⟩, none, []⟩
    [.node ⟨⟨id + 1, .integerLiteralExpr w⟩, none, []⟩ []]
  let f : AST := .node ⟨⟨1, .functionDecl "f"⟩, none, []⟩
    [.node ⟨⟨2, .argumentDeclList⟩, none, []⟩ [], .node ⟨⟨3, .anonymousArgumentDecl⟩, none, []⟩ [],
      .node ⟨⟨4, .compoundStmt⟩, none, []⟩ [returnStmt 5 1, returnStmt 7 2]]
  let m : AST := .node ⟨⟨1, .metaDecl "m"⟩, none, []⟩
    [.node ⟨⟨2, .argumentDeclList⟩, none, []⟩ [.node ⟨⟨3, .anonymousArgumentDecl⟩, none, []⟩ []],
      .node ⟨⟨4, .metaContribution⟩, none, []⟩
        [.node ⟨⟨5, .metaCalculationStmt⟩, none, []⟩
          [.node ⟨⟨6, .unscopedCompoundStmt⟩, none, []⟩ [returnStmt 7 1]],
        .node ⟨⟨9, .functionDecl "m"⟩, none, []⟩
          [.node ⟨⟨10, .argumentDeclList⟩, none, []⟩ [],
            .node ⟨⟨11, .compoundStmt⟩, none, []⟩ []]]]
  let a : AST := .node ⟨⟨0, .compilationUnit⟩, none, []⟩ [f]
  let a' : AST := .node ⟨⟨0, .compilationUnit⟩, none, []⟩ [m]
  have hread := ASTLayoutReader.consume_complete (fun _ _ => none) (p := .kind .compilationUnit)
    (t := a.shape) ⟨by decide, .inl rfl⟩ [] (.start .empty)
  have hread' := ASTLayoutReader.consume_complete (fun _ _ => none) (p := .kind .compilationUnit)
    (t := a'.shape) ⟨by decide, .inl rfl⟩ [] (.start .empty)
  have ha : (ASTLayoutReader.readTree (fun _ _ => none) a.shape (.start .empty)).1 = a := by rfl
  have ha' : (ASTLayoutReader.readTree (fun _ _ => none) a'.shape (.start .empty)).1 = a' := by rfl
  rw [List.append_nil, ha] at hread
  rw [List.append_nil, ha'] at hread'
  have haccept := ASTLayoutReader.AcceptsUnit.mk hread (by decide) (by decide)
  have haccept' := ASTLayoutReader.AcceptsUnit.mk hread' (by decide) (by decide)
  exact ⟨a.shape, a'.shape, a, a', f, m, _, _, ⟨rfl, by decide, by decide, by decide⟩,
    ⟨rfl, by decide, by decide, by decide⟩, haccept, haccept', rfl, rfl, List.mem_cons_self, rfl,
    List.mem_cons_self, rfl, rfl, rfl⟩

end Swy
