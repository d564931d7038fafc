import Swy.Codegen.Expansion
import Swy.Codegen.Termination

/-!
# Where the control flow gets without a declaration

The branches of a meta-if open no scope, so that a variable of a calculation in a branch is visible
behind the meta-if as well. Where the branch was not taken the variable was not declared.
`AST.metaUndeclared` computes where the control flow of a meta function gets without passing the
declaration of a variable: to which of its references, and whether to the end. This is exact, since
the outcomes of the conditional branches are independent of each other (`analysed_execMeta`).
-/

namespace Swy

open Library

/-! ## Traces -/

/-- The variable was declared: its storage was allocated, and its initial value was stored. -/
def DeclaredIn (d : NodeId) (events : List Event) : Prop :=
  ∃ value, [Event.alloca d, .store d value] <:+: events

/-- Wherever the reference is reached, the variable was declared in front of it. -/
def DeclaredBefore (d ref : NodeId) (events : List Event) : Prop :=
  ∀ p q, events = p ++ .reference ref d :: q → DeclaredIn d p

/-- The reference is reached in front of every allocation of the variable. -/
def ReachedUndeclared (d ref : NodeId) (events : List Event) : Prop :=
  ∃ p q, events = p ++ .reference ref d :: q ∧ .alloca d ∉ p

section Traces

variable {d ref : NodeId} {p q : List Event}

theorem DeclaredIn.append_left (h : DeclaredIn d p) (q : List Event) : DeclaredIn d (p ++ q) := by
  obtain ⟨value, h⟩ := h
  exact ⟨value, h.trans (List.prefix_append p q).isInfix⟩

theorem DeclaredIn.append_right (h : DeclaredIn d q) (p : List Event) : DeclaredIn d (p ++ q) := by
  obtain ⟨value, h⟩ := h
  exact ⟨value, h.trans (List.suffix_append p q).isInfix⟩

theorem DeclaredIn.alloca_mem (h : DeclaredIn d p) : .alloca d ∈ p := by
  obtain ⟨value, h⟩ := h
  exact h.subset List.mem_cons_self

theorem DeclaredBefore.of_not_mem (h : .reference ref d ∉ p) : DeclaredBefore d ref p := by
  rintro a b rfl
  exact absurd (List.mem_append_right _ List.mem_cons_self) h

/-- Behind the declaration the trace may go on in any way. -/
theorem DeclaredBefore.append (hp : DeclaredBefore d ref p)
    (hq : DeclaredIn d p ∨ DeclaredBefore d ref q) : DeclaredBefore d ref (p ++ q) := by
  intro a b h
  rcases List.append_eq_append_iff.1 h with ⟨c, rfl, rfl⟩ | ⟨c, rfl, hc⟩
  · rcases hq with hq | hq
    · exact hq.append_left c
    · exact (hq c b rfl).append_right p
  · rcases c with _ | ⟨event, c⟩
    · rw [List.append_nil] at hp hq
      rcases hq with hq | hq
      · exact hq
      · exact ((hq [] b hc.symm).append_right a).imp fun value h => by rwa [List.append_nil] at h
    · obtain ⟨rfl, rfl⟩ := List.cons.inj hc
      exact hp a c rfl

theorem ReachedUndeclared.not_declaredBefore (h : ReachedUndeclared d ref p) :
    ¬ DeclaredBefore d ref p := by
  obtain ⟨a, b, rfl, ha⟩ := h
  exact fun h => ha (h a b rfl).alloca_mem

theorem ReachedUndeclared.append_left (h : ReachedUndeclared d ref p) (q : List Event) :
    ReachedUndeclared d ref (p ++ q) := by
  obtain ⟨a, b, rfl, ha⟩ := h
  exact ⟨a, b ++ q, by rw [List.append_assoc, List.cons_append], ha⟩

theorem ReachedUndeclared.append_right (h : ReachedUndeclared d ref q) (hp : .alloca d ∉ p) :
    ReachedUndeclared d ref (p ++ q) := by
  obtain ⟨a, b, rfl, ha⟩ := h
  refine ⟨p ++ a, b, (List.append_assoc _ _ _).symm, fun h => ?_⟩
  rcases List.mem_append.1 h with h | h
  · exact hp h
  · exact ha h

theorem ReachedUndeclared.of_mem (h : .reference ref d ∈ p) (hp : .alloca d ∉ p) :
    ReachedUndeclared d ref p := by
  obtain ⟨a, b, rfl⟩ := List.append_of_mem h
  exact ⟨a, b, rfl, fun h => hp (List.mem_append_left _ h)⟩

end Traces

/-! ## Effects without branches -/

/-- The effect takes no branch and does not declare the variable. What it refers to the variable
with is given. -/
structure Exec.Straight (d : NodeId) {α : Type} (e : Exec α) (refs : List NodeId) : Prop where
  branches : ∀ μ, (e μ).memory.branches = μ.branches
  alloca : ∀ μ, .alloca d ∉ (e μ).events
  refs : ∀ μ ref, .reference ref d ∈ (e μ).events ↔ ref ∈ refs

namespace Exec.Straight

variable {α β : Type} {d : NodeId} {refs refs' : List NodeId}

theorem pure (a : α) : Straight d (Pure.pure a : Exec α) [] :=
  ⟨fun _ => rfl, fun _ => List.not_mem_nil, fun _ _ => Iff.rfl.trans (by simp [Pure.pure])⟩

theorem bind {e : Exec α} {f : α → Exec β} (h : Straight d e refs)
    (h' : ∀ a, Straight d (f a) refs') : Straight d (e >>= f) (refs ++ refs') := by
  refine ⟨fun μ => ?_, fun μ hmem => ?_, fun μ ref => ?_⟩
  · exact ((h' _).branches _).trans (h.branches μ)
  · rcases List.mem_append.1 hmem with hmem | hmem
    · exact h.alloca μ hmem
    · exact (h' _).alloca _ hmem
  · rw [List.mem_append, ← h.refs μ, ← (h' (e μ).value).refs (e μ).memory]
    exact List.mem_append

/-- What follows refers to nothing. -/
theorem seq {e : Exec α} {f : α → Exec β} (h : Straight d e refs)
    (h' : ∀ a, Straight d (f a) []) : Straight d (e >>= f) refs := by
  have hbind := h.bind h'
  rwa [List.append_nil] at hbind

/-- The effect records one event, which is neither an allocation of the variable nor a
reference to it. -/
theorem single {e : Exec α} {event : Event} (hbranches : ∀ μ, (e μ).memory.branches = μ.branches)
    (hevents : ∀ μ, (e μ).events = [event]) (halloca : event ≠ .alloca d)
    (hreference : ∀ ref, event ≠ .reference ref d) : Straight d e [] := by
  refine ⟨hbranches, fun μ hmem => ?_, fun μ ref => iff_of_false ?_ List.not_mem_nil⟩
  · rw [hevents] at hmem
    exact halloca (List.mem_singleton.1 hmem).symm
  · rw [hevents]
    exact fun hmem => hreference ref (List.mem_singleton.1 hmem).symm

theorem load (decl : NodeId) : Straight d (Exec.load decl) [] :=
  ⟨fun _ => rfl, fun _ => List.not_mem_nil, fun _ _ =>
    iff_of_false List.not_mem_nil List.not_mem_nil⟩

theorem store (decl : NodeId) (value : Word) : Straight d (Exec.store decl value) [] :=
  .single (fun _ => rfl) (fun _ => rfl) Event.noConfusion fun _ => Event.noConfusion

theorem call (rt : Runtime) (callee : NodeId) (arguments : List Word) :
    Straight d (Exec.call rt callee arguments) [] :=
  .single (fun _ => rfl) (fun _ => rfl) Event.noConfusion fun _ => Event.noConfusion

theorem emit {event : Event} (halloca : event ≠ .alloca d)
    (hreference : ∀ ref, event ≠ .reference ref d) : Straight d (Exec.emit event) [] :=
  .single (fun _ => rfl) (fun _ => rfl) halloca hreference

theorem reference (ref decl : NodeId) :
    Straight d (Exec.emit (.reference ref decl)) (if decl = d then [ref] else []) := by
  refine ⟨fun _ => rfl, fun μ hmem => ?_, fun μ ref' => ?_⟩
  · cases List.mem_singleton.1 hmem
  · show .reference ref' d ∈ [Event.reference ref decl] ↔ _
    by_cases h : decl = d
    · simp [h]
    · simp [h, Ne.symm h]

theorem loadMemory (v : Value) : Straight d (Interpreter.loadMemory v) [] := by
  cases v with
  | address decl => exact (load decl).seq fun _ => pure _
  | int | function | void => exact pure _

theorem interpreterStore (v p : Value) : Straight d (Interpreter.store v p) [] := by
  cases p with
  | address decl => exact store decl _
  | int | function | void => exact pure _

end Exec.Straight

/-! ## References -/

/-- What refers to the variable, the node itself if it does. -/
def ASTNode.referencesTo (d : NodeId) (n : ASTNode) : List NodeId :=
  match n.decl with
  | none => []
  | some decl =>
    match decl.kind with
    | .namedArgumentDecl | .declStmt => if decl.id = d then [n.node.id] else []
    | _ => []

mutual
/-- The references to the variable that are compiled with an expression. -/
def AST.referencesTo (d : NodeId) : AST → List NodeId
  | .node n cs =>
    match n.node.data, cs with
    | .declRefExpr _, _ => n.referencesTo d
    | .binaryOperatorExpr _, [left, right] => referencesTo d left ++ referencesTo d right
    | .callOperatorExpr, callee :: args => referencesTo d callee ++ allReferencesTo d args
    | _, _ => []
/-- The same of the arguments of a call. -/
def AST.allReferencesTo (d : NodeId) : List AST → List NodeId
  | [] => []
  | c :: cs => referencesTo d c ++ allReferencesTo d cs
end

section Expressions

variable {d : NodeId} (ctx : IRContext) (rt : Runtime)

theorem straight_evalDeclRefExpr (n : ASTNode) :
    Exec.Straight d (Interpreter.evalDeclRefExpr ctx n) (n.referencesTo d) := by
  unfold Interpreter.evalDeclRefExpr ASTNode.referencesTo
  cases n.decl with
  | none => exact .pure _
  | some decl =>
    have reference := (Exec.Straight.reference (d := d) n.node.id decl.id).seq fun _ =>
      .pure (Value.address decl.id)
    dsimp only
    cases hk : decl.kind with
    | namedArgumentDecl | declStmt => exact reference
    | functionDecl =>
      dsimp only
      split <;> exact .pure _
    | globalConstantDecl =>
      dsimp only
      split <;> exact .pure _
    | _ => exact .pure _

theorem straight_evalArguments {cs : List AST}
    (h : ∀ c ∈ cs, Exec.Straight d (Interpreter.evalExpr ctx rt c) (AST.referencesTo d c)) :
    Exec.Straight d (Interpreter.evalArguments ctx rt cs) (AST.allReferencesTo d cs) := by
  induction cs with
  | nil => exact .pure _
  | cons c cs ih =>
    refine (h c List.mem_cons_self).bind fun v => ?_
    rw [← List.nil_append (AST.allReferencesTo d cs)]
    exact (Exec.Straight.loadMemory v).bind fun _ =>
      (ih fun x hx => h x (List.mem_cons_of_mem _ hx)).seq fun _ => .pure _

/-- An expression takes no branch and evaluates the references in it. -/
theorem straight_evalExpr (a : AST) :
    Exec.Straight d (Interpreter.evalExpr ctx rt a) (a.referencesTo d) := by
  induction a using Rose.ind with
  | h n cs ih =>
    obtain ⟨⟨id, data⟩, decl, exportedDecls⟩ := n
    cases data with
    | declRefExpr name => exact straight_evalDeclRefExpr ctx _
    | metaInstantiationExpr =>
      show Exec.Straight d (Interpreter.evalMetaInstantiationExpr ctx id) []
      unfold Interpreter.evalMetaInstantiationExpr
      split <;> exact .pure _
    | binaryOperatorExpr op =>
      rcases cs with _ | ⟨left, _ | ⟨right, _ | ⟨c, cs⟩⟩⟩
      case cons.cons.nil =>
        refine (ih left (by simp)).bind fun v => (ih right (by simp)).seq fun w => ?_
        split
        · exact (Exec.Straight.loadMemory w).seq fun _ =>
            (Exec.Straight.interpreterStore _ _).seq fun _ => .pure _
        · exact (Exec.Straight.loadMemory v).seq fun _ =>
            (Exec.Straight.loadMemory w).seq fun _ => .pure _
      all_goals exact .pure _
    | callOperatorExpr =>
      cases cs with
      | nil => exact .pure _
      | cons callee args =>
        refine (ih callee List.mem_cons_self).bind fun v =>
          (straight_evalArguments ctx rt fun c hc => ih c (List.mem_cons_of_mem _ hc)).seq
            fun vs => ?_
        cases v with
        | function decl type => exact (Exec.Straight.call rt decl _).seq fun _ => .pure _
        | int | address | void => exact .pure _
    | _ => exact .pure _

end Expressions

/-! ## Where the control flow gets -/

/-- Where the control flow may get in some code without the declaration of a variable: to references
to it, and to what follows the code. -/
structure Undeclared where
  references : List NodeId
  passes : Bool
deriving DecidableEq, Repr

namespace Undeclared

/-- Code that is passed. -/
def skip : Undeclared := ⟨[], true⟩

/-- Code, and what follows it. -/
def andThen (x y : Undeclared) : Undeclared :=
  ⟨x.references ++ if x.passes then y.references else [], x.passes && y.passes⟩

/-- The references in a condition, and one of two branches. -/
def branch (condition : List NodeId) (x y : Undeclared) : Undeclared :=
  ⟨condition ++ (x.references ++ y.references), x.passes || y.passes⟩

theorem andThen_returned (x : Undeclared) : x.andThen ⟨[], false⟩ = ⟨x.references, false⟩ := by
  obtain ⟨references, passes⟩ := x
  cases passes <;> simp [andThen]

@[simp] theorem andThen_skip (x : Undeclared) : x.andThen .skip = x := by
  obtain ⟨references, passes⟩ := x
  cases passes <;> simp [andThen, skip]

end Undeclared

section

variable (d : NodeId)

mutual
/-- Where the control flow gets in a statement. -/
def AST.undeclared : AST → Undeclared
  | .node n cs =>
    match n.node.data, cs with
    | .compoundStmt, cs | .unscopedCompoundStmt, cs => allUndeclared cs
    | .returnStmt, [] => ⟨[], false⟩
    | .returnStmt, [expr] => ⟨AST.referencesTo d expr, false⟩
    | .expressionStmt, [expr] => ⟨AST.referencesTo d expr, true⟩
    | .declStmt _, [expr] => ⟨AST.referencesTo d expr, n.node.id != d⟩
    | .ifStmt, [condition, trueBranch] =>
      .branch (AST.referencesTo d condition) (undeclared trueBranch) .skip
    | .ifStmt, [condition, trueBranch, falseBranch] =>
      .branch (AST.referencesTo d condition) (undeclared trueBranch) (undeclared falseBranch)
    | _, _ => .skip
/-- The same of statements one after the other. -/
def AST.allUndeclared : List AST → Undeclared
  | [] => .skip
  | c :: cs => (undeclared c).andThen (allUndeclared cs)
end

mutual
/-- Where the control flow of the meta function gets in a node. -/
def AST.metaUndeclared : AST → Undeclared
  | .node n cs =>
    match n.node.data, cs with
    | .metaDecl _, _ | .metaUnit _, _ => .skip
    | .metaIfStmt, [condition, trueBranch] =>
      .branch (AST.referencesTo d condition) (metaUndeclared trueBranch) .skip
    | .metaIfStmt, [condition, trueBranch, falseBranch] =>
      .branch (AST.referencesTo d condition) (metaUndeclared trueBranch)
        (metaUndeclared falseBranch)
    | .metaCalculationStmt, [stmt] => AST.undeclared d stmt
    | .metaIfStmt, _ | .metaCalculationStmt, _ => .skip
    | _, cs => allMetaUndeclared cs
/-- The same of nodes one after the other. -/
def AST.allMetaUndeclared : List AST → Undeclared
  | [] => .skip
  | c :: cs => (metaUndeclared c).andThen (allMetaUndeclared cs)
end

end

/-- Code gets to a reference and to its end as it is said, over all outcomes of its branches. It is
a family, for what it does may depend on values that were computed before. -/
structure Analysed (d : NodeId) {ι : Type} (rt : ι → Runtime) (e : ι → Exec Flow)
    (x : Undeclared) : Prop where
  declared : ∀ ref, ref ∉ x.references → ∀ i μ, DeclaredBefore d ref (e i μ).events
  passed : x.passes = false → ∀ i μ, (e i μ).value = .next → DeclaredIn d (e i μ).events
  reaches : ∀ ref ∈ x.references, ∃ outcomes, ∀ i μ, (rt i).Follows μ.branches outcomes →
    ReachedUndeclared d ref (e i μ).events
  passes : x.passes = true → ∃ outcomes, ∀ i μ, (rt i).Follows μ.branches outcomes →
    (e i μ).value = .next ∧ .alloca d ∉ (e i μ).events ∧
      (e i μ).memory.branches = μ.branches + outcomes.length

namespace Analysed

variable {d : NodeId} {ι : Type} {rt : ι → Runtime} {e f : ι → Exec Flow} {x y : Undeclared}
  {refs : List NodeId}

/-- A part of a family. -/
theorem comp (h : Analysed d rt e x) {κ : Type} (π : κ → ι) :
    Analysed d (fun k => rt (π k)) (fun k => e (π k)) x :=
  ⟨fun ref hx k => h.declared ref hx (π k), fun hx k => h.passed hx (π k),
    fun ref hx => (h.reaches ref hx).imp fun _ hreached k => hreached (π k),
    fun hx => (h.passes hx).imp fun _ hpassed k => hpassed (π k)⟩

/-- Code without branches that does not declare the variable. -/
theorem straight (h : ∀ i, Exec.Straight d (e i) refs) {b : Bool}
    (hvalue : ∀ i μ, (e i μ).value = .next ↔ b = true) : Analysed d rt e ⟨refs, b⟩ := by
  refine ⟨fun ref hx i μ => .of_not_mem fun hmem => hx (((h i).refs μ ref).1 hmem),
    fun hb i μ hnext => ?_, fun ref hx => ⟨[], fun i μ _ => ?_⟩, fun hb => ⟨[], fun i μ _ => ?_⟩⟩
  · exact absurd (((hvalue i μ).1 hnext).symm.trans hb) (by decide)
  · exact .of_mem (((h i).refs μ ref).2 hx) ((h i).alloca μ)
  · exact ⟨(hvalue i μ).2 hb, (h i).alloca μ, (h i).branches μ⟩

/-- The control flow gets to the second code if it passes the first one. -/
theorem andThen (h : Analysed d rt e x) (h' : Analysed d rt f y) :
    Analysed d rt (fun i => Interpreter.andThen (e i) (f i)) (x.andThen y) := by
  have next {i : ι} {μ : Memory} (hv : (e i μ).value = .next) :
      Interpreter.andThen (e i) (f i) μ = ⟨(f i (e i μ).memory).value,
        (f i (e i μ).memory).memory, (e i μ).events ++ (f i (e i μ).memory).events⟩ := by
    rw [Interpreter.andThen, Exec.bind_apply, hv]
  have returned {i : ι} {μ : Memory} (hv : (e i μ).value = .returned) :
      Interpreter.andThen (e i) (f i) μ = ⟨.returned, (e i μ).memory, (e i μ).events⟩ := by
    rw [Interpreter.andThen, Exec.bind_apply, hv]
    exact congrArg (Result.mk _ _) (List.append_nil _)
  have mem {ref : NodeId} : ref ∈ (x.andThen y).references ↔
      ref ∈ x.references ∨ x.passes = true ∧ ref ∈ y.references := by
    rw [Undeclared.andThen, List.mem_append]
    cases x.passes <;> simp
  refine ⟨fun ref hx i μ => ?_, fun hpasses i μ hnext => ?_, fun ref hx => ?_, fun hpasses => ?_⟩
  · obtain ⟨hx, hy⟩ := not_or.1 (mt mem.2 hx)
    cases hv : (e i μ).value with
    | returned =>
      rw [returned hv]
      exact h.declared ref hx i μ
    | next =>
      rw [next hv]
      refine (h.declared ref hx i μ).append ?_
      cases hpasses : x.passes with
      | false => exact .inl (h.passed hpasses i μ hv)
      | true => exact .inr (h'.declared ref (fun hmem => hy ⟨hpasses, hmem⟩) i _)
  · cases hv : (e i μ).value with
    | returned =>
      rw [returned hv] at hnext
      cases hnext
    | next =>
      rw [next hv] at hnext ⊢
      rcases Bool.and_eq_false_iff.1 hpasses with hx | hy
      · exact (h.passed hx i μ hv).append_left _
      · exact (h'.passed hy i _ hnext).append_right _
  · rcases mem.1 hx with hx | ⟨hx, hy⟩
    · obtain ⟨outcomes, hreached⟩ := h.reaches ref hx
      refine ⟨outcomes, fun i μ hfollows => ?_⟩
      have hreached := hreached i μ hfollows
      cases hv : (e i μ).value with
      | returned => rwa [returned hv]
      | next =>
        rw [next hv]
        exact hreached.append_left _
    · obtain ⟨outcomes, hpassed⟩ := h.passes hx
      obtain ⟨outcomes', hreached⟩ := h'.reaches ref hy
      refine ⟨outcomes ++ outcomes', fun i μ hfollows => ?_⟩
      obtain ⟨hfollows, hfollows'⟩ := Runtime.follows_append.1 hfollows
      obtain ⟨hv, halloca, hbranches⟩ := hpassed i μ hfollows
      rw [next hv]
      exact (hreached i _ (by rwa [hbranches])).append_right halloca
  · obtain ⟨hx, hy⟩ := Bool.and_eq_true_iff.1 hpasses
    obtain ⟨outcomes, hpassed⟩ := h.passes hx
    obtain ⟨outcomes', hpassed'⟩ := h'.passes hy
    refine ⟨outcomes ++ outcomes', fun i μ hfollows => ?_⟩
    obtain ⟨hfollows, hfollows'⟩ := Runtime.follows_append.1 hfollows
    obtain ⟨hv, halloca, hbranches⟩ := hpassed i μ hfollows
    obtain ⟨hv', halloca', hbranches'⟩ := hpassed' i (e i μ).memory (by rwa [hbranches])
    rw [next hv]
    refine ⟨hv', fun hmem => ?_, ?_⟩
    · rcases List.mem_append.1 hmem with hmem | hmem
      · exact halloca hmem
      · exact halloca' hmem
    · rw [List.length_append, ← Nat.add_assoc, ← hbranches]
      exact hbranches'

/-- Code behind an effect without branches. -/
theorem bind {α : Type} {c : ι → Exec α} (hc : ∀ i, Exec.Straight d (c i) refs)
    {g : ι × α → Exec Flow} (h : Analysed d (fun j => rt j.1) g x) :
    Analysed d rt (fun i => c i >>= fun a => g (i, a)) ⟨refs ++ x.references, x.passes⟩ := by
  have same {i : ι} {μ : Memory} {outcomes : List Bool}
      (hfollows : (rt i).Follows μ.branches outcomes) :
      (rt i).Follows (c i μ).memory.branches outcomes := by
    rwa [(hc i).branches]
  refine ⟨fun ref hx i μ => ?_, fun hpasses i μ hnext => ?_, fun ref hx => ?_, fun hpasses => ?_⟩
  · rw [List.mem_append, not_or] at hx
    refine DeclaredBefore.append (.of_not_mem fun hmem => ?_) (.inr (h.declared ref hx.2 (i, _) _))
    exact hx.1 (((hc i).refs μ ref).1 hmem)
  · exact (h.passed hpasses (i, _) _ hnext).append_right _
  · rcases List.mem_append.1 hx with hx | hx
    · refine ⟨[], fun i μ _ => ?_⟩
      exact (ReachedUndeclared.of_mem (((hc i).refs μ ref).2 hx) ((hc i).alloca μ)).append_left _
    · obtain ⟨outcomes, hreached⟩ := h.reaches ref hx
      exact ⟨outcomes, fun i μ hfollows =>
        (hreached (i, _) _ (same hfollows)).append_right ((hc i).alloca μ)⟩
  · obtain ⟨outcomes, hpassed⟩ := h.passes hpasses
    refine ⟨outcomes, fun i μ hfollows => ?_⟩
    obtain ⟨hv, halloca, hbranches⟩ := hpassed (i, (c i μ).value) _ (same hfollows)
    refine ⟨hv, fun hmem => ?_, hbranches.trans (congrArg (· + _) ((hc i).branches μ))⟩
    rcases List.mem_append.1 hmem with hmem | hmem
    · exact (hc i).alloca μ hmem
    · exact halloca hmem

/-- A conditional branch goes to one of two targets, whatever the condition is. -/
theorem branch (condition : ι → Word) (h : Analysed d rt e x) (h' : Analysed d rt f y) :
    Analysed d rt
      (fun i => do if ← Exec.branch (rt i) (condition i) then e i else f i)
      (.branch [] x y) := by
  -- The memory behind the branch.
  let next (μ : Memory) : Memory := { μ with branches := μ.branches + 1 }
  have taken {i : ι} {μ : Memory} {outcome : Bool}
      (hchoose : (rt i).choose μ.branches (condition i) = outcome) :
      (do if ← Exec.branch (rt i) (condition i) then e i else f i : Exec Flow) μ =
        let r := (if outcome then e i else f i) (next μ)
        ⟨r.value, r.memory, [.branch outcome] ++ r.events⟩ := by
    subst hchoose
    rfl
  have front {outcome : Bool} : .alloca d ∉ [Event.branch outcome] := by simp
  have unused {outcome : Bool} {ref : NodeId} : DeclaredBefore d ref [.branch outcome] :=
    .of_not_mem (by simp)
  have length {μ : Memory} {outcome : Bool} {outcomes : List Bool} {count : Nat}
      (h : count = (next μ).branches + outcomes.length) :
      count = μ.branches + (outcome :: outcomes).length := by
    rw [h, List.length_cons, Nat.add_right_comm]
    rfl
  refine ⟨fun ref hx i μ => ?_, fun hpasses i μ hnext => ?_, fun ref hx => ?_, fun hpasses => ?_⟩
  · have hx : ref ∉ x.references ++ y.references := hx
    rw [List.mem_append, not_or] at hx
    rw [taken rfl]
    refine unused.append (.inr ?_)
    cases (rt i).choose μ.branches (condition i) with
    | true => exact h.declared ref hx.1 i _
    | false => exact h'.declared ref hx.2 i _
  · obtain ⟨hx, hy⟩ := Bool.or_eq_false_iff.1 hpasses
    rw [taken rfl] at hnext ⊢
    refine DeclaredIn.append_right ?_ _
    cases hchoose : (rt i).choose μ.branches (condition i) with
    | true =>
      rw [hchoose] at hnext
      exact h.passed hx i _ hnext
    | false =>
      rw [hchoose] at hnext
      exact h'.passed hy i _ hnext
  · rcases List.mem_append.1 (show ref ∈ x.references ++ y.references from hx) with hx | hy
    · obtain ⟨outcomes, hreached⟩ := h.reaches ref hx
      refine ⟨true :: outcomes, fun i μ hfollows => ?_⟩
      rw [taken (hfollows.1 _)]
      exact (hreached i _ hfollows.2).append_right front
    · obtain ⟨outcomes, hreached⟩ := h'.reaches ref hy
      refine ⟨false :: outcomes, fun i μ hfollows => ?_⟩
      rw [taken (hfollows.1 _)]
      exact (hreached i _ hfollows.2).append_right front
  · rcases Bool.or_eq_true_iff.1 hpasses with hx | hy
    · obtain ⟨outcomes, hpassed⟩ := h.passes hx
      refine ⟨true :: outcomes, fun i μ hfollows => ?_⟩
      obtain ⟨hv, halloca, hcount⟩ := hpassed i (next μ) hfollows.2
      rw [taken (hfollows.1 _)]
      exact ⟨hv, fun hmem => (List.mem_append.1 hmem).elim front halloca, length hcount⟩
    · obtain ⟨outcomes, hpassed⟩ := h'.passes hy
      refine ⟨false :: outcomes, fun i μ hfollows => ?_⟩
      obtain ⟨hv, halloca, hcount⟩ := hpassed i (next μ) hfollows.2
      rw [taken (hfollows.1 _)]
      exact ⟨hv, fun hmem => (List.mem_append.1 hmem).elim front halloca, length hcount⟩

/-- What follows an effect without branches does not depend on its value. -/
theorem before {α : Type} {c : ι → Exec α} (hc : ∀ i, Exec.Straight d (c i) refs)
    (h : Analysed d rt e x) :
    Analysed d rt (fun i => c i >>= fun _ => e i) ⟨refs ++ x.references, x.passes⟩ :=
  bind hc (g := fun j => e j.1) (h.comp Prod.fst)

theorem evalIf {c : ι → Exec Value} (hc : ∀ i, Exec.Straight d (c i) refs)
    (h : Analysed d rt e x) (h' : Analysed d rt f y) :
    Analysed d rt (fun i => Interpreter.evalIf (rt i) (c i) (e i) (f i)) (.branch refs x y) := by
  have targets : Analysed d (fun j : ι × Value => rt j.1) (fun j : ι × Value => do
      if ← Exec.branch (rt j.1) j.2.isNotNull then e j.1 else f j.1) (.branch [] x y) :=
    branch _ (h.comp Prod.fst) (h'.comp Prod.fst)
  exact bind hc targets

/-- Behind its initial value the variable is declared. -/
theorem declares {c : ι → Exec Value} (hc : ∀ i, Exec.Straight d (c i) refs) :
    Analysed d rt
      (fun i => do
        let value ← c i
        Exec.emit (.alloca d)
        Interpreter.store (← Interpreter.loadMemory value) (.address d)
        return .next) ⟨refs, false⟩ := by
  have events (v : Value) (μ : Memory) : ∃ value, ((do
      Exec.emit (.alloca d)
      Interpreter.store (← Interpreter.loadMemory v) (.address d)
      return .next : Exec Flow) μ).events = [.alloca d, .store d value] := by
    cases v <;> exact ⟨_, rfl⟩
  have tail : Analysed d (fun j : ι × Value => rt j.1)
      (fun j => do
        Exec.emit (.alloca d)
        Interpreter.store (← Interpreter.loadMemory j.2) (.address d)
        return .next) ⟨[], false⟩ := by
    refine ⟨fun _ _ j μ => ?_, fun _ j μ _ => ?_, nofun, nofun⟩
    · obtain ⟨value, h⟩ := events j.2 μ
      rw [h]
      exact .of_not_mem (by simp)
    · obtain ⟨value, h⟩ := events j.2 μ
      rw [h]
      exact ⟨value, List.infix_rfl⟩
  have h := bind hc tail
  rwa [List.append_nil] at h

end Analysed

/-! ## Statements -/

section Statements

variable {d : NodeId} (ctx : IRContext)

theorem Analysed.skip : Analysed d (fun rt : Runtime => rt) (fun _ => Pure.pure .next) .skip :=
  .straight (fun _ => .pure _) fun _ _ => iff_of_true rfl rfl

theorem analysed_execStmts {cs : List AST}
    (h : ∀ c ∈ cs, Analysed d (fun rt => rt) (fun rt => Interpreter.execStmt ctx rt c)
      (c.undeclared d)) :
    Analysed d (fun rt => rt) (fun rt => Interpreter.execStmts ctx rt cs)
      (AST.allUndeclared d cs) := by
  induction cs with
  | nil => exact .skip
  | cons c cs ih =>
    exact (h c List.mem_cons_self).andThen (ih fun x hx => h x (List.mem_cons_of_mem _ hx))

theorem analysed_execDeclStmt (id : NodeId) (expr : AST) :
    Analysed d (fun rt => rt)
      (fun rt => do
        let value ← Interpreter.evalExpr ctx rt expr
        Exec.emit (.alloca id)
        Interpreter.store (← Interpreter.loadMemory value) (.address id)
        return .next) ⟨AST.referencesTo d expr, id != d⟩ := by
  by_cases h : id = d
  · subst h
    rw [bne_self_eq_false]
    exact .declares fun rt => straight_evalExpr ctx rt expr
  · refine .straight (fun rt => (straight_evalExpr ctx rt expr).seq fun v => ?_) fun _ _ =>
      iff_of_true rfl (bne_iff_ne.2 h)
    have halloca : Event.alloca id ≠ .alloca d := fun heq => h (Event.alloca.inj heq)
    exact (Exec.Straight.emit halloca fun _ => Event.noConfusion).seq fun _ =>
      (Exec.Straight.loadMemory v).seq fun w =>
        (Exec.Straight.interpreterStore w _).seq fun _ => .pure _

/-- Where the control flow gets in a statement. -/
theorem analysed_execStmt (a : AST) :
    Analysed d (fun rt => rt) (fun rt => Interpreter.execStmt ctx rt a) (a.undeclared d) := by
  induction a using Rose.ind with
  | h n cs ih =>
    obtain ⟨⟨id, data⟩, decl, exportedDecls⟩ := n
    have eval (expr : AST) (rt : Runtime) := straight_evalExpr (d := d) ctx rt expr
    cases data with
    | compoundStmt => exact analysed_execStmts ctx ih
    | unscopedCompoundStmt => exact analysed_execStmts ctx ih
    | returnStmt =>
      have ret (value : Option Value) : Exec.Straight d (Exec.emit (.ret value)) [] :=
        .emit Event.noConfusion fun _ => Event.noConfusion
      rcases cs with _ | ⟨expr, _ | ⟨c, cs⟩⟩
      · exact .straight (fun _ => (ret _).seq fun _ => .pure _) fun _ _ =>
          iff_of_false Flow.noConfusion Bool.noConfusion
      · exact .straight (fun rt => (eval expr rt).seq fun v =>
          (Exec.Straight.loadMemory v).seq fun _ => (ret _).seq fun _ => .pure _) fun _ _ =>
            iff_of_false Flow.noConfusion Bool.noConfusion
      · exact .skip
    | expressionStmt =>
      rcases cs with _ | ⟨expr, _ | ⟨c, cs⟩⟩
      · exact .skip
      · exact .straight (fun rt => (eval expr rt).seq fun _ => (Exec.Straight.emit
          Event.noConfusion fun _ => Event.noConfusion).seq fun _ => .pure _) fun _ _ =>
            iff_of_true rfl rfl
      · exact .skip
    | declStmt name =>
      rcases cs with _ | ⟨expr, _ | ⟨c, cs⟩⟩
      · exact .skip
      · exact analysed_execDeclStmt ctx id expr
      · exact .skip
    | ifStmt =>
      rcases cs with _ | ⟨condition, _ | ⟨trueBranch, _ | ⟨falseBranch, _ | ⟨c, cs⟩⟩⟩⟩
      · exact .skip
      · exact .skip
      · exact .evalIf (eval condition) (ih trueBranch (by simp)) .skip
      · exact .evalIf (eval condition) (ih trueBranch (by simp)) (ih falseBranch (by simp))
      · exact .skip
    | _ => exact .skip

/-! ## Meta functions -/

theorem straight_introduceDecls (level : DepthLevel) (decls : List Node) :
    Exec.Straight d (Interpreter.introduceDecls level decls) [] := by
  induction decls with
  | nil => exact .pure _
  | cons decl decls ih =>
    exact (Exec.Straight.load decl.id).seq fun _ =>
      (Exec.Straight.emit Event.noConfusion fun _ => Event.noConfusion).seq fun _ => ih

theorem straight_bindArguments (arguments : List Word) {args : List AST}
    (h : ∀ arg ∈ args, arg.label.node.id ≠ d) (index : Nat) :
    Exec.Straight d (Interpreter.bindArguments arguments index args) [] := by
  induction args generalizing index with
  | nil => exact .pure _
  | cons arg args ih =>
    have hrest := ih (fun x hx => h x (List.mem_cons_of_mem _ hx)) (index + 1)
    have hne := h arg List.mem_cons_self
    obtain ⟨n, cs⟩ := arg
    unfold Interpreter.bindArguments
    split
    · have halloca : Event.alloca n.node.id ≠ .alloca d := fun heq => hne (Event.alloca.inj heq)
      exact (Exec.Straight.emit halloca fun _ => Event.noConfusion).seq fun _ =>
        (Exec.Straight.store _ _).seq fun _ => hrest
    · exact hrest

theorem analysed_execMetas {level : DepthLevel} {cs : List AST}
    (h : ∀ c ∈ cs, Analysed d (fun rt => rt) (fun rt => Interpreter.execMeta ctx rt level c)
      (c.metaUndeclared d)) :
    Analysed d (fun rt => rt) (fun rt => Interpreter.execMetas ctx rt level cs)
      (AST.allMetaUndeclared d cs) := by
  induction cs with
  | nil => exact .skip
  | cons c cs ih =>
    exact (h c List.mem_cons_self).andThen (ih fun x hx => h x (List.mem_cons_of_mem _ hx))

/-- What is contributed is not executed. -/
theorem Analysed.execContributed {node : Node} {e : Runtime → Exec Flow} {x : Undeclared}
    (h : Analysed d (fun rt => rt) e x) :
    Analysed d (fun rt => rt) (fun rt => Interpreter.execContributed node (e rt)) x := by
  have reduce : Analysed d (fun rt : Runtime => rt) (fun _ => (do
      if node.isNodeRequiringReduceMarker then Exec.emit .reduce
      return .next : Exec Flow)) .skip := by
    by_cases hmarker : node.isNodeRequiringReduceMarker = true
    · simp only [hmarker, if_true]
      exact .straight (fun _ => (Exec.Straight.emit Event.noConfusion fun _ =>
        Event.noConfusion).seq fun _ => .pure _) fun _ _ => iff_of_true rfl rfl
    · simp only [hmarker]
      exact .skip
  have hchildren := h.andThen reduce
  rw [Undeclared.andThen_skip] at hchildren
  exact .before (fun _ => .emit Event.noConfusion fun _ => Event.noConfusion) hchildren

/-- Where the control flow gets in a node of a contribution. -/
theorem analysed_execMeta (a : AST) (level : DepthLevel) :
    Analysed d (fun rt => rt) (fun rt => Interpreter.execMeta ctx rt level a)
      (a.metaUndeclared d) := by
  induction a using Rose.ind generalizing level with
  | h n cs ih =>
    have all (level : DepthLevel) : Analysed d (fun rt => rt)
        (fun rt => Interpreter.execMetas ctx rt level cs) (AST.allMetaUndeclared d cs) :=
      analysed_execMetas ctx fun c hc => ih c hc level
    obtain ⟨⟨id, data⟩, decl, exportedDecls⟩ := n
    cases data with
    | metaDecl name => exact .skip
    | metaUnit inst => exact .skip
    | metaContribution => exact all level
    | metaIfStmt =>
      rcases cs with _ | ⟨condition, _ | ⟨trueBranch, _ | ⟨falseBranch, _ | ⟨c, cs⟩⟩⟩⟩
      · exact .skip
      · exact .skip
      · exact .evalIf (fun rt => straight_evalExpr ctx rt condition)
          (ih trueBranch (by simp) level) .skip
      · exact .evalIf (fun rt => straight_evalExpr ctx rt condition)
          (ih trueBranch (by simp) level) (ih falseBranch (by simp) level)
      · exact .skip
    | metaCalculationStmt =>
      rcases cs with _ | ⟨stmt, _ | ⟨c, cs⟩⟩
      · exact .skip
      · have introduce : Analysed d (fun rt : Runtime => rt) (fun _ => (do
            Interpreter.introduceDecls level exportedDecls
            return .next : Exec Flow)) .skip :=
          .straight (fun _ => (straight_introduceDecls level exportedDecls).seq fun _ => .pure _)
            fun _ _ => iff_of_true rfl rfl
        have hcalculation := (analysed_execStmt ctx stmt).andThen introduce
        rw [Undeclared.andThen_skip] at hcalculation
        exact hcalculation
      · exact .skip
    | _ => exact (all _).execContributed

/-- Where the control flow gets in a meta function. It never gets to the end, where it returns. -/
theorem analysed_execMetaFunction (arguments : List Word) {args : AST} (contribution : AST)
    (h : ∀ arg ∈ args.children, arg.label.node.id ≠ d) :
    Analysed d (fun rt => rt)
      (fun rt => Interpreter.execMetaFunction ctx rt arguments args contribution)
      ⟨(contribution.metaUndeclared d).references, false⟩ := by
  have ret : Analysed d (fun rt : Runtime => rt) (fun _ => (do
      Exec.emit (.ret none)
      return .returned : Exec Flow)) ⟨[], false⟩ :=
    .straight (fun _ => (Exec.Straight.emit Event.noConfusion fun _ => Event.noConfusion).seq
      fun _ => .pure _) fun _ _ => iff_of_false Flow.noConfusion Bool.noConfusion
  have hcontribution := (analysed_execMeta ctx contribution .topLevel).andThen ret
  rw [Undeclared.andThen_returned] at hcontribution
  exact .before (fun _ => straight_bindArguments arguments h 0)
    (.before (fun _ => straight_introduceDecls _ _) hcontribution)

end Statements

end Swy
