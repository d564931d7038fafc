import Swy.Codegen.Effects

/-!
# Statements that are not left

A statement terminates if the control flow does not go on behind it: a return, a compound with a
terminating statement in it, or an if with two branches that both terminate. Which statements these
are is read off the AST, and it is exact: the others are left for some outcome of their conditions
(`terminates_iff`).
-/

namespace Swy

open Library

mutual
/-- The control flow does not go on behind the statement. -/
def AST.terminates : AST → Bool
  | .node n cs =>
    match n.node.data, cs with
    | .returnStmt, [] | .returnStmt, [_] => true
    | .compoundStmt, cs | .unscopedCompoundStmt, cs => AST.anyTerminates cs
    | .ifStmt, [_, trueBranch, falseBranch] =>
      AST.terminates trueBranch && AST.terminates falseBranch
    | _, _ => false
/-- One of the statements terminates. -/
def AST.anyTerminates : List AST → Bool
  | [] => false
  | c :: cs => AST.terminates c || AST.anyTerminates cs
end

mutual
/-- In no block of the statement a statement follows one that terminates. -/
def AST.nothingFollows : AST → Bool
  | .node n cs =>
    match n.node.data, cs with
    | .compoundStmt, cs | .unscopedCompoundStmt, cs => AST.nothingFollowsIn cs
    | .ifStmt, [_, trueBranch] => AST.nothingFollows trueBranch
    | .ifStmt, [_, trueBranch, falseBranch] =>
      AST.nothingFollows trueBranch && AST.nothingFollows falseBranch
    | _, _ => true
/-- Of the statements of a block only the last one terminates. -/
def AST.nothingFollowsIn : List AST → Bool
  | [] => true
  | c :: cs =>
    AST.nothingFollows c && (!AST.terminates c || cs.isEmpty) && AST.nothingFollowsIn cs
end

/-! ## Outcomes of conditions -/

/-- From the given number of branches on the outcomes are the given ones. -/
def Runtime.Follows (rt : Runtime) : Nat → List Bool → Prop
  | _, [] => True
  | count, outcome :: outcomes =>
    (∀ condition, rt.choose count condition = outcome) ∧ rt.Follows (count + 1) outcomes

theorem Runtime.follows_append {rt : Runtime} {count : Nat} {xs ys : List Bool} :
    rt.Follows count (xs ++ ys) ↔ rt.Follows count xs ∧ rt.Follows (count + xs.length) ys := by
  induction xs generalizing count with
  | nil => exact ⟨fun h => ⟨True.intro, h⟩, And.right⟩
  | cons x xs ih =>
    rw [List.cons_append, Follows, ih, Follows, List.length_cons, and_assoc, Nat.add_assoc,
      Nat.add_comm 1]

/-- A runtime with the given outcomes. -/
def Runtime.ofOutcomes (outcomes : List Bool) : Runtime where
  calls := fun _ _ => 0
  choose := fun count _ => outcomes.getD count false
  uninitialized := fun _ => 0

theorem Runtime.follows_ofOutcomes (xs ys : List Bool) :
    (Runtime.ofOutcomes (xs ++ ys)).Follows xs.length ys := by
  induction ys generalizing xs with
  | nil => exact True.intro
  | cons y ys ih =>
    refine ⟨fun _ => ?_, ?_⟩
    · simp [ofOutcomes]
    · have h := ih (xs ++ [y])
      rwa [List.append_assoc, List.length_append] at h

/-- The effect takes no conditional branch. -/
def Exec.KeepsBranches {α : Type} (e : Exec α) : Prop :=
  ∀ μ, (e μ).memory.branches = μ.branches

theorem keepsBranches_isExprEffect : IsExprEffect @Exec.KeepsBranches where
  pure _ _ := rfl
  bind h h' μ := (h' _ _).trans (h μ)
  reference _ _ _ := rfl
  load _ _ := rfl
  store _ _ _ := rfl
  call _ _ _ _ := rfl

/-! ## Statements -/

section

variable (ctx : IRContext)

/-- With these outcomes the control flow goes on behind. -/
def Exec.FallsThrough (e : Runtime → Exec Flow) (outcomes : List Bool) : Prop :=
  ∀ rt μ, rt.Follows μ.branches outcomes →
    (e rt μ).value = .next ∧ (e rt μ).memory.branches = μ.branches + outcomes.length

theorem andThen_fallsThrough {e f : Runtime → Exec Flow} {xs ys : List Bool}
    (h : Exec.FallsThrough e xs) (h' : Exec.FallsThrough f ys) :
    Exec.FallsThrough (fun rt => Interpreter.andThen (e rt) (f rt)) (xs ++ ys) := by
  intro rt μ hf
  obtain ⟨hxs, hys⟩ := Runtime.follows_append.1 hf
  obtain ⟨hv, hb⟩ := h rt μ hxs
  have hf' := h' rt (e rt μ).memory (hb ▸ hys)
  rw [hb, Nat.add_assoc, ← List.length_append] at hf'
  simp only [Interpreter.andThen, Exec.bind_apply, hv]
  exact hf'

theorem andThen_returned {e f : Exec Flow} {μ : Memory} (h : (e μ).value = .returned) :
    (Interpreter.andThen e f μ).value = .returned := by
  rw [Interpreter.andThen, Exec.bind_apply, h]
  rfl

/-- An if is left where one of its branches is. -/
theorem evalIf_fallsThrough {x : Runtime → Exec Value} {e f : Runtime → Exec Flow}
    (hx : ∀ rt, (x rt).KeepsBranches) {outcome : Bool} {xs : List Bool}
    (h : Exec.FallsThrough (fun rt => if outcome then e rt else f rt) xs) :
    Exec.FallsThrough (fun rt => Interpreter.evalIf rt (x rt) (e rt) (f rt)) (outcome :: xs) := by
  intro rt μ hf
  obtain ⟨houtcome, hxs⟩ := hf
  have hb : (x rt μ).memory.branches = μ.branches := hx rt μ
  have hchoose : rt.choose (x rt μ).memory.branches (x rt μ).value.isNotNull = outcome := by
    rw [hb]
    exact houtcome _
  have hbranch := h rt { (x rt μ).memory with branches := (x rt μ).memory.branches + 1 }
    (by rw [hb]; exact hxs)
  simp only [Interpreter.evalIf, Exec.bind_apply, Exec.branch, hchoose]
  rw [hb] at hbranch ⊢
  rw [List.length_cons, Nat.add_comm xs.length, ← Nat.add_assoc]
  exact hbranch

theorem execStmts_returned {rt : Runtime} {cs : List AST}
    (h : ∀ c ∈ cs, AST.terminates c → ∀ μ, (Interpreter.execStmt ctx rt c μ).value = .returned)
    (ht : AST.anyTerminates cs) (μ : Memory) :
    (Interpreter.execStmts ctx rt cs μ).value = .returned := by
  induction cs generalizing μ with
  | nil => cases ht
  | cons c cs ih =>
    rw [AST.anyTerminates, Bool.or_eq_true] at ht
    have hc := h c List.mem_cons_self
    rw [Interpreter.execStmts]
    cases hv : (Interpreter.execStmt ctx rt c μ).value with
    | returned => exact andThen_returned hv
    | next =>
      have hcs : AST.anyTerminates cs := ht.resolve_left fun ht => by rw [hc ht μ] at hv; cases hv
      rw [Interpreter.andThen, Exec.bind_apply, hv]
      exact ih (fun x hx => h x (List.mem_cons_of_mem _ hx)) hcs _

/-- What terminates returns, whatever the outcomes are. -/
theorem execStmt_returned {rt : Runtime} (a : AST) (ha : AST.terminates a) :
    ∀ μ, (Interpreter.execStmt ctx rt a μ).value = .returned := by
  induction a using Rose.ind with
  | h n cs ih =>
    intro μ
    obtain ⟨⟨id, data⟩, decl, exportedDecls⟩ := n
    cases data with
    | compoundStmt => exact execStmts_returned ctx ih ha μ
    | unscopedCompoundStmt => exact execStmts_returned ctx ih ha μ
    | returnStmt =>
      rcases cs with _ | ⟨expr, _ | ⟨c, cs⟩⟩
      · rfl
      · rfl
      · cases ha
    | ifStmt =>
      rcases cs with _ | ⟨condition, _ | ⟨trueBranch, _ | ⟨falseBranch, _ | ⟨c, cs⟩⟩⟩⟩
      case cons.cons.cons.nil =>
        have hboth : AST.terminates trueBranch = true ∧ AST.terminates falseBranch = true :=
          (Bool.and_eq_true _ _).mp ha
        show (Interpreter.evalIf rt _ (Interpreter.execStmt ctx rt trueBranch)
          (Interpreter.execStmt ctx rt falseBranch) μ).value = .returned
        simp only [Interpreter.evalIf, Exec.bind_apply]
        split
        · exact ih trueBranch (by simp) hboth.1 _
        · exact ih falseBranch (by simp) hboth.2 _
      all_goals cases ha
    | _ => cases ha

theorem execStmts_fallsThrough {cs : List AST}
    (h : ∀ c ∈ cs, AST.terminates c = false → ∃ outcomes,
      Exec.FallsThrough (fun rt => Interpreter.execStmt ctx rt c) outcomes)
    (ht : AST.anyTerminates cs = false) :
    ∃ outcomes, Exec.FallsThrough (fun rt => Interpreter.execStmts ctx rt cs) outcomes := by
  induction cs with
  | nil => exact ⟨[], fun _ _ _ => ⟨rfl, rfl⟩⟩
  | cons c cs ih =>
    rw [AST.anyTerminates, Bool.or_eq_false_iff] at ht
    obtain ⟨xs, hxs⟩ := h c List.mem_cons_self ht.1
    obtain ⟨ys, hys⟩ := ih (fun x hx => h x (List.mem_cons_of_mem _ hx)) ht.2
    exact ⟨xs ++ ys, andThen_fallsThrough hxs hys⟩

/-- What does not terminate is left for some outcomes of its conditions. -/
theorem execStmt_fallsThrough (a : AST) (ha : AST.terminates a = false) :
    ∃ outcomes, Exec.FallsThrough (fun rt => Interpreter.execStmt ctx rt a) outcomes := by
  induction a using Rose.ind with
  | h n cs ih =>
    obtain ⟨⟨id, data⟩, decl, exportedDecls⟩ := n
    have hskip : ∃ outcomes, Exec.FallsThrough (fun _ => Pure.pure Flow.next) outcomes :=
      ⟨[], fun _ _ _ => ⟨rfl, rfl⟩⟩
    have hkeeps (expr : AST) (rt : Runtime) :
        (Interpreter.evalExpr ctx rt expr).KeepsBranches :=
      keepsBranches_isExprEffect.evalExpr ctx rt expr
    cases data with
    | compoundStmt => exact execStmts_fallsThrough ctx ih ha
    | unscopedCompoundStmt => exact execStmts_fallsThrough ctx ih ha
    | returnStmt =>
      rcases cs with _ | ⟨expr, _ | ⟨c, cs⟩⟩
      · cases ha
      · cases ha
      · exact hskip
    | expressionStmt =>
      rcases cs with _ | ⟨expr, _ | ⟨c, cs⟩⟩
      · exact hskip
      · exact ⟨[], fun rt μ _ => ⟨rfl, hkeeps expr rt μ⟩⟩
      · exact hskip
    | declStmt name =>
      rcases cs with _ | ⟨expr, _ | ⟨c, cs⟩⟩
      · exact hskip
      · refine ⟨[], fun rt μ _ => ⟨rfl, ?_⟩⟩
        have halloca : (Exec.emit (.alloca id)).KeepsBranches := fun _ => rfl
        have hstore (v : Value) : (Interpreter.loadMemory v >>= fun w =>
            Interpreter.store w (.address id)).KeepsBranches :=
          keepsBranches_isExprEffect.bind (keepsBranches_isExprEffect.loadMemory v) fun w =>
            keepsBranches_isExprEffect.interpreterStore w _
        exact keepsBranches_isExprEffect.bind (hkeeps expr rt) (fun v =>
          keepsBranches_isExprEffect.bind halloca fun _ => hstore v) μ
      · exact hskip
    | ifStmt =>
      rcases cs with _ | ⟨condition, _ | ⟨trueBranch, _ | ⟨falseBranch, _ | ⟨c, cs⟩⟩⟩⟩
      · exact hskip
      · exact hskip
      · have hnext : Exec.FallsThrough (fun rt =>
            if false then Interpreter.execStmt ctx rt trueBranch else return .next) [] :=
          fun _ _ _ => ⟨rfl, rfl⟩
        exact ⟨[false], evalIf_fallsThrough (hkeeps condition) hnext⟩
      · have hone : AST.terminates trueBranch = false ∨ AST.terminates falseBranch = false :=
          Bool.and_eq_false_iff.mp ha
        rcases hone with htrue | hfalse
        · obtain ⟨xs, hxs⟩ := ih trueBranch (by simp) htrue
          exact ⟨true :: xs, evalIf_fallsThrough (hkeeps condition) hxs⟩
        · obtain ⟨xs, hxs⟩ := ih falseBranch (by simp) hfalse
          exact ⟨false :: xs, evalIf_fallsThrough (hkeeps condition) hxs⟩
      · exact hskip
    | _ => exact hskip

/-- A statement terminates exactly if it returns for all outcomes of its conditions. -/
theorem terminates_iff (a : AST) :
    AST.terminates a ↔ ∀ rt, (Interpreter.execStmt ctx rt a rt.memory).value = .returned := by
  refine ⟨fun h rt => execStmt_returned ctx a h _, fun h => ?_⟩
  by_contra hne
  obtain ⟨outcomes, hfalls⟩ := execStmt_fallsThrough ctx a (Bool.not_eq_true _ ▸ hne)
  have hnext := (hfalls (.ofOutcomes outcomes) (Runtime.ofOutcomes outcomes).memory
    (Runtime.follows_ofOutcomes [] outcomes)).1
  rw [h] at hnext
  cases hnext

end

end Swy
