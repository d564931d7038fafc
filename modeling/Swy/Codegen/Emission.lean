import Swy.Codegen.Interpreter
import Mathlib.Data.List.Forall2

/-!
# What the generated code of an expression does

Executing the code that was emitted for an expression has the effect of the interpreter and leaves
its value in the operand (`codegenExpr_computes`).

Code is compared where it is emitted: `Straight s s'` says that between the states `s` and `s'` of
the generator instructions were appended to the current block only, and `Performs` that executing
what was appended leads from the insert point of `s` to that of `s'` with the given effect, in every
function that extends the blocks so far.
-/

namespace Swy

open Library

namespace CodegenM

variable {α β : Type} {s s' : CodegenState} {a : α} {b : β}

/-! ## Inversion -/

theorem bind_ok {x : CodegenM α} {f : α → CodegenM β} :
    (x >>= f) s = .ok (b, s') ↔ ∃ a s₁, x s = .ok (a, s₁) ∧ f a s₁ = .ok (b, s') := by
  cases h : x s with
  | error fault => simp [bind, StateT.bind, Except.bind, h]
  | ok r =>
    obtain ⟨a, s₁⟩ := r
    simp [bind, StateT.bind, Except.bind, h]

/-- What follows has to agree only behind the states that are reached. -/
theorem bind_congr {x : CodegenM α} {f g : α → CodegenM β}
    (h : ∀ a s₁, x s = .ok (a, s₁) → f a s₁ = g a s₁) : (x >>= f) s = (x >>= g) s := by
  cases hx : x s with
  | error fault => simp [bind, StateT.bind, Except.bind, hx]
  | ok r =>
    obtain ⟨a, s₁⟩ := r
    simp [bind, StateT.bind, Except.bind, hx, h a s₁ hx]

theorem pure_ok {a' : α} : (pure a : CodegenM α) s = .ok (a', s') ↔ a = a' ∧ s = s' := by
  have hpure : (pure a : CodegenM α) s = .ok (a, s) := rfl
  rw [hpure, Except.ok.injEq, Prod.mk.injEq]

theorem throw_ok {fault : CodegenFault} :
    (throw fault : CodegenM α) s = .ok (a, s') ↔ False := by
  simp [throw, throwThe, MonadExceptOf.throw, StateT.lift, bind, Except.bind]

end CodegenM

/-! ## Positions and growth -/

namespace CodegenState

/-- The position at which the next instruction is inserted. -/
def here (s : CodegenState) : Point := s.blocks.endOf s.insertPoint

/-- The builder is positioned at a block of the function. -/
def Positioned (s : CodegenState) : Prop := s.insertPoint < s.blocks.length

/-- Between the states instructions were appended to the current block and to new blocks. -/
structure Later (s s' : CodegenState) : Prop where
  blocks : s.blocks.Grows s.insertPoint s'.blocks
  insertPoint : s'.insertPoint = s.insertPoint ∨ s.blocks.length ≤ s'.insertPoint
  positioned : s'.Positioned
  nextRegister : s.nextRegister ≤ s'.nextRegister
  cursor : s'.cursor = s.cursor

/-- Between the states operations were appended to the current block only. -/
structure Straight (s s' : CodegenState) : Prop where
  blocks : s.blocks.Grows s.insertPoint s'.blocks
  length : s'.blocks.length = s.blocks.length
  operations : ∃ os : List Operation,
    s'.blocks.code s.insertPoint = s.blocks.code s.insertPoint ++ os.map .operation
  insertPoint : s'.insertPoint = s.insertPoint
  positioned : s'.Positioned
  nextRegister : s.nextRegister ≤ s'.nextRegister
  cursor : s'.cursor = s.cursor

variable {s s₁ s' : CodegenState}

theorem Later.refl (h : s.Positioned) : s.Later s := ⟨.refl, .inl rfl, h, Nat.le_refl _, rfl⟩

theorem Later.trans (h : s.Later s₁) (h' : s₁.Later s') : s.Later s' where
  blocks := h.blocks.trans h'.blocks h.insertPoint
  insertPoint := by
    rcases h'.insertPoint with heq | hle
    · rw [heq]
      exact h.insertPoint
    · exact .inr (Nat.le_trans h.blocks.length hle)
  positioned := h'.positioned
  nextRegister := Nat.le_trans h.nextRegister h'.nextRegister
  cursor := h'.cursor.trans h.cursor

theorem Straight.refl (h : s.Positioned) : s.Straight s :=
  ⟨.refl, rfl, ⟨[], (List.append_nil _).symm⟩, rfl, h, Nat.le_refl _, rfl⟩

theorem Straight.trans (h : s.Straight s₁) (h' : s₁.Straight s') : s.Straight s' where
  blocks := h.blocks.trans h'.blocks (.inl h.insertPoint)
  length := h'.length.trans h.length
  operations := by
    obtain ⟨os, hos⟩ := h.operations
    obtain ⟨os', hos'⟩ := h'.operations
    rw [h.insertPoint] at hos'
    exact ⟨os ++ os', by rw [hos', hos, List.append_assoc, List.map_append]⟩
  insertPoint := h'.insertPoint.trans h.insertPoint
  positioned := h'.positioned
  nextRegister := Nat.le_trans h.nextRegister h'.nextRegister
  cursor := h'.cursor.trans h.cursor

theorem Straight.later (h : s.Straight s') : s.Later s' :=
  ⟨h.blocks, .inl h.insertPoint, h.positioned, h.nextRegister, h.cursor⟩

end CodegenState

/-- One more than the register of an operand. -/
def Operand.bound : Operand → Nat
  | register r => r + 1
  | _ => 0

/-- The registers below the bound are the same. -/
def Machine.AgreeBelow (n : Nat) (m m' : Machine) : Prop :=
  ∀ r, r < n → m'.registers r = m.registers r

/-- The registers below the bound are the same. -/
def AgreeBelow (n : Nat) (registers registers' : Register → Word) : Prop :=
  ∀ r, r < n → registers' r = registers r

theorem AgreeBelow.trans {n n' : Nat} {r r' r'' : Register → Word} (hn : n ≤ n')
    (h : AgreeBelow n r r') (h' : AgreeBelow n' r' r'') : AgreeBelow n r r'' :=
  fun k hk => (h' k (Nat.lt_of_lt_of_le hk hn)).trans (h k hk)

theorem Operand.denote_congr {arguments : List Word} {o : Operand} {n : Nat}
    {registers registers' : Register → Word} (ho : o.bound ≤ n)
    (h : AgreeBelow n registers registers') :
    o.denote arguments registers' = o.denote arguments registers := by
  cases o with
  | register r => exact congrArg Value.int (h r ho)
  | constant | argument | alloca | function | void => rfl

/-- What is known of the registers in use: later instructions do not change it. -/
structure Assertion where
  holds : Nat → (Register → Word) → Prop
  stable : ∀ {n n' registers registers'}, n ≤ n' → AgreeBelow n registers registers' →
    holds n registers → holds n' registers'

namespace Assertion

/-- Nothing is known. -/
def trivial : Assertion := ⟨fun _ _ => True, fun _ _ _ => True.intro⟩

/-- Both are known. -/
def and (P Q : Assertion) : Assertion where
  holds n registers := P.holds n registers ∧ Q.holds n registers
  stable hn hr h := ⟨P.stable hn hr h.1, Q.stable hn hr h.2⟩

/-- The operand has the value. -/
def value (arguments : List Word) (o : Operand) (v : Value) : Assertion where
  holds n registers := o.bound ≤ n ∧ o.denote arguments registers = v
  stable hn hr h := ⟨Nat.le_trans h.1 hn, (Operand.denote_congr h.1 hr).trans h.2⟩

/-- The operands have the values. -/
def values (arguments : List Word) (os : List Operand) (vs : List Value) : Assertion where
  holds n registers := List.Forall₂ (fun o v => (value arguments o v).holds n registers) os vs
  stable hn hr h := h.imp fun _ _ => (value arguments _ _).stable hn hr

/-- What is known by `P` implies what is known by `Q`. -/
def Entails (P Q : Assertion) : Prop := ∀ n registers, P.holds n registers → Q.holds n registers

variable {P Q R : Assertion}

theorem Entails.refl : P.Entails P := fun _ _ h => h

theorem entails_right : (P.and Q).Entails Q := fun _ _ h => h.2

theorem Entails.left (h : P.Entails R) : (P.and Q).Entails R := fun n r hp => h n r hp.1

end Assertion

/-! ## Executing what was emitted -/

/-- The second state is the first one after an effect on memory, registers aside. -/
structure Machine.After {α : Type} (m : Machine) (r : Result α) (m' : Machine) : Prop where
  memory : m'.memory = r.memory
  trace : m'.trace = m.trace ++ r.events

section

variable (rt : Runtime) (arguments : List Word)

/-- Executing what was emitted between the states has the effect, and the registers that were in use
before keep their values. -/
structure Performs {α : Type} (code : Blocks Instruction) (s s' : CodegenState) (m m' : Machine)
    (r : Result α) : Prop where
  reaches : Reaches (step rt arguments code) (s.here, m) (s'.here, m')
  after : m.After r m'
  registers : AgreeBelow s.nextRegister m.registers m'.registers

/-- Code is appended to the current block, and executing it where `pre` is known has the effect `e`
and makes `post` known of the two results. -/
def Emits {α β : Type} (pre : Assertion) (c : CodegenM α) (e : Exec β)
    (post : α → β → Assertion) : Prop :=
  ∀ ⦃s a s'⦄, s.Positioned → c s = .ok (a, s') → s.Straight s' ∧
    ∀ code, s'.blocks.Extends code → ∀ m, pre.holds s.nextRegister m.registers →
      ∃ m', Performs rt arguments code s s' m m' (e m.memory) ∧
        (post a (e m.memory).value).holds s'.nextRegister m'.registers

end

section Rules

variable {rt : Runtime} {arguments : List Word} {α β γ δ : Type} {pre : Assertion}

theorem Machine.After.refl {m : Machine} {a : α} : m.After ⟨a, m.memory, []⟩ m :=
  ⟨rfl, (List.append_nil _).symm⟩

theorem Machine.After.bind {m m₁ m' : Machine} {e : Exec α} {f : α → Exec β}
    (h : m.After (e m.memory) m₁) (h' : m₁.After (f (e m.memory).value m₁.memory) m') :
    m.After ((e >>= f) m.memory) m' := by
  refine ⟨?_, ?_⟩
  · rw [h'.memory, h.memory, Exec.bind_apply]
  · rw [h'.trace, h.trace, h.memory, Exec.bind_apply, List.append_assoc]

/-- Returning another value is no effect. -/
theorem Machine.After.returning {m m' : Machine} {e : Exec α} (f : α → β)
    (h : m.After (e m.memory) m') : m.After ((do return f (← e) : Exec β) m.memory) m' :=
  ⟨h.memory, h.trace.trans (congrArg _ (List.append_nil _).symm)⟩

theorem Performs.refl {code : Blocks Instruction} {s : CodegenState} {m : Machine} {a : α} :
    Performs rt arguments code s s m m ⟨a, m.memory, []⟩ :=
  ⟨.refl, .refl, fun _ _ => rfl⟩

/-- One piece of code after the other. -/
theorem Performs.bind {code : Blocks Instruction} {s s₁ s' : CodegenState} {m m₁ m' : Machine}
    {e : Exec α} {f : α → Exec β} (hs : s.nextRegister ≤ s₁.nextRegister)
    (h : Performs rt arguments code s s₁ m m₁ (e m.memory))
    (h' : Performs rt arguments code s₁ s' m₁ m' (f (e m.memory).value m₁.memory)) :
    Performs rt arguments code s s' m m' ((e >>= f) m.memory) := by
  exact ⟨h.reaches.trans h'.reaches, h.after.bind h'.after, h.registers.trans hs h'.registers⟩

theorem Emits.pure {a : α} {b : β} {post : α → β → Assertion}
    (h : pre.Entails (post a b)) : Emits rt arguments pre (pure a) (pure b) post := by
  intro s a' s' hs hc
  obtain ⟨rfl, rfl⟩ := CodegenM.pure_ok.1 hc
  exact ⟨.refl hs, fun code _ m hm => ⟨m, .refl, h _ _ hm⟩⟩

theorem Emits.throw {fault : CodegenFault} {e : Exec β} {post : α → β → Assertion} :
    Emits rt arguments pre (throw fault) e post :=
  fun _ _ _ _ hc => (CodegenM.throw_ok.1 hc).elim

/-- What was known before is still known in the second part. -/
theorem Emits.bind {c : CodegenM α} {e : Exec β} {f : α → CodegenM γ} {g : β → Exec δ}
    {mid : α → β → Assertion} {post : γ → δ → Assertion} (h : Emits rt arguments pre c e mid)
    (h' : ∀ a b, Emits rt arguments (pre.and (mid a b)) (f a) (g b) post) :
    Emits rt arguments pre (c >>= f) (e >>= g) post := by
  intro s a' s' hs hc
  obtain ⟨a, s₁, hc, hc'⟩ := CodegenM.bind_ok.1 hc
  obtain ⟨hst, hrun⟩ := h hs hc
  refine ⟨hst.trans (h' a (e ⟨fun _ => 0, 0⟩).value hst.positioned hc').1,
    fun code hcode m hm => ?_⟩
  obtain ⟨hst', hrun'⟩ := h' a (e m.memory).value hst.positioned hc'
  obtain ⟨m₁, hp, hmid⟩ := hrun code (hst'.blocks.toExtends.trans hcode) m hm
  obtain ⟨m', hp', hpost⟩ :=
    hrun' code hcode m₁ ⟨pre.stable hst.nextRegister hp.registers hm, hmid⟩
  refine ⟨m', hp.bind hst.nextRegister hp', ?_⟩
  rw [hp.after.memory] at hpost
  exact hpost

/-- The effect may be replaced by one that is the same where the precondition holds. -/
theorem Emits.congr {c : CodegenM α} {e e' : Exec β} {post : α → β → Assertion}
    (h : Emits rt arguments pre c e' post) (he : ∀ n registers, pre.holds n registers → e' = e) :
    Emits rt arguments pre c e post := by
  intro s a s' hs hc
  obtain ⟨hst, hrun⟩ := h hs hc
  refine ⟨hst, fun code hcode m hm => ?_⟩
  rw [← he _ _ hm]
  exact hrun code hcode m hm

theorem Emits.mono {pre' : Assertion} {c : CodegenM α} {e : Exec β}
    {post post' : α → β → Assertion} (h : Emits rt arguments pre' c e post)
    (hpre : pre.Entails pre') (hpost : ∀ a b, (post a b).Entails (post' a b)) :
    Emits rt arguments pre c e post' := by
  intro s a s' hs hc
  obtain ⟨hst, hrun⟩ := h hs hc
  refine ⟨hst, fun code hcode m hm => ?_⟩
  obtain ⟨m', hp, hm'⟩ := hrun code hcode m (hpre _ _ hm)
  exact ⟨m', hp, hpost _ _ _ _ hm'⟩

/-- The first part has no effect and a value that is given. -/
theorem Emits.after {c : CodegenM α} {b : β} {f : α → CodegenM γ} {g : Exec δ}
    {mid : α → β → Assertion} {post : γ → δ → Assertion}
    (h : Emits rt arguments pre c (Pure.pure b) mid)
    (h' : ∀ a, Emits rt arguments (pre.and (mid a b)) (f a) g post) :
    Emits rt arguments pre (c >>= f) g post := by
  intro s a' s' hs hc
  obtain ⟨a, s₁, hc, hc'⟩ := CodegenM.bind_ok.1 hc
  obtain ⟨hst, hrun⟩ := h hs hc
  obtain ⟨hst', hrun'⟩ := h' a hst.positioned hc'
  refine ⟨hst.trans hst', fun code hcode m hm => ?_⟩
  obtain ⟨m₁, hp, hmid⟩ := hrun code (hst'.blocks.toExtends.trans hcode) m hm
  obtain ⟨m', hp', hpost⟩ :=
    hrun' code hcode m₁ ⟨pre.stable hst.nextRegister hp.registers hm, hmid⟩
  rw [hp.after.memory] at hp' hpost
  refine ⟨m', ⟨hp.reaches.trans hp'.reaches, ⟨hp'.after.memory, ?_⟩,
    hp.registers.trans hst.nextRegister hp'.registers⟩, hpost⟩
  rw [hp'.after.trace, hp.after.trace]
  exact congrArg (· ++ _) (List.append_nil _)

/-! ## Single instructions -/

theorem straight_append {s : CodegenState} (hs : s.Positioned) (o : Operation) {n : Nat}
    (hn : s.nextRegister ≤ n) :
    s.Straight { s with
      blocks := s.blocks.append s.insertPoint (.operation o), nextRegister := n } where
  blocks := Blocks.grows_append
  length := Blocks.length_append
  operations := ⟨[o], Blocks.code_append_self hs⟩
  insertPoint := rfl
  positioned := Nat.lt_of_lt_of_eq hs Blocks.length_append.symm
  nextRegister := hn
  cursor := rfl

/-- What is inserted next is executed next. -/
theorem step_inserted {s : CodegenState} (hs : s.Positioned) {o : Operation}
    {code : Blocks Instruction}
    (hcode : (s.blocks.append s.insertPoint (.operation o)).Extends code) (m : Machine) :
    step rt arguments code (s.here, m) =
      .running ((s.blocks.append s.insertPoint (.operation o)).endOf s.insertPoint,
        o.exec rt arguments m) := by
  have hfetch : code.fetch s.here = some (.operation o) :=
    Blocks.fetch_extends hcode (Blocks.fetch_append hs)
  rw [step, hfetch, Blocks.endOf_append hs]
  rfl

/-- An instruction without a result. -/
theorem Emits.emit {o : Operation} {e : Exec Unit}
    (h : ∀ n m, pre.holds n m.registers → o.exec rt arguments m = m.perform e) :
    Emits rt arguments pre (FunctionCodegen.emit o) e (fun _ _ => .trivial) := by
  intro s a s' hs hc
  cases hc
  refine ⟨straight_append hs _ (Nat.le_refl _), fun code hcode m hm => ?_⟩
  refine ⟨m.perform e, ⟨.single ?_, ⟨rfl, rfl⟩, fun _ _ => rfl⟩, True.intro⟩
  rw [step_inserted hs hcode, h _ m hm]
  rfl

/-- An instruction with a result. -/
theorem Emits.emitValue {o : Register → Operation} {e : Exec Word}
    (h : ∀ n m r, pre.holds n m.registers → (o r).exec rt arguments m = m.assign r e) :
    Emits rt arguments pre (FunctionCodegen.emitValue o) e
      (fun a w => .value arguments a (.int w)) := by
  intro s a s' hs hc
  cases hc
  refine ⟨straight_append hs _ (Nat.le_succ _), fun code hcode m hm => ?_⟩
  refine ⟨m.assign s.nextRegister e, ⟨.single ?_, ⟨rfl, rfl⟩, fun r hr => ?_⟩, Nat.le_refl _, ?_⟩
  · rw [step_inserted hs hcode, h _ m _ hm]
    rfl
  · exact if_neg (Nat.ne_of_lt hr)
  · exact congrArg Value.int (if_pos rfl)

/-- The value of the effect is passed on. -/
theorem Emits.returning {c : CodegenM α} {e : Exec β} {post : α → β → Assertion}
    {post' : α → γ → Assertion} (f : β → γ) (h : Emits rt arguments pre c e post)
    (hpost : ∀ a b, (post a b).Entails (post' a (f b))) :
    Emits rt arguments pre c (do return f (← e)) post' := by
  intro s a s' hs hc
  obtain ⟨hst, hrun⟩ := h hs hc
  refine ⟨hst, fun code hcode m hm => ?_⟩
  obtain ⟨m', hp, hm'⟩ := hrun code hcode m hm
  exact ⟨m', ⟨hp.reaches, hp.after.returning f, hp.registers⟩, hpost _ _ _ _ hm'⟩

/-- The known values have no effect on the code. -/
theorem Emits.introduce {decl : NodeId} :
    Emits rt arguments pre (FunctionCodegen.introduce decl) (Pure.pure ())
      (fun _ _ => .trivial) := by
  intro s _ s' hs hc
  cases hc
  exact ⟨⟨.refl, rfl, ⟨[], (List.append_nil _).symm⟩, rfl, hs, Nat.le_refl _, rfl⟩,
    fun code _ m hm =>
    ⟨m, ⟨.refl, .refl, fun _ _ => rfl⟩, True.intro⟩⟩

/-- An instruction that computes a word from its operands. -/
theorem Emits.emitPure {o : Register → Operation} {w : Word}
    (h : ∀ n m r, pre.holds n m.registers → (o r).exec rt arguments m = m.set r w) :
    Emits rt arguments pre (FunctionCodegen.emitValue o) (Pure.pure (Value.int w))
      (.value arguments) := by
  refine (Emits.emitValue (e := Pure.pure w) fun n m r hm => ?_).returning Value.int
    fun _ _ => .refl
  rw [h n m r hm]
  show m.set r w = (m.perform (Pure.pure w)).set r w
  rw [Machine.perform]
  exact congrArg (Machine.set r w) (by rw [Exec.pure_apply, List.append_nil])

end Rules

/-! ## Expressions -/

section Expressions

variable {rt : Runtime} {arguments : List Word} {pre : Assertion}

theorem loadMemory_emits {o : Operand} {v : Value} (h : pre.Entails (.value arguments o v)) :
    Emits rt arguments pre (FunctionCodegen.loadMemory o) (Interpreter.loadMemory v)
      (.value arguments) := by
  cases o with
  | alloca decl =>
    refine Emits.congr (?_ : Emits _ _ _ _ (Interpreter.loadMemory (.address decl)) _)
      fun n registers hp => by rw [← (h _ _ hp).2]; rfl
    exact (Emits.emitValue (o := (.load · decl)) (e := Exec.load decl)
      fun _ _ _ _ => rfl).returning Value.int fun _ _ => .refl
  | function decl type => exact .throw
  | constant | argument | register | void =>
    refine Emits.congr (?_ : Emits _ _ _ _ (Pure.pure v) _) fun n registers hp => by
      rw [← (h _ _ hp).2]; rfl
    exact .pure h

/-- The word of an operand whose value is known. -/
theorem wordOf_eq {o : Operand} {v : Value} {n : Nat} {m : Machine}
    (h : (Assertion.value arguments o v).holds n m.registers) : m.wordOf arguments o = v.word :=
  congrArg Value.word h.2

theorem createStore_emits {o p : Operand} {v v' : Value}
    (hp : pre.Entails (.value arguments p v')) (ho : pre.Entails (.value arguments o v)) :
    Emits rt arguments pre (FunctionCodegen.createStore o p) (Interpreter.store v v')
      (fun _ _ => .trivial) := by
  cases p with
  | alloca decl =>
    rw [FunctionCodegen.createStore]
    split
    · refine Emits.congr (?_ : Emits _ _ _ _ (Exec.store decl v.word) _) fun n registers h => by
        rw [← (hp _ _ h).2]; rfl
      refine .emit fun n m h => ?_
      rw [Operation.exec, wordOf_eq (ho _ _ h)]
    · exact .throw
  | constant | argument | register | function | void => exact .throw

section Operands

variable {l r : Operand} {v w : Value} (hl : pre.Entails (.value arguments l v))
  (hr : pre.Entails (.value arguments r w))
include hl hr

theorem createBinary_emits {op : ExprBinaryOperator} :
    Emits rt arguments pre (FunctionCodegen.createBinary op l r)
      (Pure.pure (.int (op.evaluate v.word w.word))) (.value arguments) := by
  rw [FunctionCodegen.createBinary]
  split
  · refine .emitPure fun n m target h => ?_
    rw [Operation.exec, wordOf_eq (hl _ _ h), wordOf_eq (hr _ _ h)]
  · exact .throw

theorem createICmp_emits {op : ExprBinaryOperator} :
    Emits rt arguments pre (FunctionCodegen.createICmp op l r)
      (Pure.pure (.int (op.evaluate v.word w.word))) (.value arguments) := by
  rw [FunctionCodegen.createICmp]
  split
  · refine .emitPure fun n m target h => ?_
    rw [Operation.exec, wordOf_eq (hl _ _ h), wordOf_eq (hr _ _ h)]
  · exact .throw

end Operands

theorem createZExt_emits {o : Operand} {w : Word}
    (h : pre.Entails (.value arguments o (.int w))) :
    Emits rt arguments pre (FunctionCodegen.emitValue (.zext · o)) (Pure.pure (.int w))
      (.value arguments) := by
  refine .emitPure fun n m target hp => ?_
  rw [Operation.exec, wordOf_eq (h _ _ hp), Value.word]

theorem createIsNotNull_emits {o : Operand} {v : Value}
    (h : pre.Entails (.value arguments o v)) :
    Emits rt arguments pre (FunctionCodegen.createIsNotNull o) (Pure.pure (.int v.isNotNull))
      (.value arguments) := by
  rw [FunctionCodegen.createIsNotNull.eq_def]
  split
  · exact .throw
  · refine .emitPure fun n m target hp => ?_
    rw [Operation.exec, (h _ _ hp).2]

theorem createCall_emits {o : Operand} {v : Value} {os : List Operand} {vs : List Value}
    (ho : pre.Entails (.value arguments o v)) (hos : pre.Entails (.values arguments os vs)) :
    Emits rt arguments pre (FunctionCodegen.createCall o os) (Interpreter.evalCall rt v vs)
      (.value arguments) := by
  cases o with
  | function decl type =>
    rw [FunctionCodegen.createCall]
    split
    · refine Emits.congr (?_ : Emits _ _ _ _ (Interpreter.evalCall rt (.function decl type) vs) _)
        fun n registers h => by rw [← (ho _ _ h).2]; rfl
      refine .bind (.emitValue (e := Exec.call rt decl (vs.map Value.word)) fun n m target h => ?_)
        fun a w => .pure fun n registers h => ?_
      · have hargs : os.map (m.wordOf arguments) = vs.map Value.word := by
          refine List.forall₂_eq_eq_eq ▸ ?_
          exact List.forall₂_map_left_iff.2 (List.forall₂_map_right_iff.2
            ((hos _ _ h).imp fun _ _ h => wordOf_eq h))
        rw [Operation.exec, hargs]
      · cases type.returnsVoid
        · exact h.2
        · exact ⟨Nat.zero_le _, rfl⟩
    · exact .throw
  | constant | argument | register | alloca | void => exact .throw

theorem lookupLocal_ok {decl : NodeId} {o : Operand} {s s' : CodegenState}
    (h : FunctionCodegen.lookupLocal decl s = .ok (o, s')) :
    o = .alloca decl ∧ s' = s ∧ s.values.any (·.contains decl) = true := by
  rw [FunctionCodegen.lookupLocal] at h
  obtain ⟨s₁, _, hget, h⟩ := CodegenM.bind_ok.1 h
  cases hget
  split at h
  next hc =>
    obtain ⟨rfl, rfl⟩ := CodegenM.pure_ok.1 h
    exact ⟨rfl, rfl, hc⟩
  next => exact (CodegenM.throw_ok.1 h).elim

theorem lookupLocal_emits {decl : NodeId} :
    Emits rt arguments pre (FunctionCodegen.lookupLocal decl) (Pure.pure (.address decl))
      (.value arguments) := by
  intro s o s' hs hc
  obtain ⟨rfl, rfl, -⟩ := lookupLocal_ok hc
  exact ⟨.refl hs, fun code _ m hm => ⟨m, .refl, Nat.zero_le _, rfl⟩⟩

variable (ctx : IRContext)

/-- A reference to a variable: the value is known, and the place is marked. -/
theorem variable_emits {ref decl : NodeId} :
    Emits rt arguments pre
      (do
        let value ← FunctionCodegen.lookupLocal decl
        FunctionCodegen.emit (.reference ref decl)
        return value)
      (do
        Exec.emit (.reference ref decl)
        return .address decl)
      (.value arguments) := by
  exact .after lookupLocal_emits fun o => .bind (.emit fun _ _ _ => rfl)
    fun _ _ => .pure Assertion.entails_right.left

theorem codegenDeclRefExpr_emits {n : ASTNode} :
    Emits rt arguments pre (FunctionCodegen.codegenDeclRefExpr ctx n)
      (Interpreter.evalDeclRefExpr ctx n) (.value arguments) := by
  rw [FunctionCodegen.codegenDeclRefExpr, Interpreter.evalDeclRefExpr]
  cases n.decl with
  | none => exact .throw
  | some decl =>
    cases hk : decl.kind <;> simp only [hk] <;> try exact .throw
    case functionDecl =>
      cases ctx.lookupGlobal decl.id with
      | none => exact .throw
      | some type => exact .pure fun _ _ _ => ⟨Nat.zero_le _, rfl⟩
    case globalConstantDecl =>
      cases ctx.constant decl.id with
      | none => exact .throw
      | some value => exact .pure fun _ _ _ => ⟨Nat.zero_le _, rfl⟩
    all_goals exact variable_emits

theorem codegenMetaInstantiationExpr_emits {inst : NodeId} :
    Emits rt arguments pre (FunctionCodegen.codegenMetaInstantiationExpr ctx inst)
      (Interpreter.evalMetaInstantiationExpr ctx inst) (.value arguments) := by
  rw [FunctionCodegen.codegenMetaInstantiationExpr, Interpreter.evalMetaInstantiationExpr]
  cases ctx.lookupInstantiation inst with
  | none => exact .throw
  | some function => exact .pure fun _ _ _ => ⟨Nat.zero_le _, rfl⟩

/-- Both operands are generated, then loaded, then combined. -/
theorem codegenBinaryOperatorExpr_emits {op : ExprBinaryOperator} {l r : CodegenM Operand}
    {x y : Exec Value} (hl : ∀ pre, Emits rt arguments pre l x (.value arguments))
    (hr : ∀ pre, Emits rt arguments pre r y (.value arguments)) :
    Emits rt arguments pre (FunctionCodegen.codegenBinaryOperatorExpr op l r)
      (Interpreter.evalBinaryOperatorExpr op x y) (.value arguments) := by
  rw [FunctionCodegen.codegenBinaryOperatorExpr, Interpreter.evalBinaryOperatorExpr]
  refine .bind (hl _) fun a v => .bind (hr _) fun b w => ?_
  split
  · refine .bind (loadMemory_emits Assertion.entails_right) fun c u => ?_
    refine .bind (createStore_emits Assertion.entails_right.left.left Assertion.entails_right)
      fun _ _ => .pure Assertion.entails_right.left.left
  · refine .bind (loadMemory_emits Assertion.entails_right.left) fun c u => ?_
    refine .bind (loadMemory_emits Assertion.entails_right.left) fun d x => ?_
    split
    · exact createBinary_emits Assertion.entails_right.left Assertion.entails_right
    · exact .after (createICmp_emits Assertion.entails_right.left Assertion.entails_right)
        fun o => createZExt_emits Assertion.entails_right

theorem codegenArguments_emits {cs : List AST}
    (h : ∀ c ∈ cs, ∀ pre, Emits rt arguments pre (FunctionCodegen.codegenExpr ctx c)
      (Interpreter.evalExpr ctx rt c) (.value arguments)) (pre : Assertion) :
    Emits rt arguments pre (FunctionCodegen.codegenArguments ctx cs)
      (Interpreter.evalArguments ctx rt cs) (.values arguments) := by
  induction cs generalizing pre with
  | nil => exact .pure fun _ _ _ => .nil
  | cons c cs ih =>
    rw [FunctionCodegen.codegenArguments, Interpreter.evalArguments]
    refine .bind (h c List.mem_cons_self _) fun a v => ?_
    refine .bind (loadMemory_emits Assertion.entails_right) fun o w => ?_
    refine .bind (ih (fun x hx => h x (List.mem_cons_of_mem _ hx)) _) fun os ws => ?_
    exact .pure fun n registers hp => .cons hp.1.2 hp.2

/-- The code of an expression computes what the expression evaluates to. -/
theorem codegenExpr_emits (a : AST) : ∀ pre,
    Emits rt arguments pre (FunctionCodegen.codegenExpr ctx a) (Interpreter.evalExpr ctx rt a)
      (.value arguments) := by
  induction a using Rose.ind with
  | h n cs ih =>
    intro pre
    obtain ⟨⟨id, data⟩, decl, exportedDecls⟩ := n
    cases data with
    | declRefExpr name => exact codegenDeclRefExpr_emits ctx
    | metaInstantiationExpr => exact codegenMetaInstantiationExpr_emits ctx
    | integerLiteralExpr literal => exact .pure fun _ _ _ => ⟨Nat.zero_le _, rfl⟩
    | booleanLiteralExpr literal => exact .pure fun _ _ _ => ⟨Nat.zero_le _, rfl⟩
    | binaryOperatorExpr op =>
      rcases cs with _ | ⟨left, _ | ⟨right, _ | ⟨c, cs⟩⟩⟩
      case cons.cons.nil =>
        exact codegenBinaryOperatorExpr_emits (ih left (by simp)) (ih right (by simp))
      all_goals exact .throw
    | callOperatorExpr =>
      cases cs with
      | nil => exact .throw
      | cons callee args =>
        refine .bind (ih callee List.mem_cons_self _) fun o v => ?_
        refine .bind (codegenArguments_emits ctx
          (fun c hc => ih c (List.mem_cons_of_mem _ hc)) _) fun os vs => ?_
        exact createCall_emits Assertion.entails_right.left Assertion.entails_right
    | _ => exact .throw

end Expressions

end Swy
