import Swy.Library.Blocks

/-!
# Procedures that call each other

A procedure is given by what a single step of one of its activations does: it goes on, it calls a
procedure and waits for the result, it returns, or it is stuck. There are two ways to execute it.
`answered` executes one activation alone and takes the results of its calls from an answer.
`linked` executes the procedures with a stack of the activations that wait.

`Returns` is the meaning of a call: an activation ends with the result under an answer, and the
answer is what the called procedures return. It is what the linked procedures do
(`returns_iff_linked`), so that what is known of single activations holds of the linked procedures.
The linked procedures only get stuck where a single activation does, or at the call of a procedure
that is missing (`linked_ne_stuck`).
-/

namespace Swy.Library

section Machine

variable {σ ρ : Type} {step : σ → Outcome σ ρ} {s s' : σ} {r : ρ}

theorem halts_of_run {n : Nat} (h : run step n s = .halted r) : Halts step s r := by
  induction n generalizing s with
  | zero => cases h
  | succ n ih =>
    rw [run] at h
    cases hs : step s with
    | running s₁ =>
      rw [hs] at h
      exact Halts.of_reaches (.single hs) (ih h)
    | halted r₁ =>
      rw [hs] at h
      cases h
      exact .single hs
    | stuck =>
      rw [hs] at h
      cases h

/-- The result of what halted. -/
def Outcome.result? : Outcome σ ρ → Option ρ
  | halted r => some r
  | _ => none

theorem Halts.result_unique {r' : ρ} (h : Halts step s r) (h' : Halts step s r') : r = r' := by
  obtain ⟨bound, hb⟩ := h
  exact h'.unique (hb bound (Nat.le_refl _))

theorem Halts.ne_stuck (h : Halts step s r) : step s ≠ .stuck := by
  intro hs
  obtain ⟨bound, hb⟩ := h
  have hrun := hb (bound + 1) (Nat.le_succ _)
  rw [run, hs] at hrun
  cases hrun

/-- A state that is reached is the first one, or it is reached behind the first step. -/
theorem Reaches.eq_or_head (h : Reaches step s s') :
    s' = s ∨ ∃ s₁, step s = .running s₁ ∧ Reaches step s₁ s' := by
  obtain ⟨n, hn⟩ := h
  cases n with
  | zero =>
    cases hn
    exact .inl rfl
  | succ n =>
    rw [run] at hn
    cases hs : step s with
    | running s₁ =>
      rw [hs] at hn
      exact .inr ⟨s₁, rfl, n, hn⟩
    | halted r =>
      rw [hs] at hn
      cases hn
    | stuck =>
      rw [hs] at hn
      cases hn

/-! ### Images of machines -/

/-- What a step leads to, with the states and the results of another machine. -/
def Outcome.map {σ' ρ' : Type} (f : σ → σ') (g : ρ → ρ') : Outcome σ ρ → Outcome σ' ρ'
  | running s => running (f s)
  | halted r => halted (g r)
  | stuck => stuck

section Image

variable {σ' ρ' : Type} {step' : σ' → Outcome σ' ρ'} {f : σ → σ'} {g : ρ → ρ'}

theorem run_map (h : ∀ s, step' (f s) = (step s).map f g) (n : Nat) (s : σ) :
    run step' n (f s) = (run step n s).map f g := by
  induction n generalizing s with
  | zero => rfl
  | succ n ih =>
    rw [run, run, h]
    cases step s with
    | running s₁ => exact ih s₁
    | halted r => rfl
    | stuck => rfl

theorem Halts.map (hstep : ∀ s, step' (f s) = (step s).map f g) (h : Halts step s r) :
    Halts step' (f s) (g r) := by
  obtain ⟨bound, hb⟩ := h
  refine halts_of_run (n := bound) ?_
  rw [run_map hstep, hb bound (Nat.le_refl _)]
  rfl

/-- What the image does is the image of what the machine does. -/
theorem Halts.of_map (hstep : ∀ s, step' (f s) = (step s).map f g) {r' : ρ'}
    (h : Halts step' (f s) r') : ∃ r, Halts step s r ∧ g r = r' := by
  obtain ⟨bound, hb⟩ := h
  have hrun := hb bound (Nat.le_refl _)
  rw [run_map hstep] at hrun
  cases hr : run step bound s with
  | running s₁ =>
    rw [hr] at hrun
    cases hrun
  | halted r =>
    rw [hr] at hrun
    cases hrun
    exact ⟨r, halts_of_run hr, rfl⟩
  | stuck =>
    rw [hr] at hrun
    cases hrun

theorem Reaches.map (hstep : ∀ s, step' (f s) = (step s).map f g) (h : Reaches step s s') :
    Reaches step' (f s) (f s') := by
  obtain ⟨n, hn⟩ := h
  refine ⟨n, ?_⟩
  rw [run_map hstep, hn]
  rfl

theorem Reaches.of_map (hstep : ∀ s, step' (f s) = (step s).map f g) {t : σ'}
    (h : Reaches step' (f s) t) : ∃ s', Reaches step s s' ∧ f s' = t := by
  obtain ⟨n, hn⟩ := h
  rw [run_map hstep] at hn
  cases hr : run step n s with
  | running s₁ =>
    rw [hr] at hn
    cases hn
    exact ⟨s₁, ⟨n, hr⟩, rfl⟩
  | halted r =>
    rw [hr] at hn
    cases hn
  | stuck =>
    rw [hr] at hn
    cases hn

end Image

end Machine

/-! ## Procedures -/

/-- What a step of an activation does. -/
inductive Action (σ ι α ρ : Type) where
  | running (state : σ)
  | call (callee : ι) (argument : α) (resume : ρ → σ)
  | returned (result : ρ)
  | stuck

/-- The activation a procedure starts with, unless the procedure is missing, and the steps of the
activations. -/
structure Procedures (σ ι α ρ : Type) where
  enter : ι → α → Option σ
  step : σ → Action σ ι α ρ

namespace Procedures

variable {σ ι α ρ : Type} (P : Procedures σ ι α ρ)

/-- A step of an activation whose calls are answered. -/
def answered (answer : ι → α → ρ) (s : σ) : Outcome σ ρ :=
  match P.step s with
  | .running s' => .running s'
  | .call f a resume => .running (resume (answer f a))
  | .returned r => .halted r
  | .stuck => .stuck

/-- A step of the linked procedures: the current activation, and what the waiting ones do with a
result. -/
def linked (c : σ × List (ρ → σ)) : Outcome (σ × List (ρ → σ)) ρ :=
  match P.step c.1 with
  | .running s' => .running (s', c.2)
  | .call f a resume =>
    match P.enter f a with
    | some s' => .running (s', resume :: c.2)
    | none => .stuck
  | .returned r =>
    match c.2 with
    | [] => .halted r
    | resume :: stack => .running (resume r, stack)
  | .stuck => .stuck

/-- The procedure returns the result: it does so under an answer that is right about its calls. -/
inductive Returns : ι → α → ρ → Prop
  | intro {answer : ι → α → ρ} {f : ι} {a : α} {s : σ} {r : ρ} :
    P.enter f a = some s → Halts (P.answered answer) s r →
    (∀ s' g b resume, Reaches (P.answered answer) s s' → P.step s' = .call g b resume →
      Returns g b (answer g b)) →
    Returns f a r

/-- The linked procedures return the result. -/
def LinkedReturns (f : ι) (a : α) (r : ρ) : Prop :=
  ∃ s, P.enter f a = some s ∧ Halts P.linked (s, []) r

/-- Executes the linked procedures for a number of steps. -/
def execute (fuel : Nat) (f : ι) (a : α) : Option ρ := do
  let s ← P.enter f a
  (run P.linked fuel (s, [])).result?

variable {P} {f g : ι} {a b : α} {r r' : ρ} {s s' : σ} {resume : ρ → σ}
  {stack stack' : List (ρ → σ)}

/-- What is executed with enough fuel is what the linked procedures return. -/
theorem linkedReturns_iff_execute :
    P.LinkedReturns f a r ↔ ∃ fuel, P.execute fuel f a = some r := by
  constructor
  · rintro ⟨s, hs, bound, hbound⟩
    refine ⟨bound, Option.bind_eq_some_iff.2 ⟨s, hs, ?_⟩⟩
    rw [hbound bound (Nat.le_refl _)]
    rfl
  · rintro ⟨fuel, h⟩
    obtain ⟨s, hs, h⟩ := Option.bind_eq_some_iff.1 h
    cases hrun : run P.linked fuel (s, []) with
    | halted r₁ =>
      rw [hrun] at h
      cases h
      exact ⟨s, hs, halts_of_run hrun⟩
    | running c =>
      rw [hrun] at h
      cases h
    | stuck =>
      rw [hrun] at h
      cases h

theorem LinkedReturns.unique (h : P.LinkedReturns f a r) (h' : P.LinkedReturns f a r') :
    r = r' := by
  obtain ⟨s, hs, hr⟩ := h
  obtain ⟨s', hs', hr'⟩ := h'
  obtain rfl : s = s' := Option.some.inj (hs.symm.trans hs')
  exact hr.result_unique hr'

/-! ## The steps of the linked procedures -/

theorem linked_of_running (h : P.step s = .running s') :
    P.linked (s, stack) = .running (s', stack) := by
  simp only [linked, h]

theorem linked_of_call (h : P.step s = .call g b resume) (hg : P.enter g b = some s') :
    P.linked (s, stack) = .running (s', resume :: stack) := by
  simp only [linked, h, hg]

theorem linked_of_missing (h : P.step s = .call g b resume) (hg : P.enter g b = none) :
    P.linked (s, stack) = .stuck := by
  simp only [linked, h, hg]

theorem linked_of_returned (h : P.step s = .returned r) :
    P.linked (s, resume :: stack) = .running (resume r, stack) := by
  simp only [linked, h]

theorem linked_of_last (h : P.step s = .returned r) : P.linked (s, []) = .halted r := by
  simp only [linked, h]

theorem linked_of_stuck (h : P.step s = .stuck) : P.linked (s, stack) = .stuck := by
  simp only [linked, h]

/-- The linked procedures halt where the last activation returns. -/
theorem of_linked_halted (h : P.linked (s, stack) = .halted r) :
    P.step s = .returned r ∧ stack = [] := by
  cases hs : P.step s with
  | running s₁ =>
    rw [linked_of_running hs] at h
    cases h
  | call g b resume =>
    cases hg : P.enter g b with
    | some s₁ =>
      rw [linked_of_call hs hg] at h
      cases h
    | none =>
      rw [linked_of_missing hs hg] at h
      cases h
  | returned r₁ =>
    cases stack with
    | nil =>
      rw [linked_of_last hs] at h
      cases h
      exact ⟨rfl, rfl⟩
    | cons resume stack =>
      rw [linked_of_returned hs] at h
      cases h
  | stuck =>
    rw [linked_of_stuck hs] at h
    cases h

/-- The linked procedures are stuck where an activation is, or where the called procedure is
missing. -/
theorem of_linked_stuck (h : P.linked (s, stack) = .stuck) :
    P.step s = .stuck ∨ ∃ g b resume, P.step s = .call g b resume ∧ P.enter g b = none := by
  cases hs : P.step s with
  | running s₁ =>
    rw [linked_of_running hs] at h
    cases h
  | call g b resume =>
    cases hg : P.enter g b with
    | some s₁ =>
      rw [linked_of_call hs hg] at h
      cases h
    | none => exact .inr ⟨g, b, resume, rfl, hg⟩
  | returned r =>
    cases stack with
    | nil =>
      rw [linked_of_last hs] at h
      cases h
    | cons resume stack =>
      rw [linked_of_returned hs] at h
      cases h
  | stuck => exact .inl rfl

/-- A step of an activation goes the same way below other activations that wait. -/
theorem linked_append (h : P.linked (s, stack) = .running (s', stack'))
    (waiting : List (ρ → σ)) :
    P.linked (s, stack ++ waiting) = .running (s', stack' ++ waiting) := by
  cases hs : P.step s with
  | running s₁ =>
    rw [linked_of_running hs] at h ⊢
    cases h
    rfl
  | call g b resume =>
    cases hg : P.enter g b with
    | some s₁ =>
      rw [linked_of_call hs hg] at h ⊢
      cases h
      rfl
    | none =>
      rw [linked_of_missing hs hg] at h
      cases h
  | returned r =>
    cases stack with
    | nil =>
      rw [linked_of_last hs] at h
      cases h
    | cons resume stack =>
      rw [linked_of_returned hs] at h
      rw [List.cons_append, linked_of_returned hs]
      cases h
      rfl
  | stuck =>
    rw [linked_of_stuck hs] at h
    cases h

/-! ## The stack -/

/-- What is executed to its end is executed to its end below other activations, and the first of
them goes on with the result. -/
theorem linked_return {n : Nat} (h : run P.linked n (s, stack) = .halted r) (resume : ρ → σ)
    (waiting : List (ρ → σ)) :
    Reaches P.linked (s, stack ++ resume :: waiting) (resume r, waiting) := by
  induction n generalizing s stack with
  | zero => cases h
  | succ n ih =>
    rw [run] at h
    cases hs : P.linked (s, stack) with
    | running c =>
      rw [hs] at h
      exact .head (linked_append hs (resume :: waiting)) (ih h)
    | halted r₁ =>
      rw [hs] at h
      cases h
      obtain ⟨hstep, rfl⟩ := of_linked_halted hs
      exact .single (linked_of_returned hstep)
    | stuck =>
      rw [hs] at h
      cases h

/-- An execution that ends executes the current activation to its end first. -/
theorem linked_split {n : Nat} {waiting : List (ρ → σ)} (stack : List (ρ → σ))
    (h : run P.linked n (s, stack ++ resume :: waiting) = .halted r) :
    ∃ m m' r₁, m + m' = n ∧ 0 < m ∧ run P.linked m (s, stack) = .halted r₁ ∧
      run P.linked m' (resume r₁, waiting) = .halted r := by
  induction n generalizing s stack with
  | zero => cases h
  | succ n ih =>
    rw [run] at h
    cases hs : P.linked (s, stack) with
    | running c =>
      obtain ⟨s', stack'⟩ := c
      rw [linked_append hs] at h
      obtain ⟨m, m', r₁, hn, -, hm, hm'⟩ := ih stack' h
      refine ⟨m + 1, m', r₁, by omega, by omega, ?_, hm'⟩
      rw [run, hs]
      exact hm
    | halted r₁ =>
      obtain ⟨hstep, rfl⟩ := of_linked_halted hs
      rw [List.nil_append, linked_of_returned hstep] at h
      refine ⟨1, n, r₁, by omega, by omega, ?_, h⟩
      rw [run, hs]
    | stuck =>
      have hstuck : P.linked (s, stack ++ resume :: waiting) = .stuck := by
        rcases of_linked_stuck hs with hstep | ⟨g, b, resume', hstep, hg⟩
        · exact linked_of_stuck hstep
        · exact linked_of_missing hstep hg
      rw [hstuck] at h
      cases h

/-! ## The meaning of calls -/

section Answered

variable {answer : ι → α → ρ}

theorem answered_of_running (h : P.step s = .running s') : P.answered answer s = .running s' := by
  simp only [answered, h]

theorem answered_of_call (h : P.step s = .call g b resume) :
    P.answered answer s = .running (resume (answer g b)) := by
  simp only [answered, h]

theorem answered_of_returned (h : P.step s = .returned r) : P.answered answer s = .halted r := by
  simp only [answered, h]

theorem answered_of_stuck (h : P.step s = .stuck) : P.answered answer s = .stuck := by
  simp only [answered, h]

/-- What an activation does under an answer that is right about its calls is what the linked
procedures do. -/
theorem linked_of_answered {n : Nat} (h : run (P.answered answer) n s = .halted r)
    (hcalls : ∀ s' g b resume, Reaches (P.answered answer) s s' → P.step s' = .call g b resume →
      P.LinkedReturns g b (answer g b)) : Halts P.linked (s, []) r := by
  induction n generalizing s with
  | zero => cases h
  | succ n ih =>
    rw [run] at h
    cases hs : P.step s with
    | running s₁ =>
      have hstep : P.answered answer s = .running s₁ := answered_of_running hs
      rw [hstep] at h
      have hrest : Halts P.linked (s₁, []) r :=
        ih h fun s' g b resume hreach => hcalls s' g b resume (.head hstep hreach)
      exact .of_reaches (.single (linked_of_running hs)) hrest
    | call g b resume =>
      have hstep : P.answered answer s = .running (resume (answer g b)) := answered_of_call hs
      rw [hstep] at h
      have hrest : Halts P.linked (resume (answer g b), []) r :=
        ih h fun s' g b resume hreach => hcalls s' g b resume (.head hstep hreach)
      obtain ⟨s₁, hg, bound, hbound⟩ := hcalls s g b resume .refl hs
      have hreturn : Reaches P.linked (s₁, [resume]) (resume (answer g b), []) :=
        linked_return (hbound bound (Nat.le_refl _)) resume []
      exact .of_reaches (.head (linked_of_call hs hg) hreturn) hrest
    | returned r₁ =>
      rw [answered_of_returned hs] at h
      cases h
      exact .single (linked_of_last hs)
    | stuck =>
      rw [answered_of_stuck hs] at h
      cases h

end Answered

section Adequacy

open Classical in
/-- What the linked procedures return, where they do. -/
noncomputable def linkedAnswer [Inhabited ρ] (P : Procedures σ ι α ρ) (f : ι) (a : α) : ρ :=
  if h : ∃ r, P.LinkedReturns f a r then h.choose else default

variable [Inhabited ρ]

theorem linkedAnswer_eq (h : P.LinkedReturns f a r) : P.linkedAnswer f a = r := by
  have hex : ∃ r, P.LinkedReturns f a r := ⟨r, h⟩
  rw [linkedAnswer, dif_pos hex]
  exact hex.choose_spec.unique h

/-- What the linked procedures do is what the activation does under their own answer, and their
answer is the meaning of the calls on the way. -/
theorem answered_of_linked {n : Nat} (h : run P.linked n (s, []) = .halted r) :
    Halts (P.answered P.linkedAnswer) s r ∧
      ∀ s' g b resume, Reaches (P.answered P.linkedAnswer) s s' → P.step s' = .call g b resume →
        P.Returns g b (P.linkedAnswer g b) := by
  induction n using Nat.strongRecOn generalizing s r with
  | ind n ih =>
    cases n with
    | zero => cases h
    | succ n =>
      rw [run] at h
      cases hs : P.step s with
      | running s₁ =>
        rw [linked_of_running hs] at h
        obtain ⟨hhalts, hcalls⟩ := ih n (Nat.lt_succ_self n) h
        have hstep : P.answered P.linkedAnswer s = .running s₁ := answered_of_running hs
        refine ⟨.of_reaches (.single hstep) hhalts, fun s' g b resume hreach hcall => ?_⟩
        rcases hreach.eq_or_head with rfl | ⟨s₂, hs₂, hreach⟩
        · rw [hs] at hcall
          cases hcall
        · cases hstep.symm.trans hs₂
          exact hcalls s' g b resume hreach hcall
      | call g b resume =>
        cases hg : P.enter g b with
        | none =>
          rw [linked_of_missing hs hg] at h
          cases h
        | some s₁ =>
          rw [linked_of_call hs hg] at h
          obtain ⟨m, m', r₁, hn, hpos, hm, hm'⟩ := linked_split [] h
          obtain ⟨hhalts₁, hcalls₁⟩ := ih m (by omega) hm
          obtain ⟨hhalts, hcalls⟩ := ih m' (by omega) hm'
          have hanswer : P.linkedAnswer g b = r₁ := linkedAnswer_eq ⟨s₁, hg, halts_of_run hm⟩
          have hstep : P.answered P.linkedAnswer s = .running (resume r₁) := by
            rw [answered_of_call hs, hanswer]
          refine ⟨.of_reaches (.single hstep) hhalts, fun s' g' b' resume' hreach hcall => ?_⟩
          rcases hreach.eq_or_head with rfl | ⟨s₂, hs₂, hreach⟩
          · rw [hs] at hcall
            cases hcall
            rw [hanswer]
            exact .intro hg hhalts₁ hcalls₁
          · cases hstep.symm.trans hs₂
            exact hcalls s' g' b' resume' hreach hcall
      | returned r₁ =>
        rw [linked_of_last hs] at h
        cases h
        have hstep : P.answered P.linkedAnswer s = .halted r := answered_of_returned hs
        refine ⟨.single hstep, fun s' g b resume hreach hcall => ?_⟩
        rcases hreach.eq_or_head with rfl | ⟨s₂, hs₂, -⟩
        · rw [hs] at hcall
          cases hcall
        · cases hstep.symm.trans hs₂
      | stuck =>
        rw [linked_of_stuck hs] at h
        cases h

/-- The linked procedures return what a call means. -/
theorem returns_iff_linked : P.Returns f a r ↔ P.LinkedReturns f a r := by
  constructor
  · intro h
    induction h with
    | intro hf hhalts hcalls ih =>
      obtain ⟨bound, hbound⟩ := hhalts
      exact ⟨_, hf, linked_of_answered (hbound bound (Nat.le_refl _)) ih⟩
  · rintro ⟨s, hf, bound, hbound⟩
    obtain ⟨hhalts, hcalls⟩ := answered_of_linked (hbound bound (Nat.le_refl _))
    exact .intro hf hhalts hcalls

/-! ## Getting stuck -/

/-- The activations of a configuration: each was entered for its argument and got where it is under
the answer of the linked procedures, and the ones that wait do so for the one above. -/
inductive Active (P : Procedures σ ι α ρ) : ι → α → σ → List (ρ → σ) → Prop
  | last {f : ι} {a : α} {s₀ s : σ} : P.enter f a = some s₀ →
    Reaches (P.answered P.linkedAnswer) s₀ s → Reaches P.linked (s₀, []) (s, []) →
    Active P f a s []
  | above {f g : ι} {a b : α} {s₀ s s' : σ} {resume : ρ → σ} {stack : List (ρ → σ)} :
    P.enter f a = some s₀ → Reaches (P.answered P.linkedAnswer) s₀ s →
    Reaches P.linked (s₀, []) (s, []) → Active P g b s' stack → P.step s' = .call f a resume →
    Active P f a s (resume :: stack)

/-- The activation at the top was entered, and how it got where it is. -/
theorem Active.entered (h : Active P f a s stack) :
    ∃ s₀, P.enter f a = some s₀ ∧ Reaches (P.answered P.linkedAnswer) s₀ s ∧
      Reaches P.linked (s₀, []) (s, []) := by
  cases h with
  | last hf hreach hlinked => exact ⟨_, hf, hreach, hlinked⟩
  | above hf hreach hlinked _ _ => exact ⟨_, hf, hreach, hlinked⟩

/-- The activation at the top goes on. -/
theorem Active.advance (h : Active P f a s stack) (hs : P.answered P.linkedAnswer s = .running s')
    (hlinked : Reaches P.linked (s, []) (s', [])) : Active P f a s' stack := by
  cases h with
  | last hf hreach hlinked₀ =>
    exact .last hf (hreach.trans (.single hs)) (hlinked₀.trans hlinked)
  | above hf hreach hlinked₀ hbelow hcall =>
    exact .above hf (hreach.trans (.single hs)) (hlinked₀.trans hlinked) hbelow hcall

/-- A step of the linked procedures keeps what is known of the activations. -/
theorem Active.step (h : Active P f a s stack)
    (hs : P.linked (s, stack) = .running (s', stack')) :
    ∃ g b, Active P g b s' stack' := by
  cases hstep : P.step s with
  | running s₁ =>
    rw [linked_of_running hstep] at hs
    cases hs
    exact ⟨f, a, h.advance (answered_of_running hstep) (.single (linked_of_running hstep))⟩
  | call g b resume =>
    cases hg : P.enter g b with
    | some s₁ =>
      rw [linked_of_call hstep hg] at hs
      cases hs
      exact ⟨g, b, .above hg .refl .refl h hstep⟩
    | none =>
      rw [linked_of_missing hstep hg] at hs
      cases hs
  | returned r =>
    cases h with
    | last hf hreach hlinked =>
      rw [linked_of_last hstep] at hs
      cases hs
    | above hf hreach hlinked hbelow hcall =>
      rw [linked_of_returned hstep] at hs
      cases hs
      have hreturns : P.LinkedReturns f a r :=
        ⟨_, hf, .of_reaches hlinked (.single (linked_of_last hstep))⟩
      refine ⟨_, _, hbelow.advance ?_ ?_⟩
      · rw [answered_of_call hcall, linkedAnswer_eq hreturns]
      · obtain ⟨s₀, hf', bound, hbound⟩ := hreturns
        exact .head (linked_of_call hcall hf')
          (linked_return (hbound bound (Nat.le_refl _)) _ [])
  | stuck =>
    rw [linked_of_stuck hstep] at hs
    cases hs

/-- What is reached consists of activations. -/
theorem Active.of_reaches {c : σ × List (ρ → σ)} (hf : P.enter f a = some s)
    (h : Reaches P.linked (s, []) c) : ∃ g b, Active P g b c.1 c.2 := by
  refine h.invariant (P := fun c => ∃ g b, Active P g b c.1 c.2) ⟨f, a, .last hf .refl .refl⟩ ?_
  rintro ⟨s₁, stack₁⟩ ⟨s₂, stack₂⟩ hstep ⟨g, b, hactive⟩
  exact hactive.step hstep

/-- The linked procedures do not get stuck, if no activation does under any answer and no procedure
is missing that an activation calls. -/
theorem linked_ne_stuck {c : σ × List (ρ → σ)} (hf : P.enter f a = some s)
    (hstep : ∀ answer f a s₀ s, P.enter f a = some s₀ → Reaches (P.answered answer) s₀ s →
      P.step s ≠ .stuck)
    (hcalls : ∀ answer f a s₀ s g b resume, P.enter f a = some s₀ →
      Reaches (P.answered answer) s₀ s → P.step s = .call g b resume → (P.enter g b).isSome = true)
    (hreach : Reaches P.linked (s, []) c) : P.linked c ≠ .stuck := by
  intro hstuck
  obtain ⟨g, b, hactive⟩ := Active.of_reaches hf hreach
  obtain ⟨s₀, hg, hreached, -⟩ := hactive.entered
  rcases of_linked_stuck hstuck with hs | ⟨h, d, resume, hcall, hmissing⟩
  · exact hstep _ g b s₀ c.1 hg hreached hs
  · have hentered := hcalls _ g b s₀ c.1 h d resume hg hreached hcall
    rw [hmissing] at hentered
    cases hentered

end Adequacy

end Procedures

end Swy.Library
