import Psrdada.Concurrency.System

/-! # A process that runs alone

`Machine.Evaluates` is the big-step meaning of a program of one process while no other process takes
a step, and `Machine.Finishes` is total correctness with respect to it: the routine comes to its end
without ever blocking, and a postcondition holds there. -/

namespace Concurrency

variable {S : Signature} {σ α β γ τ υ : Type}

/-- Sequential composition is associative. -/
theorem Program.bind_assoc (m : Program S α) (f : α → Program S β) (h : β → Program S γ) :
    m >>= f >>= h = m >>= fun a => f a >>= h := by
  induction m with
  | ret a => rfl
  | call o k ih =>
    simp only [Program.call_bind, Program.call.injEq, heq_eq_eq, true_and]
    exact funext fun r => ih r f
  | loop body t k _ ih =>
    simp only [Program.loop_bind, Program.loop.injEq, heq_eq_eq, true_and]
    exact funext fun b => ih b f

/-- What follows a round of a loop follows its continuation. -/
theorem Program.unroll_bind (body : τ → Program S (τ ⊕ β)) (t : τ) (k : β → Program S α)
    (f : α → Program S γ) :
    Program.unroll body t k >>= f = Program.unroll body t fun b => k b >>= f := by
  rw [Program.unroll, Program.unroll, Program.bind_assoc]
  congr 1
  funext x
  cases x <;> rfl

/-- A program of process `p` runs from a state to a value and a state, without blocking. -/
inductive Machine.Evaluates (M : Machine S σ) (p : ℕ) :
    {α : Type} → Program S α → σ → α → σ → Prop
  /-- A program that has stopped. -/
  | ret {α : Type} (a : α) (s : σ) : M.Evaluates p (.ret a) s a s
  /-- An operation that does not block, then the rest. -/
  | call {α : Type} {o : S.Op} {k : S.Res o → Program S α} {s s₁ s₂ : σ} {r : S.Res o} {a : α}
      (done : M.exec p o s = some (r, s₁)) (rest : M.Evaluates p (k r) s₁ a s₂) :
      M.Evaluates p (.call o k) s a s₂
  /-- A round of a loop, then the rest. -/
  | loop {α β τ : Type} {body : τ → Program S (τ ⊕ β)} {t : τ} {k : β → Program S α} {s s₂ : σ}
      {a : α} (rest : M.Evaluates p (Program.unroll body t k) s a s₂) :
      M.Evaluates p (.loop body t k) s a s₂

variable {M : Machine S σ} {p : ℕ}

/-- Sequential composition. -/
theorem Machine.Evaluates.bind {m : Program S α} {f : α → Program S β} {s s₁ s₂ : σ} {a : α}
    {b : β} (h : M.Evaluates p m s a s₁) (hf : M.Evaluates p (f a) s₁ b s₂) :
    M.Evaluates p (m >>= f) s b s₂ := by
  induction h with
  | ret a s => exact hf
  | call done _ ih => exact .call done (ih hf)
  | loop _ ih =>
    have hrest := ih hf
    rw [Program.unroll_bind] at hrest
    exact .loop hrest

variable (M p) in
/-- A routine of process `p` comes to its end without blocking, and `Q` holds there of its value, its
private data and the state. -/
def Machine.Finishes (m : Routine S τ α) (t : τ) (s : σ) (Q : α → τ → σ → Prop) : Prop :=
  ∃ a t' s', M.Evaluates p (m.run t) s (a, t') s' ∧ Q a t' s'

namespace Machine

variable {t : τ} {s : σ} {Q : α → τ → σ → Prop}

theorem finishes_mono {m : Routine S τ α} {Q' : α → τ → σ → Prop} (h : M.Finishes p m t s Q)
    (hQ : ∀ a t' s', Q a t' s' → Q' a t' s') : M.Finishes p m t s Q' := by
  obtain ⟨a, t', s', he, hq⟩ := h
  exact ⟨a, t', s', he, hQ a t' s' hq⟩

theorem finishes_pure {a : α} (h : Q a t s) : M.Finishes p (pure a : Routine S τ α) t s Q :=
  ⟨a, t, s, .ret _ _, h⟩

theorem finishes_get {Q : τ → τ → σ → Prop} (h : Q t t s) :
    M.Finishes p (get : Routine S τ τ) t s Q :=
  ⟨t, t, s, .ret _ _, h⟩

theorem finishes_modify {f : τ → τ} {Q : PUnit → τ → σ → Prop} (h : Q ⟨⟩ (f t) s) :
    M.Finishes p (modify f : Routine S τ PUnit) t s Q :=
  ⟨⟨⟩, f t, s, .ret _ _, h⟩

theorem finishes_bind {m : Routine S τ β} {f : β → Routine S τ α}
    (h : M.Finishes p m t s fun b t' s' => M.Finishes p (f b) t' s' Q) :
    M.Finishes p (m >>= f) t s Q := by
  obtain ⟨b, t', s', he, a, t'', s'', he', hq⟩ := h
  exact ⟨a, t'', s'', he.bind he', hq⟩

/-- The rule of an operation. -/
theorem finishes_perform {o : S.Op} {r : S.Res o} {s' : σ} {Q : S.Res o → τ → σ → Prop}
    (done : M.exec p o s = some (r, s')) (h : Q r t s') :
    M.Finishes p (Routine.perform o) t s Q :=
  ⟨r, t, s', .call done (.ret _ _), h⟩

/-- The rule of `Routine.countUp`: an invariant indexed by the number of rounds done. -/
theorem finishes_countUp {body : ℕ → Routine S τ Unit} {n : ℕ} {Q : Unit → τ → σ → Prop}
    (I : ℕ → τ → σ → Prop) (start : I 0 t s)
    (round : ∀ i < n, ∀ t s, I i t s → M.Finishes p (body i) t s fun _ => I (i + 1))
    (done : ∀ t s, I n t s → Q () t s) : M.Finishes p (Routine.countUp body n) t s Q := by
  induction n generalizing Q with
  | zero => exact finishes_pure (done t s start)
  | succ n ih =>
    rw [Routine.countUp]
    refine finishes_bind (ih (fun i hi => round i (Nat.lt_succ_of_lt hi)) fun t' s' h => ?_)
    exact finishes_mono (round n n.lt_succ_self t' s' h) fun _ => done

/-- The rule of `Routine.iterate`: an invariant indexed by a number that every round lowers. -/
theorem finishes_iterate {body : β → Routine S τ (β ⊕ α)} {b : β} {n : ℕ}
    (I : ℕ → β → τ → σ → Prop) (start : I n b t s)
    (round : ∀ n b t s, I n b t s → M.Finishes p (body b) t s fun x t' s' =>
      match x with
      | .inl b' => ∃ m < n, I m b' t' s'
      | .inr a => Q a t' s') :
    M.Finishes p (Routine.iterate body b) t s Q := by
  induction n using Nat.strongRecOn generalizing b t s with
  | ind n ih =>
    obtain ⟨x, t', s', he, hx⟩ := round n b t s start
    cases x with
    | inr a =>
      refine ⟨a, t', s', .loop ?_, hx⟩
      exact Evaluates.bind (a := .inr (a, t')) (he.bind (.ret _ _)) (.ret _ _)
    | inl b' =>
      obtain ⟨m, hm, hI⟩ := hx
      obtain ⟨a, t'', s'', he', hq⟩ := ih m hm hI
      refine ⟨a, t'', s'', .loop ?_, hq⟩
      refine Evaluates.bind (a := .inl (b', t')) (he.bind (.ret _ _)) ?_
      exact he'

end Machine

end Concurrency
