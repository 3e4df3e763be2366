import Psrdada.Concurrency.Outline

/-! # Arbitrary clients of a library

A library offers *calls*, each a routine over the operations of a machine.  A client is any program over
the calls: it may choose each call by what the calls before have returned and may go on for ever.
`Routine.handle` gives the routine that a client is, and `Outline.ensures_handle` says that what every
call keeps, every client keeps.

A process may also be killed at any moment.  What it has left to do is lost, and the machine may later
clean up after it (`StepOrKill`); `Outline.reach_inv_killed` is the soundness theorem for such runs. -/

namespace Concurrency

variable {S T : Signature} {σ μ : Type}

/-! ## Clients -/

/-- The routine of a client, when each of its calls is a routine. -/
def Routine.handle {τ : Type} (call : (o : T.Op) → Routine S τ (T.Res o)) :
    {α : Type} → Program T α → Routine S τ α
  | _, .ret a => pure a
  | _, .call o k => do
    let r ← call o
    handle call (k r)
  | _, .loop body t k => do
    let b ← Routine.iterate (fun t => handle call (body t)) t
    handle call (k b)

namespace Outline

variable {M : Machine S σ} {Γ L : Type} {O : Outline M Γ L} {p : ℕ} {τ υ α β γ : Type}
  {F : τ → Prop} {l : L}

/-- What every call keeps, a client keeps. -/
theorem ensures_handle {call : (o : T.Op) → Routine S τ (T.Res o)} (I : τ → L → Prop)
    (keep : ∀ o t l, I t l → O.Ensures p (call o) t l fun _ => I) (client : Program T α) :
    ∀ {t : τ} {l : L}, I t l → O.Ensures p (Routine.handle call client) t l fun _ => I := by
  induction client with
  | ret a => exact fun h => h
  | call o k ih =>
    intro t l h
    rw [Routine.handle, ensures_bind]
    exact ensures_mono (keep o t l h) fun r _ _ h' => ih r h'
  | loop body b k ihbody ihk =>
    intro t l h
    rw [Routine.handle, ensures_bind]
    refine ensures_iterate (fun _ => I) h fun b t l hI => ?_
    -- a round keeps `I`, whether it asks for another or not
    refine ensures_mono (ihbody b hI) fun x t' l' h' => ?_
    cases x with
    | inl b' => exact h'
    | inr c => exact ihk c h'

/-! ## Routines that change nothing of the ghost value -/

variable (O p F l) in
/-- A routine that keeps `F` of the private data and the ghost value `l`. -/
def Keeps (m : Routine S τ α) : Prop :=
  ∀ t, F t → O.Ensures p m t l fun _ t' l' => F t' ∧ l' = l

/-- What a routine keeps may be used behind it. -/
theorem ensures_of_keeps {m : Routine S τ α} (h : O.Keeps p F l m) {t : τ} (ht : F t)
    {Q : α → τ → L → Prop} (hQ : ∀ a t', F t' → Q a t' l) : O.Ensures p m t l Q := by
  refine ensures_mono (h t ht) ?_
  rintro a t' _ ⟨ht', rfl⟩
  exact hQ a t' ht'

theorem keeps_pure (a : α) : O.Keeps p F l (pure a : Routine S τ α) := fun _ h => ⟨h, rfl⟩

theorem keeps_bind {m : Routine S τ α} {f : α → Routine S τ β} (hm : O.Keeps p F l m)
    (hf : ∀ a, O.Keeps p F l (f a)) : O.Keeps p F l (m >>= f) := by
  intro t h
  rw [ensures_bind]
  refine ensures_mono (hm t h) ?_
  rintro a t' _ ⟨h', rfl⟩
  exact hf a t' h'

/-- A routine that looks at the private data finds `F` to hold of it. -/
theorem keeps_get {f : τ → Routine S τ α} (hf : ∀ t, F t → O.Keeps p F l (f t)) :
    O.Keeps p F l (get >>= f) := by
  intro t h
  rw [ensures_bind, ensures_get]
  exact hf t h t h

theorem keeps_modify {f : τ → τ} (hf : ∀ t, F t → F (f t)) :
    O.Keeps p F l (modify f : Routine S τ PUnit) := by
  intro t h
  rw [ensures_modify]
  exact ⟨hf t h, rfl⟩

/-- The rule of an operation. -/
theorem keeps_perform {o : S.Op}
    (h : ∀ γ G s, O.inv γ G s → G p = l → O.ok p o s → O.obs p o s ∧
      ∀ r s', M.exec p o s = some (r, s') → ∃ γ', O.inv γ' (Function.update G p l) s') :
    O.Keeps p F l (Routine.perform o : Routine S τ (S.Res o)) := by
  intro t ht
  rw [ensures_perform]
  intro γ G s hinv hl hok
  obtain ⟨hobs, hdone⟩ := h γ G s hinv hl hok
  refine ⟨hobs, fun r s' he => ?_⟩
  obtain ⟨γ', hinv'⟩ := hdone r s' he
  exact ⟨γ', l, hinv', ht, rfl⟩

theorem keeps_iterate {body : β → Routine S τ (β ⊕ γ)} (h : ∀ b, O.Keeps p F l (body b)) (b : β) :
    O.Keeps p F l (Routine.iterate body b) := by
  intro t ht
  refine ensures_iterate (fun _ t' l' => F t' ∧ l' = l) ⟨ht, rfl⟩ ?_
  rintro b t' _ ⟨ht', rfl⟩
  refine ensures_mono (h b t' ht') fun x t'' l'' h' => ?_
  cases x with
  | inl b' => exact h'
  | inr c => exact h'

theorem keeps_countUp {body : ℕ → Routine S τ Unit} {n : ℕ} (h : ∀ i < n, O.Keeps p F l (body i)) :
    O.Keeps p F l (Routine.countUp body n) := by
  intro t ht
  refine ensures_countUp (fun _ t' l' => F t' ∧ l' = l) ⟨ht, rfl⟩ ?_
  rintro i hi t' _ ⟨ht', rfl⟩
  exact h i hi t' ht'

/-- A routine on one part of the private data. -/
theorem keeps_focus {get : υ → τ} {put : τ → υ → υ} {m : Routine S τ α} {F' : υ → Prop}
    (hm : O.Keeps p F l m) (hget : ∀ u, F' u → F (get u))
    (hput : ∀ u t, F' u → F t → F' (put t u)) : O.Keeps p F' l (Routine.focus get put m) := by
  intro u hu
  rw [ensures_focus]
  refine ensures_mono (hm (get u) (hget u hu)) ?_
  rintro a t' _ ⟨ht', rfl⟩
  exact ⟨hput u t' hu ht', rfl⟩

end Outline

/-! ## Killing -/

/-- One step of a system whose processes may be killed at any moment.  Whatever is done for a process
that is no more, `settle` is the effect on the shared state. -/
inductive StepOrKill (M : Machine S σ) (ok : ℕ → S.Op → σ → Prop) (settle : ℕ → μ → σ → σ) :
    Config S σ → Config S σ → Prop
  /-- A process takes a step. -/
  | step {c d : Config S σ} (h : Step M ok c d) : StepOrKill M ok settle c d
  /-- A process is killed. -/
  | kill {c : Config S σ} (p : ℕ) :
      StepOrKill M ok settle c ⟨c.state, Function.update c.proc p (.ret ())⟩
  /-- Something is done for a process that has finished or been killed. -/
  | settle {c : Config S σ} {p : ℕ} (x : μ) (done : c.proc p = .ret ()) :
      StepOrKill M ok settle c ⟨settle p x c.state, c.proc⟩

/-- Reachability when processes may be killed. -/
abbrev ReachKilled (M : Machine S σ) (ok : ℕ → S.Op → σ → Prop) (settle : ℕ → μ → σ → σ) :
    Config S σ → Config S σ → Prop :=
  Relation.ReflTransGen (StepOrKill M ok settle)

/-- A run in which nobody is killed. -/
theorem Reach.killed {M : Machine S σ} {ok : ℕ → S.Op → σ → Prop} (settle : ℕ → μ → σ → σ)
    {c d : Config S σ} (h : Reach M ok c d) : ReachKilled M ok settle c d :=
  Relation.ReflTransGen.mono (fun _ _ => .step) _ _ h

namespace Outline

variable {M : Machine S σ} {Γ L : Type} {O : Outline M Γ L} {settle : ℕ → μ → σ → σ}

/-- **Soundness when processes may be killed.**  Cleaning up after a process must keep the invariant,
and the process may then know something else. -/
theorem reach_inv_killed {c d : Config S σ} {γ : Γ} {G : ℕ → L} (hinv : O.inv γ G c.state)
    (hwp : ∀ p, O.Wp p (c.proc p) (G p) fun _ _ => True)
    (hsettle : ∀ γ G s p x, O.inv γ G s →
      ∃ γ' l', O.inv γ' (Function.update G p l') (settle p x s))
    (h : ReachKilled M O.ok settle c d) :
    ∃ γ' G', O.inv γ' G' d.state ∧ ∀ p, O.Wp p (d.proc p) (G' p) fun _ _ => True := by
  induction h with
  | refl => exact ⟨γ, G, hinv, hwp⟩
  | tail _ hstep ih =>
    obtain ⟨γ', G', hinv', hwp'⟩ := ih
    cases hstep with
    | step h => exact step_inv (Q := fun _ _ => True) hinv' hwp' h
    | kill p =>
      refine ⟨γ', G', hinv', fun q => ?_⟩
      by_cases hq : q = p
      · subst hq; simp
      · simpa [hq] using hwp' q
    | @settle p x done =>
      obtain ⟨γ'', l', hinv''⟩ := hsettle γ' G' _ p x hinv'
      refine ⟨γ'', Function.update G' p l', hinv'', fun q => ?_⟩
      by_cases hq : q = p
      · subst hq; simp [done]
      · simpa [hq] using hwp' q

/-- What an outline shows of steps holds of every step taken in such a run. -/
theorem reach_obs_killed {c d : Config S σ} {γ : Γ} {G : ℕ → L} (hinv : O.inv γ G c.state)
    (hwp : ∀ p, O.Wp p (c.proc p) (G p) fun _ _ => True)
    (hsettle : ∀ γ G s p x, O.inv γ G s →
      ∃ γ' l', O.inv γ' (Function.update G p l') (settle p x s))
    (h : ReachKilled M O.ok settle c d) {q : ℕ} {o : S.Op} {k : S.Res o → Program S Unit}
    (next : d.proc q = .call o k) (allowed : O.ok q o d.state) : O.obs q o d.state := by
  obtain ⟨γ', G', hinv', hwp'⟩ := reach_inv_killed hinv hwp hsettle h
  have hq := hwp' q
  rw [next] at hq
  exact (hq γ' G' d.state hinv' rfl allowed).1

end Outline

end Concurrency
