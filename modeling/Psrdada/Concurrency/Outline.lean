import Psrdada.Concurrency.System

/-! # Proof outlines with ghost state

A proof about all interleavings is an *outline*: an invariant `inv γ G s` that relates the shared
state `s` to a shared ghost `γ` and to one ghost value `G p` for each process `p`.  A process may
change its own ghost value and the shared one at each of its operations, and nobody changes the
value of another process, so what a process knows of itself needs no stability argument.

`Outline.Wp` is the weakest precondition of a program under an outline, with one rule for each
program constructor.  `Outline.reach_inv` is the soundness theorem: when every process meets its
weakest precondition, the invariant holds in every reachable configuration. -/

namespace Concurrency

variable {S : Signature} {σ : Type} {M : Machine S σ}

/-- A proof outline for a machine, with shared ghosts in `Γ` and process ghosts in `L`. -/
structure Outline (M : Machine S σ) (Γ L : Type) where
  /-- What is assumed of every step: process, operation, state before. -/
  ok : ℕ → S.Op → σ → Prop
  /-- The invariant of the shared ghost, the process ghosts and the shared state. -/
  inv : Γ → (ℕ → L) → σ → Prop
  /-- What is shown of every step, beyond that it keeps the invariant. -/
  obs : ℕ → S.Op → σ → Prop

namespace Outline

variable {Γ L : Type} (O : Outline M Γ L) (p : ℕ) {α β τ υ : Type}

/-- The weakest precondition of a program of process `p` whose ghost value is `l`: each operation
keeps the invariant for some new ghosts, and `Q` holds of the value and of the ghost value at the
end. -/
def Wp : {α : Type} → Program S α → L → (α → L → Prop) → Prop
  | _, .ret a, l, Q => Q a l
  | _, .call o k, l, Q => ∀ γ G s, O.inv γ G s → G p = l → O.ok p o s → O.obs p o s ∧
      ∀ r s', M.exec p o s = some (r, s') →
        ∃ γ' l', O.inv γ' (Function.update G p l') s' ∧ Wp (k r) l' Q
  | _, .loop (τ := τ) body t k, l, Q => ∃ I : τ → L → Prop, I t l ∧
      ∀ t l, I t l → Wp (body t) l fun x l' =>
        match x with
        | .inl t' => I t' l'
        | .inr b => Wp (k b) l' Q

variable {O p}

@[simp] theorem wp_ret {a : α} {l : L} {Q : α → L → Prop} :
    O.Wp p (.ret a : Program S α) l Q ↔ Q a l := Iff.rfl

/-- The rule of an operation. -/
theorem wp_call {o : S.Op} {k : S.Res o → Program S α} {l : L} {Q : α → L → Prop} :
    O.Wp p (.call o k) l Q ↔ ∀ γ G s, O.inv γ G s → G p = l → O.ok p o s → O.obs p o s ∧
      ∀ r s', M.exec p o s = some (r, s') →
        ∃ γ' l', O.inv γ' (Function.update G p l') s' ∧ O.Wp p (k r) l' Q := Iff.rfl

/-- The rule of a loop: an invariant of the loop's value and the ghost value. -/
theorem wp_loop {body : τ → Program S (τ ⊕ β)} {t : τ} {k : β → Program S α} {l : L}
    {Q : α → L → Prop} (I : τ → L → Prop) (start : I t l)
    (round : ∀ t l, I t l → O.Wp p (body t) l fun x l' =>
      match x with
      | .inl t' => I t' l'
      | .inr b => O.Wp p (k b) l' Q) :
    O.Wp p (.loop body t k) l Q :=
  ⟨I, start, round⟩

/-- Weakening the postcondition. -/
theorem wp_mono {m : Program S α} {l : L} {Q Q' : α → L → Prop}
    (h : O.Wp p m l Q) (hQ : ∀ a l, Q a l → Q' a l) : O.Wp p m l Q' := by
  induction m generalizing l with
  | ret a => exact hQ a l h
  | call o k ih =>
    intro γ G s hinv hl hok
    obtain ⟨hobs, hnext⟩ := h γ G s hinv hl hok
    refine ⟨hobs, fun r s' he => ?_⟩
    obtain ⟨γ', l', hinv', hk⟩ := hnext r s' he
    exact ⟨γ', l', hinv', ih r hk hQ⟩
  | loop body t k ihbody ihk =>
    obtain ⟨I, hI, hround⟩ := h
    refine ⟨I, hI, fun t l ht => ihbody t (hround t l ht) fun x l' hx => ?_⟩
    cases x with
    | inl t' => exact hx
    | inr b => exact ihk b hx hQ

/-- The rule of sequential composition. -/
theorem wp_bind {m : Program S α} {f : α → Program S β} {l : L} {Q : β → L → Prop} :
    O.Wp p (m >>= f) l Q ↔ O.Wp p m l fun a l' => O.Wp p (f a) l' Q := by
  induction m generalizing l with
  | ret a => rfl
  | call o k ih => simp only [Program.call_bind, wp_call, ih]
  | loop body t k ihbody ihk =>
    simp only [Program.loop_bind, Wp]
    constructor
    all_goals
      rintro ⟨I, hI, hround⟩
      refine ⟨I, hI, fun t l ht => wp_mono (hround t l ht) fun x l' hx => ?_⟩
      cases x with
      | inl t' => exact hx
      | inr b => first | exact (ihk b).mp hx | exact (ihk b).mpr hx

/-- A loop meets a weakest precondition exactly when its next round does. -/
theorem wp_unroll {body : τ → Program S (τ ⊕ β)} {t : τ} {k : β → Program S α} {l : L}
    {Q : α → L → Prop} (h : O.Wp p (.loop body t k) l Q) :
    O.Wp p (Program.unroll body t k) l Q := by
  obtain ⟨I, hI, hround⟩ := h
  rw [Program.unroll, wp_bind]
  refine wp_mono (hround t l hI) fun x l' hx => ?_
  cases x with
  | inl t' => exact ⟨I, hx, hround⟩
  | inr b => exact hx

/-! ## Routines -/

variable (O p) in
/-- A routine of process `p` with private data `t` and ghost value `l` ensures `Q` of its value,
of the private data and of the ghost value at the end. -/
def Ensures (m : Routine S τ α) (t : τ) (l : L) (Q : α → τ → L → Prop) : Prop :=
  O.Wp p (m.run t) l fun x l' => Q x.1 x.2 l'

section Ensures

variable {t : τ} {l : L} {Q : α → τ → L → Prop}

/-- The weakest precondition of a process that runs a routine. -/
theorem wp_start {m : Routine S τ Unit} {Q : Unit → τ → L → Prop} {Q' : L → Prop}
    (h : O.Ensures p m t l Q) (hQ : ∀ t l, Q () t l → Q' l) :
    O.Wp p (m.start t) l fun _ => Q' := by
  rw [Routine.start, wp_bind]
  exact wp_mono h fun x l' hx => hQ x.2 l' hx

theorem ensures_mono {m : Routine S τ α} {Q' : α → τ → L → Prop} (h : O.Ensures p m t l Q)
    (hQ : ∀ a t' l', Q a t' l' → Q' a t' l') : O.Ensures p m t l Q' :=
  wp_mono h fun x l' => hQ x.1 x.2 l'

theorem ensures_bind {m : Routine S τ β} {f : β → Routine S τ α} :
    O.Ensures p (m >>= f) t l Q ↔
      O.Ensures p m t l fun b t' l' => O.Ensures p (f b) t' l' Q :=
  wp_bind

theorem ensures_pure {a : α} : O.Ensures p (pure a : Routine S τ α) t l Q ↔ Q a t l := Iff.rfl

theorem ensures_get {Q : τ → τ → L → Prop} :
    O.Ensures p (get : Routine S τ τ) t l Q ↔ Q t t l := Iff.rfl

theorem ensures_modify {f : τ → τ} {Q : PUnit → τ → L → Prop} :
    O.Ensures p (modify f : Routine S τ PUnit) t l Q ↔ Q ⟨⟩ (f t) l := Iff.rfl

/-- The rule of an operation. -/
theorem ensures_perform {o : S.Op} {Q : S.Res o → τ → L → Prop} :
    O.Ensures p (Routine.perform o) t l Q ↔
      ∀ γ G s, O.inv γ G s → G p = l → O.ok p o s → O.obs p o s ∧
        ∀ r s', M.exec p o s = some (r, s') →
          ∃ γ' l', O.inv γ' (Function.update G p l') s' ∧ Q r t l' := Iff.rfl

/-- The rule of `Routine.countUp`: an invariant indexed by the number of rounds done. -/
theorem ensures_countUp {body : ℕ → Routine S τ Unit} {n : ℕ} (I : ℕ → τ → L → Prop)
    (start : I 0 t l)
    (round : ∀ i < n, ∀ t l, I i t l → O.Ensures p (body i) t l fun _ => I (i + 1)) :
    O.Ensures p (Routine.countUp body n) t l fun _ => I n := by
  induction n with
  | zero => exact start
  | succ n ih =>
    rw [Routine.countUp, ensures_bind]
    exact ensures_mono (ih fun i hi => round i (Nat.lt_succ_of_lt hi)) fun _ t' l' h =>
      round n n.lt_succ_self t' l' h

/-- The rule of `Routine.iterate`: an invariant of the loop's value and the private data. -/
theorem ensures_iterate {body : β → Routine S τ (β ⊕ α)} {b : β} (I : β → τ → L → Prop)
    (start : I b t l)
    (round : ∀ b t l, I b t l → O.Ensures p (body b) t l fun x t' l' =>
      match x with
      | .inl b' => I b' t' l'
      | .inr a => Q a t' l') :
    O.Ensures p (Routine.iterate body b) t l Q := by
  refine wp_loop (fun bt => I bt.1 bt.2) start fun bt l hbt => ?_
  rw [wp_bind]
  refine wp_mono (round bt.1 bt.2 l hbt) fun x l' hx => ?_
  obtain ⟨x | x, t'⟩ := x
  · exact hx
  · exact hx

/-- The rule of `Routine.focus`: the rest of the private data is left alone. -/
theorem ensures_focus {get : υ → τ} {put : τ → υ → υ} {m : Routine S τ α} {u : υ}
    {Q : α → υ → L → Prop} :
    O.Ensures p (Routine.focus get put m) u l Q ↔
      O.Ensures p m (get u) l fun a t' l' => Q a (put t' u) l' := by
  simp only [Ensures, Routine.focus, StateT.run, wp_bind, Program.pure_eq, wp_ret]

end Ensures

/-! ## Soundness -/

/-- A step of the system keeps the invariant and every process's weakest precondition. -/
theorem step_inv {Q : ℕ → L → Prop} {c d : Config S σ} {γ : Γ} {G : ℕ → L}
    (hinv : O.inv γ G c.state) (hwp : ∀ p, O.Wp p (c.proc p) (G p) fun _ => Q p)
    (h : Step M O.ok c d) :
    ∃ γ' G', O.inv γ' G' d.state ∧ ∀ p, O.Wp p (d.proc p) (G' p) fun _ => Q p := by
  cases h with
  | @call p o k r s next allowed done =>
    have hp := hwp p
    rw [next] at hp
    obtain ⟨γ', l', hinv', hk⟩ := (hp γ G c.state hinv rfl allowed).2 r s done
    refine ⟨γ', Function.update G p l', hinv', fun q => ?_⟩
    by_cases hq : q = p
    · subst hq; simpa using hk
    · simpa [hq] using hwp q
  | @unroll p β τ body t k next =>
    have hp := hwp p
    rw [next] at hp
    refine ⟨γ, G, hinv, fun q => ?_⟩
    by_cases hq : q = p
    · subst hq; simpa using wp_unroll hp
    · simpa [hq] using hwp q

/-- **Soundness.** When the invariant holds at first and every process meets its weakest
precondition, both hold in every reachable configuration. -/
theorem reach_inv {Q : ℕ → L → Prop} {c d : Config S σ} {γ : Γ} {G : ℕ → L}
    (hinv : O.inv γ G c.state) (hwp : ∀ p, O.Wp p (c.proc p) (G p) fun _ => Q p)
    (h : Reach M O.ok c d) :
    ∃ γ' G', O.inv γ' G' d.state ∧ ∀ p, O.Wp p (d.proc p) (G' p) fun _ => Q p := by
  induction h with
  | refl => exact ⟨γ, G, hinv, hwp⟩
  | tail _ hstep ih =>
    obtain ⟨γ', G', hinv', hwp'⟩ := ih
    exact step_inv hinv' hwp' hstep

/-- What an outline shows of steps holds of every step taken from a reachable configuration. -/
theorem reach_obs {Q : ℕ → L → Prop} {c d : Config S σ} {γ : Γ} {G : ℕ → L}
    (hinv : O.inv γ G c.state) (hwp : ∀ p, O.Wp p (c.proc p) (G p) fun _ => Q p)
    (h : Reach M O.ok c d) {q : ℕ} {o : S.Op} {k : S.Res o → Program S Unit}
    (next : d.proc q = .call o k) (allowed : O.ok q o d.state) : O.obs q o d.state := by
  obtain ⟨γ', G', hinv', hwp'⟩ := reach_inv hinv hwp h
  have hq := hwp' q
  rw [next] at hq
  exact (hq γ' G' d.state hinv' rfl allowed).1

end Outline

/-! ## Roles -/

section Exclusive

variable {L : Type} {role : L → Prop} {G : ℕ → L} {free : ℕ} {rest rest' : Prop} {p : ℕ} {l : L}

/-- A role that at most one process has, guarded by a counter: the counter is `1`, nobody has the
role and `rest` holds, or it is `0` and exactly one process has the role. -/
def Exclusive (role : L → Prop) (G : ℕ → L) (free : ℕ) (rest : Prop) : Prop :=
  (free = 1 ∧ rest ∧ ∀ p, ¬ role (G p)) ∨ (free = 0 ∧ ∃ p, role (G p) ∧ ∀ q, role (G q) → q = p)

theorem Exclusive.free_eq_zero (h : Exclusive role G free rest) (hp : role (G p)) : free = 0 := by
  rcases h with ⟨-, -, hnone⟩ | ⟨h, -⟩
  · exact absurd hp (hnone p)
  · exact h

theorem Exclusive.rest_of_free (h : Exclusive role G free rest) (hf : free ≠ 0) :
    free = 1 ∧ rest := by
  rcases h with ⟨h, hrest, -⟩ | ⟨h, -⟩
  · exact ⟨h, hrest⟩
  · exact absurd h hf

theorem Exclusive.unique (h : Exclusive role G free rest) {q : ℕ} (hp : role (G p))
    (hq : role (G q)) : p = q := by
  rcases h with ⟨-, -, hnone⟩ | ⟨-, w, -, huniq⟩
  · exact absurd hp (hnone p)
  · rw [huniq p hp, huniq q hq]

/-- A process that does not change its role. -/
theorem Exclusive.keep (h : Exclusive role G free rest) (hp : role (G p) ↔ role l)
    (hrest : free = 1 → rest → rest') : Exclusive role (Function.update G p l) free rest' := by
  have hrole : ∀ q, role (Function.update G p l q) ↔ role (G q) := fun q => by
    by_cases hq : q = p
    · subst hq; simp [hp]
    · simp [hq]
  simp only [Exclusive, hrole]
  rcases h with ⟨h, hr, hnone⟩ | h
  · exact .inl ⟨h, hrest h hr, hnone⟩
  · exact .inr h

/-- A process takes the role. -/
theorem Exclusive.acquire (h : Exclusive role G free rest) (hf : free ≠ 0) (hl : role l) :
    Exclusive role (Function.update G p l) 0 rest' := by
  rcases h with ⟨-, -, hnone⟩ | ⟨h, -⟩
  · refine .inr ⟨rfl, p, by simpa using hl, fun q hq => ?_⟩
    by_contra hne
    exact hnone q (by simpa [hne] using hq)
  · exact absurd h hf

/-- A process gives the role back. -/
theorem Exclusive.release (h : Exclusive role G free rest) (hp : role (G p)) (hl : ¬ role l)
    (hrest : rest') : Exclusive role (Function.update G p l) 1 rest' := by
  refine .inl ⟨rfl, hrest, fun q hq => ?_⟩
  by_cases hne : q = p
  · subst hne; exact hl (by simpa using hq)
  · exact hne (h.unique (by simpa [hne] using hq) hp)

end Exclusive

end Concurrency
