import Psrdada.Concurrency.Program
import Mathlib.Data.Nat.Notation
import Mathlib.Logic.Relation

/-! # Interleaved execution

Processes are numbered by `ℕ` and run programs over one shared state.  A `Machine` says what an
operation of a process does to the state; an operation that is not enabled *blocks* its process.
`Step` lets any process take its next operation, so `Reach` ranges over every interleaving.

Steps are filtered by a condition `ok` on the process, its operation and the state before it: with
`fun _ _ _ => True` all runs are meant, otherwise the runs whose every step meets `ok`. -/

namespace Concurrency

variable {S : Signature} {σ : Type}

/-- How an operation of a process acts on the shared state; `none` while it blocks. -/
structure Machine (S : Signature) (σ : Type) where
  /-- The effect of an operation: its answer and the next state. -/
  exec : ℕ → (o : S.Op) → σ → Option (S.Res o × σ)

/-- A configuration: the shared state and what each process has left to do. -/
structure Config (S : Signature) (σ : Type) where
  /-- The shared state. -/
  state : σ
  /-- The remaining program of each process. -/
  proc : ℕ → Program S Unit

/-- One step of one process, subject to the condition `ok`. -/
inductive Step (M : Machine S σ) (ok : ℕ → S.Op → σ → Prop) :
    Config S σ → Config S σ → Prop
  /-- A process performs its next operation. -/
  | call {c : Config S σ} {p : ℕ} {o : S.Op} {k : S.Res o → Program S Unit} {r : S.Res o} {s : σ}
      (next : c.proc p = .call o k) (allowed : ok p o c.state)
      (done : M.exec p o c.state = some (r, s)) :
      Step M ok c ⟨s, Function.update c.proc p (k r)⟩
  /-- A process enters the next round of a loop. -/
  | unroll {c : Config S σ} {p : ℕ} {β τ : Type} {body : τ → Program S (τ ⊕ β)} {t : τ}
      {k : β → Program S Unit} (next : c.proc p = .loop body t k) :
      Step M ok c ⟨c.state, Function.update c.proc p (Program.unroll body t k)⟩

/-- Reachability by steps that all meet `ok`. -/
abbrev Reach (M : Machine S σ) (ok : ℕ → S.Op → σ → Prop) : Config S σ → Config S σ → Prop :=
  Relation.ReflTransGen (Step M ok)

/-- The condition every step meets. -/
abbrev anyStep : ℕ → S.Op → σ → Prop := fun _ _ _ => True

/-- A run under a stronger condition is a run under a weaker one. -/
theorem Reach.mono {M : Machine S σ} {ok ok' : ℕ → S.Op → σ → Prop}
    (h : ∀ p o s, ok p o s → ok' p o s) {c d : Config S σ} (hr : Reach M ok c d) :
    Reach M ok' c d := by
  refine Relation.ReflTransGen.mono (fun a b hab => ?_) _ _ hr
  cases hab with
  | call next allowed done => exact .call next (h _ _ _ allowed) done
  | unroll next => exact .unroll next

/-! ## Executing a schedule -/

/-- Let one program run for at most `n` steps: what is left of it and the state, when it neither
blocks nor stops before. -/
def Machine.burst (M : Machine S σ) (p : ℕ) : ℕ → Program S Unit → σ → Option (Program S Unit × σ)
  | 0, q, s => some (q, s)
  | _ + 1, .ret _, _ => none
  | n + 1, .call o k, s =>
    match M.exec p o s with
    | some (r, s') => M.burst p n (k r) s'
    | none => none
  | n + 1, .loop body t k, s => M.burst p n (Program.unroll body t k) s

/-- Run a schedule: each entry gives a process a number of steps. -/
def Machine.schedule (M : Machine S σ) : List (ℕ × ℕ) → Config S σ → Option (Config S σ)
  | [], c => some c
  | (p, n) :: rest, c =>
    match M.burst p n (c.proc p) c.state with
    | some (q, s) => M.schedule rest ⟨s, Function.update c.proc p q⟩
    | none => none

/-- What a burst does is a run of the system. -/
theorem Machine.reach_of_burst {M : Machine S σ} {p n : ℕ} {q : Program S Unit} {s : σ}
    {c : Config S σ} (h : M.burst p n (c.proc p) c.state = some (q, s)) :
    Reach M anyStep c ⟨s, Function.update c.proc p q⟩ := by
  induction n generalizing c with
  | zero =>
    simp only [Machine.burst, Option.some.injEq, Prod.mk.injEq] at h
    obtain ⟨rfl, rfl⟩ := h
    rw [Function.update_eq_self]
  | succ n ih =>
    generalize hq : c.proc p = prog at h
    cases prog with
    | ret a => simp [Machine.burst] at h
    | call o k =>
      cases he : M.exec p o c.state with
      | none => simp [Machine.burst, he] at h
      | some rs =>
        simp only [Machine.burst, he] at h
        have hrun := ih (c := ⟨rs.2, Function.update c.proc p (k rs.1)⟩) (by simpa using h)
        rw [Function.update_idem] at hrun
        exact .head (.call hq trivial he) hrun
    | loop body t k =>
      simp only [Machine.burst] at h
      have hrun := ih (c := ⟨c.state, Function.update c.proc p (Program.unroll body t k)⟩)
        (by simpa using h)
      rw [Function.update_idem] at hrun
      exact .head (.unroll hq) hrun

/-- What a schedule reaches is reachable. -/
theorem Machine.reach_of_schedule {M : Machine S σ} {sched : List (ℕ × ℕ)} {c d : Config S σ}
    (h : M.schedule sched c = some d) : Reach M anyStep c d := by
  induction sched generalizing c with
  | nil =>
    obtain rfl : c = d := by simpa [Machine.schedule] using h
    exact .refl
  | cons pn rest ih =>
    cases hb : M.burst pn.1 pn.2 (c.proc pn.1) c.state with
    | none => simp [Machine.schedule, hb] at h
    | some qs =>
      simp only [Machine.schedule, hb] at h
      exact (Machine.reach_of_burst hb).trans (ih h)

/-- A property of the configuration that a schedule ends in holds of a reachable one. -/
theorem Machine.exists_reach_of_schedule {M : Machine S σ} {c : Config S σ} {P : Config S σ → Prop}
    [DecidablePred P] (sched : List (ℕ × ℕ)) (h : (M.schedule sched c).any (fun d => P d) = true) :
    ∃ d, Reach M anyStep c d ∧ P d := by
  cases hs : M.schedule sched c with
  | none => simp [hs] at h
  | some d => exact ⟨d, Machine.reach_of_schedule hs, by simpa [hs] using h⟩

end Concurrency
