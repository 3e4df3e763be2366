import Mathlib.Data.Nat.Notation
import Mathlib.Order.Basic

/-! # Fair schedules

Parties that take turns on a common state, in an order that a schedule gives.  What every step keeps holds
from then on (`run_stable`), and where a step of one party leads from one such condition to another, every
schedule leads there that gives this party a turn again and again (`Fair.leads`). -/

namespace Fairness

variable {ι σ : Type*} (step : ι → σ → σ) (w : ℕ → ι)

/-- The state after `n` turns. -/
def run (s : σ) : ℕ → σ
  | 0 => s
  | n + 1 => step (w n) (run s n)

/-- Every party gets a turn again and again. -/
def Fair : Prop := ∀ i n, ∃ m, n ≤ m ∧ w m = i

/-- A condition that every step keeps. -/
def Stable (P : σ → Prop) : Prop := ∀ i s, P s → P (step i s)

variable {step w} {P Q : σ → Prop} {s : σ}

/-- What every step keeps holds from then on. -/
theorem run_stable (h : Stable step P) {n m : ℕ} (hle : n ≤ m) (hn : P (run step w s n)) :
    P (run step w s m) := by
  induction hle with
  | refl => exact hn
  | step _ ih => exact h _ _ ih

/-- The step of one party that leads from one condition to the next is taken some time. -/
theorem Fair.leads (hw : Fair w) (hP : Stable step P) {i : ι} (hstep : ∀ s, P s → Q (step i s)) {n : ℕ}
    (hn : P (run step w s n)) : ∃ m, n ≤ m ∧ Q (run step w s m) := by
  obtain ⟨m, hle, hm⟩ := hw i n
  refine ⟨m + 1, Nat.le_succ_of_le hle, ?_⟩
  show Q (step (w m) (run step w s m))
  rw [hm]
  exact hstep _ (run_stable hP hle hn)

end Fairness
