import Mathlib.Logic.Relation

/-! # Runs of a labelled step function

A system whose steps are given by a partial function of the state and of a label.  As for `Reach`, steps
are filtered by a condition on the state before a step and on its label. -/

namespace Concurrency

variable {σ μ : Type}

/-- Reachability by steps that all meet `ok`. -/
abbrev Reached (step : σ → μ → Option σ) (ok : σ → μ → Prop) : σ → σ → Prop :=
  Relation.ReflTransGen fun s s' => ∃ m, ok s m ∧ step s m = some s'

variable {step : σ → μ → Option σ} {ok : σ → μ → Prop} {I : σ → Prop} {s s' : σ}

/-- What every step preserves holds in every state that is reached. -/
theorem Reached.invariant (h : Reached step ok s s') (hinit : I s)
    (hstep : ∀ t m t', I t → ok t m → step t m = some t' → I t') : I s' := by
  induction h with
  | refl => exact hinit
  | tail _ hlast ih =>
    obtain ⟨m, hok, hdone⟩ := hlast
    exact hstep _ m _ ih hok hdone

/-- What a list of labels leads to is reached, when each label meets `ok`. -/
theorem reached_of_foldlM [∀ s m, Decidable (ok s m)] {moves : List μ}
    (h : moves.foldlM (fun s m => if ok s m then step s m else none) s = some s') :
    Reached step ok s s' := by
  induction moves generalizing s with
  | nil =>
    obtain rfl : s = s' := by simpa using h
    exact .refl
  | cons m moves ih =>
    rw [List.foldlM_cons] at h
    by_cases hok : ok s m
    · cases hm : step s m with
      | none => simp [hok, hm] at h
      | some t =>
        simp only [hok, if_true, hm] at h
        exact .head ⟨m, hok, hm⟩ (ih h)
    · simp [hok] at h

/-- A property of the state that a list of labels leads to holds of one that is reached. -/
theorem exists_reached_of_foldlM (step : σ → μ → Option σ) (ok : σ → μ → Prop)
    [∀ s m, Decidable (ok s m)] (P : σ → Bool) (s : σ) (moves : List μ)
    (h : (moves.foldlM (fun s m => if ok s m then step s m else none) s).any P = true) :
    ∃ s', Reached step ok s s' ∧ P s' = true := by
  cases hrun : moves.foldlM (fun s m => if ok s m then step s m else none) s with
  | none => simp [hrun] at h
  | some s' => exact ⟨s', reached_of_foldlM hrun, by simpa [hrun] using h⟩

end Concurrency
