import Mathlib.Logic.Basic

/-! # Sequences of calls and the values they stand for

A data structure is changed by calls that can fail; a model of it is a value on which every call has a
result.  Where a single call does on a structure what it does on the value that the structure stands for
exactly under a condition on the value, a whole sequence of calls does so exactly when every call meets
the condition on the value that the calls before it have made. -/

namespace Calls

/-- A data structure `σ`, the values `μ` that it stands for, and the calls on both. -/
structure Structure (κ ρ σ μ : Type*) where
  /-- The call on the structure: none when it goes wrong. -/
  run : κ → σ → Option (ρ × σ)
  /-- The call on the value. -/
  onModel : κ → μ → ρ × μ
  /-- The structure stands for the value. -/
  Represents : σ → μ → Prop
  /-- The condition under which the two calls agree. -/
  Meets : κ → μ → Prop

namespace Structure

variable {κ ρ σ μ : Type*} (S : Structure κ ρ σ μ)

/-- One call returns what it returns on the value and leaves the structure standing for the value that
the call makes. -/
def Refines (call : κ) (s : σ) (m : μ) : Prop :=
  ∃ s', S.run call s = some ((S.onModel call m).1, s') ∧ S.Represents s' (S.onModel call m).2

/-- The calls of a sequence, one after the other, do what they do on the value. -/
def Agrees : σ → μ → List κ → Prop
  | s, m, [] => S.Represents s m
  | s, m, call :: calls =>
    S.Represents s m ∧ ∃ s', S.run call s = some ((S.onModel call m).1, s') ∧
      Agrees s' (S.onModel call m).2 calls

/-- Every call of a sequence meets the condition on the value that it finds. -/
def MeetAll : μ → List κ → Prop
  | _, [] => True
  | m, call :: calls => S.Meets call m ∧ MeetAll (S.onModel call m).2 calls

variable {S}

theorem Agrees.represents {s : σ} {m : μ} {calls : List κ} (h : S.Agrees s m calls) :
    S.Represents s m := by
  cases calls with
  | nil => exact h
  | cons call calls => exact h.1

/-- What holds of every single call holds of every sequence. -/
theorem agrees_iff_of_refines_iff (hcall : ∀ {s m}, S.Represents s m → ∀ call, S.Refines call s m ↔ S.Meets call m)
    (calls : List κ) : ∀ {s : σ} {m : μ}, S.Represents s m → (S.Agrees s m calls ↔ S.MeetAll m calls) := by
  induction calls with
  | nil => exact fun h => iff_of_true h trivial
  | cons call calls ih =>
    intro s m h
    constructor
    · rintro ⟨-, s', hrun, hagrees⟩
      exact ⟨(hcall h call).mp ⟨s', hrun, hagrees.represents⟩, (ih hagrees.represents).mp hagrees⟩
    · rintro ⟨hmeets, hall⟩
      obtain ⟨s', hrun, hrep⟩ := (hcall h call).mpr hmeets
      exact ⟨h, s', hrun, (ih hrep).mpr hall⟩

end Structure

end Calls
