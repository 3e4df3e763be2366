import Mathlib.Logic.Function.Iterate
import Mathlib.Data.Int.Notation
import Mathlib.Data.Nat.Notation

/-! # Calendars

A calendar tells from one date the next.  The Julian and the Gregorian calendar have the same months and
differ in their leap years only.  A day count gives the Julian date by division; the Gregorian date of a
day is the Julian date of a count that leaves out a number for each leap day that the Gregorian calendar
drops. -/

namespace Psrdada

/-! ## Dates -/

/-- A calendar date; the months are counted from 1. -/
structure Date where
  year : ℤ
  month : ℕ
  day : ℕ
  deriving DecidableEq, Repr

/-- A calendar tells which years have a leap day. -/
abbrev LeapRule := ℤ → Bool

/-- Every fourth year has a leap day. -/
def julianLeap : LeapRule := fun year => year % 4 == 0

/-- Every fourth year has a leap day, a century only where 400 divides it. -/
def gregorianLeap : LeapRule := fun year => year % 4 == 0 && (year % 100 != 0 || year % 400 == 0)

/-- The number of days of a month. -/
def daysInMonth (leap : Bool) (month : ℕ) : ℕ :=
  if month = 2 then if leap then 29 else 28
  else if month = 4 ∨ month = 6 ∨ month = 9 ∨ month = 11 then 30
  else 31

namespace Date

/-- The date is one of the calendar. -/
structure Valid (leap : LeapRule) (d : Date) : Prop where
  month_pos : 1 ≤ d.month
  month_le : d.month ≤ 12
  day_pos : 1 ≤ d.day
  day_le : d.day ≤ daysInMonth (leap d.year) d.month

/-- The date of the next day. -/
def next (leap : LeapRule) (d : Date) : Date :=
  if d.day < daysInMonth (leap d.year) d.month then { d with day := d.day + 1 }
  else if d.month < 12 then { d with month := d.month + 1, day := 1 }
  else { year := d.year + 1, month := 1, day := 1 }

variable {leap leap' : LeapRule} {d : Date}

theorem one_le_daysInMonth (b : Bool) (month : ℕ) : 1 ≤ daysInMonth b month := by
  unfold daysInMonth
  split
  · split <;> omega
  · split <;> omega

/-- The next day has a date of the calendar. -/
theorem Valid.next (h : d.Valid leap) : (d.next leap).Valid leap := by
  obtain ⟨hm, hm', hd, -⟩ := h
  unfold Date.next
  split
  · next hlt => exact ⟨hm, hm', Nat.succ_pos _, hlt⟩
  · split
    · next hlt => exact ⟨Nat.succ_pos _, hlt, Nat.le_refl 1, one_le_daysInMonth _ _⟩
    · exact ⟨Nat.le_refl 1, Nat.le_of_ble_eq_true rfl, Nat.le_refl 1, one_le_daysInMonth _ _⟩

/-- All later days have dates of the calendar. -/
theorem Valid.iterate (h : d.Valid leap) (n : ℕ) : ((Date.next leap)^[n] d).Valid leap := by
  induction n with
  | zero => exact h
  | succ n ih =>
    rw [Function.iterate_succ_apply']
    exact ih.next

/-- The same day of another year. -/
def shift (years : ℤ) (d : Date) : Date := { d with year := d.year + years }

@[simp] theorem shift_zero (d : Date) : d.shift 0 = d := by
  simp only [shift, Int.add_zero]

@[simp] theorem shift_shift (a b : ℤ) (d : Date) : (d.shift a).shift b = d.shift (a + b) := by
  simp only [shift, Int.add_assoc]

/-- The dates repeat where the leap years do. -/
theorem next_shift {years : ℤ} (h : ∀ year, leap (year + years) = leap year) (d : Date) :
    (d.shift years).next leap = (d.next leap).shift years := by
  simp only [shift]
  simp only [next, h]
  split
  · rfl
  · split
    · rfl
    · simp only [Int.add_right_comm]

/-- Two calendars give the same next day in a year that has a leap day in both or in neither. -/
theorem next_congr (h : leap d.year = leap' d.year) : d.next leap = d.next leap' := by
  simp only [next, h]

/-- Two calendars give the same next day before the end of February and from March on. -/
theorem next_eq_of_lt (h : d.month = 2 → d.day < 28) : d.next leap = d.next leap' := by
  by_cases hm : d.month = 2
  · have hlt : ∀ b, d.day < daysInMonth b d.month := fun b => by
      have := h hm
      rw [daysInMonth, if_pos hm]
      split <;> omega
    simp only [next, if_pos (hlt _)]
  · simp only [next, daysInMonth, if_neg hm]

end Date

/-! ## The Julian date of a day count -/

/-- The Julian date of day `x`, where day 0 is 1 January 4713 BC (the year −4712).  Four years have 1461
days, and five months from March on have 153. -/
def julianDate (x : ℕ) : Date where
  year := (4 * x / 1461 : ℕ) - 4712
  month := ((10 * ((4 * x + 1224) % 1461 / 4) + 5) / 306 + 2) % 12 + 1
  day := (10 * ((4 * x + 1224) % 1461 / 4) + 5) % 306 / 10 + 1

/-- The dates repeat every four years. -/
theorem julianDate_add (q r : ℕ) : julianDate (1461 * q + r) = (julianDate r).shift (4 * q) := by
  have hyear : 4 * (1461 * q + r) / 1461 = 4 * q + 4 * r / 1461 := by omega
  have hday : (4 * (1461 * q + r) + 1224) % 1461 = (4 * r + 1224) % 1461 := by omega
  have hshift : ((4 * q + 4 * r / 1461 : ℕ) : ℤ) - 4712 = (4 * r / 1461 : ℕ) - 4712 + 4 * q := by omega
  unfold julianDate Date.shift
  rw [hyear, hday, hshift]

theorem julianLeap_add (year q : ℤ) : julianLeap (year + 4 * q) = julianLeap year := by
  rw [julianLeap, julianLeap, show (year + 4 * q) % 4 = year % 4 by omega]

/-- The first four years, one day at a time. -/
theorem julianDate_succ_of_lt : ∀ r < 1461, julianDate (r + 1) = (julianDate r).next julianLeap := by
  decide +kernel

/-- **Consecutive days have consecutive Julian dates.** -/
theorem julianDate_succ (x : ℕ) : julianDate (x + 1) = (julianDate x).next julianLeap := by
  have hx : 1461 * (x / 1461) + x % 1461 = x := Nat.div_add_mod x 1461
  calc julianDate (x + 1)
      = julianDate (1461 * (x / 1461) + (x % 1461 + 1)) := by rw [← Nat.add_assoc, hx]
    _ = ((julianDate (x % 1461)).next julianLeap).shift (4 * (x / 1461 : ℕ)) := by
        rw [julianDate_add, julianDate_succ_of_lt _ (Nat.mod_lt _ (Nat.succ_pos _))]
    _ = ((julianDate (x % 1461)).shift (4 * (x / 1461 : ℕ))).next julianLeap :=
        (Date.next_shift (fun year => julianLeap_add year _) _).symm
    _ = (julianDate x).next julianLeap := by rw [← julianDate_add, hx]

/-! ## The days that the Gregorian calendar drops -/

/-- Day `x` would be in a century year that has no leap day in the Gregorian calendar. -/
def InCommonCentury (x : ℕ) : Prop := x / 1461 % 25 = 3 ∧ x / 1461 % 100 ≠ 78

/-- The last days of February in the first four years: the 28th and 29th of a leap year are days 58 and 59. -/
theorem february_of_lt : ∀ r < 1461, r ≠ 58 → r ≠ 59 →
    ((julianDate r).month = 2 → (julianDate r).day < 28) ∨ (julianDate r).year % 4 ≠ 0 := by
  decide +kernel

/-- Away from a dropped leap day the two calendars go on alike. -/
theorem julianDate_next_gregorian {x : ℕ} (h : InCommonCentury x → x % 1461 ≠ 58 ∧ x % 1461 ≠ 59) :
    (julianDate x).next gregorianLeap = julianDate (x + 1) := by
  rw [julianDate_succ]
  have hx : julianDate x = (julianDate (x % 1461)).shift (4 * (x / 1461 : ℕ)) := by
    rw [← julianDate_add, Nat.div_add_mod]
  by_cases hr : x % 1461 = 58 ∨ x % 1461 = 59
  · have hcommon : ¬ InCommonCentury x := fun hc => hr.elim (h hc).1 (h hc).2
    have hyear : (julianDate x).year = 4 * (x / 1461 : ℕ) - 4712 := by
      simp only [julianDate]; omega
    apply Date.next_congr
    rw [hyear, Bool.eq_iff_iff]
    simp only [gregorianLeap, julianLeap, Bool.and_eq_true, Bool.or_eq_true, beq_iff_eq, bne_iff_ne]
    unfold InCommonCentury at hcommon
    omega
  · obtain ⟨h58, h59⟩ := not_or.1 hr
    obtain hfeb | hyear := february_of_lt _ (Nat.mod_lt x (Nat.succ_pos _)) h58 h59
    · apply Date.next_eq_of_lt
      rw [hx]
      exact hfeb
    · have hyear : (julianDate x).year % 4 ≠ 0 := by
        rw [hx]
        simp only [Date.shift]
        omega
      apply Date.next_congr
      rw [Bool.eq_iff_iff]
      simp only [gregorianLeap, julianLeap, Bool.and_eq_true, beq_iff_eq, hyear, false_and]

/-- At a dropped leap day the Gregorian calendar goes on to March. -/
theorem julianDate_next_gregorian_of_common {x : ℕ} (h : InCommonCentury x) (hr : x % 1461 = 58) :
    (julianDate x).next gregorianLeap = julianDate (x + 2) := by
  obtain ⟨q, rfl⟩ : ∃ q, x = 1461 * q + 58 := ⟨x / 1461, by omega⟩
  have hleap : gregorianLeap (4 * q - 4712) = false := by
    unfold InCommonCentury at h
    rw [Bool.eq_false_iff, ne_eq]
    simp only [gregorianLeap, Bool.and_eq_true, Bool.or_eq_true, beq_iff_eq, bne_iff_ne]
    omega
  have h58 : julianDate 58 = ⟨-4712, 2, 28⟩ := by decide
  have h60 : julianDate 60 = ⟨-4712, 3, 1⟩ := by decide
  rw [Nat.add_assoc, julianDate_add, julianDate_add, h58, h60]
  have hyear : (-4712 + 4 * (q : ℤ)) = 4 * q - 4712 := by omega
  simp only [Date.next, Date.shift, hyear, hleap]
  rfl

end Psrdada
