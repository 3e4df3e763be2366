import Psrdada.Time.Arithmetic
import Psrdada.Time.Calendar

/-! # `mjd2utctm` (`tmutil.c`): the date of a Modified Julian Day

The year, the month and the day of the month follow from the integral day by a chain of divisions.  It
first finds the century, from it the day of the Julian calendar with the same date, and then the date
itself.  The time of day is computed in floating point and left out. -/

namespace Psrdada

open Computation

/-- The fields of `struct tm` that hold the date. -/
structure TmDate where
  /-- `tm_year`, the years since 1900 -/
  tmYear : ℤ
  /-- `tm_mon`, the months since January -/
  tmMon : ℤ
  /-- `tm_mday`, the day of the month -/
  tmMday : ℤ
  deriving DecidableEq, Repr

/-- The date part of `mjd2utctm`, for `days = (int) mjd`. -/
def mjd2utctm (days : ℤ) : Computation TmDate := do
  let julianDay ← add days 2400001
  let nFour ← mul 4 (← sub (← add julianDay
    (← div (← add (← div (← mul 6 (← div (← sub (← mul 4 julianDay) 17918) 146097)) 4) 1) 2)) 37)
  let nDten ← add (← mul 10 (← div (← mod (← sub nFour 237) 1461) 4)) 5
  let tmYear ← sub (← sub (← div nFour 1461) 4712) 1900
  let tmMon ← mod (← add (← div nDten 306) 2) 12
  let tmMday ← add (← div (← mod nDten 306) 10) 1
  return { tmYear, tmMon, tmMday }

/-! ## The chain of divisions -/

/-- The smallest `int`. -/
def intMin : ℤ := -2147483648

/-- The largest `int`. -/
def intMax : ℤ := 2147483647

/-- A date as `struct tm` holds it. -/
def Date.toTm (d : Date) : TmDate where
  tmYear := d.year - 1900
  tmMon := (d.month : ℤ) - 1
  tmMday := d.day

/-- The century of a Modified Julian Day, from March of the year −4700 on. -/
def century (days : ℕ) : ℕ := (4 * (days + 2400001) - 17918) / 146097

/-- The Julian day with the date of a Modified Julian Day: three leap days of four centuries are
counted that the Gregorian calendar does not have. -/
def julianCount (days : ℕ) : ℕ := days + 2400001 + (6 * century days / 4 + 1) / 2 - 37

theorem century_lt {days : ℕ} (h : days ≤ 500000000) : century days ≤ 13755 := by
  unfold century
  omega

/-- The chain stays in range and gives the Julian date of `julianCount`. -/
theorem mjd2utctm_yields {days : ℕ} (h : days ≤ 500000000) :
    Yields intMin intMax (mjd2utctm days) (julianDate (julianCount days)).toTm := by
  have hc := century_lt h
  obtain ⟨c, hcentury⟩ : ∃ c, century days = c := ⟨_, rfl⟩
  obtain ⟨x, hx⟩ : ∃ x, days + 2400001 + (6 * c / 4 + 1) / 2 - 37 = x := ⟨_, rfl⟩
  obtain ⟨n, hn⟩ : ∃ n, (4 * x + 1224) % 1461 / 4 = n := ⟨_, rfl⟩
  have hdate : (julianDate (julianCount days)).toTm =
      ⟨((4 * x / 1461 : ℕ) : ℤ) - 4712 - 1900, (((10 * n + 5) / 306 + 2) % 12 : ℕ),
        ((10 * n + 5) % 306 / 10 + 1 : ℕ)⟩ := by
    rw [julianCount, hcentury, hx, julianDate, hn, Date.toTm]
    have : ((((10 * n + 5) / 306 + 2) % 12 + 1 : ℕ) : ℤ) - 1 = (((10 * n + 5) / 306 + 2) % 12 : ℕ) := by
      omega
    rw [this]
  rw [hcentury] at hc
  unfold century at hcentury
  rw [hdate]
  unfold mjd2utctm intMin intMax
  refine (yields_add (z := (days + 2400001 : ℕ)) (by omega) (by omega)).bind ?_
  refine (yields_mul (z := (4 * (days + 2400001) : ℕ)) (by omega) (by omega)).bind ?_
  refine (yields_sub (z := (4 * (days + 2400001) - 17918 : ℕ)) (by omega) (by omega)).bind ?_
  refine (yields_div (z := c) (by omega) (by omega) (by omega) (by omega)).bind ?_
  refine (yields_mul (z := (6 * c : ℕ)) (by omega) (by omega)).bind ?_
  refine (yields_div (z := (6 * c / 4 : ℕ)) (by omega) (by omega) (by omega) (by omega)).bind ?_
  refine (yields_add (z := (6 * c / 4 + 1 : ℕ)) (by omega) (by omega)).bind ?_
  refine (yields_div (z := ((6 * c / 4 + 1) / 2 : ℕ)) (by omega) (by omega) (by omega) (by omega)).bind ?_
  refine (yields_add (z := (days + 2400001 + (6 * c / 4 + 1) / 2 : ℕ)) (by omega) (by omega)).bind ?_
  refine (yields_sub (z := x) (by omega) (by omega)).bind ?_
  clear hdate hcentury
  refine (yields_mul (z := (4 * x : ℕ)) (by omega) (by omega)).bind ?_
  have hx0 : 2400001 - 37 ≤ x ∧ x ≤ 502500000 := by omega
  clear hx
  refine (yields_sub (z := (4 * x - 237 : ℕ)) (by omega) (by omega)).bind ?_
  refine (yields_mod (z := ((4 * x + 1224) % 1461 : ℕ)) (by omega) (by omega) (by omega) (by omega)).bind ?_
  refine (yields_div (z := n) (by omega) (by omega) (by omega) (by omega)).bind ?_
  have hn0 : n ≤ 365 := by omega
  clear hn
  refine (yields_mul (z := (10 * n : ℕ)) (by omega) (by omega)).bind ?_
  refine (yields_add (z := (10 * n + 5 : ℕ)) (by omega) (by omega)).bind ?_
  refine (yields_div (z := (4 * x / 1461 : ℕ)) (by omega) (by omega) (by omega) (by omega)).bind ?_
  refine (yields_sub (z := (4 * x / 1461 : ℕ) - 4712) rfl (by omega)).bind ?_
  refine (yields_sub (z := (4 * x / 1461 : ℕ) - 4712 - 1900) rfl (by omega)).bind ?_
  refine (yields_div (z := ((10 * n + 5) / 306 : ℕ)) (by omega) (by omega) (by omega) (by omega)).bind ?_
  refine (yields_add (z := ((10 * n + 5) / 306 + 2 : ℕ)) (by omega) (by omega)).bind ?_
  refine (yields_mod (z := (((10 * n + 5) / 306 + 2) % 12 : ℕ)) (by omega) (by omega) (by omega)
    (by omega)).bind ?_
  refine (yields_mod (z := ((10 * n + 5) % 306 : ℕ)) (by omega) (by omega) (by omega) (by omega)).bind ?_
  refine (yields_div (z := ((10 * n + 5) % 306 / 10 : ℕ)) (by omega) (by omega) (by omega)
    (by omega)).bind ?_
  refine (yields_add (z := ((10 * n + 5) % 306 / 10 + 1 : ℕ)) (by omega) (by omega)).bind ?_
  exact Yields.pure _

/-! ## From one day to the next -/

/-- The century goes up by one when the days of the present one are over. -/
theorem century_succ {days c : ℕ} (hc : century days = c) :
    146097 * c ≤ 4 * (days + 2400001) - 17918 ∧
      (century (days + 1) = c ∧ 4 * (days + 2400001) - 17914 < 146097 * (c + 1) ∨
        century (days + 1) = c + 1 ∧ 4 * (days + 2400001) - 17918 < 146097 * (c + 1) ∧
          146097 * (c + 1) ≤ 4 * (days + 2400001) - 17914) := by
  unfold century at hc ⊢
  omega

/-- The Julian day goes up by one, or by two where the Gregorian calendar drops a leap day. -/
theorem julianCount_succ (days : ℕ) :
    (julianCount (days + 1) = julianCount days + 1 ∧
      (InCommonCentury (julianCount days) →
        julianCount days % 1461 ≠ 58 ∧ julianCount days % 1461 ≠ 59)) ∨
    (julianCount (days + 1) = julianCount days + 2 ∧ InCommonCentury (julianCount days) ∧
      julianCount days % 1461 = 58) := by
  -- the century `i` of the cycle `k` of 400 years, and the day `y` of the cycle
  obtain ⟨k, i, hi, hc⟩ : ∃ k i, (i = 0 ∨ i = 1 ∨ i = 2 ∨ i = 3) ∧ century days = 4 * k + i :=
    ⟨century days / 4, century days % 4, by omega, (Nat.div_add_mod _ 4).symm⟩
  obtain ⟨hlow, hnext⟩ := century_succ hc
  obtain ⟨y, hy⟩ : ∃ y, julianCount days = 146100 * k + y := by
    refine ⟨julianCount days - 146100 * k, ?_⟩
    unfold julianCount
    omega
  have hdiv : (146100 * k + y) / 1461 = 100 * k + y / 1461 := by omega
  have hmod : (146100 * k + y) % 1461 = y % 1461 := by omega
  unfold InCommonCentury
  rw [hy, hdiv, hmod]
  unfold julianCount at hy ⊢
  rw [hc] at hy
  obtain ⟨hsame, hlt⟩ | ⟨hsucc, hlt, hle⟩ := hnext
  · left
    rw [hsame]
    obtain rfl | rfl | rfl | rfl := hi
    all_goals omega
  · rw [hsucc]
    -- the last century of a cycle begins with a leap day, the others without
    obtain rfl | rfl | rfl | rfl := hi
    · right; omega
    · right; omega
    · left; omega
    · right; omega

/-- MJD 0 is 17 November 1858. -/
def mjdEpoch : Date := ⟨1858, 11, 17⟩

/-- **Consecutive days have consecutive Gregorian dates.** -/
theorem julianDate_julianCount (days : ℕ) :
    julianDate (julianCount days) = (Date.next gregorianLeap)^[days] mjdEpoch := by
  induction days with
  | zero => decide
  | succ days ih =>
    rw [Function.iterate_succ_apply', ← ih]
    obtain ⟨hsucc, hkeep⟩ | ⟨hsucc, hcommon, hday⟩ := julianCount_succ days
    · rw [hsucc, julianDate_next_gregorian hkeep]
    · rw [hsucc, julianDate_next_gregorian_of_common hcommon hday]

theorem mjdEpoch_valid : mjdEpoch.Valid gregorianLeap where
  month_pos := by decide
  month_le := by decide
  day_pos := by decide
  day_le := by decide

/-- **The date that `mjd2utctm` computes** for the days 0 to 500,000,000 is the Gregorian date that many
days after 17 November 1858.  No operation overflows an `int` and no division has a negative operand. -/
theorem mjd2utctm_gregorian (days : ℤ) (h0 : 0 ≤ days) (h : days ≤ 500000000) :
    ∃ date : Date, date = (Date.next gregorianLeap)^[days.toNat] mjdEpoch ∧ date.Valid gregorianLeap ∧
      Yields intMin intMax (mjd2utctm days) date.toTm := by
  obtain ⟨n, rfl⟩ := Int.eq_ofNat_of_zero_le h0
  refine ⟨_, rfl, mjdEpoch_valid.iterate _, ?_⟩
  rw [Int.toNat_natCast, ← julianDate_julianCount]
  exact mjd2utctm_yields (by omega)

/-- MJD 51544 is 1 January 2000. -/
theorem mjd2utctm_gregorian_51544 :
    ∃ date : Date, date = (Date.next gregorianLeap)^[(51544 : ℤ).toNat] mjdEpoch ∧
      date.Valid gregorianLeap ∧ Yields intMin intMax (mjd2utctm 51544) date.toTm :=
  mjd2utctm_gregorian 51544 (by decide) (by decide)

end Psrdada
