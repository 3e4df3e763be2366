import Mathlib.Data.Int.Log
import Mathlib.Data.Rat.Floor
import Mathlib.Tactic.FieldSimp
import Mathlib.Tactic.Linarith
import Mathlib.Tactic.NormNum
import Mathlib.Tactic.Positivity

/-! # Floating-point numbers as rounded rational numbers

A result of floating-point arithmetic with `p` binary digits is the exact one, rounded to nearest and to even
at a tie.  There is no limit to the exponent.  Rounding keeps what has at most `p` digits, and has a relative
error of `2 ^ -p`; so the quotient of two numbers of at most `p` digits is rounded down to the right
integer. -/

namespace Rounding

/-- The nearest integer, and the even one of two. -/
def nearestEven (x : ℚ) : ℤ :=
  if x - ⌊x⌋ < 1 / 2 then ⌊x⌋
  else if 1 / 2 < x - ⌊x⌋ then ⌊x⌋ + 1
  else if ⌊x⌋ % 2 = 0 then ⌊x⌋ else ⌊x⌋ + 1

/-- The unit in the last place of a number of the magnitude of `q`. -/
def unitInLastPlace (p : ℕ) (q : ℚ) : ℚ := 2 ^ (Int.log 2 q + 1 - p)

/-- The number of `p` binary digits that is nearest to `q`. -/
def roundTo (p : ℕ) (q : ℚ) : ℚ := nearestEven (q / unitInLastPlace p q) * unitInLastPlace p q

theorem abs_nearestEven_sub_le (x : ℚ) : |(nearestEven x : ℚ) - x| ≤ 1 / 2 := by
  have hfloor := Int.floor_le x
  have hceil := Int.lt_floor_add_one x
  unfold nearestEven
  split_ifs <;> push_cast <;> rw [abs_le] <;> constructor <;> linarith

theorem nearestEven_intCast (k : ℤ) : nearestEven (k : ℚ) = k := by
  rw [nearestEven, Int.floor_intCast, sub_self, if_pos (by norm_num)]

variable {p : ℕ} {q : ℚ}

theorem unitInLastPlace_pos : 0 < unitInLastPlace p q := zpow_pos (by norm_num) _

/-- The unit is small beside the number. -/
theorem unitInLastPlace_le (hq : 0 < q) : unitInLastPlace p q ≤ q * (2 / 2 ^ p) := by
  have hlog : (2 : ℚ) ^ Int.log 2 q ≤ q := by
    have h := Int.zpow_log_le_self (b := 2) (by decide) hq
    rwa [Nat.cast_ofNat] at h
  have hunit : unitInLastPlace p q = 2 ^ Int.log 2 q * (2 / 2 ^ p) := by
    rw [unitInLastPlace, zpow_sub₀ (by norm_num), zpow_add₀ (by norm_num), zpow_one, zpow_natCast, mul_div_assoc]
  rw [hunit]
  exact mul_le_mul_of_nonneg_right hlog (by positivity)

/-- **The relative error** of rounding. -/
theorem abs_roundTo_sub_le (hq : 0 < q) : |roundTo p q - q| ≤ q / 2 ^ p := by
  have hpos := unitInLastPlace_pos (p := p) (q := q)
  have hdiff : roundTo p q - q =
      (nearestEven (q / unitInLastPlace p q) - q / unitInLastPlace p q) * unitInLastPlace p q := by
    rw [roundTo, sub_mul, div_mul_cancel₀ q hpos.ne']
  calc |roundTo p q - q|
      = |(nearestEven (q / unitInLastPlace p q) : ℚ) - q / unitInLastPlace p q| * unitInLastPlace p q := by
        rw [hdiff, abs_mul, abs_of_pos hpos]
    _ ≤ 1 / 2 * (q * (2 / 2 ^ p)) :=
        mul_le_mul (abs_nearestEven_sub_le _) (unitInLastPlace_le hq) hpos.le (by norm_num)
    _ = q / 2 ^ p := by ring

/-- **Rounding keeps numbers of at most `p` digits.** -/
theorem roundTo_mul_two_pow {m : ℕ} (hm : m < 2 ^ p) (k : ℕ) : roundTo p (m * 2 ^ k) = m * 2 ^ k := by
  rcases Nat.eq_zero_or_pos m with rfl | hpos
  · have hzero := nearestEven_intCast 0
    rw [Int.cast_zero] at hzero
    rw [Nat.cast_zero, zero_mul, roundTo, zero_div, hzero, Int.cast_zero, zero_mul]
  · have hq : (0 : ℚ) < m * 2 ^ k := mul_pos (Nat.cast_pos.2 hpos) (by positivity)
    -- the number is a multiple of the unit in its last place
    have hlog : Int.log 2 ((m : ℚ) * 2 ^ k) < (p + k : ℕ) := by
      refine (Int.lt_zpow_iff_log_lt (b := 2) (by decide) hq).1 ?_
      rw [Nat.cast_ofNat, zpow_natCast, pow_add]
      have hm : (m : ℚ) < 2 ^ p := by exact_mod_cast hm
      exact mul_lt_mul_of_pos_right hm (by positivity)
    obtain ⟨d, hd⟩ : ∃ d : ℕ, (k : ℤ) - (Int.log 2 ((m : ℚ) * 2 ^ k) + 1 - p) = d := by
      refine ⟨((k : ℤ) - (Int.log 2 ((m : ℚ) * 2 ^ k) + 1 - p)).toNat, (Int.toNat_of_nonneg ?_).symm⟩
      push_cast at hlog
      omega
    have hunit : (2 : ℚ) ^ k / unitInLastPlace p (m * 2 ^ k) = 2 ^ d := by
      rw [unitInLastPlace, ← zpow_natCast 2 d, ← hd, zpow_sub₀ (by norm_num) (k : ℤ), zpow_natCast]
    have hdiv : (m : ℚ) * 2 ^ k / unitInLastPlace p (m * 2 ^ k) = ((m * 2 ^ d : ℕ) : ℤ) := by
      rw [mul_div_assoc, hunit]
      push_cast
      rfl
    rw [roundTo, hdiv, nearestEven_intCast, ← hdiv, div_mul_cancel₀ _ unitInLastPlace_pos.ne']

/-- Integers of at most `p` digits are kept. -/
theorem roundTo_natCast {m : ℕ} (hm : m < 2 ^ p) : roundTo p m = m := by
  have h := roundTo_mul_two_pow hm 0
  rwa [pow_zero, mul_one] at h

/-- **The rounded quotient rounds down to the quotient of the integers.** -/
theorem floor_roundTo_div {n d : ℕ} (hn : n < 2 ^ p) (hd : 0 < d) :
    ⌊roundTo p ((n : ℚ) / d)⌋ = ((n / d : ℕ) : ℤ) := by
  have hd' : (0 : ℚ) < d := Nat.cast_pos.2 hd
  by_cases hdvd : d ∣ n
  · obtain ⟨k, rfl⟩ := hdvd
    have hk : k < 2 ^ p := Nat.lt_of_le_of_lt (Nat.le_mul_of_pos_left k hd) hn
    rw [Nat.cast_mul, mul_div_cancel_left₀ _ hd'.ne', roundTo_natCast hk, Int.floor_natCast,
      Nat.mul_div_cancel_left _ hd]
  · have hdecomp : (n : ℚ) = d * (n / d : ℕ) + (n % d : ℕ) := by exact_mod_cast (Nat.div_add_mod n d).symm
    have hmod : 0 < n % d := Nat.pos_of_ne_zero fun h => hdvd (Nat.dvd_of_mod_eq_zero h)
    have hlow : (1 : ℚ) ≤ (n % d : ℕ) := by exact_mod_cast hmod
    have hhigh : ((n % d : ℕ) : ℚ) + 1 ≤ d := by exact_mod_cast Nat.mod_lt n hd
    have hpos : (0 : ℚ) < n := Nat.cast_pos.2 (Nat.lt_of_lt_of_le hmod (Nat.mod_le n d))
    obtain ⟨hbelow, habove⟩ := abs_le.1 (abs_roundTo_sub_le (p := p) (div_pos hpos hd'))
    -- the error is less than the distance to the next integers
    have hsmall : (n : ℚ) / d / 2 ^ p < 1 / d := by
      have hn' : (n : ℚ) < 2 ^ p := by exact_mod_cast hn
      rw [div_right_comm]
      exact div_lt_div_of_pos_right ((div_lt_one (by positivity)).2 hn') hd'
    have hquot : (n : ℚ) / d = (n / d : ℕ) + (n % d : ℕ) / d := by
      rw [hdecomp]
      field_simp
    have hfrac1 : 1 / (d : ℚ) ≤ (n % d : ℕ) / d := div_le_div_of_nonneg_right hlow hd'.le
    have hfrac2 : ((n % d : ℕ) : ℚ) / d + 1 / d ≤ 1 := by
      rw [← add_div]
      exact (div_le_one hd').2 hhigh
    rw [Int.floor_eq_iff, Int.cast_natCast]
    constructor
    · linarith
    · linarith

/-- What is at most a half rounds to less than one. -/
theorem floor_roundTo_of_le_half (hp : 0 < p) (hq : 0 ≤ q) (hle : q ≤ 1 / 2) : ⌊roundTo p q⌋ = 0 := by
  rcases hq.eq_or_lt with rfl | hq
  · have h := roundTo_natCast (p := p) (m := 0) (by positivity)
    rw [Nat.cast_zero] at h
    rw [h, Int.floor_zero]
  · have herror := abs_le.1 (abs_roundTo_sub_le (p := p) hq)
    have htwo : (2 : ℚ) ≤ 2 ^ p := by exact_mod_cast Nat.pow_le_pow_right (Nat.succ_pos 1) hp
    have hsmall : q / 2 ^ p ≤ q / 2 := div_le_div_of_nonneg_left hq.le (by norm_num) htwo
    rw [Int.floor_eq_iff]
    constructor
    · push_cast
      linarith
    · push_cast
      linarith

end Rounding
