import Mathlib.Tactic.Linarith
import Mathlib.Tactic.Ring
import Psrdada.Header.Numbers
import Psrdada.Dbevent.Dbevent

/-! # The intervals of events

A time is a number of bytes from the start of the observation, with a fraction.  The end of an event is
rounded up to a multiple of the resolution, and its start is rounded down, except that a start within the
first `resolution` bytes is rounded up too (`eventStart_exact`).  As the fraction of a byte is lost before
the end is rounded up, an end that is less than a byte after a multiple of the resolution is rounded down
(`eventEnd_exact`). -/

namespace Psrdada

open CString Intervals

/-! ## The byte of a time -/

section Time

variable (d : Dbevent)

/-- The bytes from the start of the observation to a time, as a multiple of the unit of its fraction. -/
def EventTime.scaled (t : EventTime) : ℕ :=
  if t.secs ≥ d.utcStart then
    ((t.secs - d.utcStart).toNat * t.denominator + digitsValue t.fraction) * d.bytesPerSecond
  else 0

/-- The byte that a time falls in. -/
def EventTime.byte (t : EventTime) : ℕ := t.scaled d / t.denominator

/-- The arithmetic can represent a time: `powf` is exact, and no product or sum is too large. -/
structure EventTime.Representable (t : EventTime) : Prop where
  /-- The power of ten is exact. -/
  digits_le : t.fraction.length ≤ 10
  /-- The bytes of the fraction, times its denominator. -/
  fraction_lt : digitsValue t.fraction * d.bytesPerSecond < 2 ^ 64
  /-- The byte is a number of type `int64_t`. -/
  byte_lt : t.byte d < 2 ^ 63

variable {d}

theorem EventTime.denominator_pos (t : EventTime) : 0 < t.denominator := Nat.pow_pos (by decide)

/-- Digits are scanned as they are. -/
theorem scanUnsigned_digits {t : Text} (hne : t ≠ []) (hdigits : ∀ c ∈ t, c.isDigit = true)
    (hlt : digitsValue t < 2 ^ 64) : scanUnsigned t = some (digitsValue t, []) := by
  obtain ⟨c, cs, rfl⟩ := List.exists_cons_of_ne_nil hne
  obtain ⟨hblank, hminus, hplus⟩ := digit_plain (hdigits c List.mem_cons_self)
  have hskip : (c :: cs).dropWhile Char.isWhitespace = c :: cs :=
    List.dropWhile_cons_of_neg (by simp [hblank])
  have hspan : scanDigits (c :: cs) = (c :: cs, []) := by
    rw [scanDigits, List.span_eq_takeWhile_dropWhile, List.takeWhile_eq_self_iff.mpr hdigits,
      List.dropWhile_eq_nil_iff.mpr hdigits]
  unfold scanUnsigned
  simp only [hskip]
  split
  · rename_i heq
    exact absurd (List.cons_eq_cons.mp heq).1 hminus
  · rename_i heq
    exact absurd (List.cons_eq_cons.mp heq).1 hplus
  · simp only [hspan, hne, if_false, Bool.false_eq_true]
    rw [Nat.min_eq_left (by omega)]

theorem digitsValue_lt {t : Text} (hdigits : ∀ c ∈ t, c.isDigit = true) :
    digitsValue t < 10 ^ t.length := by
  have hstep (n : ℕ) : t.foldl (fun n c => 10 * n + (c.toNat - '0'.toNat)) n < (n + 1) * 10 ^ t.length := by
    induction t generalizing n with
    | nil => simp
    | cons c t ih =>
      have hc : c.toNat ≤ 57 := by
        have := hdigits c List.mem_cons_self
        simp only [Char.isDigit, Bool.and_eq_true, decide_eq_true_eq] at this
        exact this.2
      have h0 : '0'.toNat = 48 := rfl
      have ih' := ih (fun d hd => hdigits d (List.mem_cons_of_mem _ hd)) (10 * n + (c.toNat - '0'.toNat))
      rw [List.foldl_cons, List.length_cons, Nat.pow_succ]
      refine Nat.lt_of_lt_of_le ih' ?_
      calc (10 * n + (c.toNat - '0'.toNat) + 1) * 10 ^ t.length
          ≤ ((n + 1) * 10) * 10 ^ t.length := Nat.mul_le_mul_right _ (by omega)
        _ = (n + 1) * (10 ^ t.length * 10) := by rw [Nat.mul_assoc, Nat.mul_comm 10]
  simpa [digitsValue] using hstep 0

/-- **calculate_byte_offset** is the byte of the time. -/
theorem calculateByteOffset_eq (hutc : d.utcStart ≠ 0) (powf : Powf) {t : EventTime}
    (h : t.Representable d) :
    calculateByteOffset d powf t = if t.secs ≥ d.utcStart then (t.byte d : ℤ) else -1 := by
  have hvalue : digitsValue t.fraction < 2 ^ 64 := by
    calc digitsValue t.fraction < 10 ^ t.fraction.length := digitsValue_lt t.digits
      _ ≤ 10 ^ 10 := Nat.pow_le_pow_right (by decide) h.digits_le
      _ < 2 ^ 64 := by decide
  have hscan := scanUnsigned_digits t.nonempty t.digits hvalue
  unfold calculateByteOffset
  by_cases hsecs : t.secs ≥ d.utcStart
  · have hbyte : t.byte d = (t.secs - d.utcStart).toNat * d.bytesPerSecond +
        digitsValue t.fraction * d.bytesPerSecond / t.denominator := by
      rw [EventTime.byte, EventTime.scaled, if_pos hsecs, Nat.add_mul, Nat.mul_right_comm,
        Nat.add_comm, Nat.add_mul_div_right _ _ t.denominator_pos, Nat.add_comm]
    have hlt := h.byte_lt
    rw [if_pos hsecs]
    simp only [hutc, ne_eq, not_false_eq_true, hsecs, and_self, if_true, hscan, Option.map_some,
      Option.getD_some, powf.exact _ h.digits_le, Nat.mod_eq_of_lt h.fraction_lt]
    rw [hbyte] at hlt ⊢
    have hdenominator : 10 ^ t.fraction.length = t.denominator := rfl
    rw [hdenominator]
    generalize digitsValue t.fraction * d.bytesPerSecond / t.denominator = frac at hlt ⊢
    generalize (t.secs - d.utcStart).toNat * d.bytesPerSecond = whole at hlt ⊢
    rw [Nat.mod_eq_of_lt (by omega)]
    unfold toInt64
    omega
  · rw [if_neg (fun hand => hsecs hand.2), if_neg hsecs]

/-- The start of the interval of an event. -/
theorem eventStart_eq (hutc : d.utcStart ≠ 0) (powf : Powf) {t : EventTime} (h : t.Representable d) :
    eventStart d (calculateByteOffset d powf t) =
      if 0 < t.byte d ∧ t.byte d < d.resolution then d.resolution
      else t.byte d - t.byte d % d.resolution := by
  rw [calculateByteOffset_eq hutc powf h]
  unfold eventStart
  by_cases hsecs : t.secs ≥ d.utcStart
  · rw [if_pos hsecs, if_pos (Int.natCast_nonneg _)]
    simp only [Int.toNat_natCast]
    have hmod (hlt : t.byte d < d.resolution) : t.byte d % d.resolution = t.byte d := Nat.mod_eq_of_lt hlt
    have hself (heq : t.byte d = d.resolution) : t.byte d % d.resolution = 0 := by
      rw [heq, Nat.mod_self]
    rcases Nat.lt_trichotomy (t.byte d) d.resolution with hlt | heq | hgt
    · have := hmod hlt
      split_ifs
      all_goals omega
    · have := hself heq
      split_ifs
      all_goals omega
    · split_ifs
      all_goals omega
  · have hzero : t.byte d = 0 := by
      rw [EventTime.byte, EventTime.scaled, if_neg hsecs, Nat.zero_div]
    rw [if_neg hsecs, if_neg (by decide), hzero]
    simp

/-- The end of the interval of an event. -/
theorem eventEnd_eq (hutc : d.utcStart ≠ 0) (powf : Powf) {t : EventTime} (h : t.Representable d) :
    eventEnd d (calculateByteOffset d powf t) =
      if t.byte d % d.resolution = 0 then t.byte d
      else t.byte d + (d.resolution - t.byte d % d.resolution) := by
  rw [calculateByteOffset_eq hutc powf h]
  unfold eventEnd
  by_cases hsecs : t.secs ≥ d.utcStart
  · rw [if_pos hsecs, if_pos (Int.natCast_nonneg _)]
    simp only [Int.toNat_natCast, ne_eq, ite_not]
  · have hzero : t.byte d = 0 := by
      rw [EventTime.byte, EventTime.scaled, if_neg hsecs, Nat.zero_div]
    rw [if_neg hsecs, if_neg (by decide), hzero]
    simp

/-- From the start of the observation on, a time is as many bytes as its distance from the start gives. -/
theorem EventTime.scaled_eq {t : EventTime} (h : t.secs ≥ d.utcStart) :
    (t.scaled d : ℤ) = (t.units - d.utcStart * t.denominator) * d.bytesPerSecond := by
  rw [scaled, if_pos h, units]
  push_cast
  rw [Int.toNat_of_nonneg (by omega)]
  ring

/-- The byte of the start of an event is not after that of its end. -/
theorem EventLine.byte_le (e : EventLine) : e.start.byte d ≤ e.stop.byte d := by
  by_cases hstart : e.start.secs ≥ d.utcStart
  · have hs : (0 : ℤ) < e.start.denominator := Int.natCast_pos.mpr e.start.denominator_pos
    have hpos : (0 : ℤ) < e.stop.denominator := Int.natCast_pos.mpr e.stop.denominator_pos
    have hfrac : (digitsValue e.stop.fraction : ℤ) < e.stop.denominator :=
      Int.ofNat_lt.mpr (digitsValue_lt e.stop.digits)
    have hordered := e.ordered
    -- the seconds are in order
    have hstop : e.stop.secs ≥ d.utcStart := by
      by_contra hlt
      have hsecs : e.stop.secs + 1 ≤ e.start.secs := by omega
      have h1 : e.stop.units < (e.stop.secs + 1) * e.stop.denominator := by
        rw [EventTime.units]
        linarith
      have h2 : e.start.secs * e.start.denominator ≤ e.start.units := by
        rw [EventTime.units]
        omega
      have h3 : e.stop.units < e.start.secs * e.stop.denominator :=
        lt_of_lt_of_le h1 (mul_le_mul_of_nonneg_right hsecs (le_of_lt hpos))
      have h4 : e.stop.units * e.start.denominator <
          e.start.secs * e.stop.denominator * e.start.denominator := mul_lt_mul_of_pos_right h3 hs
      have h5 := mul_le_mul_of_nonneg_right h2 (le_of_lt hpos)
      linarith [mul_right_comm e.start.secs (e.stop.denominator : ℤ) e.start.denominator]
    have hscaled : e.start.scaled d * e.stop.denominator ≤ e.stop.scaled d * e.start.denominator := by
      have : (e.start.scaled d : ℤ) * e.stop.denominator ≤ e.stop.scaled d * e.start.denominator := by
        rw [EventTime.scaled_eq hstart, EventTime.scaled_eq hstop]
        have hb : (0 : ℤ) ≤ d.bytesPerSecond := Int.natCast_nonneg _
        have hle : (e.start.units - d.utcStart * e.start.denominator) * e.stop.denominator ≤
            (e.stop.units - d.utcStart * e.stop.denominator) * e.start.denominator := by
          linarith [mul_right_comm d.utcStart (e.start.denominator : ℤ) e.stop.denominator]
        have := mul_le_mul_of_nonneg_right hle hb
        linarith [mul_right_comm (e.start.units - d.utcStart * e.start.denominator)
            (d.bytesPerSecond : ℤ) e.stop.denominator,
          mul_right_comm (e.stop.units - d.utcStart * e.stop.denominator) (d.bytesPerSecond : ℤ)
            e.start.denominator]
      exact_mod_cast this
    rw [EventTime.byte, EventTime.byte, Nat.le_div_iff_mul_le e.stop.denominator_pos]
    refine Nat.le_of_mul_le_mul_right ?_ e.start.denominator_pos
    calc e.start.scaled d / e.start.denominator * e.stop.denominator * e.start.denominator
        = e.start.scaled d / e.start.denominator * e.start.denominator * e.stop.denominator :=
          Nat.mul_right_comm _ _ _
      _ ≤ e.start.scaled d * e.stop.denominator := Nat.mul_le_mul_right _ (Nat.div_mul_le_self _ _)
      _ ≤ e.stop.scaled d * e.start.denominator := hscaled
  · rw [EventTime.byte, EventTime.scaled, if_neg hstart, Nat.zero_div]
    exact Nat.zero_le _

end Time

/-! ## Rounding -/

section Rounding

variable (d : Dbevent)

/-- An interval is what an event asks for: from a multiple of the resolution that is not after its start to
one that is not before its end. -/
structure Rounded (e : EventLine) (s : Span ℕ) : Prop where
  /-- The start is a multiple of the resolution. -/
  start_dvd : d.resolution ∣ s.start
  /-- It is not after the start of the event. -/
  start_le : s.start * e.start.denominator ≤ e.start.scaled d
  /-- The end is a multiple of the resolution. -/
  stop_dvd : d.resolution ∣ s.stop
  /-- It is not before the end of the event. -/
  le_stop : e.stop.scaled d ≤ s.stop * e.stop.denominator

/-- The times that are rounded as they shall. -/
structure Roundable (e : EventLine) : Prop where
  /-- The start is in the first byte, or not within the first `resolution` bytes. -/
  start : e.start.byte d = 0 ∨ d.resolution ≤ e.start.byte d
  /-- The end has no fraction of a byte when its byte is a multiple of the resolution. -/
  stop : d.resolution ∣ e.stop.byte d → e.stop.denominator ∣ e.stop.scaled d

variable {d}

/-- The representable events. -/
structure EventLine.Representable (d : Dbevent) (e : EventLine) : Prop where
  /-- The start is. -/
  start : e.start.Representable d
  /-- The end is. -/
  stop : e.stop.Representable d

variable (hutc : d.utcStart ≠ 0) (hres : 0 < d.resolution) (powf : Powf) {e : EventLine}
  (h : e.Representable d)
include hutc hres h

/-- No interval stops before its start. -/
theorem interval_proper : (interval d powf e).start ≤ (interval d powf e).stop := by
  show eventStart d _ ≤ eventEnd d _
  rw [eventStart_eq hutc powf h.start, eventEnd_eq hutc powf h.stop]
  have hle := e.byte_le (d := d)
  have hmod := Nat.mod_lt (e.stop.byte d) hres
  have hself : e.stop.byte d % d.resolution = 0 → e.stop.byte d = 0 ∨ d.resolution ≤ e.stop.byte d := by
    intro hzero
    rcases Nat.eq_zero_or_pos (e.stop.byte d) with h0 | hpos
    · exact .inl h0
    · exact .inr (Nat.le_of_dvd hpos (Nat.dvd_of_mod_eq_zero hzero))
  have hmod_le := Nat.mod_le (e.stop.byte d) d.resolution
  split_ifs
  all_goals omega

/-- **The rounding** of an event is right exactly when its times are roundable. -/
theorem rounded_iff : Rounded d e (interval d powf e) ↔ Roundable d e := by
  have hstart : (interval d powf e).start = _ := eventStart_eq hutc powf h.start
  have hstop : (interval d powf e).stop = _ := eventEnd_eq hutc powf h.stop
  constructor
  · intro hr
    constructor
    · by_contra hwithin
      have hlt : 0 < e.start.byte d ∧ e.start.byte d < d.resolution := by omega
      have hle := hr.start_le
      rw [hstart, if_pos hlt, ← Nat.le_div_iff_mul_le e.start.denominator_pos] at hle
      exact Nat.not_le.mpr hlt.2 hle
    · intro hdvd
      have hle := hr.le_stop
      rw [hstop, if_pos (Nat.mod_eq_zero_of_dvd hdvd)] at hle
      exact ⟨e.stop.byte d, Nat.le_antisymm (by rw [Nat.mul_comm]; exact hle)
        (Nat.mul_div_le _ _)⟩
  · intro hr
    have hrem := Nat.mod_lt (e.stop.byte d) hres
    refine ⟨?_, ?_, ?_, ?_⟩
    · rw [hstart]
      split_ifs
      · exact Nat.dvd_refl _
      · exact Nat.dvd_sub_mod _
    · rw [hstart, if_neg (by have := hr.start; omega), ← Nat.le_div_iff_mul_le e.start.denominator_pos]
      exact Nat.sub_le _ _
    · rw [hstop]
      split_ifs with hzero
      · exact Nat.dvd_of_mod_eq_zero hzero
      · refine ⟨e.stop.byte d / d.resolution + 1, ?_⟩
        have := Nat.div_add_mod (e.stop.byte d) d.resolution
        rw [Nat.mul_add, Nat.mul_one]
        omega
    · rw [hstop]
      split_ifs with hzero
      · rw [EventTime.byte, Nat.div_mul_cancel (hr.stop (Nat.dvd_of_mod_eq_zero hzero))]
      · have hlt : e.stop.scaled d < (e.stop.byte d + 1) * e.stop.denominator := by
          rw [EventTime.byte, Nat.mul_comm]
          exact Nat.lt_mul_div_succ _ e.stop.denominator_pos
        exact Nat.le_trans (Nat.le_of_lt hlt) (Nat.mul_le_mul_right _ (by omega))

end Rounding

end Psrdada
