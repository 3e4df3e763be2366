import Mathlib.Data.BitVec

/-! # Packing fields into bytes

Words put together from their bytes, and fields that are stored less one. -/

namespace Bits

/-! ## Words -/

/-- The word with byte `i` at bits `8 i` to `8 i + 7`, for the first `count` bytes. -/
def ofBytes (w : ℕ) (byte : ℕ → BitVec 8) : ℕ → BitVec w
  | 0 => 0
  | count + 1 => ofBytes w byte count ||| (byte count).setWidth w <<< (8 * count)

/-- Bit `j` of a word is bit `j % 8` of its byte `j / 8`. -/
theorem getLsbD_ofBytes (w : ℕ) (byte : ℕ → BitVec 8) (count j : ℕ) (hj : j < w) :
    (ofBytes w byte count).getLsbD j =
      (decide (j < 8 * count) && (byte (j / 8)).getLsbD (j % 8)) := by
  induction count with
  | zero => simp [ofBytes]
  | succ count ih =>
    have hbit : ((byte count).setWidth w <<< (8 * count)).getLsbD j =
        (decide (8 * count ≤ j) && (byte count).getLsbD (j - 8 * count)) := by
      rw [BitVec.getLsbD_shiftLeft, BitVec.getLsbD_setWidth]
      by_cases h : j < 8 * count
      · simp [h, Nat.not_le.mpr h]
      · simp [h, hj, Nat.not_lt.mp h, show j - 8 * count < w by omega]
    rw [ofBytes, BitVec.getLsbD_or, ih, hbit]
    rcases Nat.lt_trichotomy (j / 8) count with h | h | h
    · have h1 : j < 8 * count := by omega
      simp [h1, Nat.not_le.mpr h1, show j < 8 * (count + 1) by omega]
    · have h1 : ¬ j < 8 * count := by omega
      have h2 : j - 8 * count = j % 8 := by omega
      simp [h1, Nat.not_lt.mp h1, h, h2, show j < 8 * (count + 1) by omega]
    · have h1 : ¬ j < 8 * count := by omega
      have h2 : (byte count).getLsbD (j - 8 * count) = false :=
        BitVec.getLsbD_of_ge _ _ (by omega)
      simp [h1, h2, show ¬ j < 8 * (count + 1) by omega]

/-- A word is what its bytes make. -/
theorem ofBytes_bytes (count : ℕ) (x : BitVec (8 * count)) (byte : ℕ → BitVec 8)
    (h : ∀ i < count, byte i = (x >>> (8 * i)).setWidth 8) :
    ofBytes (8 * count) byte count = x := by
  apply BitVec.eq_of_getLsbD_eq
  intro j hj
  have hdiv : j / 8 < count := by omega
  have hsum : 8 * (j / 8) + j % 8 = j := Nat.div_add_mod j 8
  rw [getLsbD_ofBytes _ _ _ _ hj, h _ hdiv, BitVec.getLsbD_setWidth, BitVec.getLsbD_ushiftRight,
    hsum]
  simp [hj, Nat.mod_lt j (show 0 < 8 by decide)]

/-- Byte `i` of a word is byte `i` of what it was made of. -/
theorem byte_ofBytes (count : ℕ) (byte : ℕ → BitVec 8) {i : ℕ} (hi : i < count) :
    (ofBytes (8 * count) byte count >>> (8 * i)).setWidth 8 = byte i := by
  apply BitVec.eq_of_getLsbD_eq
  intro j hj
  have hlt : 8 * i + j < 8 * count := by omega
  have hdiv : (8 * i + j) / 8 = i := by omega
  have hmod : (8 * i + j) % 8 = j := by omega
  rw [BitVec.getLsbD_setWidth, BitVec.getLsbD_ushiftRight, getLsbD_ofBytes _ _ _ _ hlt, hdiv, hmod]
  simp [hj, hlt]

/-! ## Fields that are stored less one -/

/-- The values `1, ..., 2 ^ bits`, which a field of so many bits can hold less one. -/
def InWidth (bits : ℕ) (x : BitVec 32) : Prop := 1 ≤ x.toNat ∧ x.toNat ≤ 2 ^ bits

instance (bits : ℕ) (x : BitVec 32) : Decidable (InWidth bits x) :=
  inferInstanceAs (Decidable (_ ∧ _))

theorem InWidth.mono {bits bits' : ℕ} {x : BitVec 32} (h : InWidth bits x) (hle : bits ≤ bits') :
    InWidth bits' x :=
  ⟨h.1, h.2.trans (Nat.pow_le_pow_right (by decide) hle)⟩

theorem InWidth.toNat_sub_one {bits : ℕ} {x : BitVec 32} (h : InWidth bits x) :
    (x - 1#32).toNat = x.toNat - 1 := by
  have hpos := h.1
  have hlt := x.isLt
  simp only [BitVec.toNat_sub, BitVec.toNat_ofNat]
  omega

/-- What is left of a field of which so many bits are stored less one. -/
def kept (bits : ℕ) (x : BitVec 32) : BitVec 32 := ((x - 1#32).setWidth bits).setWidth 32 + 1#32

@[simp] theorem kept_sub_one (bits : ℕ) (x : BitVec 32) :
    kept bits x - 1#32 = ((x - 1#32).setWidth bits).setWidth 32 :=
  BitVec.add_sub_cancel _ _

theorem toNat_kept {bits : ℕ} (hbits : bits < 32) (x : BitVec 32) :
    (kept bits x).toNat = (x - 1#32).toNat % 2 ^ bits + 1 := by
  have hpow : 2 ^ bits < 2 ^ 32 := Nat.pow_lt_pow_right (by decide) hbits
  have hmod := Nat.mod_lt (x - 1#32).toNat (show 0 < 2 ^ bits from Nat.pow_pos (by decide))
  simp only [kept, BitVec.toNat_add, BitVec.toNat_setWidth, BitVec.toNat_ofNat]
  rw [Nat.mod_eq_of_lt (show (x - 1#32).toNat % 2 ^ bits < 2 ^ 32 by omega)]
  omega

/-- The bits that are stored restore a field exactly when it fits. -/
theorem kept_eq_iff {bits : ℕ} (hbits : bits < 32) (x : BitVec 32) :
    kept bits x = x ↔ InWidth bits x := by
  have hpos : 0 < 2 ^ bits := Nat.pow_pos (by decide)
  constructor
  · intro h
    have hx : (x - 1#32).toNat % 2 ^ bits + 1 = x.toNat := by rw [← toNat_kept hbits, h]
    have hmod := Nat.mod_lt (x - 1#32).toNat hpos
    exact ⟨by omega, by omega⟩
  · intro h
    apply BitVec.eq_of_toNat_eq
    have hle := h.2
    have hge := h.1
    rw [toNat_kept hbits, h.toNat_sub_one, Nat.mod_eq_of_lt (by omega)]
    omega

end Bits
