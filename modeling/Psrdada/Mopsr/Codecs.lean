import Psrdada.Mopsr.RoundTrip

/-! # The packet header codecs

The fields that a version carries and the range of each, and when a record comes back from its
header and a header from its record. -/

namespace Psrdada

open Bits

/-! ## Fields and ranges -/

/-- The identifiers, flags and sizes that versions 1 and 2 write in either mode. -/
def SameSizes (hdr out : MopsrHdr) : Prop :=
  out.seqNo = hdr.seqNo ∧ out.nbit = hdr.nbit ∧ out.nant = hdr.nant ∧ out.nchan = hdr.nchan ∧
    out.nframe = hdr.nframe ∧ out.antId = hdr.antId ∧ out.antId2 = hdr.antId2 ∧
    out.mfLock = hdr.mfLock ∧ out.mfLock2 = hdr.mfLock2

/-- `out` has every field of `hdr` that the encoder of this version writes. Versions 1 and 2
write a record of one channel in flow through mode, with the number of samples. -/
def SameCarried : MopsrVersion → MopsrHdr → MopsrHdr → Prop
  | .v4, hdr, out =>
      out.seqNo = hdr.seqNo ∧ out.mgtLocksLong = hdr.mgtLocksLong ∧ out.mgtLocks = hdr.mgtLocks ∧
        out.startChan = hdr.startChan ∧ out.nbit = hdr.nbit ∧ out.nant = hdr.nant ∧
        out.nchan = hdr.nchan
  | .v3, hdr, out =>
      out.seqNo = hdr.seqNo ∧ out.mgtLocksLong = hdr.mgtLocksLong ∧ out.mgtLocks = hdr.mgtLocks ∧
        out.startChan = hdr.startChan ∧ out.nbit = hdr.nbit ∧ out.nant = hdr.nant ∧
        out.nchan = hdr.nchan ∧ out.nframe = hdr.nframe
  | .v2, hdr, out =>
      SameSizes hdr out ∧
        if hdr.nchan > 1#32 then out.mgtLocks = hdr.mgtLocks ∧ out.startChan = hdr.startChan
        else out.nsamp = hdr.nsamp
  | .v1, hdr, out =>
      SameSizes hdr out ∧ if hdr.nchan > 1#32 then True else out.nsamp = hdr.nsamp

/-- The ranges of the sizes, identifiers and flags in versions 1 and 2. -/
def SizesInRange (hdr : MopsrHdr) : Prop :=
  InWidth 4 hdr.nbit ∧ InWidth 4 hdr.nant ∧ InWidth 8 hdr.nchan ∧ InWidth 4 hdr.nframe ∧
    hdr.antId.toNat < 8 ∧ hdr.antId2.toNat < 8 ∧ hdr.mfLock.toNat < 2 ∧ hdr.mfLock2.toNat < 2

/-- The carried fields lie in the ranges that the widths of their places in the header give. -/
def InRange : MopsrVersion → MopsrHdr → Prop
  | .v4, hdr => InWidth 12 hdr.startChan ∧ InWidth 4 hdr.nbit ∧ InWidth 4 hdr.nant ∧ InWidth 12 hdr.nchan
  | .v3, hdr =>
      InWidth 8 hdr.startChan ∧ InWidth 4 hdr.nbit ∧ InWidth 4 hdr.nant ∧ InWidth 8 hdr.nchan ∧
        InWidth 4 hdr.nframe
  | .v2, hdr =>
      SizesInRange hdr ∧ if hdr.nchan > 1#32 then InWidth 8 hdr.startChan else InWidth 16 hdr.nsamp
  | .v1, hdr => SizesInRange hdr ∧ if hdr.nchan > 1#32 then True else InWidth 16 hdr.nsamp

/-- The records in range that come back: the start channel of version 4 has lost its high bits,
version 2 has lost the last channel and exchanges the lock flags, and version 1 never gives back
the number of channels. -/
def ComesBack : MopsrVersion → MopsrHdr → Prop
  | .v4, hdr => hdr.startChan.toNat ≤ 256
  | .v3, _ => True
  | .v2, hdr =>
      hdr.mfLock = hdr.mfLock2 ∧
        if hdr.nchan > 1#32 then hdr.startChan.toNat ≤ 255 ∧ hdr.nchan.toNat ≤ 255
        else hdr.antId = 2#32 ∧ hdr.antId2 = 3#32
  | .v1, _ => False

/-- The records whose header is encoded again as it was. -/
def Reencodes : MopsrVersion → MopsrHdr → Prop
  | .v4, _ => True
  | .v3, _ => True
  | .v2, hdr =>
      highFlag hdr = lowFlag hdr ∧
        if hdr.nchan > 1#32 then 1 < hdr.nchan.toNat % 256
        else lowThree hdr.antId = 2#32 ∧ lowThree hdr.antId2 = 3#32
  | .v1, _ => False

/-! ## Records from their headers -/

theorem u32_u8_eq_iff (x : BitVec 32) : u32 (u8 x) = x ↔ x.toNat ≤ 255 := by
  rw [← BitVec.toNat_inj]
  simp only [u32, u8, BitVec.toNat_setWidth]
  omega

theorem lowThree_of_lt {x : BitVec 32} (h : x.toNat < 8) : lowThree x = x := by
  apply BitVec.eq_of_toNat_eq
  simp only [lowThree, BitVec.toNat_setWidth]
  omega

theorem getLsbD_of_lt {w i : ℕ} {x : BitVec w} (h : x.toNat < 2 ^ i) : x.getLsbD i = false := by
  exact Nat.testBit_lt_two_pow h

theorem flagByte_getLsbD {x : BitVec 8} (h : x.toNat < 2) : flagByte (x.getLsbD 0) = x := by
  have hx : x = 0#8 ∨ x = 1#8 := by
    simp only [← BitVec.toNat_inj, BitVec.toNat_ofNat]
    omega
  rcases hx with rfl | rfl <;> rfl

/-- With the identifiers in range the two bits are the two flags. -/
theorem flags_of_inRange {hdr : MopsrHdr} (h : SizesInRange hdr) :
    flagByte (highFlag hdr) = hdr.mfLock2 ∧ flagByte (lowFlag hdr) = hdr.mfLock := by
  obtain ⟨-, -, -, -, hid, hid2, hlock, hlock2⟩ := h
  simp only [highFlag, lowFlag, getLsbD_of_lt (show hdr.antId.toNat < 2 ^ 3 from hid),
    getLsbD_of_lt (show hdr.antId2.toNat < 2 ^ 3 from hid2), Bool.false_or]
  exact ⟨flagByte_getLsbD hlock2, flagByte_getLsbD hlock⟩

theorem v4_comesBack {hdr : MopsrHdr} (h : InRange .v4 hdr) (old : MopsrHdr) :
    SameCarried .v4 hdr (mopsrDecode .v4 (mopsrEncode .v4 hdr) old) ↔ ComesBack .v4 hdr := by
  obtain ⟨hchan, hnbit, hnant, hnchan⟩ := h
  have hlow : InWidth 8 hdr.startChan ↔ hdr.startChan.toNat ≤ 256 :=
    ⟨fun hfits => hfits.2, fun hle => ⟨hchan.1, hle⟩⟩
  simp only [mopsrDecode, mopsrEncode, mopsrDecodeV4_encode, SameCarried, ComesBack, true_and,
    kept_eq_iff (show 4 < 32 by decide), kept_eq_iff (show 8 < 32 by decide),
    kept_eq_iff (show 12 < 32 by decide), hnbit, hnant, hnchan, and_true, hlow]

theorem v3_comesBack {hdr : MopsrHdr} (h : InRange .v3 hdr) (old : MopsrHdr) :
    SameCarried .v3 hdr (mopsrDecode .v3 (mopsrEncode .v3 hdr) old) ↔ ComesBack .v3 hdr := by
  obtain ⟨hchan, hnbit, hnant, hnchan, hnframe⟩ := h
  simp only [mopsrDecode, mopsrEncode, mopsrDecodeV3_encode, SameCarried, ComesBack, true_and,
    kept_eq_iff (show 4 < 32 by decide), kept_eq_iff (show 8 < 32 by decide), hchan, hnbit, hnant,
    hnchan, hnframe]

theorem v2_comesBack {hdr : MopsrHdr} (h : InRange .v2 hdr) (old : MopsrHdr) :
    SameCarried .v2 hdr (mopsrDecode .v2 (mopsrEncode .v2 hdr) old) ↔ ComesBack .v2 hdr := by
  obtain ⟨hsizes, hmode⟩ := h
  obtain ⟨hhigh, hlow⟩ := flags_of_inRange hsizes
  obtain ⟨hnbit, hnant, hnchan, hnframe, hid, hid2, -, -⟩ := hsizes
  by_cases hpfb : hdr.nchan > 1#32
  · simp only [mopsrDecode, mopsrEncode, mopsrDecodeV2_encode_pfb hpfb, SameCarried, SameSizes,
      ComesBack, if_pos hpfb, kept_eq_iff (show 4 < 32 by decide), hnbit, hnant, hnframe,
      u32_u8_eq_iff, lowThree_of_lt hid, lowThree_of_lt hid2, hhigh, hlow, true_and]
    constructor
    · rintro ⟨⟨hle, hflag, -⟩, hstart⟩
      exact ⟨hflag.symm, hstart, hle⟩
    · rintro ⟨hflag, hstart, hle⟩
      exact ⟨⟨hle, hflag.symm, hflag⟩, hstart⟩
  · obtain ⟨locks, chan, hdecode⟩ := mopsrDecodeV2_encode_flow hpfb old
    rw [if_neg hpfb] at hmode
    have hone : hdr.nchan.toNat ≤ 255 := by
      have : ¬ 1 < hdr.nchan.toNat := hpfb
      omega
    simp only [mopsrDecode, mopsrEncode, hdecode, SameCarried, SameSizes, ComesBack, if_neg hpfb,
      kept_eq_iff (show 4 < 32 by decide), kept_eq_iff (show 16 < 32 by decide), hnbit, hnant,
      hnframe, hmode, u32_u8_eq_iff, hone, hhigh, hlow, true_and, and_true]
    constructor
    · rintro ⟨hid, hid2, hflag, -⟩
      exact ⟨hflag.symm, hid.symm, hid2.symm⟩
    · rintro ⟨hflag, hid, hid2⟩
      exact ⟨hid.symm, hid2.symm, hflag.symm, hflag⟩

theorem v1_decode_nchan (hdr old : MopsrHdr) :
    (mopsrDecodeV1 (mopsrEncodeV1 hdr) old).nchan = u32 (u8 (hdr.nchan - 1#32)) := by
  by_cases hpfb : hdr.nchan > 1#32
  · rw [mopsrDecodeV1_encode_pfb hpfb]
  · rw [mopsrDecodeV1_encode_flow hpfb]

theorem v1_comesBack {hdr : MopsrHdr} (h : InRange .v1 hdr) (old : MopsrHdr) :
    SameCarried .v1 hdr (mopsrDecode .v1 (mopsrEncode .v1 hdr) old) ↔ ComesBack .v1 hdr := by
  refine iff_of_false ?_ (fun hfalse => hfalse)
  intro hsame
  obtain ⟨-, -, -, hback, -⟩ := hsame.1
  have hfits := h.1.2.2.1
  have hsub := hfits.toNat_sub_one
  have hpos := hfits.1
  -- one less than the number of channels is not the number of channels
  have heq : u32 (u8 (hdr.nchan - 1#32)) = hdr.nchan := (v1_decode_nchan hdr old).symm.trans hback
  have hnat := congrArg BitVec.toNat heq
  simp only [u32, u8, BitVec.toNat_setWidth] at hnat
  omega

/-! ## Headers from their records -/

theorem u8_low (bits : ℕ) (h : 8 ≤ bits) (y : BitVec 32) :
    u8 ((y.setWidth bits).setWidth 32) = u8 y := by
  apply BitVec.eq_of_getLsbD_eq
  intro i hi
  simp only [u8, BitVec.getLsbD_setWidth]
  simp [hi, show i < 32 by omega, show i < bits by omega]

theorem low_nibble (y : BitVec 32) :
    u8 ((y.setWidth 4).setWidth 32) &&& 0x0f#8 = u8 y &&& 0x0f#8 := by
  ext i hi
  interval_cases i <;> simp [u8]

theorem high_nibble (y : BitVec 32) :
    u8 ((y.setWidth 4).setWidth 32) <<< 4 &&& 0xf0#8 = u8 y <<< 4 &&& 0xf0#8 := by
  ext i hi
  interval_cases i <;> simp [u8]

theorem u8_sub (x y : BitVec 32) : u8 (x - y) = u8 x - u8 y := by
  apply BitVec.eq_of_toNat_eq
  simp only [u8, BitVec.toNat_setWidth, BitVec.toNat_sub]
  have hx := x.isLt
  have hy := y.isLt
  omega

@[simp] theorem u8_u32 (b : BitVec 8) : u8 (u32 b) = b := by
  ext i hi
  simp [u8, u32]

theorem v4_reencodes (hdr old : MopsrHdr) :
    mopsrEncode .v4 (mopsrDecode .v4 (mopsrEncode .v4 hdr) old) = mopsrEncode .v4 hdr := by
  have hnchan : ∀ y : BitVec 32,
      u8 ((y.setWidth 12).setWidth 32 >>> 8) &&& 0x0f#8 = u8 (y >>> 8) &&& 0x0f#8 := by
    intro y
    ext i hi
    interval_cases i <;> simp [u8]
  have hlast : ∀ y : BitVec 32,
      u8 ((y.setWidth 12).setWidth 32 &&& 0xff#32) = u8 (y &&& 0xff#32) := by
    intro y
    ext i hi
    interval_cases i <;> simp [u8]
  simp only [mopsrDecode, mopsrEncode, mopsrDecodeV4_encode]
  simp only [mopsrEncodeV4, kept_sub_one, u8_low 8 (Nat.le_refl 8), u8_shiftLeft, low_nibble,
    high_nibble, hnchan, hlast]

theorem v3_reencodes (hdr old : MopsrHdr) :
    mopsrEncode .v3 (mopsrDecode .v3 (mopsrEncode .v3 hdr) old) = mopsrEncode .v3 hdr := by
  simp only [mopsrDecode, mopsrEncode, mopsrDecodeV3_encode]
  simp only [mopsrEncodeV3, kept_sub_one, u8_low 8 (Nat.le_refl 8), low_nibble, high_nibble]

theorem flagByte_inj {a b : Bool} : flagByte a = flagByte b ↔ a = b := by
  cases a <;> cases b <;> decide

/-- The last byte before the sequence number holds two flags and two identifiers. -/
theorem idByte_eq_iff {a b : MopsrHdr} :
    idByte a = idByte b ↔ highFlag a = highFlag b ∧ lowFlag a = lowFlag b ∧
      lowThree a.antId = lowThree b.antId ∧ lowThree a.antId2 = lowThree b.antId2 := by
  have hbyte : ∀ hdr : MopsrHdr, idByte hdr = flagByte (highFlag hdr) <<< 7 |||
      u8 (lowThree hdr.antId2) <<< 4 ||| u8 (lowThree hdr.antId) |||
        flagByte (lowFlag hdr) <<< 3 := by
    intro hdr
    ext i hi
    interval_cases i <;> simp [idByte, flagByte, highFlag, lowFlag, lowThree, u8]
  constructor
  · intro h
    refine ⟨?_, ?_, ?_, ?_⟩
    · rw [← flagByte_inj, ← idByte_highFlag, ← idByte_highFlag, h]
    · rw [← flagByte_inj, ← idByte_lowFlag, ← idByte_lowFlag, h]
    · rw [← idByte_antId, ← idByte_antId, h]
    · rw [← idByte_antId2, ← idByte_antId2, h]
  · rintro ⟨hhigh, hlow, hid, hid2⟩
    rw [hbyte a, hbyte b, hhigh, hlow, hid, hid2]

/-- Both encoders of the two modes, as far as they agree. -/
theorem modeHeader_eq (mode : ModeBytes) (hdr : MopsrHdr) :
    modeHeader mode hdr = withSeqNo hdr.seqNo mode.b0 mode.b1 mode.b2 mode.b3
      (mode.b4 ||| (u8 (hdr.nbit - 1#32) &&& 0x0f#8))
      ((u8 (hdr.nant - 1#32) <<< 4 &&& 0xf0#8) ||| (u8 (hdr.nchan - 1#32) >>> 4 &&& 0x0f#8))
      ((u8 (hdr.nchan - 1#32) <<< 4 &&& 0xf0#8) ||| (u8 (hdr.nframe - 1#32) &&& 0x0f#8))
      (idByte hdr) := rfl

@[simp] theorem flagByte_bit (flag : Bool) : (flagByte flag).getLsbD 0 = flag := by
  cases flag <;> rfl

@[simp] theorem lowThree_bit (x : BitVec 32) : (lowThree x).getLsbD 3 = false := by
  simp [lowThree]

@[simp] theorem lowThree_lowThree (x : BitVec 32) : lowThree (lowThree x) = lowThree x :=
  lowThree_of_lt (by simp only [lowThree, BitVec.toNat_setWidth]; omega)

theorem u32_u8_gt_one (x : BitVec 32) : u32 (u8 x) > 1#32 ↔ 1 < x.toNat % 256 := by
  show (1#32).toNat < (u32 (u8 x)).toNat ↔ _
  simp only [u32, u8, BitVec.toNat_setWidth, BitVec.toNat_ofNat]
  omega

theorem v2_reencodes_pfb {hdr : MopsrHdr} (hpfb : hdr.nchan > 1#32) (old : MopsrHdr) :
    mopsrEncodeV2 (mopsrDecodeV2 (mopsrEncodeV2 hdr) old) = mopsrEncodeV2 hdr ↔
      highFlag hdr = lowFlag hdr ∧ 1 < hdr.nchan.toNat % 256 := by
  rw [mopsrDecodeV2_encode_pfb hpfb, ← u32_u8_gt_one]
  by_cases hagain : u32 (u8 hdr.nchan) > 1#32
  · simp only [mopsrEncodeV2, if_pos hpfb, if_pos hagain, modeHeader_eq, withSeqNo_inj,
      kept_sub_one, low_nibble, high_nibble, idByte_eq_iff, u8_sub, u8_u32, lowThree_lowThree,
      highFlag, lowFlag, lowThree_bit, flagByte_bit, Bool.false_or, true_and]
    constructor
    · rintro ⟨hhigh, -⟩
      exact ⟨hhigh.symm, hagain⟩
    · rintro ⟨hflag, -⟩
      exact ⟨hflag.symm, hflag, trivial⟩
  · refine iff_of_false ?_ (fun h => hagain h.2)
    intro h
    -- the second header is written in flow through mode
    have hb0 := congrArg (fun b : HdrBytes => b[0]) h
    simp only [mopsrEncodeV2, if_pos hpfb, if_neg hagain, modeHeader_eq, withSeqNo_0,
      flowThroughBytes] at hb0
    exact absurd hb0 (by decide)

theorem v2_reencodes_flow {hdr : MopsrHdr} (hpfb : ¬ hdr.nchan > 1#32) (old : MopsrHdr) :
    mopsrEncodeV2 (mopsrDecodeV2 (mopsrEncodeV2 hdr) old) = mopsrEncodeV2 hdr ↔
      highFlag hdr = lowFlag hdr ∧ lowThree hdr.antId = 2#32 ∧ lowThree hdr.antId2 = 3#32 := by
  obtain ⟨locks, chan, hdecode⟩ := mopsrDecodeV2_encode_flow hpfb old
  have hsame : u32 (u8 hdr.nchan) = hdr.nchan := by
    have : ¬ 1 < hdr.nchan.toNat := hpfb
    rw [u32_u8_eq_iff]
    omega
  have hnsamp : ∀ y : BitVec 32, ((y.setWidth 16).setWidth 32).setWidth 16 = y.setWidth 16 := by
    intro y
    ext i hi
    simp [show i < 32 by omega]
  have hids : lowThree 2#32 = 2#32 ∧ lowThree 3#32 = 3#32 := by decide
  have hbits : (2#32).getLsbD 3 = false ∧ (3#32).getLsbD 3 = false := by decide
  rw [hdecode]
  simp only [mopsrEncodeV2, hsame, if_neg hpfb, modeHeader_eq, flowThroughBytes, withSeqNo_inj,
    hnsamp, kept_sub_one, low_nibble, high_nibble, idByte_eq_iff, true_and, hids]
  simp only [highFlag, lowFlag, hbits, flagByte_bit, Bool.false_or]
  constructor
  · rintro ⟨hhigh, -, hid, hid2⟩
    exact ⟨hhigh.symm, hid.symm, hid2.symm⟩
  · rintro ⟨hflag, hid, hid2⟩
    exact ⟨hflag.symm, hflag, hid.symm, hid2.symm⟩

/-- A second trip takes another channel away. -/
theorem v1_reencodes (hdr old : MopsrHdr) :
    ¬ mopsrEncodeV1 (mopsrDecodeV1 (mopsrEncodeV1 hdr) old) = mopsrEncodeV1 hdr := by
  intro h
  have hagain := v1_decode_nchan (mopsrDecodeV1 (mopsrEncodeV1 hdr) old) old
  rw [h, v1_decode_nchan] at hagain
  have hbyte := congrArg u8 hagain
  simp only [u8_sub, u8_u32] at hbyte
  generalize u8 hdr.nchan - u8 1#32 = b at hbyte
  have hnat := congrArg BitVec.toNat hbyte
  have hlt := b.isLt
  simp only [BitVec.toNat_sub, show (u8 1#32).toNat = 1 from rfl] at hnat
  omega

/-! ## Both directions -/

/-- For every version, a record in range comes back from its header exactly when `ComesBack`
holds, and the header of any record is encoded again as it was exactly when `Reencodes` does. -/
theorem mopsr_codecs (v : MopsrVersion) (hdr old : MopsrHdr) :
    (InRange v hdr →
      (SameCarried v hdr (mopsrDecode v (mopsrEncode v hdr) old) ↔ ComesBack v hdr)) ∧
    (mopsrEncode v (mopsrDecode v (mopsrEncode v hdr) old) = mopsrEncode v hdr ↔
      Reencodes v hdr) := by
  cases v with
  | v1 =>
    refine ⟨fun h => v1_comesBack h old, ?_⟩
    exact iff_of_false (v1_reencodes hdr old) (fun hfalse => hfalse)
  | v2 =>
    refine ⟨fun h => v2_comesBack h old, ?_⟩
    by_cases hpfb : hdr.nchan > 1#32
    · simp only [Reencodes, if_pos hpfb]
      exact v2_reencodes_pfb hpfb old
    · simp only [Reencodes, if_neg hpfb]
      exact v2_reencodes_flow hpfb old
  | v3 => exact ⟨fun h => v3_comesBack h old, iff_of_true (v3_reencodes hdr old) trivial⟩
  | v4 => exact ⟨fun h => v4_comesBack h old, iff_of_true (v4_reencodes hdr old) trivial⟩

/-- A record of 40 channels with the first antenna locked. -/
def lockedHdr (startChan : BitVec 32) : MopsrHdr where
  seqNo := 7#64
  mgtLocksLong := 0xffff#16
  mgtLocks := 0xffff#16
  startChan := startChan
  nbit := 8#32
  nant := 16#32
  nchan := 40#32
  nframe := 3#32
  nsamp := 0#32
  antId := 4#32
  antId2 := 5#32
  mfLock2 := 0#8
  mfLock := 1#8

theorem mopsr_codecs_lockedHdr :
    (SameCarried .v3 (lockedHdr 9#32)
        (mopsrDecode .v3 (mopsrEncode .v3 (lockedHdr 9#32)) (lockedHdr 1#32)) ↔
      ComesBack .v3 (lockedHdr 9#32)) :=
  (mopsr_codecs .v3 (lockedHdr 9#32) (lockedHdr 1#32)).1 (by
    refine ⟨?_, ?_, ?_, ?_, ?_⟩ <;> decide)

/-- Start channel 257 comes back as 1 in version 4, and in version 2 the lock flag of the first
antenna as that of the second, so that the header is not encoded again as it was. -/
theorem locked_hdr_changed :
    (InRange .v4 (lockedHdr 257#32) ∧
      ¬ SameCarried .v4 (lockedHdr 257#32)
        (mopsrDecode .v4 (mopsrEncode .v4 (lockedHdr 257#32)) (lockedHdr 257#32))) ∧
    (InRange .v2 (lockedHdr 9#32) ∧
      ¬ mopsrEncode .v2 (mopsrDecode .v2 (mopsrEncode .v2 (lockedHdr 9#32)) (lockedHdr 9#32)) =
        mopsrEncode .v2 (lockedHdr 9#32)) := by
  refine ⟨⟨⟨?_, ?_, ?_, ?_⟩, ?_⟩, ⟨⟨⟨?_, ?_, ?_, ?_, ?_, ?_, ?_, ?_⟩, ?_⟩, ?_⟩⟩
  case refine_5 =>
    intro h
    exact absurd h.2.2.2.1 (by decide)
  all_goals decide

end Psrdada
