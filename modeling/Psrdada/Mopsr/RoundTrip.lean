import Psrdada.Mopsr.Udp
import Mathlib.Tactic.IntervalCases

/-! # What the packet header codecs bring back

For each version the record that decoding an encoded record gives, and from it the records
that come back whole and the headers that come back byte for byte. -/

namespace Psrdada

open Bits

/-! ## Sequence number -/

/-- The bytes of the sequence number, the least significant first. -/
def seqByte (b : HdrBytes) (i : ℕ) : BitVec 8 := if h : i < 8 then b[16 - i - 1] else 0#8

theorem decodeSeqNo_eq (b : HdrBytes) : decodeSeqNo b = ofBytes 64 (seqByte b) 8 := rfl

@[simp] theorem decodeSeqNo_withSeqNo (seqNo : BitVec 64) (b0 b1 b2 b3 b4 b5 b6 b7 : BitVec 8) :
    decodeSeqNo (withSeqNo seqNo b0 b1 b2 b3 b4 b5 b6 b7) = seqNo := by
  rw [decodeSeqNo_eq]
  apply ofBytes_bytes 8
  intro i hi
  interval_cases i <;> rfl

/-- Two headers are equal when their sequence numbers and their first eight bytes are. -/
theorem withSeqNo_inj {seqNo : BitVec 64}
    {b0 b1 b2 b3 b4 b5 b6 b7 c0 c1 c2 c3 c4 c5 c6 c7 : BitVec 8} :
    withSeqNo seqNo b0 b1 b2 b3 b4 b5 b6 b7 = withSeqNo seqNo c0 c1 c2 c3 c4 c5 c6 c7 ↔
      b0 = c0 ∧ b1 = c1 ∧ b2 = c2 ∧ b3 = c3 ∧ b4 = c4 ∧ b5 = c5 ∧ b6 = c6 ∧ b7 = c7 := by
  constructor
  · intro h
    have hbyte : ∀ i (hi : i < 16), (withSeqNo seqNo b0 b1 b2 b3 b4 b5 b6 b7)[i] =
        (withSeqNo seqNo c0 c1 c2 c3 c4 c5 c6 c7)[i] := fun i hi => by rw [h]
    exact ⟨hbyte 0 (by decide), hbyte 1 (by decide), hbyte 2 (by decide), hbyte 3 (by decide),
      hbyte 4 (by decide), hbyte 5 (by decide), hbyte 6 (by decide), hbyte 7 (by decide)⟩
  · rintro ⟨rfl, rfl, rfl, rfl, rfl, rfl, rfl, rfl⟩
    rfl

/-! ## Single fields -/

theorem lock_bytes (x : BitVec 16) :
    (u32 (u8 (x >>> 8)) <<< 8 ||| u32 (u8 (x &&& 0x00ff#16))).setWidth 16 = x := by
  ext i hi
  interval_cases i <;> simp [u32, u8]

theorem byte_field (x : BitVec 32) : u32 (u8 x) = (x.setWidth 8).setWidth 32 := rfl

theorem low_field (x : BitVec 32) (y : BitVec 8) :
    u32 ((y &&& 0xf0#8) ||| (u8 x &&& 0x0f#8)) &&& 0x0f#32 = (x.setWidth 4).setWidth 32 := by
  ext i hi
  interval_cases i <;> simp [u32, u8]

theorem high_field (x : BitVec 32) (y : BitVec 8) :
    u32 ((u8 x <<< 4 &&& 0xf0#8) ||| (y &&& 0x0f#8)) >>> 4 = (x.setWidth 4).setWidth 32 := by
  ext i hi
  interval_cases i <;> simp [u32, u8]

theorem u8_shiftLeft (x : BitVec 32) : u8 (x <<< 4) = u8 x <<< 4 := by
  ext i hi
  interval_cases i <;> simp [u8]

/-! ## Version 4 -/

theorem v4_startChan (x : BitVec 32) (y : BitVec 8) :
    u32 (u8 x >>> 4) <<< 4 ||| u32 ((u8 (x <<< 4) &&& 0xf0#8) ||| (y &&& 0x0f#8)) >>> 4 =
      (x.setWidth 8).setWidth 32 := by
  ext i hi
  interval_cases i <;> simp [u32, u8]

theorem v4_nchan (x : BitVec 32) :
    ((x >>> 8).setWidth 4).setWidth 32 <<< 8 ||| u32 (u8 (x &&& 0xff#32)) =
      (x.setWidth 12).setWidth 32 := by
  ext i hi
  interval_cases i <;> simp [u32, u8]

/-- Of the start channel eight bits come back, of the number of channels all twelve. -/
theorem mopsrDecodeV4_encode (hdr old : MopsrHdr) :
    mopsrDecodeV4 (mopsrEncodeV4 hdr) old =
      { old with
        mgtLocksLong := hdr.mgtLocksLong
        mgtLocks := hdr.mgtLocks
        startChan := kept 8 hdr.startChan
        nbit := kept 4 hdr.nbit
        nant := kept 4 hdr.nant
        nchan := kept 12 hdr.nchan
        seqNo := hdr.seqNo
        nframe := 1#32 } := by
  simp only [mopsrDecodeV4, mopsrEncodeV4, withSeqNo_0, withSeqNo_1, withSeqNo_2, withSeqNo_3,
    withSeqNo_4, withSeqNo_5, withSeqNo_6, withSeqNo_7, decodeSeqNo_withSeqNo, lock_bytes,
    v4_startChan, low_field, v4_nchan, kept]
  rw [u8_shiftLeft (hdr.nant - 1#32), high_field]

/-! ## Version 3 -/

/-- Every field comes back with all its bits. -/
theorem mopsrDecodeV3_encode (hdr old : MopsrHdr) :
    mopsrDecodeV3 (mopsrEncodeV3 hdr) old =
      { old with
        mgtLocksLong := hdr.mgtLocksLong
        mgtLocks := hdr.mgtLocks
        startChan := kept 8 hdr.startChan
        nbit := kept 4 hdr.nbit
        nant := kept 4 hdr.nant
        nchan := kept 8 hdr.nchan
        nframe := kept 4 hdr.nframe
        seqNo := hdr.seqNo } := by
  have hnframe : u32 (u8 (hdr.nframe - 1#32) <<< 4 &&& 0xf0#8) >>> 4 =
      ((hdr.nframe - 1#32).setWidth 4).setWidth 32 := by
    ext i hi
    interval_cases i <;> simp [u32, u8]
  simp only [mopsrDecodeV3, mopsrEncodeV3, withSeqNo_0, withSeqNo_1, withSeqNo_2, withSeqNo_3,
    withSeqNo_4, withSeqNo_5, withSeqNo_6, withSeqNo_7, decodeSeqNo_withSeqNo, lock_bytes,
    byte_field, low_field, high_field, hnframe, kept]

/-! ## Versions 2 and 1 -/

section Modes

/-- Bit 7 of the last byte before the sequence number, as both encoders write it. -/
def highFlag (hdr : MopsrHdr) : Bool := hdr.antId2.getLsbD 3 || hdr.mfLock2.getLsbD 0

/-- Bit 3 of the same byte. -/
def lowFlag (hdr : MopsrHdr) : Bool := hdr.antId.getLsbD 3 || hdr.mfLock.getLsbD 0

/-- A flag as the decoders read it. -/
def flagByte (flag : Bool) : BitVec 8 := (BitVec.ofBool flag).setWidth 8

/-- The three bits of an antenna identifier that are read. -/
def lowThree (x : BitVec 32) : BitVec 32 := (x.setWidth 3).setWidth 32

/-- The last byte before the sequence number. -/
def idByte (hdr : MopsrHdr) : BitVec 8 :=
  (u8 (hdr.antId2 <<< 4) &&& 0xf0#8) ||| (hdr.mfLock2 &&& 0x01#8) <<< 7 |||
    u8 (hdr.antId &&& 0x0f#32) ||| (hdr.mfLock &&& 0x01#8) <<< 3

theorem idByte_highFlag (hdr : MopsrHdr) :
    (idByte hdr &&& 0x80#8) >>> 7 = flagByte (highFlag hdr) := by
  ext i hi
  interval_cases i <;> simp [idByte, flagByte, highFlag, u8]

theorem idByte_lowFlag (hdr : MopsrHdr) :
    (idByte hdr &&& 0x08#8) >>> 3 = flagByte (lowFlag hdr) := by
  ext i hi
  interval_cases i <;> simp [idByte, flagByte, lowFlag, u8]

theorem idByte_antId (hdr : MopsrHdr) :
    (u32 (idByte hdr) &&& 0x0f#32) &&& 0x07#32 = lowThree hdr.antId := by
  ext i hi
  interval_cases i <;> simp [idByte, lowThree, u32, u8]

theorem idByte_antId2 (hdr : MopsrHdr) :
    u32 (idByte hdr) >>> 4 &&& 0x07#32 = lowThree hdr.antId2 := by
  ext i hi
  interval_cases i <;> simp [idByte, lowThree, u32, u8]

theorem v2_locks (x : BitVec 16) (y : BitVec 8) :
    (u32 (0x20#8 ||| (u8 (x >>> 12) &&& 0x0f#8)) <<< 12 ||| u32 (u8 (x >>> 4)) <<< 4 |||
      u32 ((u8 (x <<< 4) &&& 0xf0#8) ||| (y &&& 0x0f#8)) >>> 4).setWidth 16 = x := by
  ext i hi
  interval_cases i <;> simp [u32, u8]

/-- The increment of the stored eight bits, itself kept in eight bits. -/
theorem incremented_byte (x : BitVec 32) (y : BitVec 8) :
    u8 ((u32 ((y &&& 0xf0#8) ||| (u8 (x - 1#32) >>> 4 &&& 0x0f#8)) <<< 4 |||
      ((x - 1#32).setWidth 4).setWidth 32) + 1#32) = u8 x := by
  have hbyte : u8 (u32 ((y &&& 0xf0#8) ||| (u8 (x - 1#32) >>> 4 &&& 0x0f#8)) <<< 4 |||
      ((x - 1#32).setWidth 4).setWidth 32) = u8 (x - 1#32) := by
    ext i hi
    interval_cases i <;> simp [u32, u8]
  have hadd : ∀ a b : BitVec 32, u8 (a + b) = u8 a + u8 b := by
    intro a b
    exact BitVec.setWidth_add a b (by decide)
  rw [hadd, hbyte, ← hadd, BitVec.sub_add_cancel]

theorem stored_byte (x : BitVec 32) (y : BitVec 8) :
    u8 (u32 ((y &&& 0xf0#8) ||| (u8 x >>> 4 &&& 0x0f#8)) <<< 4 ^^^
      (x.setWidth 4).setWidth 32) = u8 x := by
  ext i hi
  interval_cases i <;> simp [u32, u8]

theorem stored_nsamp (x : BitVec 16) (y : BitVec 8) :
    (u32 (0x50#8 ||| (u8 (x >>> 12) &&& 0x0f#8)) <<< 12 ^^^ u32 (u8 (x >>> 4)) <<< 4 ^^^
      u32 ((u8 (x <<< 4) &&& 0xf0#8) ||| (y &&& 0x0f#8)) >>> 4).setWidth 16 = x := by
  ext i hi
  interval_cases i <;> simp [u32, u8]

/-- With several channels, the start channel and the number of channels come back in eight
bits, and the lock flags in each other's place. -/
theorem mopsrDecodeV2_encode_pfb {hdr : MopsrHdr} (hmode : hdr.nchan > 1#32) (old : MopsrHdr) :
    mopsrDecodeV2 (mopsrEncodeV2 hdr) old =
      { old with
        mgtLocks := hdr.mgtLocks
        startChan := u32 (u8 hdr.startChan)
        nbit := kept 4 hdr.nbit
        nant := kept 4 hdr.nant
        nchan := u32 (u8 hdr.nchan)
        nframe := kept 4 hdr.nframe
        antId := lowThree hdr.antId
        antId2 := lowThree hdr.antId2
        mfLock := flagByte (highFlag hdr)
        mfLock2 := flagByte (lowFlag hdr)
        seqNo := hdr.seqNo } := by
  have hb0 : ¬ (0x01#8 : BitVec 8) = 0x12#8 := by decide
  simp only [mopsrDecodeV2, mopsrEncodeV2, if_pos hmode, modeHeader, withSeqNo_0, withSeqNo_1,
    withSeqNo_2, withSeqNo_3, withSeqNo_4, withSeqNo_5, withSeqNo_6, withSeqNo_7,
    decodeSeqNo_withSeqNo, if_neg hb0, v2_locks, incremented_byte, low_field, high_field, kept,
    ← idByte_highFlag, ← idByte_lowFlag, ← idByte_antId, ← idByte_antId2]
  rfl

/-- In flow through mode the antennas are always the third and the fourth. -/
theorem mopsrDecodeV2_encode_flow {hdr : MopsrHdr} (hmode : ¬ hdr.nchan > 1#32)
    (old : MopsrHdr) :
    ∃ locks chan, mopsrDecodeV2 (mopsrEncodeV2 hdr) old =
      { old with
        mgtLocks := locks
        startChan := chan
        nbit := kept 4 hdr.nbit
        nant := kept 4 hdr.nant
        nchan := u32 (u8 hdr.nchan)
        nframe := kept 4 hdr.nframe
        nsamp := kept 16 hdr.nsamp
        antId := 2#32
        antId2 := 3#32
        mfLock := flagByte (highFlag hdr)
        mfLock2 := flagByte (lowFlag hdr)
        seqNo := hdr.seqNo } := by
  refine ⟨(u32 (mopsrEncodeV2 hdr)[1] <<< 12 ||| u32 (mopsrEncodeV2 hdr)[2] <<< 4 |||
      u32 (mopsrEncodeV2 hdr)[3] >>> 4).setWidth 16,
    u32 (u8 ((u32 (mopsrEncodeV2 hdr)[3] <<< 4 ||| u32 (mopsrEncodeV2 hdr)[4] >>> 4) + 1#32)), ?_⟩
  simp only [mopsrDecodeV2, mopsrEncodeV2, if_neg hmode, modeHeader, flowThroughBytes,
    withSeqNo_0, withSeqNo_1, withSeqNo_2, withSeqNo_3, withSeqNo_4, withSeqNo_5, withSeqNo_6,
    withSeqNo_7, decodeSeqNo_withSeqNo, if_true, stored_nsamp, incremented_byte, low_field,
    high_field, kept, ← idByte_highFlag, ← idByte_lowFlag]
  rfl

/-- The number of channels comes back as it was stored, less one. -/
theorem mopsrDecodeV1_encode_pfb {hdr : MopsrHdr} (hmode : hdr.nchan > 1#32) (old : MopsrHdr) :
    mopsrDecodeV1 (mopsrEncodeV1 hdr) old =
      { old with
        nbit := kept 4 hdr.nbit
        nant := kept 4 hdr.nant
        nchan := u32 (u8 (hdr.nchan - 1#32))
        nframe := kept 4 hdr.nframe
        nsamp := 0#32
        antId := lowThree hdr.antId
        antId2 := lowThree hdr.antId2
        mfLock := flagByte (highFlag hdr)
        mfLock2 := flagByte (lowFlag hdr)
        seqNo := hdr.seqNo } := by
  have hb0 : ¬ (0x01#8 : BitVec 8) = 0x12#8 := by decide
  have hnbit : u32 (0x00#8 ||| (u8 (hdr.nbit - 1#32) &&& 0x0f#8)) &&& 0x0f#32 =
      ((hdr.nbit - 1#32).setWidth 4).setWidth 32 := low_field (hdr.nbit - 1#32) 0#8
  simp only [mopsrDecodeV1, mopsrEncodeV1, if_pos hmode, modeHeader, withSeqNo_0,
    withSeqNo_4, withSeqNo_5, withSeqNo_6, withSeqNo_7,
    decodeSeqNo_withSeqNo, if_neg hb0, stored_byte, hnbit, low_field, high_field, kept,
    ← idByte_highFlag, ← idByte_lowFlag, ← idByte_antId, ← idByte_antId2]
  rfl

theorem mopsrDecodeV1_encode_flow {hdr : MopsrHdr} (hmode : ¬ hdr.nchan > 1#32)
    (old : MopsrHdr) :
    mopsrDecodeV1 (mopsrEncodeV1 hdr) old =
      { old with
        nbit := kept 4 hdr.nbit
        nant := kept 4 hdr.nant
        nchan := u32 (u8 (hdr.nchan - 1#32))
        nframe := kept 4 hdr.nframe
        nsamp := kept 16 hdr.nsamp
        antId := 2#32
        antId2 := 3#32
        mfLock := flagByte (highFlag hdr)
        mfLock2 := flagByte (lowFlag hdr)
        seqNo := hdr.seqNo } := by
  simp only [mopsrDecodeV1, mopsrEncodeV1, if_neg hmode, modeHeader, flowThroughBytes,
    withSeqNo_0, withSeqNo_2, withSeqNo_3, withSeqNo_4, withSeqNo_5, withSeqNo_6,
    withSeqNo_7, decodeSeqNo_withSeqNo, if_true, stored_nsamp, stored_byte, low_field,
    high_field, kept, ← idByte_highFlag, ← idByte_lowFlag]
  rfl

end Modes

end Psrdada
