import Psrdada.Bits.Packing

/-! # The MOPSR packet header

`mopsr_hdr_t`, its four sixteen-byte layouts, and the functions that encode and decode each.
A decoder fills in part of a record that was there before, so it takes that record as well. -/

namespace Psrdada

open Bits

/-- `mopsr_hdr_t`. -/
structure MopsrHdr where
  seqNo : BitVec 64
  mgtLocksLong : BitVec 16
  mgtLocks : BitVec 16
  startChan : BitVec 32
  nbit : BitVec 32
  nant : BitVec 32
  nchan : BitVec 32
  nframe : BitVec 32
  nsamp : BitVec 32
  antId : BitVec 32
  antId2 : BitVec 32
  mfLock2 : BitVec 8
  mfLock : BitVec 8
  deriving DecidableEq, Repr

/-- The first sixteen bytes of a packet. -/
abbrev HdrBytes := Vector (BitVec 8) 16

/-- `(uint8_t)` of an integer. -/
def u8 {w : ℕ} (x : BitVec w) : BitVec 8 := x.setWidth 8

/-- A byte in integer arithmetic. -/
def u32 (b : BitVec 8) : BitVec 32 := b.setWidth 32

/-! ## Sequence number -/

/-- The loop of every decoder over the bytes 15 down to 8. -/
def decodeSeqNo (b : HdrBytes) : BitVec 64 :=
  (List.finRange 8).foldl
    (fun seqNo i => seqNo ||| (b[16 - i.val - 1]).setWidth 64 <<< ((i.val &&& 7) <<< 3)) 0#64

/-- The bytes `b[0]` to `b[7]`, and the eight lines that end every encoder. -/
def withSeqNo (seqNo : BitVec 64) (b0 b1 b2 b3 b4 b5 b6 b7 : BitVec 8) : HdrBytes :=
  #v[b0, b1, b2, b3, b4, b5, b6, b7,
    u8 (seqNo >>> 56), u8 (seqNo >>> 48), u8 (seqNo >>> 40), u8 (seqNo >>> 32),
    u8 (seqNo >>> 24), u8 (seqNo >>> 16), u8 (seqNo >>> 8), u8 seqNo]

section Bytes

variable (seqNo : BitVec 64) (b0 b1 b2 b3 b4 b5 b6 b7 : BitVec 8)

@[simp] theorem withSeqNo_0 : (withSeqNo seqNo b0 b1 b2 b3 b4 b5 b6 b7)[0] = b0 := rfl
@[simp] theorem withSeqNo_1 : (withSeqNo seqNo b0 b1 b2 b3 b4 b5 b6 b7)[1] = b1 := rfl
@[simp] theorem withSeqNo_2 : (withSeqNo seqNo b0 b1 b2 b3 b4 b5 b6 b7)[2] = b2 := rfl
@[simp] theorem withSeqNo_3 : (withSeqNo seqNo b0 b1 b2 b3 b4 b5 b6 b7)[3] = b3 := rfl
@[simp] theorem withSeqNo_4 : (withSeqNo seqNo b0 b1 b2 b3 b4 b5 b6 b7)[4] = b4 := rfl
@[simp] theorem withSeqNo_5 : (withSeqNo seqNo b0 b1 b2 b3 b4 b5 b6 b7)[5] = b5 := rfl
@[simp] theorem withSeqNo_6 : (withSeqNo seqNo b0 b1 b2 b3 b4 b5 b6 b7)[6] = b6 := rfl
@[simp] theorem withSeqNo_7 : (withSeqNo seqNo b0 b1 b2 b3 b4 b5 b6 b7)[7] = b7 := rfl

end Bytes

/-! ## Version 4 -/

/-- `mopsr_encode_v4`. -/
def mopsrEncodeV4 (hdr : MopsrHdr) : HdrBytes :=
  withSeqNo hdr.seqNo
    (u8 (hdr.mgtLocksLong >>> 8)) (u8 (hdr.mgtLocksLong &&& 0x00ff#16))
    (u8 (hdr.mgtLocks >>> 8)) (u8 (hdr.mgtLocks &&& 0x00ff#16))
    -- the cast binds tighter than the shift
    (u8 (hdr.startChan - 1#32) >>> 4)
    ((u8 ((hdr.startChan - 1#32) <<< 4) &&& 0xf0#8) ||| (u8 (hdr.nbit - 1#32) &&& 0x0f#8))
    ((u8 ((hdr.nant - 1#32) <<< 4) &&& 0xf0#8) ||| (u8 ((hdr.nchan - 1#32) >>> 8) &&& 0x0f#8))
    (u8 ((hdr.nchan - 1#32) &&& 0xff#32))

/-- `mopsr_decode_v4`. -/
def mopsrDecodeV4 (b : HdrBytes) (hdr : MopsrHdr) : MopsrHdr :=
  { hdr with
    mgtLocksLong := (u32 b[0] <<< 8 ||| u32 b[1]).setWidth 16
    mgtLocks := (u32 b[2] <<< 8 ||| u32 b[3]).setWidth 16
    startChan := (u32 b[4] <<< 4 ||| u32 b[5] >>> 4) + 1#32
    nbit := (u32 b[5] &&& 0x0f#32) + 1#32
    nant := u32 b[6] >>> 4 + 1#32
    nchan := ((u32 b[6] &&& 0x0f#32) <<< 8 ||| u32 b[7]) + 1#32
    seqNo := decodeSeqNo b
    nframe := 1#32 }

/-! ## Version 3 -/

/-- `mopsr_encode_v3`. -/
def mopsrEncodeV3 (hdr : MopsrHdr) : HdrBytes :=
  withSeqNo hdr.seqNo
    (u8 (hdr.mgtLocksLong >>> 8)) (u8 (hdr.mgtLocksLong &&& 0x00ff#16))
    (u8 (hdr.mgtLocks >>> 8)) (u8 (hdr.mgtLocks &&& 0x00ff#16))
    (u8 (hdr.startChan - 1#32))
    ((u8 (hdr.nbit - 1#32) <<< 4 &&& 0xf0#8) ||| (u8 (hdr.nant - 1#32) &&& 0x0f#8))
    (u8 (hdr.nchan - 1#32))
    (u8 (hdr.nframe - 1#32) <<< 4 &&& 0xf0#8)

/-- `mopsr_decode_v3`. -/
def mopsrDecodeV3 (b : HdrBytes) (hdr : MopsrHdr) : MopsrHdr :=
  { hdr with
    mgtLocksLong := (u32 b[0] <<< 8 ||| u32 b[1]).setWidth 16
    mgtLocks := (u32 b[2] <<< 8 ||| u32 b[3]).setWidth 16
    startChan := u32 b[4] + 1#32
    nbit := u32 b[5] >>> 4 + 1#32
    nant := (u32 b[5] &&& 0x0f#32) + 1#32
    nchan := u32 b[6] + 1#32
    nframe := u32 b[7] >>> 4 + 1#32
    seqNo := decodeSeqNo b }

/-! ## Versions 2 and 1 -/

/-- The bytes `b[0]` to `b[4]`, the last of them with its high nibble only. -/
structure ModeBytes where
  b0 : BitVec 8
  b1 : BitVec 8
  b2 : BitVec 8
  b3 : BitVec 8
  b4 : BitVec 8

/-- The flow through branch of both encoders. -/
def flowThroughBytes (hdr : MopsrHdr) : ModeBytes :=
  let nsamp : BitVec 16 := (hdr.nsamp - 1#32).setWidth 16
  { b0 := 0x12#8
    b1 := 0x34#8
    b2 := 0x50#8 ||| (u8 (nsamp >>> 12) &&& 0x0f#8)
    b3 := u8 (nsamp >>> 4)
    b4 := u8 (nsamp <<< 4) &&& 0xf0#8 }

/-- The bytes `b[4]` to `b[15]` as both encoders write them, after either branch. -/
def modeHeader (mode : ModeBytes) (hdr : MopsrHdr) : HdrBytes :=
  withSeqNo hdr.seqNo mode.b0 mode.b1 mode.b2 mode.b3
    (mode.b4 ||| (u8 (hdr.nbit - 1#32) &&& 0x0f#8))
    ((u8 (hdr.nant - 1#32) <<< 4 &&& 0xf0#8) ||| (u8 (hdr.nchan - 1#32) >>> 4 &&& 0x0f#8))
    ((u8 (hdr.nchan - 1#32) <<< 4 &&& 0xf0#8) ||| (u8 (hdr.nframe - 1#32) &&& 0x0f#8))
    -- the lock flags go where the decoders look for each other's
    ((u8 (hdr.antId2 <<< 4) &&& 0xf0#8) ||| (hdr.mfLock2 &&& 0x01#8) <<< 7 |||
      u8 (hdr.antId &&& 0x0f#32) ||| (hdr.mfLock &&& 0x01#8) <<< 3)

/-- `mopsr_encode_v2`. -/
def mopsrEncodeV2 (hdr : MopsrHdr) : HdrBytes :=
  let pfb : ModeBytes :=
    { b0 := 0x01#8
      b1 := 0x20#8 ||| (u8 (hdr.mgtLocks >>> 12) &&& 0x0f#8)
      b2 := u8 (hdr.mgtLocks >>> 4)
      b3 := (u8 (hdr.mgtLocks <<< 4) &&& 0xf0#8) ||| (u8 (hdr.startChan - 1#32) >>> 4 &&& 0x0f#8)
      b4 := u8 (hdr.startChan - 1#32) <<< 4 &&& 0xf0#8 }
  modeHeader (if hdr.nchan > 1#32 then pfb else flowThroughBytes hdr) hdr

/-- `mopsr_encode_v1`. -/
def mopsrEncodeV1 (hdr : MopsrHdr) : HdrBytes :=
  let pfb : ModeBytes := { b0 := 0x01#8, b1 := 0x23#8, b2 := 0x40#8, b3 := 0x00#8, b4 := 0x00#8 }
  modeHeader (if hdr.nchan > 1#32 then pfb else flowThroughBytes hdr) hdr

/-- `mopsr_decode_v2`. -/
def mopsrDecodeV2 (b : HdrBytes) (hdr : MopsrHdr) : MopsrHdr :=
  -- `unsigned char`: the increment is lost when the eight bits are all set
  let schan : BitVec 8 := u8 ((u32 b[3] <<< 4 ||| u32 b[4] >>> 4) + 1#32)
  let nchan : BitVec 8 := u8 ((u32 b[5] <<< 4 ||| u32 b[6] >>> 4) + 1#32)
  let decoded : MopsrHdr :=
    { hdr with
      mgtLocks := (u32 b[1] <<< 12 ||| u32 b[2] <<< 4 ||| u32 b[3] >>> 4).setWidth 16
      startChan := u32 schan
      nbit := (u32 b[4] &&& 0x0f#32) + 1#32
      nant := u32 b[5] >>> 4 + 1#32
      nchan := u32 nchan
      nframe := (u32 b[6] &&& 0x0f#32) + 1#32
      antId := (u32 b[7] &&& 0x0f#32) &&& 0x07#32
      antId2 := u32 b[7] >>> 4 &&& 0x07#32
      mfLock := (b[7] &&& 0x80#8) >>> 7
      mfLock2 := (b[7] &&& 0x08#8) >>> 3
      seqNo := decodeSeqNo b }
  if b[0] = 0x12#8 then
    let nsamp : BitVec 16 := (u32 b[2] <<< 12 ^^^ u32 b[3] <<< 4 ^^^ u32 b[4] >>> 4).setWidth 16
    { decoded with nsamp := nsamp.setWidth 32 + 1#32, antId := 2#32, antId2 := 3#32 }
  else decoded

/-- `mopsr_decode_v1`. -/
def mopsrDecodeV1 (b : HdrBytes) (hdr : MopsrHdr) : MopsrHdr :=
  let nchan : BitVec 8 := u8 (u32 b[5] <<< 4 ^^^ u32 b[6] >>> 4)
  let decoded : MopsrHdr :=
    { hdr with
      nbit := (u32 b[4] &&& 0x0f#32) + 1#32
      nant := u32 b[5] >>> 4 + 1#32
      nchan := u32 nchan
      nframe := (u32 b[6] &&& 0x0f#32) + 1#32
      mfLock2 := (b[7] &&& 0x08#8) >>> 3
      mfLock := (b[7] &&& 0x80#8) >>> 7
      seqNo := decodeSeqNo b }
  if b[0] = 0x12#8 then
    let nsamp : BitVec 16 := (u32 b[2] <<< 12 ^^^ u32 b[3] <<< 4 ^^^ u32 b[4] >>> 4).setWidth 16
    { decoded with nsamp := nsamp.setWidth 32 + 1#32, antId := 2#32, antId2 := 3#32 }
  else
    { decoded with
      nsamp := 0#32
      antId2 := u32 b[7] >>> 4 &&& 0x07#32
      antId := (u32 b[7] &&& 0x0f#32) &&& 0x07#32 }

/-! ## The four versions -/

inductive MopsrVersion where
  | v1 | v2 | v3 | v4
  deriving DecidableEq, Repr

/-- `mopsr_encode`, for the version that the build chooses. -/
def mopsrEncode : MopsrVersion → MopsrHdr → HdrBytes
  | .v1 => mopsrEncodeV1
  | .v2 => mopsrEncodeV2
  | .v3 => mopsrEncodeV3
  | .v4 => mopsrEncodeV4

/-- `mopsr_decode`, for the version that the build chooses. -/
def mopsrDecode : MopsrVersion → HdrBytes → MopsrHdr → MopsrHdr
  | .v1 => mopsrDecodeV1
  | .v2 => mopsrDecodeV2
  | .v3 => mopsrDecodeV3
  | .v4 => mopsrDecodeV4

end Psrdada
