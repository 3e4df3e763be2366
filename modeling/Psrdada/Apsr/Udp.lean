import Psrdada.Capture.Datagram
import Mathlib.Tactic.IntervalCases

/-! # The APSR packet header

`encode_header` and `decode_header` of `apsr_udp.c`. A buffer is of type `char`, which is signed,
so a byte is extended with its sign before it is shifted into the sequence number. -/

namespace Psrdada

/-- `header_struct`, without the length that the unpacker sets. -/
structure ApsrHeader where
  length : UInt8
  source : UInt8
  sequence : BitVec 32
  bits : UInt8
  channels : UInt8
  bands : UInt8
  bandID0 : UInt8
  bandID1 : UInt8
  bandID2 : UInt8
  bandID3 : UInt8
  deriving DecidableEq, Repr

/-- A `char` in integer arithmetic. -/
def signed (c : UInt8) : BitVec 32 := c.toBitVec.signExtend 32

/-- `unsigned` arithmetic stored in a `char`. -/
def char (x : BitVec 32) : UInt8 := ⟨x.setWidth 8⟩

/-- The bits of an encoded header: `8` where none are given. -/
def ApsrHeader.bitsOrEight (header : ApsrHeader) : UInt8 :=
  if header.bits = 0 then 8 else header.bits

/-- `encode_header`, the sixteen bytes that it writes. -/
def encodeHeader (header : ApsrHeader) : Datagram :=
  let temp := header.sequence
  [header.length, header.source,
    char (temp.sshiftRight 24 &&& 0xff#32), char (temp.sshiftRight 16 &&& 0xff#32),
    char (temp.sshiftRight 8 &&& 0xff#32), char (temp &&& 0xff#32),
    header.bitsOrEight, 0x00, header.channels, header.bands,
    header.bandID0, header.bandID1, header.bandID2, header.bandID3, 0x00, 0x00]

/-- The sequence number in `decode_header`. -/
def decodeSequence (buffer : Datagram) : BitVec 32 :=
  signed (buffer.getD 2 0) <<< 24 |||
    (signed (buffer.getD 3 0) <<< 16 &&& 0xff0000#32) |||
    (signed (buffer.getD 4 0) <<< 8 &&& 0xff00#32) |||
    (signed (buffer.getD 5 0) &&& 0xff#32)

/-- `decode_header`, which leaves the bits as they were. -/
def decodeHeader (buffer : Datagram) (header : ApsrHeader) : ApsrHeader :=
  { header with
    length := buffer.getD 0 0
    source := buffer.getD 1 0
    sequence := decodeSequence buffer
    channels := buffer.getD 8 0
    bands := buffer.getD 9 0
    bandID0 := buffer.getD 10 0
    bandID1 := buffer.getD 11 0
    bandID2 := buffer.getD 12 0
    bandID3 := buffer.getD 13 0 }

/-- The four bytes of the sequence number, with whatever signs, give it back. -/
theorem decodeSequence_encodeHeader (header : ApsrHeader) (rest : Datagram) :
    decodeSequence (encodeHeader header ++ rest) = header.sequence := by
  simp only [decodeSequence, encodeHeader, List.cons_append, List.getD_cons_zero,
    List.getD_cons_succ]
  apply BitVec.eq_of_getLsbD_eq
  intro i hi
  interval_cases i <;>
    simp [signed, char, BitVec.getElem_signExtend, BitVec.getElem_sshiftRight]

/-- A header that is decoded from what was encoded is that header, up to the bits. -/
theorem decodeHeader_encodeHeader (header old : ApsrHeader) (rest : Datagram) :
    decodeHeader (encodeHeader header ++ rest) old = { header with bits := old.bits } := by
  have hseq := decodeSequence_encodeHeader header rest
  rw [decodeHeader, hseq]
  rfl

end Psrdada
