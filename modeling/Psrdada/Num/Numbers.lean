import Mathlib.Data.List.GetD
import Psrdada.Bits.Packing

/-! # `dada_numdb.c` and `dada_dbnum.c`: numbers written and checked

The generator fills the data block with consecutive 64-bit numbers, most significant byte first, and
leaves out every second group of `interleave_num`.  The checker reads them, in calls of other sizes, and
stops at the first number that is not the next. -/

namespace Psrdada

open Bits

/-! ## The generator -/

/-- Byte `j` of a number, from the least significant on: `(index >> ((j & 7) << 3)) & 0xFF`. -/
def indexByte (index : BitVec 64) (j : ℕ) : UInt8 := UInt8.ofBitVec ((index >>> (8 * j)).setWidth 8)

/-- The eight bytes that `ptr[8 - j - 1] = ch` leaves at `ptr`. -/
def encodeIndex (index : BitVec 64) : List UInt8 := (List.range 8).map fun i => indexByte index (8 - i - 1)

/-- `dada_numdb_t` -/
structure Numdb where
  /-- `start_num` -/
  startNum : BitVec 64
  /-- `interleave_num` -/
  interleaveNum : BitVec 64
  /-- `index` -/
  index : BitVec 64
  /-- `header_read` -/
  headerRead : Bool
  deriving DecidableEq, Repr

namespace Numdb

/-- The index after one number; the remainder by 0 has no value. -/
def advance (numdb : Numdb) : Option Numdb :=
  let index := numdb.index + 1
  if numdb.interleaveNum = 0 then none
  else if index % numdb.interleaveNum = 0 then some { numdb with index := index + numdb.interleaveNum }
  else some { numdb with index := index }

/-- The loop of `dada_numdb_io` over the next `uint64_count` numbers of the data. -/
def words (numdb : Numdb) (data : List UInt8) : ℕ → Option (Numdb × List UInt8)
  | 0 => some (numdb, data)
  | count + 1 => do
    let (next, rest) ← (← numdb.advance).words (data.drop 8) count
    return (next, encodeIndex numdb.index ++ rest)

/-- `dada_numdb_io`: the state and the data that it leaves. -/
def dadaNumdbIo (numdb : Numdb) (data : List UInt8) : Option (Numdb × List UInt8) :=
  if numdb.headerRead then numdb.words data (data.length / 8)
  else some ({ numdb with headerRead := true }, data)

/-- `dada_numdb_open` -/
def dadaNumdbOpen (numdb : Numdb) : Numdb := { numdb with index := numdb.startNum }

/-- The generator as `main` sets it up. -/
def create (startNum interleaveBytes : BitVec 64) : Numdb where
  startNum := startNum
  interleaveNum := interleaveBytes / 8
  index := 0
  headerRead := false

/-- One call of `dada_numdb_io` after another. -/
def calls (numdb : Numdb) : List (List UInt8) → Option (List (List UInt8))
  | [] => some []
  | data :: blocks => do
    let (next, data) ← numdb.dadaNumdbIo data
    return data :: (← next.calls blocks)

/-- A transfer: it is opened, the header is passed, and then the data. -/
def run (startNum interleaveBytes : BitVec 64) (header : List UInt8) (blocks : List (List UInt8)) :
    Option (List (List UInt8)) := do
  let (numdb, _) ← (create startNum interleaveBytes).dadaNumdbOpen.dadaNumdbIo header
  numdb.calls blocks

end Numdb

/-! ## The checker -/

/-- `dada_dbnum_t` -/
structure Dbnum where
  /-- `start_num` -/
  startNum : BitVec 64
  /-- `interleave_skip_num` -/
  interleaveSkipNum : BitVec 64
  /-- `index` -/
  index : BitVec 64
  /-- `xfer_skip_num` -/
  xferSkipNum : BitVec 64
  /-- `header_read` -/
  headerRead : Bool
  deriving DecidableEq, Repr

namespace Dbnum

/-- `seq`: the number at `ptr`. -/
def decodeSeq (ptr : List UInt8) : BitVec 64 := ofBytes 64 (fun j => (ptr.getD (8 - j - 1) 0).toBitVec) 8

/-- The index after one number. -/
def advance (dbnum : Dbnum) : Dbnum :=
  let index := dbnum.index + 1
  if dbnum.interleaveSkipNum ≠ 0 then
    if index % dbnum.interleaveSkipNum = 0 then { dbnum with index := index + dbnum.interleaveSkipNum }
    else { dbnum with index := index }
  else { dbnum with index := index }

/-- The loop of `dada_dbnum_io` over the next `uint64_count` numbers of the data; none where it exits. -/
def words (dbnum : Dbnum) (data : List UInt8) : ℕ → Option Dbnum
  | 0 => some dbnum
  | count + 1 =>
    if decodeSeq data ≠ dbnum.index then none else dbnum.advance.words (data.drop 8) count

/-- `dada_dbnum_io` -/
def dadaDbnumIo (dbnum : Dbnum) (data : List UInt8) : Option Dbnum :=
  if dbnum.headerRead then dbnum.words data (data.length / 8)
  else some { dbnum with headerRead := true }

/-- `dada_dbnum_open` -/
def dadaDbnumOpen (dbnum : Dbnum) : Dbnum :=
  if dbnum.index = 0 ∨ dbnum.xferSkipNum = 0 then { dbnum with index := dbnum.startNum } else dbnum

/-- The checker as `main` sets it up. -/
def create (startNum interleaveSkipBytes xferSkipNum : BitVec 64) : Dbnum where
  startNum := startNum
  interleaveSkipNum := interleaveSkipBytes / 8
  index := 0
  xferSkipNum := xferSkipNum
  headerRead := false

/-- One call of `dada_dbnum_io` after another. -/
def calls (dbnum : Dbnum) : List (List UInt8) → Option Dbnum
  | [] => some dbnum
  | data :: chunks => do (← dbnum.dadaDbnumIo data).calls chunks

/-- The first transfer: it is opened, the header is passed, and then the data. -/
def run (startNum interleaveSkipBytes xferSkipNum : BitVec 64) (header : List UInt8)
    (chunks : List (List UInt8)) : Option Dbnum := do
  let dbnum ← (create startNum interleaveSkipBytes xferSkipNum).dadaDbnumOpen.dadaDbnumIo header
  dbnum.calls chunks

end Dbnum

/-! ## A number and its bytes -/

theorem length_encodeIndex (index : BitVec 64) : (encodeIndex index).length = 8 := by
  rw [encodeIndex, List.length_map, List.length_range]

/-- What the checker reads of a number is the number. -/
theorem decodeSeq_encodeIndex (index : BitVec 64) (rest : List UInt8) :
    Dbnum.decodeSeq (encodeIndex index ++ rest) = index := by
  apply ofBytes_bytes 8 index
  intro j hj
  have hlt : 8 - j - 1 < (List.range 8).length := by rw [List.length_range]; omega
  have hget : (encodeIndex index ++ rest).getD (8 - j - 1) 0 = indexByte index j := by
    have hsub : 8 - (8 - j - 1) - 1 = j := by omega
    rw [List.getD_append _ _ _ _ (by rw [length_encodeIndex]; omega), encodeIndex,
      List.getD_eq_getElem _ _ (by rw [List.length_map]; exact hlt), List.getElem_map, List.getElem_range,
      hsub]
  rw [hget, indexByte]

/-- Only the bytes of a number are read as it. -/
theorem encodeIndex_decodeSeq {data : List UInt8} (h : 8 ≤ data.length) :
    encodeIndex (Dbnum.decodeSeq data) = data.take 8 := by
  apply List.ext_getElem
  · rw [length_encodeIndex, List.length_take_of_le h]
  · intro i hi hi'
    rw [length_encodeIndex] at hi
    have hsub : 8 - (8 - i - 1) - 1 = i := by omega
    have hbyte := byte_ofBytes 8 (fun j => (data.getD (8 - j - 1) 0).toBitVec) (i := 8 - i - 1) (by omega)
    simp only [hsub] at hbyte
    simp only [encodeIndex, List.getElem_map, List.getElem_range, indexByte, Dbnum.decodeSeq,
      List.getElem_take]
    rw [hbyte, List.getD_eq_getElem _ _ (by omega), UInt8.ofBitVec_toBitVec]

end Psrdada
