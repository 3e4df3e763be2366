import Psrdada.Client.ClientLoops
import Psrdada.Header.OneLine
import Psrdada.Ring.Ipcio

/-! # `dada_hdu.c`: header plus data unit

A client of a data stream locks the header block and the data block together, copies the next header into
a buffer of its own, reads the data, and unlocks both.  The header block is what the process sees of it: the
sub-blocks that have been posted and not been cleared, and how many of them `FULL` still counts.  A
sub-block that has been taken from `FULL` is held until it is marked as cleared.  The writer may post more
at any time; a viewer is given what the ring has for it. -/

namespace Psrdada

open CString

/-! ## The header block -/

/-- A sub-block of a header block. -/
structure HeaderSub where
  /-- Its characters. -/
  memory : Text
  /-- The number of those that have been marked as filled. -/
  bytes : ℕ
  /-- Whether it ends its transfer. -/
  last : Bool

/-- What a viewer finds. -/
structure Viewed where
  /-- The sub-block. -/
  sub : HeaderSub
  /-- Whether it has come to the end of the transfer. -/
  stopped : Bool

/-- The header block, as the process sees it. -/
structure HeaderBlock where
  /-- The size of a sub-block. -/
  bufsz : ℕ
  /-- The state of the process. -/
  state : ProcState
  /-- `r_states[iread]` is not `IPCBUF_DISCON`: the reader is in the middle of a transfer. -/
  midway : Bool
  /-- The sub-blocks that have been posted and not been cleared. -/
  posted : List HeaderSub
  /-- The semaphore `FULL`. -/
  full : ℕ

namespace HeaderBlock

variable (b : HeaderBlock)

/-- `ipcbuf_is_reader`. -/
def isReader : Bool := b.state == .reader || b.state == .reading || b.state == .rstop

/-- `ipcbuf_eod`. -/
def eod : Bool := b.state == .rstop || b.state == .vstop

/-- `ipcbuf_lock_read`, where `slot` is whether there is a slot for the reader: none where it fails. -/
def lockRead (slot : Bool) : Option HeaderBlock :=
  if b.state = .viewer ∧ slot = true then
    some { b with state := if b.midway then .reading else .reader }
  else none

/-- `ipcbuf_unlock_read`: none where it fails. -/
def unlockRead : Option HeaderBlock :=
  if b.isReader then some { b with state := .viewer } else none

/-- `ipcbuf_get_next_read`: none while it waits, otherwise the sub-block (none for `NULL`) and the header
block. -/
def getNextRead (viewed : Viewed) : Option (Option HeaderSub × HeaderBlock) :=
  if b.eod then some (none, b)
  else if b.isReader then
    match b.full, b.posted with
    | full + 1, sub :: _ => some (some sub, { b with full := full, state := .reading, midway := true })
    | _, _ => none
  else some (some viewed.sub, { b with state := if viewed.stopped then .vstop else .viewing })

/-- `ipcbuf_mark_cleared`. -/
def markCleared : HeaderBlock :=
  if b.state ≠ .reading then b
  else
    match b.posted with
    | [] => b
    | sub :: posted =>
      { b with posted := posted, state := if sub.last then .rstop else .reading, midway := !sub.last }

/-- `ipcbuf_reset` of a reader. -/
def reset : HeaderBlock := if b.state = .rstop then { b with state := .reader } else b

/-- The writer posts a sub-block. -/
def post (sub : HeaderSub) : HeaderBlock := { b with posted := b.posted ++ [sub], full := b.full + 1 }

end HeaderBlock

/-! ## The unit -/

/-- `dada_hdu_t`, connected. -/
structure Hdu where
  /-- `header`: the buffer of the process, none for `NULL`. -/
  header : Option Text
  /-- `header_size`: the size of the buffer that has been allocated last. -/
  headerSize : ℕ
  /-- `header_block` -/
  headerBlock : HeaderBlock
  /-- `ipcbuf_is_reader (data_block)` -/
  dataLocked : Bool
  /-- `data_block->rdwrt` -/
  rdwrt : Rdwrt

/-- What comes of a call. -/
inductive HduOutcome
  /-- It returns 0. -/
  | ok
  /-- `dada_hdu_open` returns 0: the sub-block, and how much of it has been copied. -/
  | opened (block : Text) (size : ℕ)
  /-- It returns `-1`. -/
  | failed
  /-- It waits for a header. -/
  | waits
  /-- An assertion fails. -/
  | aborted
  /-- It copies more than there is space for. -/
  | overrun

/-- What comes of the wait for a header. -/
inductive Fetched
  /-- A sub-block that is not empty. -/
  | sub (sub : HeaderSub) (b : HeaderBlock)
  /-- The call fails. -/
  | failed (b : HeaderBlock)
  /-- There is none yet. -/
  | waits (b : HeaderBlock)

/-- The keyword `HDR_SIZE`. -/
def hdrSizeKey : Text := "HDR_SIZE".toList

/-- Write a C string into memory; what does not fit is not looked at again. -/
def writeText (memory text : Text) : Text :=
  (text ++ '\x00' :: memory.drop (text.length + 1)).take memory.length

/-- `HDR_SIZE` of a header. -/
def HeaderSub.hdrSize (s : HeaderSub) : Option ℕ := asciiHeaderGetUnsigned (stringAt s.memory 0) hdrSizeKey

/-- The sub-block once its header says how large it is. -/
def HeaderSub.sized (s : HeaderSub) (bufsz : ℕ) : HeaderSub :=
  match s.hdrSize with
  | some _ => s
  | none =>
    { s with memory := writeText s.memory (asciiHeaderSet (stringAt s.memory 0) hdrSizeKey (decimal bufsz)) }

namespace HeaderBlock

/-- The loop of `dada_hdu_open`, with the sub-blocks that have been posted: wait for a header. -/
def fetchHeader (viewed : Viewed) : List HeaderSub → HeaderBlock → Fetched
  | posted, b =>
    match b.getNextRead viewed with
    | none => .waits b
    | some (none, b) => .failed b
    | some (some sub, b) =>
      if sub.bytes ≠ 0 then .sub sub b
      else
        let b := if b.isReader then b.markCleared else b
        if b.eod then
          let b := if b.isReader then b.reset else b
          match posted with
          | [] => .failed b
          | _ :: posted => fetchHeader viewed posted b
        else .failed b

/-- The sub-block that has been fetched has been written to. -/
def rewrite (b : HeaderBlock) (sub : HeaderSub) : HeaderBlock :=
  if b.isReader then { b with posted := sub :: b.posted.tail } else b

end HeaderBlock

namespace Hdu

variable (h : Hdu)

/-- `ipcio_open (data_block, 'R')`: whether it succeeds, and the unit. -/
def ipcioOpenR (slot : Bool) : Bool × Hdu :=
  if h.dataLocked = false ∧ slot = true then (true, { h with dataLocked := true, rdwrt := .R })
  else (false, { h with rdwrt := .closed })

/-- `ipcio_close (data_block)`: whether it succeeds, and the unit. -/
def ipcioClose : Bool × Hdu :=
  if h.rdwrt = .R ∧ h.dataLocked = true then (true, { h with dataLocked := false, rdwrt := .closed })
  else (false, h)

/-- `dada_hdu_lock_read`, where the arguments are whether there are slots in the header block and in the
data block. -/
def dadaHduLockRead (headerSlot dataSlot : Bool) : HduOutcome × Hdu :=
  match h.headerBlock.lockRead headerSlot with
  | none => (.failed, h)
  | some b =>
    match ({ h with headerBlock := b } : Hdu).ipcioOpenR dataSlot with
    | (true, h) => (.ok, h)
    | (false, h) => (.failed, h)

/-- In `dada_hdu_unlock_read`: free the header, and clear the sub-block. -/
def freeHeader : Hdu :=
  match h.header with
  | none => h
  | some _ =>
    { h with
      header := none
      headerBlock := if h.headerBlock.isReader then h.headerBlock.markCleared else h.headerBlock }

/-- `dada_hdu_unlock_read`. -/
def dadaHduUnlockRead : HduOutcome × Hdu :=
  match h.ipcioClose with
  | (false, h) => (.failed, h)
  | (true, h) =>
    let h := h.freeHeader
    match h.headerBlock.unlockRead with
    | none => (.failed, h)
    | some b => (.ok, { h with headerBlock := b })

/-- `dada_hdu_open_view`. -/
def dadaHduOpenView : HduOutcome × Hdu := (.ok, { h with rdwrt := .r })

/-- `dada_hdu_close_view`. -/
def dadaHduCloseView : HduOutcome × Hdu :=
  match h.ipcioClose with
  | (false, h) => (.failed, h)
  | (true, h) => (.ok, h)

/-- In `dada_hdu_open`: duplicate the header.  The buffer is allocated only where it grows. -/
def duplicate (block : Text) (headerSize : ℕ) : HduOutcome × Hdu :=
  let h := if headerSize > h.headerSize then
      { h with header := some (List.replicate headerSize '\x00'), headerSize := headerSize }
    else h
  match h.header with
  | none => if headerSize = 0 then (.opened block headerSize, h) else (.overrun, h)
  | some buffer =>
    if headerSize ≤ buffer.length then
      (.opened block headerSize,
        { h with header := some (block.take headerSize ++ buffer.drop headerSize) })
    else (.overrun, h)

/-- `dada_hdu_open`. -/
def dadaHduOpen (viewed : Viewed) : HduOutcome × Hdu :=
  if h.header.isSome then (.aborted, h)
  else
    match h.headerBlock.fetchHeader viewed h.headerBlock.posted with
    | .waits b => (.waits, { h with headerBlock := b })
    | .failed b => (.failed, { h with headerBlock := b })
    | .sub sub b =>
      let headerSize := b.bufsz
      let hdrSize := sub.hdrSize.getD headerSize
      let sub := sub.sized headerSize
      let h := { h with headerBlock := b.rewrite sub }
      if hdrSize < headerSize then h.duplicate sub.memory hdrSize
      else if hdrSize > headerSize then (.failed, h)
      else h.duplicate sub.memory headerSize

end Hdu

/-- The calls of a reader or of a viewer. -/
inductive HduCall
  | lockRead (headerSlot dataSlot : Bool)
  | unlockRead
  | openView
  | closeView
  | read (viewed : Viewed)

/-- What a call does. -/
def Hdu.perform (h : Hdu) : HduCall → HduOutcome × Hdu
  | .lockRead headerSlot dataSlot => h.dadaHduLockRead headerSlot dataSlot
  | .unlockRead => h.dadaHduUnlockRead
  | .openView => h.dadaHduOpenView
  | .closeView => h.dadaHduCloseView
  | .read viewed => h.dadaHduOpen viewed

end Psrdada
