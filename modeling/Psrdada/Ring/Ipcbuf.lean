import Psrdada.Ring.SharedMemory
import Mathlib.Algebra.Ring.Nat
import Mathlib.Data.Int.DivMod

/-! # `ipcbuf.c`: the block interface

The routines of `ipcbuf.c` on the private `ipcbuf_t` of a process and the shared ring.  Every access
to shared memory and every semaphore operation is an operation of its own, in the order of the
source.  A blocking semaphore operation does not fail, so the error branches behind it are absent;
messages to `stderr` are left out. -/

namespace Psrdada

open Concurrency

/-- Subtraction of two unsigned 64-bit counters: below zero it wraps around. -/
def usub (a b : ℕ) : ℕ := if b ≤ a then a - b else 2 ^ 64 - (b - a)

/-- The conversion of an integer argument to `short`. -/
def toShort (n : ℤ) : ℤ := Int.bmod n 65536

/-- A pointer into a sub-block. -/
structure Ptr where
  /-- The sub-block. -/
  buf : ℕ
  /-- The byte of the sub-block. -/
  off : ℕ
  deriving DecidableEq, Repr

/-- The private data of a connected process (`ipcbuf_t`). -/
structure Ipcbuf where
  /-- The state of the process: writer, reader, etc. -/
  state : ProcState
  /-- Count of next buffer to look at (non-reader). -/
  viewbuf : ℕ
  /-- Current transfer, modulo `IPCBUF_XFERS`. -/
  xfer : ℕ
  /-- Buffer at which clocking began. -/
  soclockBuf : ℕ
  /-- The reader slot; `none` for `-1`. -/
  iread : Option ℕ
  deriving DecidableEq, Repr

/-- A process that has just connected (`IPCBUF_INIT`, then `ipcbuf_connect`). -/
def Ipcbuf.connected : Ipcbuf where
  state := .viewer
  viewbuf := 0
  xfer := 0
  soclockBuf := 0
  iread := none

/-- Whether the process is the data writer (`ipcbuf_is_writer`). -/
def Ipcbuf.isWriter (id : Ipcbuf) : Bool :=
  id.state == .writer || id.state == .wchange || id.state == .writing

/-- Whether the process is in writing state (`ipcbuf_is_writing`). -/
def Ipcbuf.isWriting (id : Ipcbuf) : Bool := id.state == .writing

/-- Whether the process is the data reader (`ipcbuf_is_reader`). -/
def Ipcbuf.isReader (id : Ipcbuf) : Bool :=
  id.state == .reader || id.state == .reading || id.state == .rstop

/-- Whether the last block of the transfer has been passed (`ipcbuf_eod`). -/
def Ipcbuf.eod (id : Ipcbuf) : Bool := id.state == .rstop || id.state == .vstop

section Access

variable {τ : Type}

/-- Load a variable. -/
def load (x : Var) : Routine ringSig τ ℕ := Routine.perform (S := ringSig) (.load x)

/-- Load a variable and compare it with a value. -/
def test (x : Var) (v : ℕ) : Routine ringSig τ Bool := Routine.perform (S := ringSig) (.test x v)

/-- Store into a variable. -/
def store (x : Var) (v : ℕ) : Routine ringSig τ Unit :=
  Routine.perform (S := ringSig) (.store x v)

/-- `ipc_semop`: the increment is a `short`. -/
def ipcSemop (x : Sem) (op : ℤ) (undo : Bool) : Routine ringSig τ Unit :=
  Routine.perform (S := ringSig) (.semop x (toShort op) undo)

/-- `ipc_semop` with `IPC_NOWAIT`; `false` is the error `EAGAIN`. -/
def ipcSemopNowait (x : Sem) (op : ℤ) (undo : Bool) : Routine ringSig τ Bool :=
  Routine.perform (S := ringSig) (.semopNowait x (toShort op) undo)

/-- `semctl` with `SETVAL`. -/
def semctlSetval (x : Sem) (v : ℕ) : Routine ringSig τ Unit :=
  Routine.perform (S := ringSig) (.setval x v)

/-- A note of a client. -/
def note (e : Event) : Routine ringSig τ Unit := Routine.perform (S := ringSig) (.note e)

/-- `memcpy` into a sub-block, byte by byte. -/
def memcpyTo (buf off : ℕ) : List UInt8 → Routine ringSig τ Unit
  | [] => pure ()
  | b :: bytes => do
    Routine.perform (S := ringSig) (.writeByte buf off b)
    memcpyTo buf (off + 1) bytes

/-- `memcpy` out of a sub-block, byte by byte. -/
def memcpyFrom (buf off : ℕ) : ℕ → Routine ringSig τ (List UInt8)
  | 0 => pure []
  | n + 1 => do
    let b : UInt8 ← Routine.perform (S := ringSig) (.readByte buf off)
    let bytes ← memcpyFrom buf (off + 1) n
    return b :: bytes

end Access

/-- Routines on the private data of a connected process. -/
abbrev IpcbufM := Routine ringSig Ipcbuf

variable (g : Geometry)

/-! ## The writer -/

/-- Lock this process in as the designated writer. -/
def ipcbufLockWrite : IpcbufM ℤ := do
  let id ← get
  if id.state ≠ .viewer then
    return -1
  else
    ipcSemop .write (-1) true
    let idle ← test .wState 0
    modify fun id => { id with state := if idle then .wchange else .writing }
    let wXfer ← load .wXfer
    modify fun id => { id with xfer := wXfer % ipcbufXfers }
    return 0

/-- Give the writer's lock back. -/
def ipcbufUnlockWrite : IpcbufM ℤ := do
  let id ← get
  if !id.isWriter then
    return -1
  else
    ipcSemop .write 1 true
    modify fun id => { id with state := .viewer }
    return 0

/-- Enable the end-of-data flag. -/
def ipcbufEnableEod : IpcbufM ℤ := do
  let id ← get
  if id.state ≠ .writing then
    return -1
  else
    modify fun id => { id with state := .wchange }
    return 0

/-- Disable the start-of-data flag. -/
def ipcbufDisableSod : IpcbufM ℤ := do
  let id ← get
  if id.state ≠ .wchange then
    return -1
  else
    modify fun id => { id with state := .writer }
    return 0

/-- The minimum buffer number at which data may start. -/
def ipcbufGetSodMinbuf : IpcbufM ℕ := do
  let id ← get
  let next ← load .wBufNext
  let newBufsWritten := usub next id.soclockBuf
  if newBufsWritten < g.nbufs then
    return id.soclockBuf
  else
    let next ← load .wBufNext
    return usub (next + 1) g.nbufs

/-- `ipcbuf_set_soclock_buf`: set the buffer at which clocking began. -/
def ipcbufSetSoclockBuf : IpcbufM ℕ := do
  let wXfer ← load .wXfer
  if 0 < wXfer then
    let wXfer ← load .wXfer
    let last ← load (.eBuf ((wXfer - 1) % ipcbufXfers))
    modify fun id => { id with soclockBuf := last + 1 }
    return last + 1
  else
    modify fun id => { id with soclockBuf := 0 }
    return 0

/-- In `ipcbuf_enable_sod`: increment the count for all buffers that have been written already. -/
def countWritten (first : ℕ) : IpcbufM Unit :=
  Routine.iterate (fun newBufs => do
    let curr ← load .wBufCurr
    if newBufs < curr then
      let count ← load (.count (newBufs % g.nbufs))
      store (.count (newBufs % g.nbufs)) ((count + 1) % 256)
      return .inl (newBufs + 1)
    else
      return .inr ()) first

/-- In `ipcbuf_enable_sod`: mark start of data on the next transfer; its place in the arrays. -/
def markSod (startBuf startByte : ℕ) : IpcbufM ℕ := do
  let wXfer ← load .wXfer
  let xfer := wXfer % ipcbufXfers
  modify fun id => { id with xfer := xfer }
  store (.sBuf xfer) startBuf
  store (.sByte xfer) startByte
  let curr ← load .wBufCurr
  if curr = 0 then store (.eod xfer) 0
  return xfer

/-- In `ipcbuf_enable_sod`: hand the buffers that have been written already to the readers. -/
def catchUp (xfer : ℕ) : IpcbufM Unit := do
  let first ← load (.sBuf xfer)
  countWritten g first
  let curr ← load .wBufCurr
  let first ← load (.sBuf xfer)
  let newBufs := usub curr first
  modify fun id => { id with state := .writing }
  store .wState ProcState.writing.code
  Routine.countUp (fun iread =>
    if newBufs ≠ 0 then ipcSemop (.full iread) newBufs false else pure ()) g.nReaders

/-- `ipcbuf_enable_sod` once its arguments have been accepted. -/
def raiseSod (startBuf startByte : ℕ) : IpcbufM ℤ := do
  Routine.countUp (fun iread => ipcSemop (.sodack iread) (-1) false) g.nReaders
  let xfer ← markSod startBuf startByte
  catchUp g xfer
  return 0

/-- Enable the start-of-data flag at a byte of a buffer. -/
def ipcbufEnableSod (startBuf startByte : ℕ) : IpcbufM ℤ := do
  let id ← get
  if id.state ≠ .writer ∧ id.state ≠ .wchange then
    return -1
  else
    let next ← load .wBufNext
    if startBuf > next then
      return -1
    else
      let minbuf ← ipcbufGetSodMinbuf g
      if startBuf < minbuf then
        return -1
      else if startByte > g.bufsz then
        return -1
      else
        raiseSod g startBuf startByte

/-- In `ipcbuf_get_next_write`: while transfers are pending in the sub-block, wait until every
reader has cleared one more. -/
def reclaim (bufnum : ℕ) : IpcbufM Unit :=
  Routine.iterate (fun _ : Unit => do
    let count ← load (.count bufnum)
    if count ≠ 0 then
      Routine.countUp (fun iread => ipcSemop (.clear iread) (-1) false) g.nReaders
      let count ← load (.count bufnum)
      store (.count bufnum) ((count + 255) % 256)
      return .inl ()
    else
      return .inr ()) ()

/-- `ipcbuf_get_next_write` once start-of-data has been seen to. -/
def takeNextWrite : IpcbufM (Option ℕ) := do
  let next ← load .wBufNext
  let bufnum := next % g.nbufs
  reclaim g bufnum
  let next ← load .wBufNext
  store .wBufNext (next + 1)
  return some bufnum

/-- Get the next empty buffer available for writing; `none` for `NULL`. -/
def ipcbufGetNextWrite : IpcbufM (Option ℕ) := do
  let id ← get
  if !id.isWriter then
    return none
  else if id.state = .wchange then
    let curr ← load .wBufCurr
    let rc ← ipcbufEnableSod g curr 0
    if rc < 0 then
      return none
    else
      takeNextWrite g
  else
    takeNextWrite g

/-- In `ipcbuf_mark_filled`: mark end of data on the transfer in progress. -/
def markEod (nbytes : ℕ) : IpcbufM Unit := do
  Routine.countUp (fun iread => ipcSemop (.eodack iread) (-1) false) g.nReaders
  let id ← get
  let curr ← load .wBufCurr
  store (.eBuf id.xfer) curr
  store (.eByte id.xfer) nbytes
  store (.eod id.xfer) 1
  let wXfer ← load .wXfer
  store .wXfer (wXfer + 1)
  let wXfer ← load .wXfer
  modify fun id => { id with xfer := wXfer % ipcbufXfers, state := .writer }
  store .wState 0
  -- end of data on the first byte of a block: open the next buffer, which is closed at once
  if nbytes = 0 then
    let _ ← ipcbufGetNextWrite g

/-- In `ipcbuf_mark_filled`: hand the current buffer to the readers. -/
def publish : IpcbufM ℤ := do
  let curr ← load .wBufCurr
  let bufnum := curr % g.nbufs
  let count ← load (.count bufnum)
  store (.count bufnum) ((count + 1) % 256)
  let curr ← load .wBufCurr
  store .wBufCurr (curr + 1)
  Routine.countUp (fun iread => ipcSemop (.full iread) 1 false) g.nReaders
  return 0

/-- Declare that the last buffer returned by `ipcbufGetNextWrite` has been filled with `nbytes`
bytes. -/
def ipcbufMarkFilled (nbytes : ℕ) : IpcbufM ℤ := do
  let id ← get
  if !id.isWriter then
    return -1
  else if id.state = .writer then
    let curr ← load .wBufCurr
    store .wBufCurr (curr + 1)
    return 0
  else if id.state = .wchange ∨ nbytes < g.bufsz then
    markEod g nbytes
    publish g
  else
    publish g

/-! ## The readers -/

/-- In `ipcbuf_lock_read`: the reader with the least buffer counter that is not in `chosen`, among
the first `k`, with its counter.  The index that no reader sets is uninitialised in the source. -/
def leastReader (chosen : List ℕ) : ℕ → IpcbufM (ℕ × ℕ)
  | 0 => return (2 ^ 64 - 1, 0)
  | iread + 1 => do
    let (val, pos) ← leastReader chosen iread
    let rBufs ← load (.rBufs iread)
    if rBufs < val ∧ iread ∉ chosen then
      let rBufs ← load (.rBufs iread)
      return (rBufs, iread)
    else
      return (val, pos)

/-- In `ipcbuf_lock_read`: the first `k` readers in the order of their buffer counters. -/
def readerOrder : ℕ → IpcbufM (List ℕ)
  | 0 => return []
  | ipos + 1 => do
    let chosen ← readerOrder ipos
    let (_, pos) ← leastReader chosen g.nReaders
    return chosen ++ [pos]

/-- In `ipcbuf_lock_read`: the first slot of the list that is not connected, which is taken. -/
def claimSlot : List ℕ → IpcbufM (Option ℕ)
  | [] => return none
  | iread :: rest => do
    let claimed ← ipcSemopNowait (.readerConn iread) (-1) true
    if claimed then
      return some iread
    else
      claimSlot rest

/-- Lock this process in as the designated reader. -/
def ipcbufLockRead : IpcbufM ℤ := do
  let id ← get
  if id.state ≠ .viewer then
    return -1
  else if id.iread ≠ none then
    return -1
  else
    ipcSemop .read (-1) true
    let order ← readerOrder g g.nReaders
    let slot ← claimSlot order
    match slot with
    | none => return -1
    | some iread =>
      modify fun id => { id with iread := some iread }
      let fresh ← test (.rStates iread) ProcState.discon.code
      modify fun id => { id with state := if fresh then .reader else .reading }
      let rXfer ← load (.rXfers iread)
      modify fun id => { id with xfer := rXfer % ipcbufXfers }
      return 0

/-- Give the reader's slot back. -/
def ipcbufUnlockRead : IpcbufM ℤ := do
  let id ← get
  if !id.isReader then
    return -1
  else
    match id.iread with
    | none => return -1
    | some iread =>
      if iread ≥ g.nReaders then
        return -1
      else
        ipcSemop (.readerConn iread) 1 true
        ipcSemop .read 1 true
        modify fun id => { id with state := .viewer, iread := none }
        return 0

/-- Whether the buffer that the reader in slot `iread` is at is the last of the transfer: the flag is
set and the transfer ends there. -/
def atLastBuffer (iread : ℕ) : IpcbufM Bool := do
  let id ← get
  let eod ← load (.eod id.xfer)
  if eod ≠ 0 then
    let rBuf ← load (.rBufs iread)
    test (.eBuf id.xfer) rBuf
  else
    return false

/-- In `ipcbuf_get_next_read_work`: the length of the valid range from `startByte` on, for the
buffer that the reader in slot `iread` is at. -/
def validBytes (iread startByte : ℕ) : IpcbufM ℕ := do
  let last ← atLastBuffer iread
  if last then
    let id ← get
    let eByte ← load (.eByte id.xfer)
    return usub eByte startByte
  else
    return usub g.bufsz startByte

/-- In `ipcbuf_get_next_read_work`: a reader begins its next transfer. -/
def beginTransfer (iread : ℕ) (undo : Bool) : IpcbufM ℕ := do
  let rXfer ← load (.rXfers iread)
  let xfer := rXfer % ipcbufXfers
  modify fun id => { id with xfer := xfer, state := .reading }
  store (.rStates iread) ProcState.reading.code
  let sBuf ← load (.sBuf xfer)
  store (.rBufs iread) sBuf
  let startByte ← load (.sByte xfer)
  ipcSemop (.sodack iread) 1 undo
  return startByte

/-- `ipcbuf_get_next_read_work` of a reader. -/
def nextRead (undo : Bool) : IpcbufM (Ptr × ℕ) := do
  let id ← get
  let iread := id.iread.getD 0
  ipcSemop (.full iread) (-1) undo
  let startByte ← if id.state = .reader then beginTransfer iread undo else pure 0
  let bufnum ← load (.rBufs iread)
  let bytes ← validBytes g iread startByte
  return (⟨bufnum % g.nbufs, startByte⟩, bytes)

/-- In `ipcbuf_get_next_read_work`: a viewer starts viewing the current transfer, at its last
buffer. -/
def beginView : IpcbufM ℕ := do
  let rXfer ← load (.rXfers 0)
  let xfer := rXfer % ipcbufXfers
  modify fun id => { id with xfer := xfer, state := .viewing }
  let sBuf ← load (.sBuf xfer)
  modify fun id => { id with viewbuf := sBuf }
  let startByte ← load (.sByte xfer)
  let curr ← load .wBufCurr
  if curr > sBuf + 1 then
    let curr ← load .wBufCurr
    modify fun id => { id with viewbuf := usub curr 1 }
    return 0
  else
    return startByte

/-- In `ipcbuf_get_next_read_work`: viewers wait until `w_buf_curr` is incremented, without
semaphore operations. -/
def awaitWritten : IpcbufM Unit :=
  Routine.iterate (fun _ : Unit => do
    let id ← get
    let curr ← load .wBufCurr
    if curr ≤ id.viewbuf then
      let eod ← load (.eod id.xfer)
      if eod ≠ 0 then
        let read ← load (.rBufs 0)
        if read ≠ 0 then
          let read ← load (.rBufs 0)
          let last ← test (.eBuf id.xfer) read
          if last then
            modify fun id => { id with state := .vstop }
            return .inr ()
          else
            return .inl ()
        else
          return .inl ()
      else
        return .inl ()
    else
      return .inr ()) ()

/-- `ipcbuf_get_next_read_work` of a viewer. -/
def nextView : IpcbufM (Ptr × ℕ) := do
  let id ← get
  let startByte ← if id.state = .viewer then beginView else pure 0
  awaitWritten
  let id ← get
  let curr ← load .wBufCurr
  if id.viewbuf + g.nbufs < curr then
    let curr ← load .wBufCurr
    modify fun id => { id with viewbuf := usub (curr + 1) g.nbufs }
  let id ← get
  modify fun id => { id with viewbuf := id.viewbuf + 1 }
  let bytes ← validBytes g 0 startByte
  return (⟨id.viewbuf % g.nbufs, startByte⟩, bytes)

/-- The next full buffer and the number of bytes in it; `none` for `NULL`. -/
def ipcbufGetNextReadWork (undo : Bool) : IpcbufM (Option (Ptr × ℕ)) := do
  let id ← get
  if id.eod then
    return none
  else if id.isReader then
    let got ← nextRead g undo
    return some got
  else
    let got ← nextView g
    return some got

/-- Get the next full buffer, and the number of bytes in it. -/
def ipcbufGetNextRead : IpcbufM (Option (Ptr × ℕ)) := ipcbufGetNextReadWork g false

/-- `ipcbuf_get_next_readable`. -/
def ipcbufGetNextReadable : IpcbufM (Option (Ptr × ℕ)) := ipcbufGetNextReadWork g true

/-- The byte offset of a buffer from the start of the transfer (`ipcbuf_tell`). -/
def ipcbufTell (bufnum : ℕ) : IpcbufM ℕ := do
  let id ← get
  let sBuf ← load (.sBuf id.xfer)
  if bufnum ≤ sBuf then
    return 0
  else
    let sBuf ← load (.sBuf id.xfer)
    let sByte ← load (.sByte id.xfer)
    return usub (usub bufnum sBuf * g.bufsz) sByte

/-- The write buffer byte offset from the start of the transfer. -/
def ipcbufTellWrite : IpcbufM ℤ := do
  let id ← get
  if id.eod then
    return -1
  else if !id.isWriter then
    return -1
  else
    let curr ← load .wBufCurr
    let tell ← ipcbufTell g curr
    return tell

/-- The read buffer byte offset from the start of the transfer. -/
def ipcbufTellRead : IpcbufM ℤ := do
  let id ← get
  if id.eod then
    return -1
  else if id.state = .reading then
    let rBuf ← load (.rBufs (id.iread.getD 0))
    let tell ← ipcbufTell g rBuf
    return tell
  else if id.state = .viewing then
    let tell ← ipcbufTell g id.viewbuf
    return tell
  else
    return 0

/-- Declare that the last buffer returned by `ipcbufGetNextRead` has been cleared. -/
def ipcbufMarkCleared : IpcbufM ℤ := do
  let id ← get
  if id.state ≠ .reading then
    return -1
  else
    let iread := id.iread.getD 0
    ipcSemop (.clear iread) 1 false
    let last ← atLastBuffer iread
    if last then
      modify fun id => { id with state := .rstop }
      store (.rStates iread) ProcState.discon.code
      let rXfer ← load (.rXfers iread)
      store (.rXfers iread) (rXfer + 1)
      let rXfer ← load (.rXfers iread)
      modify fun id => { id with xfer := rXfer % ipcbufXfers }
      ipcSemop (.eodack iread) 1 false
      return 0
    else
      let rBuf ← load (.rBufs iread)
      store (.rBufs iread) (rBuf + 1)
      return 0

/-! ## Reset -/

/-- In `ipcbuf_reset`: acknowledge every transfer of a reader and put its counters back. -/
def resetReader (iread : ℕ) : IpcbufM Unit := do
  ipcSemop (.sodack iread) (-ipcbufXfers) false
  ipcSemop (.eodack iread) (-ipcbufXfers) false
  ipcSemop (.sodack iread) ipcbufXfers false
  ipcSemop (.eodack iread) ipcbufXfers false
  store (.rBufs iread) 0
  store (.rXfers iread) 0

/-- In `ipcbuf_reset`: what is done once the ring is known to have been used. -/
def resetRing : IpcbufM ℤ := do
  Routine.countUp (fun ibuf => reclaim g ibuf) g.nbufs
  Routine.countUp resetReader g.nReaders
  store .wBufCurr 0
  store .wBufNext 0
  store .wXfer 0
  Routine.countUp (fun ix => store (.eod ix) 1) ipcbufXfers
  return 0

/-- Reset the buffer count and end of data flags. -/
def ipcbufReset : IpcbufM ℤ := do
  let id ← get
  if id.state = .rstop then
    modify fun id => { id with state := .reader }
    return 0
  else if !id.isWriter then
    return -1
  else
    let unmoved ← test .wBufCurr 0
    if unmoved then
      let unused ← test .wBufNext 0
      if unused then
        return 0
      else
        resetRing g
    else
      resetRing g

/-- Reset the buffer count and end of data flags, with extreme prejudice. -/
def ipcbufHardReset : IpcbufM ℤ := do
  store .wBufCurr 0
  store .wBufNext 0
  store .wXfer 0
  Routine.countUp (fun ix => store (.eod ix) 1) ipcbufXfers
  Routine.countUp (fun iread => do
    store (.rBufs iread) 0
    store (.rXfers iread) 0
    semctlSetval (.full iread) 0
    semctlSetval (.clear iread) 0) g.nReaders
  return 0

end Psrdada
