import Psrdada.Ring.Ipcbuf

/-! # `ipcio.c`: the byte interface and the open-block interface

An `ipcio_t` is an `ipcbuf_t` with a position in the current sub-block.  The routines here call those
of `Psrdada.Ring.Ipcbuf` on the `ipcbuf_t` part (`onBuf`), as the casts of the source do. -/

namespace Psrdada

open Concurrency

/-- The mode of an `ipcio_t` (`rdwrt`); `closed` is `0`. -/
inductive Rdwrt
  /-- `0` -/
  | closed
  /-- `'R'`: the designated reader. -/
  | R
  /-- `'r'`: a viewer. -/
  | r
  /-- `'W'`: the designated writer, writing valid data. -/
  | W
  /-- `'w'`: the designated writer, clocking data. -/
  | w
  deriving DecidableEq, Repr

/-- The private data of a process that uses the byte interface (`ipcio_t`). -/
structure Ipcio where
  /-- The `ipcbuf_t` on which this is based. -/
  buf : Ipcbuf
  /-- Pointer to the current buffer in the ring. -/
  curbuf : Option Ptr
  /-- Size of the current buffer. -/
  curbufsz : ℕ
  /-- Number of bytes into current buffer. -/
  bytes : ℕ
  /-- The mode. -/
  rdwrt : Rdwrt
  /-- Flag set when `curbuf` has been marked filled. -/
  markedFilled : Bool
  /-- Flag set when start-of-data has been requested. -/
  sodPending : Bool
  /-- Buffer of start-of-data. -/
  sodBuf : ℕ
  /-- Byte of start-of-data. -/
  sodByte : ℕ
  /-- Pointers to already opened buffers. -/
  bufPtrs : ℕ → Option Ptr
  /-- Counter of opened buffers. -/
  bufsOpened : ℕ
  /-- Limit on the number of opened buffers. -/
  bufsOpenedMax : ℕ

/-- An `ipcio_t` that has just been connected (`ipcio_connect`, with `ipcio_init`). -/
def Ipcio.connected : Ipcio where
  buf := .connected
  curbuf := none
  curbufsz := 0
  bytes := 0
  rdwrt := .closed
  markedFilled := false
  sodPending := false
  sodBuf := 0
  sodByte := 0
  bufPtrs _ := none
  bufsOpened := 0
  bufsOpenedMax := 0

/-- Routines on the private data of a process that uses the byte interface. -/
abbrev IpcioM := Routine ringSig Ipcio

/-- Call a routine of `ipcbuf.c` on the `ipcbuf_t` part. -/
def onBuf {α : Type} (m : IpcbufM α) : IpcioM α :=
  Routine.focus Ipcio.buf (fun buf ipc => { ipc with buf := buf }) m

variable (g : Geometry)

/-- `ipcio_alloc`: space for the pointers to open buffers.  What `malloc` returns is not
initialised; the entries up to `bufsOpened` are written before they are read. -/
def ipcioAlloc : IpcioM Unit :=
  modify fun ipc => { ipc with bufsOpenedMax := g.nbufs - 1, bufPtrs := fun _ => none }

/-- Start reading from or writing to a ring. -/
def ipcioOpen (rdwrt : Rdwrt) : IpcioM ℤ := do
  if rdwrt = .closed then
    return -1
  else
    modify fun ipc => { ipc with rdwrt := .closed, bytes := 0, curbuf := none }
    if rdwrt = .w ∨ rdwrt = .W then
      let rc ← onBuf ipcbufLockWrite
      if rc < 0 then
        return -1
      else
        let rc ← if rdwrt = .w then onBuf ipcbufDisableSod else pure 0
        if rc < 0 then
          return -1
        else
          modify fun ipc => { ipc with rdwrt := rdwrt }
          ipcioAlloc g
          return 0
    else
      let rc ← if rdwrt = .R then onBuf (ipcbufLockRead g) else pure 0
      if rc < 0 then
        return -1
      else
        modify fun ipc => { ipc with rdwrt := rdwrt }
        ipcioAlloc g
        return 0

/-- Raise start-of-data if it has been requested and its buffer has been written. -/
def ipcioCheckPendingSod : IpcioM ℤ := do
  let ipc ← get
  if !ipc.sodPending then
    return 0
  else
    let count ← load .wBufCurr
    if count ≤ ipc.sodBuf then
      return 0
    else
      let rc ← onBuf (ipcbufEnableSod g ipc.sodBuf ipc.sodByte)
      if rc < 0 then
        return -1
      else
        modify fun ipc => { ipc with sodPending := false }
        return 0

/-- Start writing valid data at a byte counted from the start of the data block. -/
def ipcioStart (byte : ℕ) : IpcioM ℤ := do
  let ipc ← get
  if ipc.rdwrt ≠ .w then
    return -1
  else
    modify fun ipc => { ipc with
      sodBuf := byte / g.bufsz, sodByte := byte % g.bufsz, sodPending := true, rdwrt := .W }
    ipcioCheckPendingSod g

/-- Update the number of bytes written to a block opened for direct write access. -/
def ipcioUpdateBlockWrite (bytes : ℕ) : IpcioM ℤ := do
  let ipc ← get
  if ipc.bytes ≠ 0 then
    return -1
  else if ipc.curbuf = none then
    return -1
  else if ipc.rdwrt ≠ .W then
    return -1
  else if ipc.bytes + bytes > g.bufsz then
    return -1
  else
    modify fun ipc => { ipc with bytes := ipc.bytes + bytes }
    return 0

/-- In `ipcio_close_block_write`: drop the first of the open buffers. -/
def Ipcio.shiftOpened (ipc : Ipcio) : Ipcio :=
  let opened := ipc.bufsOpened - 1
  if opened = 0 then
    { ipc with
      bufsOpened := 0, bufPtrs := Function.update ipc.bufPtrs 0 none
      curbuf := none, markedFilled := true, bytes := 0 }
  else
    let ptrs : ℕ → Option Ptr := fun idx =>
      if idx < opened then ipc.bufPtrs (idx + 1)
      else if idx = opened then none
      else ipc.bufPtrs idx
    { ipc with
      bufsOpened := opened, bufPtrs := ptrs
      curbuf := ptrs 0, markedFilled := false, bytes := 0 }

/-- Close a block opened for direct write access. -/
def ipcioCloseBlockWrite (bytes : ℕ) : IpcioM ℤ := do
  let rc ← ipcioUpdateBlockWrite g bytes
  if rc < 0 then
    return -1
  else
    let ipc ← get
    if ipc.markedFilled then
      return 0
    else
      let rc ← onBuf (ipcbufMarkFilled g ipc.bytes)
      if rc < 0 then
        return -2
      else
        let rc ← ipcioCheckPendingSod g
        if rc < 0 then
          return -3
        else
          modify Ipcio.shiftOpened
          return 0

/-- In `ipcio_stop_close`: ensure that any multiple opened blocks are closed. -/
def closeOpened : IpcioM Unit :=
  Routine.iterate (fun _ : Unit => do
    let ipc ← get
    if ipc.bufsOpened > 0 then
      let _ ← ipcioCloseBlockWrite g g.bufsz
      return .inl ()
    else
      return .inr ()) ()

/-- In `ipcio_stop_close`: end the transfer that is being written. -/
def endTransfer : IpcioM ℤ := do
  closeOpened g
  let rc ← onBuf ipcbufEnableEod
  if rc < 0 then
    return -1
  else
    let ipc ← get
    let rc ← onBuf (ipcbufMarkFilled g ipc.bytes)
    if rc < 0 then
      return -1
    else
      let rc ← ipcioCheckPendingSod g
      if rc < 0 then
        return -1
      else
        modify fun ipc => { ipc with markedFilled := true }
        let ipc ← get
        if ipc.bytes = g.bufsz then
          modify fun ipc => { ipc with curbuf := none }
        return 0

/-- In `ipcio_stop_close`: point the writer behind the most recent end of data and unlock it. -/
def releaseWriter : IpcioM ℤ := do
  let wXfer ← load .wXfer
  if wXfer > 0 then
    let wXfer ← load .wXfer
    let last ← load (.eBuf ((wXfer - 1) % ipcbufXfers))
    store .wBufCurr (last + 1)
    let curr ← load .wBufCurr
    store .wBufNext curr
  let rc ← onBuf ipcbufUnlockWrite
  if rc < 0 then
    return -1
  else
    modify fun ipc => { ipc with rdwrt := .closed }
    return 0

/-- Stop reading from or writing to a ring; `unlock` also gives the lock back. -/
def ipcioStopClose (unlock : Bool) : IpcioM ℤ := do
  let ipc ← get
  if ipc.rdwrt = .W then
    let rc ← if ipc.buf.isWriting then endTransfer g else pure 0
    if rc < 0 then
      return -1
    else
      modify fun ipc => { ipc with rdwrt := .w }
      if !unlock then
        return 0
      else
        releaseWriter
  else if ipc.rdwrt = .w then
    releaseWriter
  else if ipc.rdwrt = .R then
    let rc ← onBuf (ipcbufUnlockRead g)
    if rc < 0 then
      return -1
    else
      modify fun ipc => { ipc with rdwrt := .closed }
      return 0
  else
    return -1

/-- Stop writing valid data; more may be written to the ring. -/
def ipcioStop : IpcioM ℤ := do
  let ipc ← get
  if ipc.rdwrt ≠ .W then
    return -1
  else
    ipcioStopClose g false

/-- Stop reading from or writing to a ring and give the lock back. -/
def ipcioClose : IpcioM ℤ := ipcioStopClose g true

/-- In `ipcio_write`: hand over a buffer that has been filled, before the next one is begun. -/
def flushFull : IpcioM ℤ := do
  let ipc ← get
  if ipc.bytes = g.bufsz then
    let rc ←
      if !ipc.markedFilled then do
        let rc ← onBuf (ipcbufMarkFilled g ipc.bytes)
        if rc < 0 then pure rc else ipcioCheckPendingSod g
      else pure 0
    if rc < 0 then
      return -1
    else
      modify fun ipc => { ipc with curbuf := none, bytes := 0, markedFilled := true }
      return 0
  else
    return 0

/-- In `ipcio_write`: the buffer to write to, which is the next one when none is open. -/
def currentWrite : IpcioM (Option Ptr) := do
  let ipc ← get
  match ipc.curbuf with
  | some ptr => return some ptr
  | none =>
    let next ← onBuf (ipcbufGetNextWrite g)
    match next with
    | none => return none
    | some bufnum =>
      modify fun ipc => { ipc with curbuf := some ⟨bufnum, 0⟩, markedFilled := false, bytes := 0 }
      return some ⟨bufnum, 0⟩

/-- Write bytes to the ring; the number of bytes, or `-1`. -/
def ipcioWrite (ptr : List UInt8) : IpcioM ℤ := do
  let ipc ← get
  if ipc.rdwrt ≠ .W ∧ ipc.rdwrt ≠ .w then
    return -1
  else
    Routine.iterate (fun rest : List UInt8 => do
      if rest.length = 0 then
        return .inr (ptr.length : ℤ)
      else
        let rc ← flushFull g
        if rc < 0 then
          return .inr (-1)
        else
          let cur ← currentWrite g
          match cur with
          | none => return .inr (-1)
          | some cur =>
            let ipc ← get
            let space := min (g.bufsz - ipc.bytes) rest.length
            memcpyTo cur.buf (cur.off + ipc.bytes) (rest.take space)
            modify fun ipc => { ipc with bytes := ipc.bytes + space }
            return .inl (rest.drop space)) ptr

/-- In `ipcio_read`: the buffer to read from, which is the next one when none is open. -/
def currentRead : IpcioM (Option Ptr) := do
  let ipc ← get
  match ipc.curbuf with
  | some ptr => return some ptr
  | none =>
    let next ← onBuf (ipcbufGetNextRead g)
    match next with
    | none => return none
    | some (ptr, curbufsz) =>
      modify fun ipc => { ipc with curbuf := some ptr, curbufsz := curbufsz, bytes := 0 }
      return some ptr

/-- In `ipcio_read`: copy what is asked for out of the current buffer, as far as it goes. -/
def copyOut (cur : Ptr) (bytes : ℕ) : IpcioM (List UInt8) := do
  let ipc ← get
  let space := min (ipc.curbufsz - ipc.bytes) bytes
  let data ← memcpyFrom cur.buf (cur.off + ipc.bytes) space
  modify fun ipc => { ipc with bytes := ipc.bytes + space }
  return data

/-- In `ipcio_read`: leave a buffer that has been read to its end; whether it has been. -/
def finishBuffer : IpcioM (Option Bool) := do
  let ipc ← get
  if ipc.bytes = ipc.curbufsz then
    let rc ← if ipc.rdwrt = .R then onBuf ipcbufMarkCleared else pure 0
    if rc < 0 then
      return none
    else
      modify fun ipc => { ipc with curbuf := none, bytes := 0 }
      return some true
  else
    return some false

/-- Read up to `bytes` bytes from the ring: what has been read, or `none` for `-1`. -/
def ipcioRead (bytes : ℕ) : IpcioM (Option (List UInt8)) := do
  let ipc ← get
  if ipc.rdwrt ≠ .r ∧ ipc.rdwrt ≠ .R then
    return none
  else
    Routine.iterate (fun got : List UInt8 => do
      let ipc ← get
      if ipc.buf.eod then
        return .inr (some got)
      else
        let cur ← currentRead g
        match cur with
        | none => return .inr none
        | some cur =>
          let data ← copyOut cur (bytes - got.length)
          let left ← finishBuffer
          match left with
          | none => return .inr none
          | some true => return .inl (got ++ data)
          | some false =>
            if bytes - (got ++ data).length = 0 then
              return .inr (some (got ++ data))
            else
              return .inl (got ++ data)) []

/-- Open the next block for direct read access: its address and the number of bytes in it. -/
def ipcioOpenBlockRead : IpcioM (Option (Ptr × ℕ)) := do
  let ipc ← get
  if ipc.bytes ≠ 0 then
    return none
  else if ipc.curbuf ≠ none then
    return none
  else if ipc.rdwrt ≠ .r ∧ ipc.rdwrt ≠ .R then
    return none
  else if ipc.buf.eod then
    return none
  else
    let next ← onBuf (ipcbufGetNextRead g)
    match next with
    | none => return none
    | some (ptr, curbufsz) =>
      modify fun ipc => { ipc with curbuf := some ptr, curbufsz := curbufsz, bytes := 0 }
      return some (ptr, curbufsz)

/-- Close a block opened for direct read access, of which `bytes` bytes have been used. -/
def ipcioCloseBlockRead (bytes : ℕ) : IpcioM ℤ := do
  let ipc ← get
  if ipc.bytes ≠ 0 then
    return -1
  else if ipc.curbuf = none then
    return -1
  else if ipc.rdwrt ≠ .R then
    return -1
  else
    modify fun ipc => { ipc with bytes := ipc.bytes + bytes }
    let ipc ← get
    if ipc.bytes = ipc.curbufsz then
      let rc ← onBuf ipcbufMarkCleared
      if rc < 0 then
        return -1
      else
        modify fun ipc => { ipc with curbuf := none, bytes := 0 }
        return 0
    else
      return 0

/-- Open the next block for direct write access. -/
def ipcioOpenBlockWrite : IpcioM (Option Ptr) := do
  let ipc ← get
  if ipc.bytes ≠ 0 then
    return none
  else if ipc.curbuf ≠ none ∧ ipc.bufsOpened = 0 then
    return none
  else if ipc.rdwrt ≠ .W then
    return none
  else if ipc.bufsOpened ≥ ipc.bufsOpenedMax then
    return none
  else
    let next ← onBuf (ipcbufGetNextWrite g)
    match next with
    | none => return none
    | some bufnum =>
      modify fun ipc =>
        let ipc := { ipc with
          bufPtrs := Function.update ipc.bufPtrs ipc.bufsOpened (some ⟨bufnum, 0⟩) }
        if ipc.bufsOpened = 0 then
          { ipc with curbuf := ipc.bufPtrs 0, markedFilled := false, bytes := 0, bufsOpened := 1 }
        else
          { ipc with bufsOpened := ipc.bufsOpened + 1 }
      return some ⟨bufnum, 0⟩

end Psrdada
