import Psrdada.Ring.Ipcio

/-! # Clients of a ring

A client of the library opens a ring, reads or writes, and closes it again: that is a `Session`.  A
process runs one session after the other on the same `ipcio_t`, and `Session.system` is a freshly
created ring with such processes.  The sessions note what they pass to the library and what they get
from it. -/

namespace Psrdada

open Concurrency

/-- What a client does between opening a ring and closing it. -/
inductive Session
  /-- `ipcio_open` in mode `'W'`, one `ipcio_write` for each chunk, `ipcio_close`. -/
  | byteWriter (chunks : List (List UInt8))
  /-- `ipcio_open` in mode `'W'`, `ipcio_open_block_write` and `ipcio_close_block_write` for each
  block, `ipcio_close`. -/
  | blockWriter (blocks : List (List UInt8))
  /-- `ipcio_open` in mode `'R'`, `ipcio_read` of these sizes until end-of-data, `ipcio_close`. -/
  | byteReader (sizes : ℕ → ℕ)
  /-- `ipcio_open` in mode `'R'`, `ipcio_open_block_read` and `ipcio_close_block_read` until
  end-of-data, `ipcio_close`. -/
  | blockReader
  /-- `ipcbuf_lock_read`, for one transfer after the other `ipcbuf_get_next_read` and
  `ipcbuf_mark_cleared` until end-of-data and then `ipcbuf_reset`, `ipcbuf_unlock_read`. -/
  | bufReader (more : ℕ)

variable (g : Geometry)

/-! ## Writers -/

/-- Write one chunk after the other. -/
def writeChunks : List (List UInt8) → IpcioM Unit
  | [] => return ()
  | chunk :: chunks => do
    note (.wdata chunk)
    let _ ← ipcioWrite g chunk
    note (.wret none)
    writeChunks chunks

/-- Write one block after the other, one block open at a time. -/
def writeBlocks : List (List UInt8) → IpcioM Unit
  | [] => return ()
  | block :: blocks => do
    note (.wdata block)
    let ptr ← ipcioOpenBlockWrite g
    match ptr with
    | none => return ()
    | some ptr =>
      memcpyTo ptr.buf ptr.off block
      let _ ← ipcioCloseBlockWrite g block.length
      note (.wret none)
      writeBlocks blocks

/-- Open a ring in mode `'W'`, write, and close it.  A session that writes nothing begins no transfer
and is not noted. -/
def writeSession (writes : Bool) (body : IpcioM Unit) : IpcioM Unit := do
  let rc ← ipcioOpen g .W
  if rc < 0 then
    return ()
  else
    if writes then note .wopen
    body
    note .wcall
    let _ ← ipcioClose g

/-! ## Readers -/

/-- Note bytes that have been read, and the end of data when it has been reached; whether it has. -/
def noteRead (iread : ℕ) (bytes : List UInt8) : IpcioM Bool := do
  note (.rdata iread bytes)
  let ipc ← get
  if ipc.buf.eod then
    note (.reod iread)
    return true
  else
    return false

/-- `ipcio_read` until end-of-data. -/
def readBytes (iread : ℕ) (sizes : ℕ → ℕ) : IpcioM Unit :=
  Routine.iterate (fun j => do
    let got ← ipcioRead g (sizes j)
    match got with
    | none => return .inr ()
    | some bytes =>
      let ended ← noteRead iread bytes
      if ended then return .inr () else return .inl (j + 1)) 0

/-- Read one sub-block after the other until end-of-data, by a call that opens the next one and a call
that closes it. -/
def readWhole (iread : ℕ) (openNext : IpcioM (Option (Ptr × ℕ))) (close : ℕ → IpcioM ℤ) :
    IpcioM Unit :=
  Routine.iterate (fun _ : Unit => do
    let next ← openNext
    match next with
    | none => return .inr ()
    | some (ptr, n) =>
      let bytes ← memcpyFrom ptr.buf ptr.off n
      let _ ← close n
      let ended ← noteRead iread bytes
      if ended then return .inr () else return .inl ()) ()

/-- `ipcio_open_block_read` and `ipcio_close_block_read` until end-of-data. -/
def readBlocks (iread : ℕ) : IpcioM Unit :=
  readWhole iread (ipcioOpenBlockRead g) ipcioCloseBlockRead

/-- `ipcbuf_get_next_read` and `ipcbuf_mark_cleared` until end-of-data. -/
def readBufs (iread : ℕ) : IpcioM Unit :=
  readWhole iread (onBuf (ipcbufGetNextRead g)) fun _ => onBuf ipcbufMarkCleared

/-- Open a ring in mode `'R'`, read from the slot that has been obtained, and close it. -/
def readSession (body : ℕ → IpcioM Unit) : IpcioM Unit := do
  let rc ← ipcioOpen g .R
  if rc < 0 then
    return ()
  else
    let ipc ← get
    let iread := ipc.buf.iread.getD 0
    note (.ropen iread)
    body iread
    let _ ← ipcioClose g

/-- Lock a ring for reading, read `transfers` transfers from the slot that has been obtained, and
unlock it. -/
def bufSession (transfers : ℕ) : IpcioM Unit := do
  let rc ← onBuf (ipcbufLockRead g)
  if rc < 0 then
    return ()
  else
    let ipc ← get
    let iread := ipc.buf.iread.getD 0
    Routine.countUp (fun _ => do
      note (.ropen iread)
      readBufs g iread
      let _ ← onBuf (ipcbufReset g)) transfers
    let _ ← onBuf (ipcbufUnlockRead g)

/-! ## The system -/

/-- The program of a session. -/
def Session.run : Session → IpcioM Unit
  | byteWriter chunks => writeSession g true (writeChunks g chunks)
  | blockWriter blocks => writeSession g (!blocks.isEmpty) (writeBlocks g blocks)
  | byteReader sizes => readSession g fun iread => readBytes g iread sizes
  | blockReader => readSession g (readBlocks g)
  | bufReader more => bufSession g (more + 1)

/-- One session after the other. -/
def runSessions : List Session → IpcioM Unit
  | [] => return ()
  | session :: sessions => do
    session.run g
    runSessions sessions

/-- A freshly created ring and the processes that use it. -/
def Session.system (clients : ℕ → List Session) : Config ringSig Ring where
  state := .created g
  proc p := (runSessions g (clients p)).start .connected

/-- A block that `ipcio_close_block_write` accepts, full unless it is the last. -/
def BlocksFit : List (List UInt8) → Prop
  | [] => True
  | [block] => block.length ≤ g.bufsz
  | block :: blocks => block.length = g.bufsz ∧ BlocksFit blocks

/-- The sessions that write and read bytes, with at least one byte written. -/
def Session.IsByte : Session → Prop
  | byteWriter chunks => chunks.flatten ≠ []
  | byteReader _ => True
  | _ => False

/-- The sessions with blocks, one open at a time and full unless it is the last. -/
def Session.IsBlock : Session → Prop
  | blockWriter blocks => 2 ≤ g.nbufs ∧ BlocksFit g blocks
  | blockReader => True
  | _ => False

/-- The sessions that read up to the end of data. -/
def Session.IsReader : Session → Prop
  | byteReader _ | blockReader | bufReader _ => True
  | _ => False

/-- The sessions that leave a ring ready for the next. -/
def Session.IsWhole (session : Session) : Prop :=
  session.IsByte ∨ session.IsBlock g ∨ session.IsReader

end Psrdada
