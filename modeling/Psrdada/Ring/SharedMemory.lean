import Psrdada.Concurrency.Solo
import Mathlib.Data.Int.Notation

/-! # The shared memory of a ring buffer

A ring is one block of shared memory (`ipcsync_t` with the `count` array behind it), `nbufs`
sub-blocks of `bufsz` bytes, and System V semaphores.  `Ring` is its state, `Op` lists the atomic
accesses the library makes to it, and `ringMachine` gives their effect: a load or a store of one
variable, a read or a write of one byte, one semaphore operation.

A semaphore is an unbounded counter and a decrement below zero blocks.  The block counters are
unbounded as well; a subtraction of two of them wraps around at `2 ^ 64` (`usub`), the pending count
of a sub-block is a `char`, and the increment passed to `semop` is a `short`.

`Ring` also carries history that no routine reads: how often each semaphore was posted and taken,
which sub-blocks each `FULL` post announced, and what the clients noted. -/

namespace Psrdada

open Concurrency

/-- The dimensions of a ring, fixed when it is created. -/
structure Geometry where
  /-- The number of sub-blocks. -/
  nbufs : ℕ
  /-- The size of a sub-block in bytes. -/
  bufsz : ℕ
  /-- The number of reader slots. -/
  nReaders : ℕ
  nbufs_pos : 0 < nbufs
  bufsz_pos : 0 < bufsz
  nReaders_pos : 0 < nReaders
  /-- `IPCBUF_READERS`. -/
  nReaders_le : nReaders ≤ 8

/-- `IPCBUF_XFERS`: how many transfers the arrays of `ipcsync_t` have room for. -/
def ipcbufXfers : ℕ := 8

/-- The state of a process with respect to the ring. -/
inductive ProcState
  | discon | viewer | writer | writing | wchange | reader | reading | rstop | viewing | vstop
  deriving DecidableEq, Repr

/-- The number by which `ipcbuf.c` names a state. -/
def ProcState.code : ProcState → ℕ
  | .discon => 0
  | .viewer => 1
  | .writer => 2
  | .writing => 3
  | .wchange => 4
  | .reader => 5
  | .reading => 6
  | .rstop => 7
  | .viewing => 8
  | .vstop => 9

/-! ## Variables -/

/-- The variables of `ipcsync_t` that change after creation, and the `count` array. -/
inductive Var
  | wBufNext | wBufCurr | wState | wXfer
  | rBufs (iread : ℕ) | rStates (iread : ℕ) | rXfers (iread : ℕ)
  | sBuf (xfer : ℕ) | sByte (xfer : ℕ)
  | eod (xfer : ℕ) | eBuf (xfer : ℕ) | eByte (xfer : ℕ)
  | count (buf : ℕ)
  deriving DecidableEq, Repr

/-- The contents of the variables. -/
structure Ipcsync where
  /-- Count of next buffer to write. -/
  wBufNext : ℕ
  /-- Count of current buffer to write. -/
  wBufCurr : ℕ
  /-- The state of the writer. -/
  wState : ℕ
  /-- The current write transfer number. -/
  wXfer : ℕ
  /-- Count of next buffer to read, for each reader. -/
  rBufs : ℕ → ℕ
  /-- The state of each reader. -/
  rStates : ℕ → ℕ
  /-- The current read transfer number of each reader. -/
  rXfers : ℕ → ℕ
  /-- The first valid buffer when start-of-data is raised. -/
  sBuf : ℕ → ℕ
  /-- The first valid byte when start-of-data is raised. -/
  sByte : ℕ → ℕ
  /-- End of data flag. -/
  eod : ℕ → ℕ
  /-- The last valid buffer of a transfer. -/
  eBuf : ℕ → ℕ
  /-- The last valid byte of a transfer. -/
  eByte : ℕ → ℕ
  /-- The pending transfer count of each sub-block. -/
  count : ℕ → ℕ

namespace Ipcsync

/-- Read a variable. -/
def load (m : Ipcsync) : Var → ℕ
  | .wBufNext => m.wBufNext
  | .wBufCurr => m.wBufCurr
  | .wState => m.wState
  | .wXfer => m.wXfer
  | .rBufs i => m.rBufs i
  | .rStates i => m.rStates i
  | .rXfers i => m.rXfers i
  | .sBuf x => m.sBuf x
  | .sByte x => m.sByte x
  | .eod x => m.eod x
  | .eBuf x => m.eBuf x
  | .eByte x => m.eByte x
  | .count b => m.count b

/-- Write a variable. -/
def store (m : Ipcsync) : Var → ℕ → Ipcsync
  | .wBufNext, a => { m with wBufNext := a }
  | .wBufCurr, a => { m with wBufCurr := a }
  | .wState, a => { m with wState := a }
  | .wXfer, a => { m with wXfer := a }
  | .rBufs i, a => { m with rBufs := Function.update m.rBufs i a }
  | .rStates i, a => { m with rStates := Function.update m.rStates i a }
  | .rXfers i, a => { m with rXfers := Function.update m.rXfers i a }
  | .sBuf x, a => { m with sBuf := Function.update m.sBuf x a }
  | .sByte x, a => { m with sByte := Function.update m.sByte x a }
  | .eod x, a => { m with eod := Function.update m.eod x a }
  | .eBuf x, a => { m with eBuf := Function.update m.eBuf x a }
  | .eByte x, a => { m with eByte := Function.update m.eByte x a }
  | .count b, a => { m with count := Function.update m.count b a }

end Ipcsync

/-- The semaphores: two for connecting, five for each reader slot. -/
inductive Sem
  | write | read
  | sodack (iread : ℕ) | eodack (iread : ℕ) | full (iread : ℕ) | clear (iread : ℕ)
  | readerConn (iread : ℕ)
  deriving DecidableEq, Repr

/-- What a `FULL` post announces to a reader: a sub-block of a transfer, the range of its bytes
that is valid, and whether it ends the transfer. -/
structure Desc where
  /-- The transfer. -/
  xfer : ℕ
  /-- The number of the sub-block, counted from the creation of the ring. -/
  blk : ℕ
  /-- The first valid byte. -/
  start : ℕ
  /-- One past the last valid byte. -/
  stop : ℕ
  /-- Whether the transfer ends here. -/
  eod : Bool
  deriving DecidableEq, Repr

/-- What a client of the library notes of its own calls. -/
inductive Event
  /-- A writer session has been opened. -/
  | wopen
  /-- The writer calls a routine. -/
  | wcall
  /-- The writer passes these bytes to a routine. -/
  | wdata (bytes : List UInt8)
  /-- A writer's call has returned, with a sub-block if it is one that yields a sub-block. -/
  | wret (buf : Option ℕ)
  /-- A reader session has been opened on a slot. -/
  | ropen (iread : ℕ)
  /-- A reader has been given bytes. -/
  | rdata (iread : ℕ) (bytes : List UInt8)
  /-- A reader has been told of the end of data. -/
  | reod (iread : ℕ)
  /-- A reader has acquired a sub-block: transfer, number, sub-block of the ring, first byte and
  length of the valid range. -/
  | acquired (iread xfer blk buf start bytes : ℕ)
  /-- A reader has cleared the sub-block it held. -/
  | cleared (iread : ℕ)
  /-- A reader has entered the state `RSTOP` at the end of a transfer. -/
  | stopped (iread xfer : ℕ)
  deriving DecidableEq, Repr

/-- The state of a ring. -/
structure Ring where
  /-- The variables. -/
  sync : Ipcsync
  /-- The bytes of the sub-blocks. -/
  buffer : ℕ → ℕ → UInt8
  /-- The values of the semaphores. -/
  sem : Sem → ℕ
  /-- What the kernel adds to a semaphore when a process exits (`SEM_UNDO`). -/
  undo : ℕ → Sem → ℤ
  /-- How much has been added to each semaphore. -/
  posts : Sem → ℕ
  /-- How much has been taken from each semaphore. -/
  takes : Sem → ℕ
  /-- What the posts of each reader's `FULL` announced. -/
  full : ℕ → List Desc
  /-- What the clients noted. -/
  notes : List Event

/-! ## Atomic accesses -/

/-- The atomic accesses to a ring. -/
inductive Op
  /-- Read a variable. -/
  | load (x : Var)
  /-- Read a variable and compare it with a value at hand. -/
  | test (x : Var) (v : ℕ)
  /-- Write a variable. -/
  | store (x : Var) (v : ℕ)
  /-- Read a byte of a sub-block. -/
  | readByte (buf off : ℕ)
  /-- Write a byte of a sub-block. -/
  | writeByte (buf off : ℕ) (b : UInt8)
  /-- `semop`, which blocks while the value would become negative. -/
  | semop (x : Sem) (op : ℤ) (undo : Bool)
  /-- `semop` with `IPC_NOWAIT`, which fails with `EAGAIN` instead. -/
  | semopNowait (x : Sem) (op : ℤ) (undo : Bool)
  /-- `semctl` with `SETVAL`. -/
  | setval (x : Sem) (v : ℕ)
  /-- A note of a client. -/
  | note (e : Event)
  deriving DecidableEq, Repr

/-- The accesses with their answers. -/
abbrev ringSig : Signature where
  Op := Op
  Res
    | .load _ => ℕ
    | .test _ _ => Bool
    | .store _ _ => Unit
    | .readByte _ _ => UInt8
    | .writeByte _ _ _ => Unit
    | .semop _ _ _ => Unit
    | .semopNowait _ _ _ => Bool
    | .setval _ _ => Unit
    | .note _ => Unit

/-- The value of a semaphore after an operation; `none` while the operation blocks.  Operation `0`
waits for the value `0`. -/
def semStep (v : ℕ) : ℤ → Option ℕ
  | .ofNat 0 => if v = 0 then some 0 else none
  | .ofNat (n + 1) => some (v + (n + 1))
  | .negSucc n => if n + 1 ≤ v then some (v - (n + 1)) else none

/-- What the arrays of `ipcsync_t` say of a sub-block of a transfer. -/
def Ipcsync.describe (g : Geometry) (m : Ipcsync) (xfer blk : ℕ) : Desc :=
  let x := xfer % ipcbufXfers
  let last := m.eod x ≠ 0 ∧ m.eBuf x = blk
  { xfer, blk
    start := if m.sBuf x = blk then m.sByte x else 0
    stop := if last then m.eByte x else g.bufsz
    eod := decide last }

/-- The sub-blocks that a post of `n` to `FULL` announces: the `n` before `w_buf_curr`, of the
transfer in progress or, when there is none, of the one that ended last. -/
def Ipcsync.announced (g : Geometry) (m : Ipcsync) (n : ℕ) : List Desc :=
  let xfer := if m.wState = 0 then m.wXfer - 1 else m.wXfer
  (List.range n).map fun j => m.describe g xfer (m.wBufCurr - n + j)

namespace Ring

/-- What the posts of each `FULL` have announced once `n` is added to a semaphore. -/
def announce (g : Geometry) (s : Ring) (x : Sem) (n : ℕ) : ℕ → List Desc :=
  match x with
  | .full i => Function.update s.full i (s.full i ++ s.sync.announced g n)
  | _ => s.full

/-- The effect of a semaphore operation of process `p`. -/
def semop (g : Geometry) (p : ℕ) (s : Ring) (x : Sem) (op : ℤ) (undo : Bool) : Option Ring :=
  (semStep (s.sem x) op).map fun v =>
    { s with
      sem := Function.update s.sem x v
      undo := if undo then
          Function.update s.undo p (Function.update (s.undo p) x (s.undo p x - op))
        else s.undo
      posts := Function.update s.posts x (s.posts x + op.toNat)
      takes := Function.update s.takes x (s.takes x + (-op).toNat)
      full := s.announce g x op.toNat }

end Ring

/-- The effect of an access by process `p`. -/
def ringExec (g : Geometry) (p : ℕ) : (o : Op) → Ring → Option (ringSig.Res o × Ring)
  | .load x, s => some (s.sync.load x, s)
  | .test x v, s => some (s.sync.load x == v, s)
  | .store x v, s => some ((), { s with sync := s.sync.store x v })
  | .readByte b off, s => some (s.buffer b off, s)
  | .writeByte b off v, s =>
    some ((), { s with buffer := Function.update s.buffer b (Function.update (s.buffer b) off v) })
  | .semop x op undo, s => (s.semop g p x op undo).map fun s' => ((), s')
  | .semopNowait x op undo, s =>
    match s.semop g p x op undo with
    | some s' => some (true, s')
    | none => some (false, s)
  | .setval x v, s =>
    some ((), { s with
      sem := Function.update s.sem x v
      undo := fun q => Function.update (s.undo q) x 0 })
  | .note e, s => some ((), { s with notes := s.notes ++ [e] })

/-- The machine of a ring. -/
def ringMachine (g : Geometry) : Machine ringSig Ring := ⟨ringExec g⟩

/-! ## Creation -/

/-- The variables that `ipcbuf_create_work` leaves. -/
def Ipcsync.created : Ipcsync where
  wBufNext := 0
  wBufCurr := 0
  wState := ProcState.discon.code
  wXfer := 0
  rBufs _ := 0
  rStates _ := ProcState.discon.code
  rXfers _ := 0
  sBuf _ := 0
  sByte _ := 0
  eod _ := 1
  eBuf _ := 0
  eByte _ := 0
  count _ := 0

/-- The semaphores that `ipcbuf_create_work` leaves. -/
def Sem.created (g : Geometry) : Sem → ℕ
  | .write => 1
  | .read => g.nReaders
  | .sodack i => if i < g.nReaders then ipcbufXfers else 0
  | .eodack i => if i < g.nReaders then ipcbufXfers else 0
  | .full _ => 0
  | .clear _ => 0
  | .readerConn i => if i < g.nReaders then 1 else 0

/-- A ring that has just been created. -/
def Ring.created (g : Geometry) : Ring where
  sync := .created
  buffer _ _ := 0
  sem := Sem.created g
  undo _ _ := 0
  posts _ := 0
  takes _ := 0
  full _ := []
  notes := []

end Psrdada
