import Psrdada.Ring.LockedCalls

/-! # Any clients

A process may call the routines of a ring in any order and with any arguments, and choose each call by
what it has seen: it is a program over `ipcbufSig` or over `ipcioSig`.  It may also be killed between any
two of its accesses, after which the kernel gives its semaphores back, one at a time.

Not among the calls is `ipcbuf_hard_reset`, which ignores every lock.  A process that uses the byte
interface may also call the routines of `ipcbuf.c` on its `ipcbuf_t`, but not those that take or give back
a lock, as `ipcio_open` and `ipcio_close` do that for it. -/

namespace Psrdada

open Concurrency Outline

/-! ## The calls -/

/-- A call of a routine of `ipcbuf.c`, or a look at the shared memory. -/
inductive IpcbufCall
  | lockWrite | unlockWrite | enableEod | disableSod | getSodMinbuf | setSoclockBuf
  | enableSod (startBuf startByte : ℕ) | getNextWrite | markFilled (nbytes : ℕ)
  | lockRead | unlockRead | getNextRead | getNextReadable | markCleared
  | tell (bufnum : ℕ) | tellWrite | tellRead | reset
  | load (x : Var) | readByte (buf off : ℕ)

/-- The routines of `ipcbuf.c` and what they return. -/
abbrev ipcbufSig : Signature where
  Op := IpcbufCall
  Res
    | .lockWrite | .unlockWrite | .enableEod | .disableSod => ℤ
    | .getSodMinbuf | .setSoclockBuf => ℕ
    | .enableSod _ _ => ℤ
    | .getNextWrite => Option ℕ
    | .markFilled _ | .lockRead | .unlockRead => ℤ
    | .getNextRead | .getNextReadable => Option (Ptr × ℕ)
    | .markCleared => ℤ
    | .tell _ => ℕ
    | .tellWrite | .tellRead | .reset => ℤ
    | .load _ => ℕ
    | .readByte _ _ => UInt8

/-- The routine of a call. -/
def IpcbufCall.run (g : Geometry) : (call : IpcbufCall) → IpcbufM (ipcbufSig.Res call)
  | .lockWrite => ipcbufLockWrite
  | .unlockWrite => ipcbufUnlockWrite
  | .enableEod => ipcbufEnableEod
  | .disableSod => ipcbufDisableSod
  | .getSodMinbuf => ipcbufGetSodMinbuf g
  | .setSoclockBuf => ipcbufSetSoclockBuf
  | .enableSod startBuf startByte => ipcbufEnableSod g startBuf startByte
  | .getNextWrite => ipcbufGetNextWrite g
  | .markFilled nbytes => ipcbufMarkFilled g nbytes
  | .lockRead => ipcbufLockRead g
  | .unlockRead => ipcbufUnlockRead g
  | .getNextRead => ipcbufGetNextRead g
  | .getNextReadable => ipcbufGetNextReadable g
  | .markCleared => ipcbufMarkCleared
  | .tell bufnum => ipcbufTell g bufnum
  | .tellWrite => ipcbufTellWrite g
  | .tellRead => ipcbufTellRead g
  | .reset => ipcbufReset g
  | .load x => Psrdada.load x
  | .readByte buf off => Routine.perform (S := ringSig) (.readByte buf off)

/-- The calls that take a lock or give it back. -/
def IpcbufCall.locks : IpcbufCall → Bool
  | .lockWrite | .unlockWrite | .lockRead | .unlockRead => true
  | _ => false

/-- A call of a routine of `ipcio.c`, or of one of `ipcbuf.c` on the `ipcbuf_t` part. -/
inductive IpcioCall
  | openRing (rdwrt : Rdwrt) | start (byte : ℕ) | stop | close
  | write (ptr : List UInt8) | read (bytes : ℕ)
  | openBlockRead | closeBlockRead (bytes : ℕ)
  | openBlockWrite | updateBlockWrite (bytes : ℕ) | closeBlockWrite (bytes : ℕ)
  | buf (call : IpcbufCall) (keeps : call.locks = false)

/-- The routines of `ipcio.c` and what they return. -/
abbrev ipcioSig : Signature where
  Op := IpcioCall
  Res
    | .openRing _ | .start _ | .stop | .close | .write _ => ℤ
    | .read _ => Option (List UInt8)
    | .openBlockRead => Option (Ptr × ℕ)
    | .closeBlockRead _ => ℤ
    | .openBlockWrite => Option Ptr
    | .updateBlockWrite _ | .closeBlockWrite _ => ℤ
    | .buf call _ => ipcbufSig.Res call

/-- The routine of a call. -/
def IpcioCall.run (g : Geometry) : (call : IpcioCall) → IpcioM (ipcioSig.Res call)
  | .openRing rdwrt => ipcioOpen g rdwrt
  | .start byte => ipcioStart g byte
  | .stop => ipcioStop g
  | .close => ipcioClose g
  | .write ptr => ipcioWrite g ptr
  | .read bytes => ipcioRead g bytes
  | .openBlockRead => ipcioOpenBlockRead g
  | .closeBlockRead bytes => ipcioCloseBlockRead bytes
  | .openBlockWrite => ipcioOpenBlockWrite g
  | .updateBlockWrite bytes => ipcioUpdateBlockWrite g bytes
  | .closeBlockWrite bytes => ipcioCloseBlockWrite g bytes
  | .buf call _ => onBuf (call.run g)

/-! ## The system -/

/-- A process that uses a ring, by one interface or the other. -/
inductive AnyClient
  /-- A process that has an `ipcbuf_t`. -/
  | buf (program : Program ipcbufSig Unit)
  /-- A process that has an `ipcio_t`. -/
  | io (program : Program ipcioSig Unit)

/-- The accesses of a process, which has just connected. -/
def AnyClient.program (g : Geometry) : AnyClient → Program ringSig Unit
  | .buf program => (Routine.handle (IpcbufCall.run g) program).start .connected
  | .io program => (Routine.handle (IpcioCall.run g) program).start .connected

/-- A freshly created ring and the processes that use it. -/
def AnyClient.system (g : Geometry) (clients : ℕ → AnyClient) : Config ringSig Ring where
  state := .created g
  proc p := (clients p).program g

variable {g : Geometry} {p : ℕ}

/-- Every call but those that take a lock or give it back leaves the process with the lock that it had. -/
theorem IpcbufCall.keeps {l : Option Sem} {call : IpcbufCall} (h : call.locks = false) :
    KeepsBuf g p l (call.run g) := by
  cases call with
  | lockWrite => cases h
  | unlockWrite => cases h
  | enableEod => exact keeps_ipcbufEnableEod
  | disableSod => exact keeps_ipcbufDisableSod
  | getSodMinbuf => exact keeps_ipcbufGetSodMinbuf
  | setSoclockBuf => exact keeps_ipcbufSetSoclockBuf
  | enableSod startBuf startByte => exact keeps_ipcbufEnableSod startBuf startByte
  | getNextWrite => exact keeps_ipcbufGetNextWrite
  | markFilled nbytes => exact keeps_ipcbufMarkFilled nbytes
  | lockRead => cases h
  | unlockRead => cases h
  | getNextRead => exact keeps_ipcbufGetNextReadWork false
  | getNextReadable => exact keeps_ipcbufGetNextReadWork true
  | markCleared => exact keeps_ipcbufMarkCleared
  | tell bufnum => exact keeps_ipcbufTell bufnum
  | tellWrite => exact keeps_ipcbufTellWrite
  | tellRead => exact keeps_ipcbufTellRead
  | reset => exact keeps_ipcbufReset
  | load x => exact keeps_load x
  | readByte buf off => exact keeps_covered trivial

theorem IpcbufCall.fitsKept (call : IpcbufCall) : FitsKept g p (call.run g) := by
  cases call with
  | lockWrite => exact fun id l h => ensures_mono (ensures_ipcbufLockWrite h) fun _ _ _ h' => h'.1
  | unlockWrite => exact fun id l h => ensures_mono (ensures_ipcbufUnlockWrite h) fun _ _ _ h' => h'.1
  | lockRead => exact fitsKept_ipcbufLockRead
  | unlockRead => exact fitsKept_ipcbufUnlockRead
  | _ => exact .of_keeps fun l => IpcbufCall.keeps rfl

theorem IpcioCall.fitsKept (call : IpcioCall) : FitsKeptIo g p (call.run g) := by
  cases call with
  | openRing rdwrt => exact fitsKept_ipcioOpen rdwrt
  | start byte => exact .of_keeps fun l => keeps_ipcioStart byte
  | stop => exact fitsKept_ipcioStop
  | close => exact fitsKept_ipcioStopClose true
  | write ptr => exact .of_keeps fun l => keeps_ipcioWrite ptr
  | read bytes => exact .of_keeps fun l => keeps_ipcioRead bytes
  | openBlockRead => exact .of_keeps fun l => keeps_ipcioOpenBlockRead
  | closeBlockRead bytes => exact .of_keeps fun l => keeps_ipcioCloseBlockRead bytes
  | openBlockWrite => exact .of_keeps fun l => keeps_ipcioOpenBlockWrite
  | updateBlockWrite bytes => exact .of_keeps fun l => keeps_ipcioUpdateBlockWrite bytes
  | closeBlockWrite bytes => exact .of_keeps fun l => keeps_ipcioCloseBlockWrite bytes
  | buf call h => exact .of_keeps fun l => keeps_onBuf (IpcbufCall.keeps h)

/-- Whatever the client, its process meets its weakest precondition. -/
theorem AnyClient.wp (client : AnyClient) :
    (lockOutline g).Wp p (client.program g) none fun _ _ => True := by
  cases client with
  | buf program =>
    exact wp_start (ensures_handle (fun id l => id.Fits l)
      (fun call id l h => IpcbufCall.fitsKept call id l h) program .connected) fun _ _ _ => trivial
  | io program =>
    exact wp_start (ensures_handle (fun ipc l => ipc.Fits l)
      (fun call ipc l h => IpcioCall.fitsKept call ipc l h) program .connected) fun _ _ _ => trivial

/-! ## The result -/

/-- The locks of a ring do what they are for: a lock is with one process or free, a process has one lock
at most, and what a process is about to do leaves alone what it has no lock of. -/
structure LocksHold (g : Geometry) (c : Config ringSig Ring) : Prop where
  sole : ∀ x, x.isLock = true → ∀ p q, c.state.Holds p x → c.state.Holds q x → p = q
  single : ∀ p x y, x.isLock = true → y.isLock = true → c.state.Holds p x → c.state.Holds p y → x = y
  free : ∀ x, x.isLock = true → Sem.created g x = 1 →
    (c.state.sem x = 1 ∧ ∀ p, ¬ c.state.Holds p x) ∨ (c.state.sem x = 0 ∧ ∃ p, c.state.Holds p x)
  alone : ∀ p o k, c.proc p = .call o k → ∀ r s, ringExec g p o c.state = some (r, s) →
    c.state.LeavesAlone p s

theorem Locked.exclusive {G : ℕ → Option Sem} {s : Ring} (h : Locked g G s) {x : Sem}
    (hx : x.isLock = true) (h1 : Sem.created g x = 1) :
    (s.sem x = 1 ∧ ∀ p, ¬ s.Holds p x) ∨ (s.sem x = 0 ∧ ∃ p, s.Holds p x) := by
  rcases h.sole x hx h1 with ⟨hfree, -, hnone⟩ | ⟨htaken, p, hp, -⟩
  · exact .inl ⟨hfree, fun p hp => hnone p ((h.holds_iff hx).mp hp)⟩
  · exact .inr ⟨htaken, p, (h.holds_iff hx).mpr hp⟩

/-- Two processes, each of which opens the ring to write. -/
def twoWriters : ℕ → AnyClient
  | 0 | 1 => .io (.call (.openRing .W) fun _ => .ret ())
  | _ => .buf (.ret ())

/-- The first process opens the ring and is killed, the kernel gives `WRITE` back for it, and the second
opens the ring. -/
def reopened (g : Geometry) : Option (Config ringSig Ring) :=
  ((ringMachine g).schedule [(0, 3)] (AnyClient.system g twoWriters)).bind fun c =>
    (ringMachine g).schedule [(1, 3)]
      ⟨c.state.giveBack 0 .write, Function.update c.proc 0 (.ret ())⟩

theorem reach_of_reopened {c : Config ringSig Ring} (h : reopened g = some c) :
    ReachKilled (ringMachine g) anyStep Ring.giveBack (AnyClient.system g twoWriters) c := by
  obtain ⟨c₁, h₁, h₂⟩ := Option.bind_eq_some_iff.mp h
  have hkilled : ReachKilled (ringMachine g) anyStep Ring.giveBack (AnyClient.system g twoWriters)
      ⟨c₁.state, Function.update c₁.proc 0 (.ret ())⟩ :=
    ((Machine.reach_of_schedule h₁).killed Ring.giveBack).tail (.kill 0)
  have hsettled := hkilled.tail (.settle (p := 0) .write (Function.update_self 0 _ c₁.proc))
  exact hsettled.trans ((Machine.reach_of_schedule h₂).killed Ring.giveBack)

theorem one_slot_le : 1 ≤ 8 := by decide

/-- One sub-block of one byte and one reader slot. -/
def Geometry.single : Geometry where
  nbufs := 1
  bufsz := 1
  nReaders := 1
  nbufs_pos := Nat.one_pos
  bufsz_pos := Nat.one_pos
  nReaders_pos := Nat.one_pos
  nReaders_le := one_slot_le

end Psrdada
