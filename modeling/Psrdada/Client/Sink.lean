import Psrdada.Ring.Ipcio
import Psrdada.Memory.Copy

/-! # The writing end of a data block

The counterpart of `Source` for a process that writes one transfer after the other: the part of an
`ipcio_t` that a writer uses, with the sub-blocks it has handed over.  The ring gives the writer an empty
sub-block whenever it asks for one.  The routines are those of `ipcio.c` for a writer of valid data
(mode `'W'`) that has no more than one block open at a time. -/

namespace Psrdada

/-- What the writer is doing (`state` of an `ipcbuf_t`). -/
inductive SinkState
  /-- `IPCBUF_VIEWER`: the ring is not locked. -/
  | viewer
  /-- `IPCBUF_WCHANGE`: the next block begins a transfer, or the current one ends it. -/
  | wchange
  /-- `IPCBUF_WRITING`. -/
  | writing
  /-- `IPCBUF_WRITER`: the transfer has ended. -/
  | writer
  deriving DecidableEq

/-- The writing end of a data block. -/
structure Sink where
  /-- The size of a sub-block. -/
  bufsz : ℕ
  /-- A sub-block holds at least one byte. -/
  bufsz_pos : 0 < bufsz
  /-- The number of sub-blocks. -/
  nbufs : ℕ
  /-- What the sub-blocks hold before they are written, in the order in which the writer gets them. -/
  stale : ℕ → Memory UInt8
  /-- How many sub-blocks the writer has got. -/
  taken : ℕ
  /-- What the writer is doing. -/
  state : SinkState
  /-- The mode. -/
  rdwrt : Rdwrt
  /-- `curbuf`: the sub-block that is open. -/
  curbuf : Option (Memory UInt8)
  /-- `bytes`: the number of bytes that have been written to it. -/
  bytes : ℕ
  /-- No more is written than there is space for. -/
  bytes_le : bytes ≤ bufsz
  /-- `marked_filled`. -/
  markedFilled : Bool
  /-- `bufs_opened`: whether a block is open for direct access. -/
  opened : Bool
  /-- What has been handed over of the transfer in progress. -/
  filled : List UInt8
  /-- The transfers that have ended, each with all its bytes. -/
  transfers : List (List UInt8)

namespace Sink

/-- A transfer ends with the given bytes: end-of-data is raised.  (When it is raised on an empty sub-block
the routine also gets this one, which changes nothing here.) -/
def endTransfer (s : Sink) (data : List UInt8) : Sink :=
  { s with state := .writer, filled := [], transfers := s.transfers ++ [s.filled ++ data] }

/-- The bytes at the start of the open sub-block. -/
def contents (s : Sink) (nbytes : ℕ) : List UInt8 :=
  match s.curbuf with
  | some block => block.slice 0 nbytes
  | none => []

/-- `ipcbuf_get_next_write`: the first sub-block of a transfer raises start-of-data. -/
def getNextWrite (s : Sink) : Option (Memory UInt8 × Sink) :=
  match s.state with
  | .viewer => none
  | .wchange => some (s.stale s.taken, { s with state := .writing, taken := s.taken + 1 })
  | .writing => some (s.stale s.taken, { s with taken := s.taken + 1 })
  | .writer => some (s.stale s.taken, { s with taken := s.taken + 1 })

/-- `ipcbuf_mark_filled`. -/
def markFilled (s : Sink) (nbytes : ℕ) : Option Sink :=
  match s.state with
  | .viewer => none
  | .writer => some s
  | .wchange => some (s.endTransfer (s.contents nbytes))
  | .writing =>
      if nbytes < s.bufsz then some (s.endTransfer (s.contents nbytes))
      else some { s with filled := s.filled ++ s.contents nbytes }

/-- `ipcbuf_enable_eod`. -/
def enableEod (s : Sink) : Option Sink :=
  if s.state = .writing then some { s with state := .wchange } else none

/-- `ipcio_open` for a writer of valid data, on a ring that no other process writes to. -/
def ipcioOpen (s : Sink) : Option Sink :=
  if s.state = .viewer then
    some { s with
      rdwrt := .W, state := .wchange, curbuf := none, bytes := 0, bytes_le := Nat.zero_le _ }
  else none

/-! ## Direct access -/

/-- `ipcio_open_block_write`.  (No caller opens a second block.) -/
def ipcioOpenBlockWrite (s : Sink) : Option Sink :=
  if s.bytes ≠ 0 then none
  else if s.curbuf.isSome = true ∧ s.opened = false then none
  else if s.rdwrt ≠ .W then none
  -- `bufs_opened_max` is one less than the number of sub-blocks
  else if s.nbufs - 1 ≤ 0 ∨ s.opened = true then none
  else
    match s.getNextWrite with
    | none => none
    | some (block, s) =>
      some { s with
        opened := true, curbuf := some block, markedFilled := false
        bytes := 0, bytes_le := Nat.zero_le _ }

/-- `memcpy` into the open block. -/
def memcpyTo (s : Sink) (offset : ℕ) (data : List UInt8) : Sink :=
  { s with curbuf := s.curbuf.map (·.copy offset data) }

/-- `ipcio_update_block_write`. -/
def ipcioUpdateBlockWrite (s : Sink) (bytes : ℕ) : Option Sink :=
  if s.bytes ≠ 0 then none
  else if s.curbuf.isNone = true then none
  else if s.rdwrt ≠ .W then none
  else if h : s.bytes + bytes > s.bufsz then none
  else some { s with bytes := s.bytes + bytes, bytes_le := Nat.not_lt.mp h }

/-- `ipcio_close_block_write`. -/
def ipcioCloseBlockWrite (s : Sink) (bytes : ℕ) : ℤ × Sink :=
  match s.ipcioUpdateBlockWrite bytes with
  | none => (-1, s)
  | some s =>
    if s.markedFilled = true then (0, s)
    else
      match s.markFilled s.bytes with
      | none => (-2, s)
      | some s =>
        (0, { s with
          opened := false, curbuf := none, markedFilled := true
          bytes := 0, bytes_le := Nat.zero_le _ })

/-! ## Bytes -/

/-- In `ipcio_write`: hand over a sub-block that has been filled. -/
def flushFull (s : Sink) : Option Sink :=
  if s.bytes = s.bufsz then
    match (if s.markedFilled = true then some s else s.markFilled s.bytes) with
    | none => none
    | some s =>
      some { s with curbuf := none, markedFilled := true, bytes := 0, bytes_le := Nat.zero_le _ }
  else some s

/-- In `ipcio_write`: the sub-block to write to. -/
def currentWrite (s : Sink) : Option Sink :=
  match s.curbuf with
  | some _ => some s
  | none =>
    match s.getNextWrite with
    | none => none
    | some (block, s) =>
      some { s with
        curbuf := some block, markedFilled := false, bytes := 0, bytes_le := Nat.zero_le _ }

/-- In `ipcio_write`: copy what there is space for. -/
def fill (s : Sink) (data : List UInt8) : Sink :=
  { s with
    curbuf := s.curbuf.map (·.copy s.bytes (data.take (s.bufsz - s.bytes)))
    bytes := s.bytes + min (s.bufsz - s.bytes) data.length
    bytes_le := by
      have := s.bytes_le
      omega }

theorem bufsz_getNextWrite {s s' : Sink} {block : Memory UInt8}
    (h : s.getNextWrite = some (block, s')) : s'.bufsz = s.bufsz := by
  unfold getNextWrite at h
  split at h
  · exact absurd h (Option.some_ne_none _).symm
  all_goals
    obtain ⟨-, rfl⟩ := Prod.mk.inj (Option.some.inj h)
    rfl

/-- There is space in the sub-block that is written to. -/
theorem bytes_currentWrite {s s' : Sink} (hs : s.bytes < s.bufsz) (h : s.currentWrite = some s') :
    s'.bytes < s'.bufsz := by
  unfold currentWrite at h
  split at h
  · obtain rfl := Option.some.inj h
    exact hs
  · split at h
    · exact absurd h (Option.some_ne_none _).symm
    · rename_i block s'' _
      obtain rfl := Option.some.inj h
      exact s''.bufsz_pos

/-- Nor is the sub-block full after `flushFull`. -/
theorem bytes_flushFull {s s' : Sink} (h : s.flushFull = some s') : s'.bytes < s'.bufsz := by
  unfold flushFull at h
  split at h
  · split at h
    · exact absurd h (Option.some_ne_none _).symm
    · rename_i s'' _
      obtain rfl := Option.some.inj h
      exact s''.bufsz_pos
  · rename_i hne
    obtain rfl := Option.some.inj h
    exact Nat.lt_of_le_of_ne s.bytes_le hne

/-- The loop of `ipcio_write`: whether it succeeds. -/
def writeOn (s : Sink) (rest : List UInt8) : Bool × Sink :=
  if _hrest : rest = [] then (true, s)
  else
    match _hflush : s.flushFull with
    | none => (false, s)
    | some flushed =>
      match _hcurrent : flushed.currentWrite with
      | none => (false, flushed)
      | some current =>
        writeOn (current.fill rest) (rest.drop (current.bufsz - current.bytes))
termination_by rest.length
decreasing_by
  have := bytes_currentWrite (bytes_flushFull _hflush) _hcurrent
  have := List.length_pos_iff.mpr _hrest
  rw [List.length_drop]
  omega

/-- `ipcio_write`. -/
def ipcioWrite (s : Sink) (data : List UInt8) : ℤ × Sink :=
  if s.rdwrt ≠ .W ∧ s.rdwrt ≠ .w then (-1, s)
  else
    match s.writeOn data with
    | (true, s) => (data.length, s)
    | (false, s) => (-1, s)

/-! ## Closing -/

/-- In `ipcio_stop_close`: close the open block, again and again until none is open; none where `fuel`
turns do not suffice. -/
def closeOpened : ℕ → Sink → Option Sink
  | 0, _ => none
  | fuel + 1, s =>
    if s.opened = true then closeOpened fuel (s.ipcioCloseBlockWrite s.bufsz).2 else some s

/-- In `ipcio_stop_close`: give the lock back. -/
def release (s : Sink) : ℤ × Sink :=
  if s.state = .viewer then (-1, s) else (0, { s with state := .viewer, rdwrt := .closed })

/-- `ipcio_close`; none where it never returns: two turns of the loop suffice if any number does
(`closeOpened_two`). -/
def ipcioClose (s : Sink) : Option (ℤ × Sink) :=
  if s.rdwrt = .W then
    if s.state = .writing then
      match closeOpened 2 s with
      | none => none
      | some s =>
        match s.enableEod with
        | none => some (-1, s)
        | some s =>
          match s.markFilled s.bytes with
          | none => some (-1, s)
          | some s =>
            some (release { s with
              markedFilled := true, rdwrt := .w
              curbuf := if s.bytes = s.bufsz then none else s.curbuf })
    else some (release { s with rdwrt := .w })
  else if s.rdwrt = .w then some (release s)
  else some (-1, s)

/-- When the open block cannot be closed, the loop never ends. -/
theorem closeOpened_stuck {s : Sink} (hopen : s.opened = true)
    (h : (s.ipcioCloseBlockWrite s.bufsz).2 = s) (fuel : ℕ) : closeOpened fuel s = none := by
  induction fuel with
  | zero => rfl
  | succ fuel ih => rw [closeOpened, if_pos hopen, h, ih]

/-- The count of a block that has a count already cannot be set. -/
theorem ipcioUpdateBlockWrite_of_bytes {s : Sink} (h : s.bytes ≠ 0) (bytes : ℕ) :
    s.ipcioUpdateBlockWrite bytes = none := by
  rw [ipcioUpdateBlockWrite, if_pos h]

/-- A block whose count has been set cannot be closed. -/
theorem ipcioCloseBlockWrite_of_bytes {s : Sink} (h : s.bytes ≠ 0) (bytes : ℕ) :
    s.ipcioCloseBlockWrite bytes = (-1, s) := by
  rw [ipcioCloseBlockWrite, ipcioUpdateBlockWrite_of_bytes h]

/-- A block that stays open when it is closed cannot be closed. -/
theorem ipcioCloseBlockWrite_again {s : Sink} (h : (s.ipcioCloseBlockWrite s.bufsz).2.opened = true) :
    ((s.ipcioCloseBlockWrite s.bufsz).2.ipcioCloseBlockWrite
      (s.ipcioCloseBlockWrite s.bufsz).2.bufsz).2 = (s.ipcioCloseBlockWrite s.bufsz).2 := by
  rcases hupdate : s.ipcioUpdateBlockWrite s.bufsz with - | s₁
  · -- the count is refused, and refused again
    have hclose : s.ipcioCloseBlockWrite s.bufsz = (-1, s) := by rw [ipcioCloseBlockWrite, hupdate]
    rw [hclose]
    exact congrArg Prod.snd hclose
  · have hbytes : s₁.bytes ≠ 0 := by
      unfold ipcioUpdateBlockWrite at hupdate
      split_ifs at hupdate
      obtain rfl := Option.some.inj hupdate
      have := s.bufsz_pos
      exact Nat.ne_of_gt (Nat.add_pos_right _ this)
    unfold ipcioCloseBlockWrite at h ⊢
    rw [hupdate] at h ⊢
    simp only [] at h ⊢
    split_ifs at h ⊢
    · rw [ipcioUpdateBlockWrite_of_bytes hbytes]
    · rcases hfilled : s₁.markFilled s₁.bytes with - | s₂
      · simp only [ipcioUpdateBlockWrite_of_bytes hbytes]
      · rw [hfilled] at h
        exact absurd h Bool.false_ne_true

/-- Two turns suffice if any number does. -/
theorem closeOpened_two {fuel : ℕ} {s t : Sink} (h : closeOpened fuel s = some t) :
    closeOpened 2 s = some t := by
  cases fuel with
  | zero => exact absurd h (Option.some_ne_none _).symm
  | succ fuel =>
    by_cases hopen : s.opened = true
    · rw [closeOpened, if_pos hopen] at h ⊢
      by_cases hagain : (s.ipcioCloseBlockWrite s.bufsz).2.opened = true
      · rw [closeOpened_stuck hagain (ipcioCloseBlockWrite_again hagain)] at h
        exact absurd h (Option.some_ne_none _).symm
      · cases fuel with
        | zero => exact absurd h (Option.some_ne_none _).symm
        | succ fuel =>
          rw [closeOpened, if_neg hagain] at h ⊢
          exact h
    · rw [closeOpened, if_neg hopen] at h ⊢
      exact h

end Sink

end Psrdada
