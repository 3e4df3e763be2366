import Psrdada.Client.Switching
import Psrdada.Intervals.Merge

/-! # dada_dbevent

`receive_events` of `dada_dbevent` reads events from a socket, converts their times to intervals of bytes,
merges those that overlap and copies the data of each from the input ring to the output ring.

An event is a line with two times; its other columns are copied to the header of the output only and are
left out.  The ring is the reading end of a data block (`Source`) together with what has been read from
it before. -/

namespace Psrdada

open CString Intervals

/-- `(uint64_t) powf (10, n)`: powers of ten are exact as long as they are numbers of type `float`. -/
structure Powf where
  /-- The number. -/
  run : ℕ → ℕ
  /-- The powers that are exact. -/
  exact : ∀ n ≤ 10, run n = 10 ^ n

/-- `qsort` with `sort_events`: the order of events with the same start is not specified. -/
structure Qsort where
  /-- The sorted array. -/
  run : List (Span ℕ) → List (Span ℕ)
  /-- It has the same entries. -/
  perm : ∀ events, (run events).Perm events
  /-- It is sorted. -/
  ordered : ∀ events, Ordered (run events)

/-- A time in an event: `time_secs`, and the digits after the point. -/
structure EventTime where
  /-- The seconds. -/
  secs : ℤ
  /-- The fraction of a second. -/
  fraction : Text
  /-- There are digits only. -/
  digits : ∀ c ∈ fraction, c.isDigit = true
  /-- There is at least one digit. -/
  nonempty : fraction ≠ []

/-- The denominator of the fraction. -/
def EventTime.denominator (t : EventTime) : ℕ := 10 ^ t.fraction.length

/-- A time, as a multiple of the unit of its fraction. -/
def EventTime.units (t : EventTime) : ℤ := t.secs * t.denominator + digitsValue t.fraction

/-- A line with an event. -/
structure EventLine where
  /-- When it starts. -/
  start : EventTime
  /-- When it ends. -/
  stop : EventTime
  /-- The end is not before the start. -/
  ordered : start.units * stop.denominator ≤ stop.units * start.denominator

/-- A line from the socket: one with less than ten characters in front of a comment, or an event. -/
inductive Line
  /-- A line that is ignored. -/
  | ignored
  /-- An event. -/
  | event (e : EventLine)

/-- What `dada_dbevent_t` keeps of the header. -/
structure Dbevent where
  /-- `utc_start`. -/
  utcStart : ℤ
  /-- `bytes_per_second`. -/
  bytesPerSecond : ℕ
  /-- `resolution`. -/
  resolution : ℕ

variable (d : Dbevent)

/-! ## The intervals -/

/-- `calculate_byte_offset`. -/
def calculateByteOffset (powf : Powf) (t : EventTime) : ℤ :=
  let timeFracNumer := ((scanUnsigned t.fraction).map Prod.fst).getD 0
  let timeFracDenom := powf.run t.fraction.length
  if d.utcStart ≠ 0 ∧ t.secs ≥ d.utcStart then
    let eventByte : ℕ := (t.secs - d.utcStart).toNat * d.bytesPerSecond % 2 ^ 64
    let eventByteFrac : ℕ := timeFracNumer * d.bytesPerSecond % 2 ^ 64 / timeFracDenom
    toInt64 (eventByte + eventByteFrac : ℕ)
  else -1

/-- `start_byte` of an event. -/
def eventStart (offset : ℤ) : ℕ :=
  if offset ≥ 0 then
    let remainder := offset.toNat % d.resolution
    if remainder ≠ 0 then
      if offset.toNat > d.resolution then offset.toNat - remainder else d.resolution
    else offset.toNat
  else 0

/-- `end_byte` of an event. -/
def eventEnd (offset : ℤ) : ℕ :=
  if offset ≥ 0 then
    let remainder := offset.toNat % d.resolution
    if remainder ≠ 0 then offset.toNat + (d.resolution - remainder) else offset.toNat
  else 0

/-- The interval of an event. -/
def interval (powf : Powf) (e : EventLine) : Span ℕ :=
  ⟨eventStart d (calculateByteOffset d powf e.start), eventEnd d (calculateByteOffset d powf e.stop)⟩

/-- The loop of `receive_events` over the lines, with `n` entries of the array left. -/
def receiveLines (powf : Powf) : (n : ℕ) → List Line → List (Span ℕ)
  | 0, _ => []
  | _ + 1, [] => []
  | n + 1, .ignored :: lines => receiveLines powf (n + 1) lines
  | n + 1, .event e :: lines => interval d powf e :: receiveLines powf n lines

/-- The loop that merges overlapping events, with `events[i-1]` in hand: an event that has been absorbed
by the next one is set to zero. -/
def amalgamate (previous : Span ℕ) : List (Span ℕ) → List (Span ℕ)
  | [] => [previous]
  | e :: events =>
    if e.start < previous.stop then
      ⟨0, 0⟩ :: amalgamate ⟨previous.start, if previous.stop > e.stop then previous.stop else e.stop⟩ events
    else previous :: amalgamate e events

/-! ## The replay -/

/-- The input ring. -/
structure Input where
  /-- The reading end of the data block. -/
  source : Source
  /-- The data that has been read. -/
  past : List UInt8

namespace Input

/-- `ipcio_tell`: it fails once the end of the data has been read, and returns 0. -/
def ipcioTell (p : Input) : ℕ := if p.source.eod then 0 else p.past.length

/-- `ipcio_read`. -/
def ipcioRead (p : Input) (bytes : ℕ) : List UInt8 × Input :=
  let read := p.source.ipcioRead bytes
  (read.1, ⟨read.2, p.past ++ read.1⟩)

/-- `ipcio_seek` with `SEEK_SET`: the input, none where the call fails.  Seeking back is possible within
the block that is open. -/
def ipcioSeek (p : Input) (offset : ℕ) : Option Input :=
  let current := p.ipcioTell
  if current < offset then some (p.ipcioRead (offset - current)).2
  else if offset < current then
    let back := current - offset
    if back > p.source.bytes then none
    else
      some ⟨{ p.source with
          bytes := p.source.bytes - back
          bytes_le := Nat.le_trans (Nat.sub_le _ _) p.source.bytes_le },
        p.past.take (p.past.length - back)⟩
  else some p

end Input

/-- An event in the output ring. -/
structure Replay where
  /-- `OBS_OFFSET`. -/
  obsOffset : ℕ
  /-- `FILE_SIZE`, the number of bytes that are written. -/
  fileSize : ℕ
  /-- `N_EVENTS`. -/
  nEvents : ℕ
  /-- The data that has been read for it.  Where that is less than `fileSize`, what the work buffer has
  left from before is written after it. -/
  data : List UInt8

/-- The interval of bytes that are written. -/
def Replay.span (r : Replay) : Span ℕ := ⟨r.obsOffset, r.obsOffset + r.fileSize⟩

/-- The loop of `receive_events` over the merged events, with `skipped` of them ignored since the last one
that was replayed. -/
def replayEvents : List (Span ℕ) → (skipped : ℕ) → Input → List Replay
  | [], _, _ => []
  | e :: events, skipped, p =>
    if e.start = 0 ∧ e.stop = 0 then replayEvents events (skipped + 1) p
    else if e.start < p.ipcioTell then replayEvents events skipped p
    else
      match p.ipcioSeek e.start with
      | none => replayEvents events skipped p
      | some p =>
        let toRead := e.stop - e.start
        let read := p.ipcioRead toRead
        ⟨e.start, toRead, skipped + 1, read.1⟩ :: replayEvents events 0 read.2

/-- `receive_events`, for a sender that declares `n` events: `garbage` is what the entries of the array
hold that no event has been written to. -/
def receiveEvents (powf : Powf) (qsort : Qsort) (n : ℕ) (lines : List Line) (garbage : List (Span ℕ))
    (p : Input) : List Replay :=
  match qsort.run (receiveLines d powf n lines ++ garbage) with
  | [] => []
  | e :: events => replayEvents (amalgamate e events) 0 p

end Psrdada
