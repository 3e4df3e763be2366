import Psrdada.Client.Writing
import Psrdada.Client.Source

/-! # dada_dbmergedb

`dada_dbmergedb` merges two rings into one.  A thread for each input (`input_thread`) discards data until
both inputs start at the same sample; then `dbmergedb_write_block` fills the blocks of the output with
chunks from the inputs in turn.

The headers of both inputs declare the same sampling.  The program is run with the option `-w`, so that a
thread only waits as long as the other one has not started.  Times are in picoseconds. -/

namespace Psrdada

/-- What the headers of the inputs declare. -/
structure Sampling where
  /-- `RESOLUTION`. -/
  resolution : ℕ
  /-- The resolution is positive. -/
  resolution_pos : 0 < resolution
  /-- `NCHAN * NDIM * NBIT / 8`. -/
  bytesPerSample : ℕ
  /-- `TSAMP`. -/
  tsampPsec : ℕ
  /-- A sample takes some time. -/
  tsampPsec_pos : 0 < tsampPsec

/-- How far an `input_thread` has come. -/
inductive Thread
  /-- It is in its loop. -/
  | running
  /-- It has returned, with `both_aligned` set. -/
  | aligned
  /-- It has returned with an error, without unlocking the mutex (or has ended the program: a failed
  assertion). -/
  | failed
deriving DecidableEq

/-- `dada_block_t` of an input. -/
structure DadaBlock where
  /-- `bufsz`. -/
  bufsz : ℕ
  /-- `UTC_START` in the header, with `MICROSECONDS` and `OBS_OFFSET` added. -/
  headerStart : ℤ
  /-- `utc_start`, none before the thread has read the header. -/
  utcStart : Option ℤ
  /-- The reading end of `hdu->data_block`. -/
  source : Source
  /-- `bytes`: the place in the block that is open. -/
  bytes : ℕ
  /-- `block_open`. -/
  blockOpen : Bool
  /-- `curr_buf`. -/
  currBuf : List UInt8
  /-- The thread. -/
  thread : Thread

theorem Source.blocks_ipcioCloseBlockRead (s : Source) (n : ℕ) :
    (s.ipcioCloseBlockRead n).2.blocks = s.blocks := by
  obtain ⟨blocks, curbuf, bytes, hle⟩ := s
  unfold ipcioCloseBlockRead
  split_ifs
  · rfl
  · cases curbuf with
    | none => rfl
    | some buf =>
      simp only
      split_ifs
      all_goals rfl

theorem Source.blocks_ipcioOpenBlockRead {s s' : Source} {buf : List UInt8}
    (h : s.ipcioOpenBlockRead = some (buf, s')) : s.blocks = buf :: s'.blocks := by
  obtain ⟨blocks, curbuf, bytes, hle⟩ := s
  unfold ipcioOpenBlockRead at h
  split_ifs at h
  cases curbuf with
  | some _ => simp at h
  | none =>
    cases blocks with
    | nil => simp at h
    | cons next blocks =>
      obtain ⟨rfl, rfl⟩ := Prod.mk.inj (Option.some.inj h)
      rfl

namespace DadaBlock

/-- Open the next block, where none is open, and set `bytes`: none at the end of the data and where the
block is not full. -/
def openBlock (db : DadaBlock) (bytes : ℕ) : Option DadaBlock :=
  if db.blockOpen then some db
  else if db.source.eod then none
  else
    match db.source.ipcioOpenBlockRead with
    | none => none
    | some (buf, source) =>
      if buf.length = db.bufsz then
        some { db with currBuf := buf, source := source, bytes := bytes, blockOpen := true }
      else none

/-- `ipcio_close_block_read (db->hdu->data_block, db->bufsz)`. -/
def closeBlock (db : DadaBlock) : DadaBlock :=
  { db with source := (db.source.ipcioCloseBlockRead db.bufsz).2, blockOpen := false }

/-- The blocks that have not been closed, those that have not been opened twice. -/
def remaining (db : DadaBlock) : ℕ := 2 * db.source.blocks.length + if db.blockOpen then 1 else 0

theorem remaining_closeBlock {db db' : DadaBlock} {bytes : ℕ} (h : db.openBlock bytes = some db') :
    db'.closeBlock.remaining < db.remaining := by
  have hclosed : db'.closeBlock.remaining = 2 * db'.source.blocks.length := by
    simp [remaining, closeBlock, Source.blocks_ipcioCloseBlockRead]
  rw [hclosed]
  unfold openBlock at h
  split_ifs at h with hopen heod
  · obtain rfl := Option.some.inj h
    simp [remaining, hopen]
  · cases hnext : db.source.ipcioOpenBlockRead with
    | none => simp [hnext] at h
    | some next =>
      obtain ⟨buf, source⟩ := next
      have hblocks := Source.blocks_ipcioOpenBlockRead hnext
      simp only [hnext, Option.ite_none_right_eq_some, Option.some.injEq] at h
      obtain ⟨-, rfl⟩ := h
      simp [remaining, hblocks]
      omega

/-- The loop of `input_thread` that discards the first `bytesToRead` bytes. -/
def discard (db : DadaBlock) (bytesToRead : ℕ) : Option DadaBlock :=
  if bytesToRead = 0 then some db
  else
    match _h : db.openBlock db.bufsz with
    | none => none
    | some db =>
      -- all the bytes in this buffer will be discarded
      if db.bytes < bytesToRead then
        discard { db.closeBlock with bytes := 0 } (bytesToRead - db.bytes)
      -- discard only part of this buffer
      else some { db with bytes := db.bufsz - bytesToRead }
termination_by db.remaining
decreasing_by exact remaining_closeBlock _h

end DadaBlock

/-! ## The threads -/

/-- `sample_difference`. -/
def sampleDifference (time1 time2 : ℤ) (tsampPsec : ℕ) : ℤ := (time2 - time1).tdiv tsampPsec

variable (sampling : Sampling)

/-- One round of `input_thread`: it reads the header, and then compares the times with the mutex locked. -/
def inputThread (db other : DadaBlock) : DadaBlock :=
  match db.thread with
  | .running =>
    match db.utcStart with
    | none => { db with utcStart := some db.headerStart }
    | some utcStart =>
      -- the mutex is locked for ever
      if other.thread = .failed then db
      else
        match other.utcStart with
        -- other pol not yet started
        | none => db
        | some otherStart =>
          let nsampDiff := sampleDifference utcStart otherStart sampling.tsampPsec
          if nsampDiff = 0 then { db with thread := .aligned }
          else if nsampDiff > 0 then
            let bytesToRead := nsampDiff.toNat * sampling.bytesPerSample
            if bytesToRead % sampling.resolution ≠ 0 then { db with thread := .failed }
            else
              match db.discard bytesToRead with
              | none => { db with thread := .failed }
              | some db => { db with utcStart := some (utcStart + nsampDiff * sampling.tsampPsec) }
          -- this pol behind, sleeping
          else db
  | _ => db

/-- `dada_dbmergedb_t`: the two inputs. -/
structure Merger where
  /-- `pola`. -/
  pola : DadaBlock
  /-- `polb`. -/
  polb : DadaBlock

/-- A round of one of the threads: that of `polb` for `true`. -/
def Merger.round (m : Merger) (polb : Bool) : Merger :=
  if polb then { m with polb := inputThread sampling m.polb m.pola }
  else { m with pola := inputThread sampling m.pola m.polb }

/-- Rounds of the threads in any order. -/
def Merger.rounds (m : Merger) (order : List Bool) : Merger := order.foldl (Merger.round sampling) m

/-! ## Merging -/

/-- A chunk of `size` bytes from the place in the open block, which is closed when the place is at its end
or beyond it.  `beyond` is what lies in memory behind the block. -/
def DadaBlock.copyChunk (db : DadaBlock) (beyond : ℕ → UInt8) (size : ℕ) : List UInt8 × DadaBlock :=
  let chunk := (db.currBuf.drop db.bytes ++ (List.range size).map beyond).take size
  let db := { db with bytes := db.bytes + size }
  (chunk, if db.bytes ≥ db.bufsz then db.closeBlock else db)

/-- The loop of `dbmergedb_write_block` over the chunks of an output block: none when one of the inputs
ends.  (The inputs are then drained.) -/
def mergeChunks (beyond : ℕ → UInt8) (polChunkSize : ℕ) : ℕ → Merger → Option (List UInt8 × Merger)
  | 0, m => some ([], m)
  | nchunk + 1, m =>
    match m.pola.openBlock 0, m.polb.openBlock 0 with
    | some pola, some polb =>
      let a := pola.copyChunk beyond polChunkSize
      let b := polb.copyChunk beyond polChunkSize
      (mergeChunks beyond polChunkSize nchunk ⟨a.2, b.2⟩).map fun rest => (a.1 ++ (b.1 ++ rest.1), rest.2)
    | _, _ => none

/-- `dbmergedb_write_block`. -/
def dbmergedbWriteBlock (beyond : ℕ → UInt8) (c : Client Merger) (dataSize : ℕ) : Fill Merger :=
  let resolution := sampling.resolution * 2
  if dataSize % resolution ≠ 0 then ⟨-1, [], c⟩
  else
    match mergeChunks beyond (resolution / 2) (dataSize / resolution) c.context with
    | none => ⟨0, [], c⟩
    | some (bytes, m) => ⟨dataSize, bytes, { c with context := m }⟩

/-- The client, once `dbmergedb_open` has joined the threads. -/
def mergerClient (m : Merger) : Client Merger := ⟨m, [], 0, false, 0, 64 * 1024 * 1024, false⟩

/-- The data that is written to the output, whose blocks are as long as those of both inputs together:
none as long as the threads have not returned, or where they have not aligned the inputs. -/
def dbmergedb (beyond : ℕ → UInt8) (fuel : ℕ) (m : Merger) : Option (List UInt8) :=
  if m.pola.thread = .aligned ∧ m.polb.thread = .aligned then
    (writeLoopBlock (dbmergedbWriteBlock sampling beyond) (m.pola.bufsz + m.polb.bufsz) fuel
      (mergerClient m) 0).map WriteResult.data
  else none

end Psrdada
