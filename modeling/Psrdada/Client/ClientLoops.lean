import Psrdada.Client.Source
import Psrdada.Header.AsciiHeader
import Psrdada.Pwc.Control

/-! # The main loop of a reading client

`dada_client.c` moves the data of a ring to a target through four functions that the program supplies.
The three loops are translated here: the I/O loop (`ioLoop` byte by byte, `ioLoopBlock` sub-block by
sub-block), one transfer (`dadaClientTransfer`) and the sequence of transfers up to end-of-data
(`dadaClientRead`).

The functions of the program may change the client as they like, but not the data block.  Every loop also
returns what passed through the functions: that is what the statements about the client are about, and no
step of the code depends on it.  The counters of bytes are natural numbers: an observation is shorter
than 2^64 bytes. -/

namespace Psrdada

open CString

/-- The attributes of a `dada_client_t` that the functions of the program see. -/
structure Client (κ : Type) where
  /-- `context`: what the program keeps for itself. -/
  context : κ
  /-- `header`. -/
  header : Text
  /-- `header_size`. -/
  headerSize : ℕ
  /-- `header_transfer`: whether the header is given to the target. -/
  headerTransfer : Bool
  /-- `transfer_bytes`: the size of a transfer, 0 when it ends with the data. -/
  transferBytes : ℕ
  /-- `optimal_bytes`: the size of a chunk. -/
  optimalBytes : ℕ
  /-- `quit`. -/
  quit : Bool

/-- What `io_function` is given. -/
inductive Payload
  /-- The header of a transfer. -/
  | header (text : Text)
  /-- Data from the ring. -/
  | data (bytes : List UInt8)

/-- The functions that the program supplies: each returns an integer and the client as it leaves it. -/
structure Functions (κ : Type) where
  /-- `open_function`. -/
  openFunction : Client κ → ℤ × Client κ
  /-- `io_function`, with the number of bytes in the buffer. -/
  ioFunction : Client κ → Payload → ℕ → ℤ × Client κ
  /-- `io_block_function`, where the program has one. -/
  ioBlockFunction : Option (Client κ → List UInt8 → ℤ × Client κ)
  /-- `close_function`. -/
  closeFunction : Client κ → ℕ → ℤ × Client κ

/-- A call of an I/O function: the data that it was given and what it returned. -/
abbrev IoCall := List UInt8 × ℤ

/-- The data that a call was given. -/
def IoCall.given (call : IoCall) : List UInt8 := call.1

/-- The data that a call consumed. -/
def IoCall.taken (call : IoCall) : List UInt8 := call.1.take call.2.toNat

/-- An output: what a transfer gave to its target. -/
structure Output where
  /-- The header with which the target is opened. -/
  header : Text
  /-- The size that `open_function` asked for. -/
  transferBytes : ℕ
  /-- The calls of the I/O function. -/
  calls : List IoCall
  /-- The result of `close_function`, once it has been called. -/
  closed : Option ℤ

/-- The data that was given to an output. -/
def Output.given (o : Output) : List UInt8 := o.calls.flatMap IoCall.given

/-- The data that an output consumed. -/
def Output.taken (o : Output) : List UInt8 := o.calls.flatMap IoCall.taken

/-- An `int64_t` where the code expects a `uint64_t`: a negative number becomes a large one. -/
def asUnsigned (n : ℤ) : ℕ := if n < 0 then (n + 2 ^ 64).toNat else n.toNat

variable {κ : Type}

/-! ## The I/O loops -/

/-- What an I/O loop leaves behind. -/
structure IoResult (κ : Type) where
  /-- `bytes_transfered`, or `-1`. -/
  count : ℤ
  /-- The calls that were made. -/
  calls : List IoCall
  /-- The client. -/
  client : Client κ
  /-- The data block. -/
  source : Source

/-- Whether an I/O loop goes on: `!transfer_bytes || bytes_transfered < transfer_bytes`. -/
def Client.wants (c : Client κ) (done : ℕ) : Prop := c.transferBytes = 0 ∨ done < c.transferBytes

instance (c : Client κ) (done : ℕ) : Decidable (c.wants done) := inferInstanceAs (Decidable (_ ∨ _))

/-- How many bytes the next chunk shall have. -/
def Client.chunk (c : Client κ) (bufferSize done : ℕ) : ℕ :=
  if c.transferBytes = 0 then bufferSize
  else if bufferSize > c.transferBytes - done then c.transferBytes - done
  else bufferSize

theorem Client.chunk_pos {c : Client κ} {bufferSize done : ℕ} (hb : 0 < bufferSize)
    (h : c.wants done) : 0 < c.chunk bufferSize done := by
  unfold chunk
  rcases h with h | h
  · simpa [h] using hb
  · split_ifs
    all_goals omega

/-- One round of `dada_client_io_loop` for a reader: a chunk is read and given to `io_function`. -/
structure IoRound (κ : Type) where
  /-- The call of the function. -/
  call : IoCall
  /-- The client. -/
  client : Client κ
  /-- The data block. -/
  source : Source

/-- Read a chunk and give it to `io_function`. -/
def ioRound (F : Functions κ) (bufferSize : ℕ) (c : Client κ) (s : Source) (done : ℕ) : IoRound κ :=
  let read := s.ipcioRead (c.chunk bufferSize done)
  let result := F.ioFunction c (.data read.1) read.1.length
  ⟨(read.1, result.1), result.2, read.2⟩

/-- `dada_client_io_loop` for a reader, with `done` bytes transferred. -/
def ioLoop (F : Functions κ) (bufferSize : ℕ) (hb : 0 < bufferSize) (c : Client κ) (s : Source)
    (done : ℕ) : IoResult κ :=
  if _hw : c.wants done then
    if _heod : s.eod = true then
      ⟨done, [], c, s⟩
    else
      let round := ioRound F bufferSize c s done
      if round.call.2 < 0 then
        ⟨done, [round.call], round.client, round.source⟩
      else
        let rest := ioLoop F bufferSize hb round.client round.source (done + round.call.2.toNat)
        { rest with calls := round.call :: rest.calls }
  else
    ⟨done, [], c, s⟩
termination_by s.size
decreasing_by exact s.size_ipcioRead (by simpa using _heod) (Client.chunk_pos hb _hw)

/-- Opening a sub-block takes it off the list. -/
theorem blocks_ipcioOpenBlockRead {s s' : Source} {data : List UInt8}
    (h : s.ipcioOpenBlockRead = some (data, s')) : s.blocks = data :: s'.blocks := by
  unfold Source.ipcioOpenBlockRead at h
  split at h
  · simp at h
  · split at h
    · simp at h
    · simp at h
    · rename_i next blocks hcur hblocks
      simp only [Option.some.injEq, Prod.mk.injEq] at h
      obtain ⟨rfl, rfl⟩ := h
      exact hblocks

/-- Closing a sub-block leaves the others. -/
theorem blocks_ipcioCloseBlockRead (s : Source) (bytes : ℕ) :
    (s.ipcioCloseBlockRead bytes).2.blocks = s.blocks := by
  unfold Source.ipcioCloseBlockRead
  split
  · rfl
  · split
    · rfl
    · split <;> rfl

/-- `dada_client_io_loop_block` for a reader, with `done` bytes transferred.  The number of bytes that is
asked for does not matter: `ipcio_open_block_read` overwrites it with the size of the sub-block. -/
def ioLoopBlock (ioBlockFunction : Client κ → List UInt8 → ℤ × Client κ) (c : Client κ) (s : Source)
    (done : ℕ) : IoResult κ :=
  if c.wants done then
    if s.eod = true then
      ⟨done, [], c, s⟩
    else
      match hopen : s.ipcioOpenBlockRead with
      | none => ⟨-1, [], c, s⟩
      | some (buffer, s') =>
        let (bytes, c') := if buffer.length ≠ 0 then ioBlockFunction c buffer else (0, c)
        if bytes < 0 then
          ⟨done, [(buffer, bytes)], c', s'⟩
        else
          let rest := ioLoopBlock ioBlockFunction c' (s'.ipcioCloseBlockRead bytes.toNat).2
            (done + bytes.toNat)
          { rest with calls := (buffer, bytes) :: rest.calls }
  else
    ⟨done, [], c, s⟩
termination_by s.blocks.length
decreasing_by
  rw [blocks_ipcioCloseBlockRead, blocks_ipcioOpenBlockRead hopen]
  exact Nat.lt_succ_self _

/-! ## Transfers -/

/-- What a transfer leaves behind. -/
structure TransferResult (κ : Type) where
  /-- The number of bytes, or `-1`. -/
  count : ℤ
  /-- The output. -/
  output : Output
  /-- The client. -/
  client : Client κ
  /-- The data block. -/
  source : Source

/-- `DADA_DEFAULT_BLOCK_SIZE`: 128 pages of 4096 bytes. -/
def defaultBlockSize : ℕ := 524288

/-- The I/O loop of a transfer: by sub-blocks where the program has a function for it. -/
def runLoop (F : Functions κ) (c : Client κ) (s : Source) : IoResult κ :=
  match F.ioBlockFunction with
  | some ioBlockFunction => ioLoopBlock ioBlockFunction c s 0
  | none =>
    if h : 0 < c.optimalBytes then ioLoop F c.optimalBytes h c s 0
    else ioLoop F defaultBlockSize (by decide) { c with optimalBytes := defaultBlockSize } s 0

/-- Give the header to the target, when it is to be transferred. -/
def sendHeader (F : Functions κ) (c : Client κ) : ℤ × Client κ :=
  if c.headerTransfer then F.ioFunction c (.header c.header) c.headerSize else (c.headerSize, c)

/-- `dada_client_transfer` for a reader. -/
def dadaClientTransfer (F : Functions κ) (c : Client κ) (s : Source) : TransferResult κ :=
  let opened := F.openFunction c
  let output : Output := ⟨c.header, opened.2.transferBytes, [], none⟩
  if opened.1 < 0 then
    ⟨-1, output, opened.2, s⟩
  else if opened.2.quit then
    ⟨0, output, opened.2, s⟩
  else
    let sent := sendHeader F opened.2
    if asUnsigned sent.1 < opened.2.headerSize then
      ⟨-1, output, sent.2, s⟩
    else
      let result := runLoop F sent.2 s
      let closed := F.closeFunction result.client (asUnsigned result.count)
      let output := { output with calls := result.calls, closed := some closed.1 }
      if closed.1 < 0 then
        ⟨-1, output, closed.2, result.source⟩
      else
        ⟨result.count, output, closed.2, result.source⟩

/-! ## The sequence of transfers -/

/-- An output of `dada_client_read`. -/
structure ReadOutput extends Output where
  /-- The `OBS_OFFSET` that is written into the header. -/
  obsOffset : ℕ

/-- What reading leaves behind. -/
structure ReadResult (κ : Type) where
  /-- The result of `dada_client_read`. -/
  status : ℤ
  /-- The outputs, in the order in which they were opened. -/
  outputs : List ReadOutput
  /-- The client. -/
  client : Client κ
  /-- The data block. -/
  source : Source

/-- `"%"PRIu64`: a number in decimal. -/
def decimal (n : ℕ) : Text := Nat.toDigits 10 n

/-- The keyword `OBS_OFFSET`. -/
def obsOffsetKey : Text := "OBS_OFFSET".toList

/-- The transfers of `dada_client_read`, at most `fuel` of them: none when there are more. -/
def readLoop (F : Functions κ) : ℕ → Client κ → Source → ℕ → Option (ReadResult κ)
  | 0, _, _, _ => none
  | fuel + 1, c, s, obsOffset =>
    if s.eod = true then
      some ⟨0, [], c, s⟩
    else
      let header := asciiHeaderSet c.header obsOffsetKey (decimal obsOffset)
      let result := dadaClientTransfer F { c with header := header } s
      let output : ReadOutput := ⟨result.output, obsOffset⟩
      if result.count < 0 then
        some ⟨-1, [output], result.client, result.source⟩
      else
        (readLoop F fuel result.client result.source (obsOffset + result.count.toNat)).map fun rest =>
          { rest with outputs := output :: rest.outputs }

/-- `ascii_header_get (header, keyword, "%"PRIu64, &n)`, where it returns 1. -/
def asciiHeaderGetUnsigned (header keyword : Text) : Option ℕ :=
  match asciiHeaderFind header keyword with
  | none => none
  | some key =>
    (scanUnsigned ((header.drop key).drop (strcspn (header.drop key) whitespace))).map Prod.fst

/-- `dada_client_read`, once it has copied the header: at most `fuel` transfers. -/
def dadaClientRead (F : Functions κ) (fuel : ℕ) (c : Client κ) (s : Source) : Option (ReadResult κ) :=
  readLoop F fuel c s ((asciiHeaderGetUnsigned c.header obsOffsetKey).getD 0)

end Psrdada
