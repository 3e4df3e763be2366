import Psrdada.Pwc.Control
import Psrdada.Ring.Ipcbuf

/-! # `dada_pwc_main.c` and `dada_pwc_main_multi.c`: the clocking and recording states

The main loop of a primary write client takes a buffer from the data source, writes it to the data
block, and changes state at the byte that a command asks for.  One iteration of the loop is a function
of the loop's variables and of a `Round`, which says what happens meanwhile: which command is in the
slot, what the callbacks return and how the calls to the data block and the header block end.

`dadaPwcMainRound` is the loop for one data block, `dadaPwcMainBlockRound` the one that has the blocks
of the data block filled in place, and `dadaPwcMainMultiRound` the one for several data blocks.  They are
the same up to the pieces that are written out more than once; these differ in the source.  The loop
keeps a log of its calls, which no routine reads.  Messages to the log of the client are left out. -/

namespace Psrdada

/-- `DADA_ERROR_SOFT` -/
def dadaErrorSoft : ℤ := -1

/-- `DADA_ERROR_HARD` -/
def dadaErrorHard : ℤ := -2

/-- `DADA_ERROR_FATAL` -/
def dadaErrorFatal : ℤ := -3

/-- What the loop does, in order. -/
inductive PwcEvent
  /-- It takes a command. -/
  | took (command : PwcCommand)
  /-- It gets a buffer of this size. -/
  | fetched (size : ℕ)
  /-- `ipcio_write` to a data block: so many bytes of a buffer, from an offset on.  Buffers are numbered
  in the order in which they are got. -/
  | write (hdu buf off len : ℕ)
  /-- `ipcio_start` on a data block: the byte at which clocking began, the earliest byte at which data
  may start, and the byte asked for. -/
  | start (hdu soclock minimum byte : ℕ)
  /-- `ipcio_stop` on a data block. -/
  | stop (hdu : ℕ)
  /-- `dada_pwc_main_process_xfer` -/
  | processXfer
  /-- The loop is left because a command that ends the transfer is due. -/
  | left
  deriving DecidableEq, Repr

/-- Which callbacks a client sets. -/
structure PwcMain where
  /-- `error_function` -/
  errorFunction : Bool
  /-- `header_valid_function` -/
  headerValidFunction : Bool
  /-- `xfer_pending_function` -/
  xferPendingFunction : Bool

/-- The variables of the loop, and what it has of the client. -/
structure Transfer where
  /-- The state of the primary write client. -/
  state : PwcState
  /-- The current command. -/
  command : PwcCommand
  /-- Flag to determine if we have a valid header. -/
  headerValid : Bool
  /-- Total number of bytes written to the data block. -/
  totalBytesWritten : ℕ
  /-- The byte at which the state will change. -/
  transitByte : ℕ
  /-- The number of bytes to write to the data block. -/
  bytesToWrite : ℕ
  /-- The number of bytes to be copied from the buffer. -/
  bufBytes : ℕ
  /-- Pointer to the data buffer: the number of the buffer and an offset; `none` for `NULL`. -/
  buffer : Option (ℕ × ℕ)
  /-- Size of the data buffer. -/
  bufferSize : ℤ
  /-- Error state due to a 0 byte buffer function return. -/
  dataTransferErrorState : ℕ
  /-- Flag for setting of `UTC_START`. -/
  utcStartSet : Bool
  /-- How many buffers have been got. -/
  fetched : ℕ
  /-- What has been done. -/
  log : List PwcEvent

/-- What happens during one iteration.  What concerns a data block is given for each of them. -/
structure Round where
  /-- `dada_pwc_quit` -/
  quit : Bool
  /-- The command in the slot. -/
  command : Option PwcCommand
  /-- The size that the buffer function returns. -/
  size : ℤ
  /-- Whether the buffer function returns `NULL`. -/
  null : Bool
  /-- What the error function returns. -/
  errorFunction : ℕ
  /-- What `dada_pwc_main_process_xfer` returns. -/
  processXfer : ℤ
  /-- What the header valid function returns. -/
  headerValid : Bool
  /-- Whether `ascii_header_set` succeeds. -/
  headerSet : Bool
  /-- Whether `ipcbuf_mark_filled` on the header blocks succeeds. -/
  markFilled : Bool
  /-- `ipcio_space_left` before a buffer is written. -/
  spaceLeft : ℕ → ℕ
  /-- Whether the buffer is written. -/
  writes : ℕ → Bool
  /-- `ipcio_space_left` before what remains of a buffer is written. -/
  spaceRest : ℕ → ℕ
  /-- Whether what remains of the buffer is written. -/
  writesRest : ℕ → Bool
  /-- Whether `ipcio_open_block_write` succeeds. -/
  opens : Bool
  /-- Whether `ipcio_close_block_write` succeeds. -/
  closes : Bool
  /-- Whether `ipcio_stop` succeeds. -/
  stops : ℕ → Bool
  /-- Whether `ipcio_start` succeeds. -/
  starts : ℕ → Bool
  /-- `ipcio_get_start_minimum` -/
  startMinimum : ℕ → ℕ
  /-- `ipcio_get_soclock_byte` -/
  soclockByte : ℕ → ℕ

/-- How a piece of an iteration ends. -/
inductive Outcome
  /-- The iteration goes on. -/
  | next (t : Transfer)
  /-- The function returns. -/
  | ret (rval : ℤ) (t : Transfer)
  /-- An assertion fails. -/
  | abort (t : Transfer)

/-- Go on with another piece. -/
def Outcome.andThen : Outcome → (Transfer → Outcome) → Outcome
  | .next t, f => f t
  | .ret rval t, _ => .ret rval t
  | .abort t, _ => .abort t

/-- The variables at the end. -/
def Outcome.transfer : Outcome → Transfer
  | .next t => t
  | .ret _ t => t
  | .abort t => t

namespace Transfer

variable (t : Transfer)

/-- Note what is done. -/
def note (e : PwcEvent) : Transfer := { t with log := t.log ++ [e] }

/-- `dada_pwc_set_state` of the loop, which does not look at its result. -/
def setState (new : PwcState) : Transfer :=
  { t with state := if t.state.mayBecome new then new else t.state }

/-- The variables of the loop when it is entered: the first byte is what the new-transfer function
returns, `0` without one. -/
def enter (state : PwcState) (command : PwcCommand) (headerValid utcStartSet : Bool)
    (firstByte : ℕ) : Transfer where
  state := state
  command := command
  headerValid := headerValid
  totalBytesWritten := firstByte
  transitByte := command.byteCount
  bytesToWrite := command.byteCount
  bufBytes := 0
  buffer := none
  bufferSize := 0
  dataTransferErrorState := 0
  utcStartSet := utcStartSet
  fetched := 0
  log := [.took command]

end Transfer

variable (pwcm : PwcMain) (r : Round)

/-! ## Pieces that both loops have -/

/-- Do something for one data block after the other. -/
def forHdus (body : ℕ → Transfer → Outcome) : ℕ → Transfer → Outcome
  | 0, t => .next t
  | n + 1, t => (forHdus body n t).andThen (body n)

/-- What is found of the header: the header valid function is asked when there is one. -/
def checkHeader : Bool := if pwcm.headerValidFunction then r.headerValid else true

/-- The special case for `set_utc_start`. -/
def takeUtcStart (t : Transfer) (command : PwcCommand) : Outcome :=
  if ¬ 0 < command.utc then .abort t
  else if t.utcStartSet then .next t
  else if !r.headerSet then .ret dadaErrorHard t
  else if t.state = .recording then
    let t := { t with headerValid := checkHeader pwcm r }
    if t.headerValid ∧ !r.markFilled then .ret dadaErrorHard t
    else .next { t with utcStartSet := true }
  else .next { t with utcStartSet := true }

/-- Check to see if a new command has been registered.  `immediate` is the total from which an immediate
command counts. -/
def takeCommand (immediate : ℕ → ℕ) (t : Transfer) : Outcome :=
  match r.command with
  | none => .next t
  | some command =>
    let t := { t.note (.took command) with command := command }
    if command.code = .setUtcStart then takeUtcStart pwcm r t command
    else if command.code ≠ .recordStop ∧ command.code ≠ .recordStart ∧ command.code ≠ .stop then
      .ret dadaErrorHard t
    else if command.byteCount > t.totalBytesWritten then
      -- command is dated, happens in the future
      .next { t with
        transitByte := command.byteCount
        bytesToWrite := command.byteCount - t.totalBytesWritten }
    else
      -- command is immediate
      .next { t with
        totalBytesWritten := immediate t.totalBytesWritten
        transitByte := immediate t.totalBytesWritten
        bytesToWrite := 0 }

/-- Get the next data buffer. -/
def getBuffer (t : Transfer) : Transfer :=
  { t.note (.fetched r.size.toNat) with
    buffer := if r.null then none else some (t.fetched, 0)
    bufferSize := r.size
    fetched := t.fetched + 1
    dataTransferErrorState :=
      if t.dataTransferErrorState ≠ 0 ∧ r.size ≠ 0 then 0 else t.dataTransferErrorState }

/-- Write to each data block so many bytes of its buffer, from the start of the buffer on. -/
def writeBuffer (hdus : ℕ) (t : Transfer) : Outcome :=
  forHdus (fun i t =>
    if !t.utcStartSet ∧ r.spaceLeft i < t.bufBytes then .ret dadaErrorFatal t
    else
      let t := t.note (.write i (t.fetched - 1) 0 t.bufBytes)
      if r.writes i then .next t else .ret dadaErrorFatal t) hdus t

/-- The rest of an iteration that has got a buffer: the header may have become valid; then the bytes up
to the transit byte are written. -/
def useBuffer (hdus : ℕ) (t : Transfer) : Outcome :=
  if t.buffer = none then .ret dadaErrorHard t
  else
    let asks := !t.headerValid ∧ t.state = .recording
    let t := { t with headerValid := if asks then r.headerValid else t.headerValid }
    if asks ∧ r.headerValid ∧ !r.markFilled then .ret dadaErrorHard t
    else
      let bufBytes := t.bufferSize.toNat
      let t := { t with
        bufBytes := if t.transitByte ≠ 0 ∧ bufBytes > t.bytesToWrite then t.bytesToWrite
          else bufBytes }
      (writeBuffer r hdus t).andThen fun t => .next { t with
        totalBytesWritten := t.totalBytesWritten + t.bufBytes
        bytesToWrite :=
          if t.bytesToWrite ≠ 0 then usub t.bytesToWrite t.bufBytes else t.bytesToWrite }

/-- `dada_pwc_main_record_start` and `dada_pwc_main_multi_record_start`: switch from clocking to
recording states.  The bytes are those of the last data block. -/
def recordStart (hdus : ℕ) (t : Transfer) : Outcome :=
  let minimumRecordStart := r.startMinimum (hdus - 1)
  let utcStartByte := r.soclockByte (hdus - 1)
  let commandStartByte := utcStartByte + t.command.byteCount
  let t :=
    if commandStartByte < minimumRecordStart then
      { t with command :=
        { t.command with byteCount := usub minimumRecordStart utcStartByte } }
    else t
  let commandStartByte := max commandStartByte minimumRecordStart
  if !r.headerSet then .ret dadaErrorHard t
  else
    (forHdus (fun i t =>
      let t := t.note (.start i utcStartByte minimumRecordStart commandStartByte)
      if r.starts i then .next t else .ret dadaErrorHard t) hdus t).andThen fun t =>
    if t.headerValid then .next t
    else
      let t := { t with headerValid := checkHeader pwcm r }
      if t.headerValid ∧ r.markFilled then .next t else .ret dadaErrorHard t

/-- The transit byte has been reached, it is now time to change state. -/
def changeState (hdus : ℕ) (t : Transfer) : Outcome :=
  match t.command.code with
  | .recordStop =>
    (forHdus (fun i t =>
      let t := t.note (.stop i)
      if r.stops i then .next t else .ret dadaErrorFatal t) hdus t).andThen fun t =>
    .next (t.setState .clocking)
  | .recordStart => (recordStart pwcm r hdus t).andThen fun t => .next (t.setState .recording)
  | .setUtcStart | .clock | .start =>
    if t.totalBytesWritten ≠ 0 then .ret dadaErrorHard (t.note .left) else .next t
  | _ => .ret dadaErrorHard t

/-! ## One data block -/

/-- In `dada_pwc_main_transfer_data`: the total from which an immediate command counts. -/
def immediateTotal (total : ℕ) : ℕ := if total = 0 then 1 else total

/-- In `dada_pwc_main_transfer_data`: a buffer of 0 bytes. -/
def emptyBuffer (t : Transfer) : Outcome :=
  if pwcm.xferPendingFunction then
    let t := t.note .processXfer
    if r.processXfer = -2 then .ret dadaErrorHard t
    else if r.processXfer = -1 then .ret 0 t
    else if r.processXfer = 0 then .next t
    else .next { t with totalBytesWritten := toUInt64 r.processXfer }
  else
    let t := { t with
      dataTransferErrorState := if pwcm.errorFunction then r.errorFunction else 2 }
    if t.dataTransferErrorState = 2 then
      -- at least one byte, so that a reader may acknowledge the start and the end of data
      .ret dadaErrorHard (t.note (.write 0 (t.fetched - 1) 0 1))
    else .next t

/-- In `dada_pwc_main_transfer_data`: get the next data buffer and write it to the data block, unless
the state changes at once. -/
def transferBuffer (t : Transfer) : Outcome :=
  if t.transitByte = 0 ∨ t.bytesToWrite ≠ 0 then
    let t := getBuffer r t
    if t.bufferSize < 0 then .ret t.bufferSize t
    else
      (if t.bufferSize = 0 then emptyBuffer pwcm r t else .next t).andThen (useBuffer r 1)
  else .next t

/-- In `dada_pwc_main_transfer_data`: write what remains of the buffer.  The result of `ipcio_write` is
compared as an unsigned number, so that a failure goes unnoticed. -/
def writeRemainder (t : Transfer) : Outcome :=
  let t := { t with
    buffer := t.buffer.map fun b => (b.1, b.2 + t.bufBytes)
    bufBytes := usub t.bufferSize.toNat t.bufBytes }
  if t.bufBytes ≠ 0 then
    if r.spaceRest 0 < t.bufBytes ∧ !t.utcStartSet then .ret dadaErrorFatal t
    else
      let b := t.buffer.getD (0, 0)
      .next { t.note (.write 0 b.1 b.2 t.bufBytes) with
        totalBytesWritten := t.totalBytesWritten + t.bufBytes }
  else .next t

/-- In `dada_pwc_main_transfer_data`: change state when the transit byte has been reached. -/
def transit (t : Transfer) : Outcome :=
  if t.transitByte ≠ 0 ∧ t.transitByte ≤ t.totalBytesWritten then
    let t := { t with transitByte := 0 }
    if t.command.code = .stop then
      .ret 0 (if pwcm.xferPendingFunction then (t.note .processXfer).note .left else t.note .left)
    else (changeState pwcm r 1 t).andThen (writeRemainder r)
  else .next t

/-- One iteration of `dada_pwc_main_transfer_data`. -/
def dadaPwcMainRound (t : Transfer) : Outcome :=
  if r.quit ∨ t.dataTransferErrorState > 1 then .ret 0 t
  else
    ((takeCommand pwcm r immediateTotal t).andThen (transferBuffer pwcm r)).andThen
      (transit pwcm r)

/-- `dada_pwc_main_transfer_data` over a number of iterations. -/
def dadaPwcMainTransferData : List Round → Transfer → Outcome
  | [], t => .next t
  | r :: rounds, t => (dadaPwcMainRound pwcm r t).andThen (dadaPwcMainTransferData rounds)

/-! ## One data block, in blocks -/

/-- In `dada_pwc_main_transfer_data_block`: close the block with the bytes up to the transit byte. -/
def closeBlock (t : Transfer) : Outcome :=
  if !pwcm.xferPendingFunction then
    let t := t.note (.write 0 (t.fetched - 1) 0 t.bufBytes)
    if r.closes then .next t else .ret dadaErrorFatal t
  else
    let t := t.note .processXfer
    if r.processXfer = 0 then .next t
    else if r.processXfer < 0 then .ret dadaErrorHard t
    else .next { t with totalBytesWritten := toUInt64 r.processXfer }

/-- In `dada_pwc_main_transfer_data_block`: open the next block, have it filled and close it, unless the
state changes at once. -/
def transferBlock (blockSize : ℕ) (t : Transfer) : Outcome :=
  let t : Transfer := { t with bufBytes := 0 }
  if t.transitByte = 0 ∨ t.bytesToWrite ≠ 0 then
    if !r.opens then .ret dadaErrorFatal t
    else
      let t : Transfer := { t.note (.fetched r.size.toNat) with
        buffer := some (t.fetched, 0)
        bufferSize := r.size
        fetched := t.fetched + 1 }
      if r.size < 0 then .ret dadaErrorFatal (t.note (.write 0 (t.fetched - 1) 0 0))
      else if r.size > blockSize then
        .ret dadaErrorFatal (t.note (.write 0 (t.fetched - 1) 0 blockSize))
      else
        let bytesWritten := r.size.toNat
        let bufBytes := if t.transitByte ≠ 0 ∧ bytesWritten > t.bytesToWrite then t.bytesToWrite
          else bytesWritten
        let t : Transfer := { t with
          bufBytes := bufBytes
          totalBytesWritten := t.totalBytesWritten + bufBytes
          bytesToWrite :=
            if t.bytesToWrite ≠ 0 then usub t.bytesToWrite bufBytes else t.bytesToWrite }
        (closeBlock pwcm r t).andThen fun t =>
          let asks := !t.headerValid ∧ t.state = .recording
          let t : Transfer := { t with headerValid := if asks then r.headerValid else t.headerValid }
          if asks ∧ r.headerValid ∧ !r.markFilled then .ret dadaErrorHard t else .next t
  else .next t

/-- In `dada_pwc_main_transfer_data_block`: change state when the transit byte has been reached.  What
remains of the block is not written. -/
def transitBlock (t : Transfer) : Outcome :=
  if t.transitByte ≠ 0 ∧ t.transitByte ≤ t.totalBytesWritten then
    let t := { t with transitByte := 0 }
    if t.command.code = .stop then
      .ret 0 (if pwcm.xferPendingFunction then (t.note .processXfer).note .left else t.note .left)
    else changeState pwcm r 1 t
  else .next t

/-- One iteration of `dada_pwc_main_transfer_data_block`. -/
def dadaPwcMainBlockRound (blockSize : ℕ) (t : Transfer) : Outcome :=
  if r.quit ∨ t.dataTransferErrorState > 1 then .ret 0 t
  else
    ((takeCommand pwcm r id t).andThen (transferBlock pwcm r blockSize)).andThen
      (transitBlock pwcm r)

/-- `dada_pwc_main_transfer_data_block` over a number of iterations. -/
def dadaPwcMainTransferDataBlock (blockSize : ℕ) : List Round → Transfer → Outcome
  | [], t => .next t
  | r :: rounds, t =>
    (dadaPwcMainBlockRound pwcm r blockSize t).andThen (dadaPwcMainTransferDataBlock blockSize rounds)

/-! ## Several data blocks -/

/-- In `dada_pwc_main_multi_transfer_data`: a buffer of 0 bytes. -/
def emptyBufferMulti (hdus : ℕ) (t : Transfer) : Outcome :=
  let t := { t with
    dataTransferErrorState := if pwcm.errorFunction then r.errorFunction else 2 }
  if t.dataTransferErrorState = 2 then
    (forHdus (fun i t => .next (t.note (.write i (t.fetched - 1) 0 1))) hdus t).andThen
      fun t => .ret dadaErrorSoft t
  else .next t

/-- In `dada_pwc_main_multi_transfer_data`: get the next data buffers and write them to the data blocks,
unless the state changes at once.  The size is unsigned. -/
def transferBufferMulti (hdus : ℕ) (t : Transfer) : Outcome :=
  if t.transitByte = 0 ∨ t.bytesToWrite ≠ 0 then
    let t := getBuffer { r with size := toUInt64 r.size } t
    (if t.bufferSize = 0 then emptyBufferMulti pwcm r hdus t else .next t).andThen
      (useBuffer r hdus)
  else .next t

/-- In `dada_pwc_main_multi_transfer_data`: write what remains of the buffers.  The number of bytes that
have been written before is not replaced by the number of those that remain. -/
def writeRemainderMulti (hdus : ℕ) (t : Transfer) : Outcome :=
  if t.bufBytes ≠ 0 then
    (forHdus (fun i t =>
      if !t.utcStartSet ∧ r.spaceRest i < t.bufBytes then .ret dadaErrorFatal t
      else
        let rest := usub t.bufferSize.toNat t.bufBytes
        let t := t.note (.write i (t.fetched - 1) t.bufBytes rest)
        if r.writesRest i ∧ rest < t.bufBytes then .ret dadaErrorFatal t else .next t) hdus
      t).andThen fun t => .next { t with totalBytesWritten := t.totalBytesWritten + t.bufBytes }
  else .next t

/-- In `dada_pwc_main_multi_transfer_data`: change state when the total is the transit byte. -/
def transitMulti (hdus : ℕ) (t : Transfer) : Outcome :=
  if t.transitByte = t.totalBytesWritten then
    let t := { t with transitByte := 0 }
    if t.command.code = .stop then .ret 0 (t.note .left)
    else (changeState pwcm r hdus t).andThen (writeRemainderMulti r hdus)
  else .next t

/-- One iteration of `dada_pwc_main_multi_transfer_data`. -/
def dadaPwcMainMultiRound (hdus : ℕ) (t : Transfer) : Outcome :=
  if r.quit ∨ t.dataTransferErrorState > 1 then .ret 0 t
  else
    ((takeCommand pwcm r id t).andThen (transferBufferMulti pwcm r hdus)).andThen
      (transitMulti pwcm r hdus)

/-- `dada_pwc_main_multi_transfer_data` over a number of iterations. -/
def dadaPwcMainMultiTransferData (hdus : ℕ) : List Round → Transfer → Outcome
  | [], t => .next t
  | r :: rounds, t =>
    (dadaPwcMainMultiRound pwcm r hdus t).andThen (dadaPwcMainMultiTransferData hdus rounds)

end Psrdada
