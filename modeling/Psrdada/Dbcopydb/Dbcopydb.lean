import Psrdada.Client.SinkTransfers
import Psrdada.Client.Switching

/-! # `dada_dbcopydb.c`

A ring is copied to several others.  The functions that `dada_client_read` calls go through the outputs
one after the other and give up at the first that fails.  With the function for bytes an output is written
with `ipcio_write`; with the function for whole sub-blocks (`-z`) its sub-blocks are opened, filled and
closed directly.  The header of an output is a copy of the header of the client. -/

namespace Psrdada

open CString

/-- The conversion of an `int64_t` by `sscanf`: a number that is out of range becomes the closest that is
not. -/
def scanLong (text : Text) : Option ℤ :=
  let text := text.dropWhile Char.isWhitespace
  let (negative, text) := match text with
    | '-' :: rest => (true, rest)
    | '+' :: rest => (false, rest)
    | _ => (false, text)
  let digits := (scanDigits text).1
  if digits = [] then none
  else if negative then some (max (-digitsValue digits) (-2 ^ 63))
  else some (min (digitsValue digits) (2 ^ 63 - 1))

/-- `ascii_header_get (header, keyword, "%"PRIi64, &n)`, where it returns 1. -/
def asciiHeaderGetLong (header keyword : Text) : Option ℤ :=
  match asciiHeaderFind header keyword with
  | none => none
  | some key => scanLong ((header.drop key).drop (strcspn (header.drop key) whitespace))

namespace Dbcopydb

/-- `dada_dbcopydb_hdu_t`: an output. -/
structure OutputHdu where
  /-- The data block of `hdu`. -/
  sink : Sink
  /-- `block_size` -/
  blockSize : ℕ
  /-- `bytes_written`: how many bytes the block that is open has got. -/
  bytesWritten : ℕ
  /-- `block_open` -/
  blockOpen : Bool
  /-- Whether a call of `ipcio_close` has been made that never returns. -/
  hung : Bool

/-- `dada_dbcopydb_t`. -/
structure Ctx where
  /-- `outputs` -/
  outputs : List OutputHdu
  /-- `bytes_in` -/
  bytesIn : ℕ
  /-- `bytes_out` -/
  bytesOut : ℕ
  /-- `quit` -/
  quit : Bool

/-- The loop over the outputs that the functions have in common: it ends at the first output for which
`body` returns a negative number, and returns -1. -/
def eachOutput (body : OutputHdu → ℤ × OutputHdu) : List OutputHdu → ℤ × List OutputHdu
  | [] => (0, [])
  | o :: outputs =>
    let done := body o
    if done.1 < 0 then (-1, done.2 :: outputs)
    else ((eachOutput body outputs).1, done.2 :: (eachOutput body outputs).2)

/-! ## Opening -/

/-- `dada_hdu_lock_write`, for the data block of an output. -/
def lockWrite (o : OutputHdu) : ℤ × OutputHdu :=
  match o.sink.ipcioOpen with
  | none => (-1, o)
  | some sink => (0, { o with sink })

/-- `TRANSFER_SIZE`, as the client gets it; it is 0 where the header does not have it. -/
def transferSizeOf (header : Text) : ℕ :=
  asUnsigned ((asciiHeaderGetLong header "TRANSFER_SIZE".toList).getD 0)

/-- `OBS_XFER`. -/
def obsXferOf (header : Text) : ℤ := (asciiHeaderGetLong header "OBS_XFER".toList).getD 0

/-- `dbdecidb_open`. -/
def dbdecidbOpen (c : Client Ctx) : ℤ × Client Ctx :=
  let ctx := c.context
  let locked := eachOutput lockWrite ctx.outputs
  if locked.1 < 0 then (-1, { c with context := { ctx with outputs := locked.2 } })
  else
    let ctx := { ctx with
      outputs := locked.2
      -- main is told that this is the last transfer
      quit := if obsXferOf c.header = -1 then true else ctx.quit
      bytesIn := 0
      bytesOut := 0 }
    (0, { c with
      context := ctx
      transferBytes := transferSizeOf c.header
      optimalBytes := 64 * 1024 * 1024
      headerTransfer := false })

/-! ## Writing -/

/-- `dbdecidb_write`: the results of `ipcio_write` are not looked at. -/
def dbdecidbWrite (c : Client Ctx) (data : List UInt8) (dataSize : ℕ) : ℤ × Client Ctx :=
  (dataSize, { c with context := { c.context with
    outputs := c.context.outputs.map fun o => { o with sink := (o.sink.ipcioWrite data).2 }
    bytesIn := c.context.bytesIn + dataSize
    bytesOut := c.context.bytesOut + dataSize } })

/-- In `dbdecidb_write_block`: the block to which an output is written, and the place in it. -/
def openBlock (o : OutputHdu) : Option (ℕ × OutputHdu) :=
  if o.blockOpen = true then some (o.bytesWritten, o)
  else o.sink.ipcioOpenBlockWrite.map fun sink => (0, { o with sink, blockOpen := true })

/-- In `dbdecidb_write_block`: a block that is full is closed, unless the transfer `ends`. -/
def fullBlock (ends : Bool) (o : OutputHdu) : ℤ × OutputHdu :=
  if ends = true then
    match o.sink.ipcioUpdateBlockWrite o.bytesWritten with
    | none => (-1, o)
    | some sink => (0, { o with sink, blockOpen := false, bytesWritten := 0 })
  else
    let closed := o.sink.ipcioCloseBlockWrite o.bytesWritten
    if closed.1 < 0 then (-1, { o with sink := closed.2 })
    else (0, { o with sink := closed.2, blockOpen := false, bytesWritten := 0 })

/-- The body of the loop of `dbdecidb_write_block`. -/
def writeBlock (ends : Bool) (data : List UInt8) (o : OutputHdu) : ℤ × OutputHdu :=
  match openBlock o with
  | none => (-1, o)
  | some (offset, o) =>
    let o := { o with
      sink := o.sink.memcpyTo offset data
      bytesWritten := o.bytesWritten + data.length }
    if o.blockSize ≤ o.bytesWritten then fullBlock ends o
    else if o.bytesWritten = 0 then (0, { o with bytesWritten := 1 })
    else (0, o)

/-- `dbdecidb_write_block`. -/
def dbdecidbWriteBlock (c : Client Ctx) (data : List UInt8) : ℤ × Client Ctx :=
  let ctx := c.context
  -- the end of the transfer
  let ends := decide (c.transferBytes ≠ 0 ∧ ctx.bytesIn + data.length = c.transferBytes)
  let written := eachOutput (writeBlock ends data) ctx.outputs
  if written.1 < 0 then (-1, { c with context := { ctx with outputs := written.2 } })
  else (data.length, { c with context := { ctx with
    outputs := written.2
    bytesIn := ctx.bytesIn + data.length
    bytesOut := ctx.bytesOut + data.length } })

/-! ## Closing -/

/-- In `dbdecidb_close`: the block of an output is closed if it is open. -/
def closeBlock (o : OutputHdu) : ℤ × OutputHdu :=
  if o.blockOpen = true then
    let closed := o.sink.ipcioCloseBlockWrite o.bytesWritten
    if closed.1 < 0 then (-1, { o with sink := closed.2 })
    else (0, { o with sink := closed.2, blockOpen := false, bytesWritten := 0 })
  else (0, o)

/-- `dada_hdu_unlock_write`, for the data block of an output.  The -1 of a call that never returns stands
for no result. -/
def unlockWrite (o : OutputHdu) : ℤ × OutputHdu :=
  match o.sink.ipcioClose with
  | none => (-1, { o with hung := true })
  | some (result, sink) => (result, { o with sink })

/-- The body of the loop of `dbdecidb_close`. -/
def closeOutput (o : OutputHdu) : ℤ × OutputHdu :=
  let closed := closeBlock o
  if closed.1 < 0 then (-1, closed.2) else unlockWrite closed.2

/-- `dbdecidb_close`. -/
def dbdecidbClose (c : Client Ctx) (_bytesWritten : ℕ) : ℤ × Client Ctx :=
  let closed := eachOutput closeOutput c.context.outputs
  (closed.1, { c with context := { c.context with outputs := closed.2 } })

/-- The functions that `main` gives to the client. -/
def functions (zeroCopy : Bool) : Functions Ctx where
  openFunction := dbdecidbOpen
  ioFunction c payload dataSize :=
    match payload with
    | .header text => dbdecidbWrite c (text.map fun ch => UInt8.ofNat ch.toNat) dataSize
    | .data bytes => dbdecidbWrite c bytes dataSize
  ioBlockFunction := if zeroCopy = true then some dbdecidbWriteBlock else none
  closeFunction := dbdecidbClose

/-- An output as `main` sets it up, for a ring that nobody writes to. -/
structure OutputHdu.Ready (o : OutputHdu) : Prop where
  /-- The ring is idle. -/
  idle : o.sink.Idle o.sink.transfers
  /-- The block size is that of the ring. -/
  blockSize : o.blockSize = o.sink.bufsz
  /-- Nothing is written. -/
  bytesWritten : o.bytesWritten = 0
  /-- No block is open. -/
  blockOpen : o.blockOpen = false

end Dbcopydb

end Psrdada
