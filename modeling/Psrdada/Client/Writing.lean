import Psrdada.Client.ClientLoops

/-! # The main loop of a writing client

The same loops of `dada_client.c` for a client that writes to the ring: `io_function` fills a buffer, first
with the header and then with data, and what it returns goes into the ring.  The ring accepts all that is
written.  The loops run as long as `io_function` has data to give, so that they take a number of rounds
after which the model gives up (`none`). -/

namespace Psrdada

open CString

/-- The buffer that `io_function` is to fill. -/
inductive Buffer
  /-- `client->header`: the function leaves the header in the client. -/
  | header
  /-- Any other buffer. -/
  | data

/-- What a call of `io_function` leaves behind. -/
structure Fill (κ : Type) where
  /-- The result. -/
  count : ℤ
  /-- What has been put into the buffer. -/
  bytes : List UInt8
  /-- The client. -/
  client : Client κ

/-- The functions that a writing program supplies. -/
structure WriteFunctions (κ : Type) where
  /-- `open_function`. -/
  openFunction : Client κ → ℤ × Client κ
  /-- `io_function`, with the number of bytes that are asked for. -/
  ioFunction : Client κ → Buffer → ℕ → Fill κ
  /-- `io_block_function`, where the program has one. -/
  ioBlockFunction : Option (Client κ → ℕ → Fill κ)
  /-- `close_function`. -/
  closeFunction : Client κ → ℕ → ℤ × Client κ

variable {κ : Type}

/-- What an I/O loop of a writer leaves behind. -/
structure WriteResult (κ : Type) where
  /-- `bytes_transfered`. -/
  count : ℤ
  /-- What has been written to the data block. -/
  data : List UInt8
  /-- The client. -/
  client : Client κ

/-- `dada_client_io_loop` for a writer, with `done` bytes transferred. -/
def writeLoop (F : WriteFunctions κ) (bufferSize : ℕ) :
    ℕ → Client κ → ℕ → Option (WriteResult κ)
  | 0, _, _ => none
  | fuel + 1, c, done =>
    if c.wants done then
      let fill := F.ioFunction c .data (c.chunk bufferSize done)
      if fill.count < 0 then some ⟨done, [], fill.client⟩
      -- end of input
      else if fill.count = 0 then some ⟨done, [], fill.client⟩
      else
        let written := fill.bytes.take fill.count.toNat
        (writeLoop F bufferSize fuel fill.client (done + fill.count.toNat)).map fun rest =>
          { rest with data := written ++ rest.data }
    else some ⟨done, [], c⟩

/-- `dada_client_io_loop_block` for a writer with sub-blocks of `blockSize` bytes. -/
def writeLoopBlock (ioBlockFunction : Client κ → ℕ → Fill κ) (blockSize : ℕ) :
    ℕ → Client κ → ℕ → Option (WriteResult κ)
  | 0, _, _ => none
  | fuel + 1, c, done =>
    if c.wants done then
      let fill := ioBlockFunction c (c.chunk blockSize done)
      if fill.count < 0 then some ⟨done, [], fill.client⟩
      else
        let written := fill.bytes.take fill.count.toNat
        -- a sub-block that is not full ends the data
        if fill.count < blockSize then some ⟨done + fill.count, written, fill.client⟩
        else
          (writeLoopBlock ioBlockFunction blockSize fuel fill.client (done + fill.count.toNat)).map
            fun rest => { rest with data := written ++ rest.data }
    else some ⟨done, [], c⟩

/-- What a transfer passes to the ring. -/
structure Passed where
  /-- The header. -/
  header : Text
  /-- The data. -/
  data : List UInt8

/-- What a transfer of a writer leaves behind. -/
structure WriteTransfer (κ : Type) where
  /-- The result of `dada_client_transfer`. -/
  count : ℤ
  /-- What has been passed to the ring, when a header has. -/
  passed : Option Passed
  /-- The client. -/
  client : Client κ

/-- The I/O loop of a transfer of a writer. -/
def runWriteLoop (F : WriteFunctions κ) (blockSize fuel : ℕ) (c : Client κ) : Option (WriteResult κ) :=
  match F.ioBlockFunction with
  | some ioBlockFunction => writeLoopBlock ioBlockFunction blockSize fuel c 0
  | none => writeLoop F c.optimalBytes fuel c 0

/-- `dada_client_transfer` for a writer. -/
def dadaClientTransferWrite (F : WriteFunctions κ) (blockSize fuel : ℕ) (c : Client κ) :
    Option (WriteTransfer κ) :=
  let opened := F.openFunction c
  if opened.1 < 0 then some ⟨-1, none, opened.2⟩
  else if opened.2.quit then some ⟨0, none, opened.2⟩
  else
    let headerSize := opened.2.headerSize
    let sent : Fill κ :=
      if opened.2.headerTransfer then F.ioFunction opened.2 .header headerSize
      else ⟨headerSize, [], opened.2⟩
    if asUnsigned sent.count < headerSize then some ⟨-1, none, sent.client⟩
    else
      let header := sent.client.header
      let c := if sent.client.optimalBytes = 0 then { sent.client with optimalBytes := defaultBlockSize }
        else sent.client
      (runWriteLoop F blockSize fuel c).map fun result =>
        let closed := F.closeFunction result.client (asUnsigned result.count)
        if closed.1 < 0 then ⟨-1, some ⟨header, result.data⟩, closed.2⟩
        else ⟨result.count, some ⟨header, result.data⟩, closed.2⟩

/-- `dada_client_write`, with header blocks of `headerBufsz` bytes (the next of which is taken as the
buffer for the header): the result, what has been passed and the client. -/
def dadaClientWrite (F : WriteFunctions κ) (headerBufsz blockSize fuel : ℕ) (c : Client κ) :
    Option (WriteTransfer κ) :=
  (dadaClientTransferWrite F blockSize fuel { c with headerSize := headerBufsz, header := [] }).map
    fun t => { t with count := if t.count < 0 then -1 else 0 }

end Psrdada
