import Psrdada.Client.ClientLoops
import Psrdada.Concurrency.Connection
import Psrdada.Memory.Copy

/-! # A transfer over InfiniBand

`dada_dbib` reads a data block and `dada_ibdb` fills one on another machine.  They talk with `send_message`
and `recv_message`, pairs of a key and a value that go to the posted buffer `sync_from`, and with
the header, that goes to `header_mb`; the data are written straight into a sub-block of the receiving
ring, chunk by chunk.

Both programs are `dada_client_transfer` with the functions of the two programs in it, the one that reads
with `dada_client_io_loop_block` over the sub-blocks of its ring, the other with the same loop over the
sub-blocks that it opens for writing. -/

namespace Psrdada.Ib

open CString Connection

/-! ## Messages -/

/-- The receive buffers of a connection. -/
inductive Buffer
  | headerMb
  | syncFrom
deriving DecidableEq

/-- What is sent to a receive buffer. -/
inductive Message
  | header (text : Text)
  | sync (key value : ℕ)

/-- A chunk that is written to an address of the other end. -/
abbrev Chunk := ℕ × List UInt8

/-- What a transfer leaves in the ring. -/
inductive Event
  /-- The header block is marked filled. -/
  | header (text : Text)
  /-- A sub-block is closed with these data. -/
  | block (data : List UInt8)
deriving DecidableEq

/-- A program; none is a loop of the model that has run out of fuel. -/
abbrev Program := Peer Buffer Chunk Message Event (Option ℤ)

/-- `DADA_IB_READY_KEY`. -/
def readyKey : ℕ := 1

/-- `DADA_IB_BYTES_TO_XFER_KEY`. -/
def bytesToXferKey : ℕ := 2

/-- `DADA_IB_BYTES_XFERRED_KEY`. -/
def bytesXferredKey : ℕ := 3

/-- `dada_ib_send_message`. -/
def sendMessage (key value : ℕ) (next : Program) : Program := .send (.sync key value) next

/-- `dada_ib_recv_message`: the two values of the message, none where the call fails.  (A header does not
fit `sync_from`.) -/
def recvMessage (key : ℕ) (next : Option (ℕ × ℕ) → List Chunk → Program) : Program :=
  .wait .syncFrom fun m written =>
    match m with
    | .header _ => next none written
    | .sync k value => if 0 < key ∧ k ≠ key then next none written else next (some (k, value)) written

/-- `dada_ib_post_sends`: the chunks that are written to the other end's address `raddr`; the last one is
whole, too. -/
def postSends (chunkSize : ℕ) (buffer : List UInt8) (bytes raddr : ℕ) : List Chunk :=
  (List.range (bytes / chunkSize + if bytes % chunkSize ≠ 0 then 1 else 0)).map fun i =>
    (raddr + i * chunkSize, (buffer.drop (i * chunkSize)).take chunkSize)

/-- Chunks are sent one after the other. -/
def writeAll : List Chunk → Program → Program
  | [], next => next
  | c :: cs, next => .write c (writeAll cs next)

/-- `TRANSFER_SIZE` of a header, 0 where it is not set. -/
def transferSize (header : Text) : ℕ :=
  (asciiHeaderGetUnsigned header "TRANSFER_SIZE".toList).getD 0

/-! ## The two rings -/

/-- A sub-block of the ring that is read. -/
structure SubBlock (bufsz : ℕ) where
  /-- What is in its memory. -/
  contents : List UInt8
  /-- It has the size of all sub-blocks. -/
  length_contents : contents.length = bufsz
  /-- The number of bytes that are valid. -/
  bytes : ℕ
  /-- There are no more than fit. -/
  bytes_le : bytes ≤ bufsz

/-- The valid data of a sub-block. -/
def SubBlock.data {bufsz : ℕ} (b : SubBlock bufsz) : List UInt8 := b.contents.take b.bytes

/-- The two rings and their connection: sub-blocks of one size, header blocks of the size that the header
says. -/
structure Setup where
  /-- The size of a sub-block. -/
  bufsz : ℕ
  /-- A sub-block has room. -/
  bufsz_pos : 0 < bufsz
  /-- The size of a chunk. -/
  chunkSize : ℕ
  /-- A chunk has room. -/
  chunkSize_pos : 0 < chunkSize
  /-- `dada_dbib_init` refuses a chunk size that is not a factor of the size of a sub-block. -/
  chunkSize_dvd : chunkSize ∣ bufsz
  /-- The size of the header. -/
  headerSize : ℕ
  /-- The header that is sent. -/
  header : Text
  /-- `dada_client_read` has set `OBS_OFFSET` in it. -/
  obsOffset_set : (asciiHeaderGetUnsigned header obsOffsetKey).isSome
  /-- The sub-blocks that are read, without the last. -/
  full : List (SubBlock bufsz)
  /-- They are full. -/
  bytes_full : ∀ b ∈ full, b.bytes = bufsz
  /-- The sub-block that carries end-of-data. -/
  last : SubBlock bufsz
  /-- The number of sub-blocks of the receiving ring. -/
  nbufs : ℕ
  /-- The addresses of its sub-blocks. -/
  bufVa : ℕ → ℕ
  /-- Their keys. -/
  bufRkey : ℕ → ℕ
  /-- The memory of the receiving machine. -/
  memory : Memory UInt8
  /-- The first sub-block that is opened. -/
  firstBlock : ℕ

namespace Setup

variable (x : Setup)

/-! ## `dada_dbib` -/

/-- `transfer_bytes` after `dbib_open`. -/
def dbibOpen : ℕ :=
  match asciiHeaderGetUnsigned x.header obsOffsetKey with
  | none => 0
  | some _ => transferSize x.header

/-- `dbib_send`. -/
def dbibSend (bytes : ℕ) (next : ℤ → Program) : Program :=
  if x.headerSize ≠ bytes then next (-1)
  else recvMessage readyKey fun r _ =>
    match r with
    | none => next (-1)
    | some _ => .post .syncFrom (.send (.header x.header) (next bytes))

/-- `dbib_send_block`. -/
def dbibSendBlock (b : SubBlock x.bufsz) (next : ℤ → Program) : Program :=
  recvMessage readyKey fun r _ =>
    match r with
    | none => next (-1)
    | some (_, value) =>
      if value ≠ 0 then next (-1)
      else
        .post .syncFrom <| sendMessage bytesToXferKey b.bytes <| recvMessage 0 fun r _ =>
          match r with
          | none => next (-1)
          | some (remoteBufVa, _) =>
            writeAll (postSends x.chunkSize b.contents b.bytes remoteBufVa) <|
              .post .syncFrom <| sendMessage bytesXferredKey b.bytes (next b.bytes)

/-- `dada_client_io_loop_block` of the reader, after `done` bytes. -/
def dbibLoop (next : ℕ → Program) : List (SubBlock x.bufsz) → ℕ → Program
  | [], done => next done
  | b :: blocks, done =>
    if x.dbibOpen = 0 ∨ done < x.dbibOpen then
      if b.bytes ≠ 0 then
        x.dbibSendBlock b fun r => if r < 0 then next done else dbibLoop next blocks (done + r.toNat)
      else dbibLoop next blocks done
    else next done

/-- `dbib_close`. -/
def dbibClose (bytesWritten : ℕ) (next : ℤ → Program) : Program :=
  if x.dbibOpen = 0 ∨ (x.dbibOpen ≠ 0 ∧ bytesWritten ≠ x.dbibOpen) then
    recvMessage readyKey fun r _ =>
      match r with
      | none => next (-1)
      | some _ => sendMessage bytesToXferKey 0 (next 0)
  else next 0

/-- The result of a transfer: the number of bytes, or `-1` when the close function has failed. -/
def result (bytes : ℕ) (r : ℤ) : Program := if r < 0 then .done (some (-1)) else .done (some bytes)

/-- `dada_client_transfer` in `dada_dbib`. -/
def dbibTransfer : Program :=
  x.dbibSend x.headerSize fun r =>
    if asUnsigned r < x.headerSize then .done (some (-1))
    else x.dbibLoop (fun bytes => x.dbibClose bytes (result bytes)) (x.full ++ [x.last]) 0

/-! ## `dada_ibdb` -/

/-- `dada_ibdb_open`. -/
def ibdbOpen (next : Program) : Program := .post .headerMb next

/-- `dada_ibdb_recv`: the result, the header and `transfer_bytes`.  (A message in place of the header
makes a header without entries.) -/
def ibdbRecv (dataSize : ℕ) (next : ℤ → Text → ℕ → Program) : Program :=
  if x.headerSize ≠ dataSize then next (-1) [] 0
  else sendMessage readyKey 0 <| .wait .headerMb fun m _ =>
    match m with
    | .sync _ _ => .post .syncFrom (next dataSize [] 0)
    | .header text => .post .syncFrom (next dataSize text (transferSize text))

/-- `dada_ibdb_recv_block` for the sub-block `blockId`: the result, `xfer_ending` and what has been written
to the memory. -/
def ibdbRecvBlock (blockId : ℕ) (ending : Bool) (next : ℤ → Bool → List Chunk → Program) : Program :=
  sendMessage readyKey 0 <| recvMessage bytesToXferKey fun r written =>
    match r with
    | none => next (-1) ending written
    | some (_, bytesToBeReceived) =>
      if bytesToBeReceived = 0 then next 0 true written
      else
        .post .syncFrom <| sendMessage (x.bufVa blockId) (x.bufRkey blockId) <|
          recvMessage bytesXferredKey fun r written =>
            match r with
            | none => next (-1) ending written
            | some (_, bytesReceived) => .post .syncFrom (next bytesReceived ending written)

/-- The first `bytes` bytes of a sub-block of the receiving ring. -/
def blockData (blockId bytes : ℕ) (written : List Chunk) : List UInt8 :=
  (x.memory.copies written).slice (x.bufVa blockId) bytes

/-- `dada_client_io_loop_block` of the writer with `transfer_bytes` in its client, after `opened`
sub-blocks and `done` bytes.  (At least one byte is asked for, as a sub-block has room.) -/
def ibdbLoop (transferBytes : ℕ) (next : ℕ → Bool → Program) : ℕ → ℕ → ℕ → Bool → Program
  | 0, _, _, _ => .done none
  | fuel + 1, opened, done, ending =>
    if transferBytes = 0 ∨ done < transferBytes then
      x.ibdbRecvBlock ((x.firstBlock + opened) % x.nbufs) ending fun r ending written =>
        if r < 0 then next done ending
        else
          .emit (.block (x.blockData ((x.firstBlock + opened) % x.nbufs) r.toNat written)) <|
            if r.toNat < x.bufsz then next (done + r.toNat) ending
            else ibdbLoop transferBytes next fuel (opened + 1) (done + r.toNat) ending
    else next done ending

/-- `dada_ibdb_close`. -/
def ibdbClose (transferBytes bytesWritten : ℕ) (ending : Bool) (next : ℤ → Program) : Program :=
  if ending = false ∨ (transferBytes ≠ 0 ∧ transferBytes ≠ bytesWritten) then
    sendMessage readyKey 0 <| recvMessage bytesToXferKey fun r _ =>
      match r with
      | none => next (-1)
      | some _ => next 0
  else next 0

/-- `dada_client_transfer` in `dada_ibdb`. -/
def ibdbTransfer (fuel : ℕ) : Program :=
  ibdbOpen <| x.ibdbRecv x.headerSize fun r header transferBytes =>
    if asUnsigned r < x.headerSize then .done (some (-1))
    else
      .emit (.header header) <|
        x.ibdbLoop transferBytes
          (fun bytes ending => ibdbClose transferBytes bytes ending (result bytes)) fuel 0 0 false

/-- The connection has been made: `dbib_ib_init` has posted the buffer for the first message. -/
def start (fuel : ℕ) : Net Buffer Chunk Message Event (Option ℤ) where
  left := ⟨x.dbibTransfer, [.syncFrom], [], [], [], []⟩
  right := ⟨x.ibdbTransfer fuel, [], [], [], [], []⟩

/-! ## What is meant -/

/-- The sub-blocks that are sent: those with data, until `TRANSFER_SIZE` bytes have been reached. -/
def sentOf : List (SubBlock x.bufsz) → ℕ → List (SubBlock x.bufsz)
  | [], _ => []
  | b :: blocks, done =>
    if transferSize x.header = 0 ∨ done < transferSize x.header then
      if b.bytes ≠ 0 then b :: sentOf blocks (done + b.bytes) else sentOf blocks done
    else []

/-- The sub-blocks that are sent. -/
def sent : List (SubBlock x.bufsz) := x.sentOf (x.full ++ [x.last]) 0

/-- The number of bytes that are sent. -/
def total : ℕ := (x.sent.map SubBlock.bytes).sum

/-- What the receiving ring is to get. -/
def received : List Event := .header x.header :: x.sent.map fun b => .block b.data

/-- The two ends agree on how a transfer of so many bytes ends: `TRANSFER_SIZE` is not set, or exceeded,
or the data end before it in the middle of a sub-block. -/
def EndsAgree (bytes : ℕ) : Prop :=
  transferSize x.header = 0 ∨ transferSize x.header < bytes ∨
    (bytes < transferSize x.header ∧ bytes % x.bufsz ≠ 0)

instance (bytes : ℕ) : Decidable (x.EndsAgree bytes) := inferInstanceAs (Decidable (_ ∨ _ ∨ _ ∧ _))

end Setup

end Psrdada.Ib
