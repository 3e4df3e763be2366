import Psrdada.Capture.Datagram
import Mathlib.Data.Int.Notation

/-! # Capture of an observation with an out of order queue

The loop of `leda_udpdb_receive_obs` and `mopsr_udpdb_receive_obs`: packets go to the block that
is open or to a queue for the next one, and a block is closed when its count of packets is
reached or the queue is full. The two programs differ in the numbers they read from a packet
and in the bytes they queue of it, which are parameters here. -/

namespace Psrdada

/-- `UDP_HEADER`. -/
def udpHeader : ℕ := 16

/-- What the two programs do differently, and the sizes they are configured with. -/
structure QueueCapture where
  /-- `UDP_PAYLOAD`. -/
  udpPayload : ℕ
  /-- `UDP_DATA` in one program, `ctx->pkt_size` in the other. -/
  size : ℕ
  packetsPerBuffer : ℕ
  tempMax : ℕ
  bytesToAcquire : ℕ
  /-- The number of a packet, and of the first packet of its time. -/
  number : Datagram → ℕ
  startNumber : Datagram → ℕ
  /-- What is kept of a packet in the queue. -/
  saved : Datagram → List UInt8
  size_pos : 0 < size
  packets_pos : 0 < packetsPerBuffer
  temp_pos : 0 < tempMax
  size_le : udpHeader + size ≤ udpPayload
  startNumber_le : ∀ p, startNumber p ≤ number p
  length_saved : ∀ p, p.length = udpPayload → (saved p).length = size

namespace QueueCapture

variable (g : QueueCapture)

/-- `ctx->hdu_bufsz`. -/
def hduBufsz : ℕ := g.packetsPerBuffer * g.size

/-- `seq_byte` of a packet. -/
def seqByte (p : Datagram) : ℕ := u64 (g.number p * g.size)

/-- The bytes of a packet that belong in a block. -/
def payload (p : Datagram) : List UInt8 := (p.drop udpHeader).take g.size

end QueueCapture

/-- A block as it is handed to the ring. -/
structure ClosedBlock where
  startByte : ℕ
  contents : Memory UInt8
  bytesWritten : ℕ
  /-- The packets that are declared lost with it. -/
  dropped : ℤ

/-- The context and the local variables of the loop. The counters of packets are integers here:
`packets->dropped` is unsigned, and a difference below zero is a huge number there. -/
structure CaptureState where
  blockStartByte : ℕ
  blockEndByte : ℕ
  blockCount : ℕ
  block : Memory UInt8
  captureStarted : Bool
  lastByte : ℕ
  seqByte : ℕ
  stopByte : ℕ
  /-- `temp_seq_byte` and `temp_buffers`, as far as `temp_idx`. -/
  temp : List (ℕ × List UInt8)
  received : ℤ
  dropped : ℤ
  finished : Bool
  /-- The blocks opened so far, the full blocks closed, and the one closed with the end of the
  data. -/
  opened : ℕ
  closed : List ClosedBlock
  last : Option ClosedBlock
  /-- The packets taken from the socket so far. -/
  arrived : List Datagram

/-- What the loop meets next: a datagram, `stop_byte` or `stop_pending` set by the control thread,
or as many calls without a datagram as `timeout_max` allows. -/
inductive CaptureEvent where
  | packet (buf : Datagram)
  | stop (byte : ℕ)
  | pending
  | timeout

namespace QueueCapture

variable (g : QueueCapture) (ring : ℕ → Memory UInt8)

/-- The state in which the loop is entered, with the first block open. A block holds what the
ring has at its place. -/
def entered : CaptureState where
  blockStartByte := 0
  blockEndByte := (g.packetsPerBuffer - 1) * g.size
  blockCount := 0
  block := ring 0
  captureStarted := false
  lastByte := 0
  seqByte := 0
  stopByte := 0
  temp := []
  received := 0
  dropped := 0
  finished := false
  opened := 1
  closed := []
  last := none
  arrived := []

/-- `open_buffer`. -/
def openBuffer (s : CaptureState) : CaptureState :=
  { s with block := ring s.opened, opened := s.opened + 1, blockCount := 0 }

/-- `new_buffer`: the block is closed as full and the next one opened. -/
def newBuffer (dropped : ℤ) (s : CaptureState) : CaptureState :=
  let s := openBuffer ring
    { s with
      closed := s.closed ++ [⟨s.blockStartByte, s.block, g.hduBufsz, dropped⟩] }
  let startByte := u64 (s.blockEndByte + g.size)
  { s with
    blockStartByte := startByte
    blockEndByte := u64 (startByte + (g.packetsPerBuffer - 1) * g.size) }

/-- The first packet sets the range of the first block. -/
def start (p : Datagram) (s : CaptureState) : CaptureState :=
  if s.captureStarted then s
  else
    let startByte := u64 (g.startNumber p * g.size)
    { s with
      blockStartByte := startByte
      blockEndByte := u64 (startByte + g.hduBufsz - g.size)
      captureStarted := true
      stopByte := if 0 < g.bytesToAcquire then u64 (startByte + g.bytesToAcquire) else s.stopByte }

/-- Where a packet goes. -/
def place (p : Datagram) (s : CaptureState) : CaptureState :=
  let seqByte := g.seqByte p
  let s := { s with lastByte := seqByte, seqByte := seqByte, arrived := s.arrived ++ [p] }
  -- too late
  if seqByte < s.blockStartByte then { s with dropped := s.dropped + 1 }
  -- this block
  else if seqByte ≤ s.blockEndByte then
    { s with
      block := s.block.copy (seqByte - s.blockStartByte) (g.payload p)
      received := s.received + 1
      blockCount := s.blockCount + 1 }
  -- a later block
  else if s.temp.length < g.tempMax then { s with temp := s.temp ++ [(seqByte, g.saved p)] }
  else { s with dropped := s.dropped + 1 }

/-- A queued packet after the change of blocks. The offset is compared as an unsigned number. -/
def replay (s : CaptureState) (q : ℕ × List UInt8) : CaptureState :=
  let byteOffset := u64 (q.1 + 2 ^ 64 - s.blockStartByte)
  if byteOffset < g.hduBufsz then
    { s with
      seqByte := q.1
      block := s.block.copy byteOffset q.2
      blockCount := s.blockCount + 1
      received := s.received + 1 }
  else { s with seqByte := q.1, dropped := s.dropped + 1 }

/-- The change of blocks, with the packets that are missing counted as dropped and the queue
put into the new block. -/
def rotate (s : CaptureState) : CaptureState :=
  let dropped : ℤ := g.packetsPerBuffer - s.blockCount
  let s := g.newBuffer ring dropped { s with dropped := s.dropped + dropped }
  { s.temp.foldl g.replay s with temp := [] }

/-- The test for a full block or a full queue. -/
def checkFull (s : CaptureState) : CaptureState :=
  if g.packetsPerBuffer ≤ s.blockCount ∨ g.tempMax ≤ s.temp.length then g.rotate ring s else s

/-- The test for the stop, which closes the block with the end of the data. -/
def checkStop (s : CaptureState) : CaptureState :=
  if s.stopByte ≠ 0 ∧ s.stopByte ≤ s.seqByte then
    let bytesJustWritten :=
      if s.seqByte ≤ s.blockStartByte then 1
      else if s.seqByte < s.blockEndByte then s.seqByte - s.blockStartByte
      else g.hduBufsz
    { s with
      last := some ⟨s.blockStartByte, s.block, bytesJustWritten, 0⟩
      stopByte := 0
      finished := true }
  else s

/-- One turn of the loop. A datagram of another size is ignored. -/
def step (s : CaptureState) (e : CaptureEvent) : CaptureState :=
  if s.finished then s
  else
    match e with
    | .packet p =>
        if p.length = g.udpPayload then
          g.checkStop (g.checkFull ring (g.place p (g.start p s)))
        else s
    | .stop byte => { s with stopByte := byte }
    | .pending => { g.checkStop s with finished := true }
    | .timeout =>
        if s.captureStarted then
          { g.checkStop { s with stopByte := s.lastByte } with finished := true }
        else s

end QueueCapture

end Psrdada
