import Psrdada.Capture.Datagram
import Mathlib

/-! # CASPSR capture into several data blocks

The loop of `caspsr_udpNdb_receive_obs`. Transfers of a fixed number of packets go to the HDUs in
turn. A packet that comes after a gap is preceded by packets of zeros, from the one after the
packet before it on. -/

namespace Psrdada

/-- `UDP_DATA`. -/
def caspsrUdpData : ℕ := 8192

/-- `UDP_HEADER`. -/
def caspsrUdpHeader : ℕ := 16

/-- `UDP_PAYLOAD`. -/
def caspsrUdpPayload : ℕ := caspsrUdpHeader + caspsrUdpData

/-- The sizes and the place among the distributors that the program is configured with. -/
structure CaspsrUdpNdb where
  nhdus : ℕ
  packetsPerBuffer : ℕ
  packetsPerXfer : ℕ
  iDistrib : ℕ
  nDistrib : ℕ
  nhdus_pos : 0 < nhdus
  packets_pos : 0 < packetsPerBuffer
  xfer_pos : 0 < packetsPerXfer
  xfer_lt : packetsPerXfer < 2 ^ 32
  whole : packetsPerBuffer ∣ packetsPerXfer

/-- A block as it is closed: the HDU and the transfer it belongs to, and how much was written. -/
structure CaspsrBlock where
  hdu : ℕ
  transfer : ℕ
  contents : Memory UInt8
  bytesWritten : ℕ

/-- A packet that was taken as data, and whether its block had not been closed before it came. -/
structure CaspsrArrival where
  number : ℕ
  payload : List UInt8
  inTime : Bool

/-- How the thread goes on: in its loop, past `stop_byte`, with an error, or given up after too many
packets with a problem. -/
inductive CaspsrStatus where
  | running
  | stopped
  | failed
  | quit
  deriving DecidableEq

/-- The context and the local variables of the loop, the blocks closed so far and the packets taken
as data. -/
structure CaspsrState where
  globalOffset : ℕ
  prevSeqNo : ℕ
  waitingForStart : Bool
  problemPackets : ℕ
  ihdu : ℕ
  /-- The number of transfers that were completed before the one that is open. -/
  transfer : ℕ
  bufferStartByte : ℕ
  bufferEndByte : ℕ
  xferStartByte : ℕ
  xferEndByte : ℕ
  currentBuffer : Memory UInt8
  opened : ℕ
  stopByte : ℕ
  received : ℕ
  dropped : ℕ
  status : CaspsrStatus
  closed : List CaspsrBlock
  arrived : List CaspsrArrival

/-- What the loop meets next: a datagram, or `stop_byte` set by the control thread. -/
inductive CaspsrEvent where
  | packet (buf : Datagram)
  | stop (byte : ℕ)

namespace CaspsrUdpNdb

variable (g : CaspsrUdpNdb) (ring : ℕ → Memory UInt8)

/-- `ctx->hdu_bufsz`. -/
def hduBufsz : ℕ := g.packetsPerBuffer * caspsrUdpData

/-- `seq_inc`. -/
def seqInc : ℕ := 1024 * g.nDistrib

/-- `seq_offset`. -/
def seqOffset : ℕ := 1024 * g.iDistrib

/-- The current block as it is closed with some number of bytes. -/
def out (s : CaspsrState) (bytesWritten : ℕ) : CaspsrBlock :=
  ⟨s.ihdu, s.transfer, s.currentBuffer, bytesWritten⟩

/-- The state in which the loop is entered. The offset is `-1`, and a block holds what the ring has
at its place. -/
def entered : CaspsrState where
  globalOffset := 2 ^ 64 - 1
  prevSeqNo := 0
  waitingForStart := true
  problemPackets := 0
  ihdu := 0
  transfer := 0
  bufferStartByte := 0
  bufferEndByte := u64 ((g.packetsPerBuffer - 1) * caspsrUdpData)
  xferStartByte := 0
  xferEndByte := u64 ((g.packetsPerXfer - 1) * caspsrUdpData)
  currentBuffer := ring 0
  opened := 1
  stopByte := 0
  received := 0
  dropped := 0
  status := .running
  closed := []
  arrived := []

/-- The buffer byte markers of the next block. -/
def nextBuffer (s : CaspsrState) : CaspsrState :=
  let startByte := u64 (s.bufferEndByte + caspsrUdpData)
  { s with
    bufferStartByte := startByte
    bufferEndByte := u64 (startByte + (g.packetsPerBuffer - 1) * caspsrUdpData) }

/-- `caspsr_udpNdb_new_buffer`: the block is closed as full and the next one opened. -/
def newBuffer (s : CaspsrState) : CaspsrState :=
  g.nextBuffer
    { s with
      closed := s.closed ++ [out s g.hduBufsz]
      currentBuffer := ring s.opened
      opened := s.opened + 1 }

/-- `caspsr_udpNdb_new_hdu`: the block is closed as the last of its transfer, and the first block of
the next HDU is opened. -/
def newHdu (s : CaspsrState) : CaspsrState :=
  let s := g.nextBuffer
    { s with
      closed := s.closed ++ [out s g.hduBufsz]
      ihdu := (s.ihdu + 1) % g.nhdus
      transfer := s.transfer + 1
      currentBuffer := ring s.opened
      opened := s.opened + 1 }
  let startByte := u64 (s.xferEndByte + caspsrUdpData)
  { s with
    xferStartByte := startByte
    xferEndByte := u64 (startByte + (g.packetsPerXfer - 1) * caspsrUdpData) }

/-- The copy of a packet, or of the packet of zeros, into the block that is open. -/
def copyPacket (iseq seqNo : ℕ) (payload : List UInt8) (s : CaspsrState) : CaspsrState :=
  let seqByte := u64 (iseq * caspsrUdpData)
  if seqByte < s.bufferStartByte ∨ g.hduBufsz - caspsrUdpData < seqByte - s.bufferStartByte then
    { s with status := .failed }
  else if iseq = seqNo then
    { s with
      currentBuffer := s.currentBuffer.copy (seqByte - s.bufferStartByte) payload
      received := s.received + 1 }
  else
    { s with
      currentBuffer := s.currentBuffer.copy (seqByte - s.bufferStartByte)
        (List.replicate caspsrUdpData 0)
      dropped := s.dropped + 1 }

/-- The turn for `iseq` of the loop over the packet numbers. -/
def turn (seqNo : ℕ) (payload : List UInt8) (s : CaspsrState) (iseq : ℕ) : CaspsrState :=
  if s.status = .running then
    let seqByte := u64 (iseq * caspsrUdpData)
    if s.stopByte ≠ 0 ∧ s.stopByte ≤ seqByte then
      let bytesJustWritten :=
        if seqByte < s.bufferEndByte then u64 (seqByte + 2 ^ 64 - s.bufferStartByte)
        else g.hduBufsz
      { s with
        status := .stopped
        stopByte := 0
        closed := s.closed ++ [out s bytesJustWritten] }
    else if seqByte < s.bufferStartByte then { s with dropped := s.dropped + 1 }
    else if seqByte ≤ s.bufferEndByte then g.copyPacket iseq seqNo payload s
    else if seqByte < s.xferEndByte then g.copyPacket iseq seqNo payload (g.newBuffer ring s)
    else g.copyPacket iseq seqNo payload (g.newHdu ring s)
  else s

/-- The offset of the sequence numbers after a packet, and the adjusted number of that packet. -/
def align (globalOffset raw : ℕ) : ℕ × ℕ :=
  let offsetRaw := fun offset => u64 (u64 (raw + offset) + 2 ^ 64 - g.seqOffset)
  let remainder := offsetRaw globalOffset % g.seqInc
  let globalOffset :=
    if remainder = 0 then globalOffset
    else if remainder < g.seqInc / 2 then u64 (globalOffset + 2 ^ 64 - remainder)
    else u64 (globalOffset + (g.seqInc - remainder))
  (globalOffset, offsetRaw globalOffset)

/-- The number from which on zeros are written. -/
def padStart (prevSeqNo seqNo : ℕ) : ℕ :=
  if prevSeqNo = 0 then seqNo
  else if seqNo = prevSeqNo + 1 then seqNo
  else if seqNo < prevSeqNo then seqNo
  else prevSeqNo + 1

/-- The loop over the packet numbers. A packet at which the capture ends is not taken. -/
def record (start seqNo : ℕ) (payload : List UInt8) (s : CaspsrState) : CaspsrState :=
  let s' := (List.range' start (seqNo + 1 - start)).foldl (g.turn ring seqNo payload) s
  if s'.status = .running then
    { s' with
      arrived := s'.arrived ++
        [⟨seqNo, payload, decide (s.bufferStartByte ≤ u64 (seqNo * caspsrUdpData))⟩] }
  else s'

/-- The data of a packet. -/
def payload (buf : Datagram) : List UInt8 := (buf.drop caspsrUdpHeader).take caspsrUdpData

/-- A packet of the right size. -/
def processPacket (buf : Datagram) (s : CaspsrState) : CaspsrState :=
  let aligned := g.align s.globalOffset (decodeWord buf 8)
  let seqNo := aligned.2 / g.seqInc
  let start := padStart s.prevSeqNo seqNo
  let s := { s with globalOffset := aligned.1, prevSeqNo := seqNo }
  if aligned.2 % g.seqInc ≠ 0 then
    { s with
      problemPackets := s.problemPackets + 1
      status := if 10 < s.problemPackets + 1 then .quit else s.status }
  else if s.waitingForStart = true ∧ 10000 ≤ seqNo then s
  else g.record ring start seqNo (payload buf) { s with waitingForStart := false }

/-- One turn of the loop. A datagram of another size is ignored, what is beyond that size cut off. -/
def step (s : CaspsrState) (e : CaspsrEvent) : CaspsrState :=
  if s.status = .running then
    match e with
    | .packet buf =>
        let buf := buf.take caspsrUdpPayload
        if buf.length = caspsrUdpPayload then g.processPacket ring buf s else s
    | .stop byte => { s with stopByte := byte }
  else s

end CaspsrUdpNdb

/-- What transfer `k` holds: the bytes of its blocks. -/
def caspsrOutput (closed : List CaspsrBlock) (k : ℕ) : List UInt8 :=
  (closed.filter fun b => b.transfer = k).flatMap fun b => b.contents.slice 0 b.bytesWritten

end Psrdada
