import Psrdada.Capture.Datagram
import Mathlib.Data.Int.Notation

/-! # BPSR capture

The `buffer_function` of `bpsr_udpdb.c`, which fills one buffer while a second one stands by
for the packets of the next block. A call starts by exchanging the two and returns when its
buffer is full, when nothing comes for a second, or when it gives up. -/

namespace Psrdada

/-- The sizes that the program is configured with. -/
structure BpsrConfig where
  packetDataSize : ℕ
  packetsPerBlock : ℕ
  sequenceIncr : ℕ
  data_pos : 0 < packetDataSize
  packets_pos : 0 < packetsPerBlock

/-- A buffer as it is returned, with the packets taken from the socket until then. -/
structure BpsrReturned where
  minSequence : ℕ
  buffer : Memory UInt8
  size : ℕ
  arrived : List Datagram

/-- The context, the local variables of the call that is under way, and the buffers returned by
the calls before it. -/
structure BpsrState where
  currBuffer : Memory UInt8
  nextBuffer : Memory UInt8
  currBufferCount : ℕ
  nextBufferCount : ℕ
  expectedSequenceNo : ℕ
  minSequence : ℕ
  midSequence : ℕ
  maxSequence : ℕ
  /-- The packet of the socket buffer, while `packet_in_buffer` is set. -/
  packetInBuffer : Option Datagram
  dataReceived : ℕ
  maxIgnore : ℤ
  received : ℕ
  dropped : ℤ
  /-- An assertion has failed. -/
  aborted : Bool
  returned : List BpsrReturned
  arrived : List Datagram

/-- The current buffer as it is returned with some size. -/
def BpsrState.out (s : BpsrState) (size : ℕ) : BpsrReturned :=
  ⟨s.minSequence, s.currBuffer, size, s.arrived⟩

namespace BpsrConfig

variable (g : BpsrConfig)

/-- `packet_header_size`. -/
def packetHeaderSize : ℕ := 8

def packetPayloadSize : ℕ := packetHeaderSize + g.packetDataSize

def blockSize : ℕ := g.packetsPerBlock * g.packetDataSize

/-- `curr_sequence_no` of a packet. -/
def sequenceNo (buf : Datagram) : ℕ := decodeWord buf packetHeaderSize / g.sequenceIncr

/-- The data of a packet, with zeros for what a short one lacks. -/
def payload (buf : Datagram) : List UInt8 :=
  ((buf ++ List.replicate g.packetPayloadSize 0).drop packetHeaderSize).take g.packetDataSize

/-- What a call does before its loop. -/
def beginCall (s : BpsrState) : BpsrState :=
  { s with
    currBuffer := s.nextBuffer
    -- all of the other buffer is set to zero
    nextBuffer := fun i => if i < g.blockSize then 0 else s.currBuffer i
    currBufferCount := s.nextBufferCount
    nextBufferCount := 0
    minSequence := s.expectedSequenceNo
    midSequence := s.expectedSequenceNo + g.packetsPerBlock
    maxSequence := s.expectedSequenceNo + g.packetsPerBlock + g.packetsPerBlock
    dataReceived := 0
    maxIgnore := g.blockSize }

/-- The state that `start_function` leaves, in the first call. -/
def started : BpsrState :=
  g.beginCall
    { currBuffer := fun _ => 0
      nextBuffer := fun _ => 0
      currBufferCount := 0
      nextBufferCount := 0
      expectedSequenceNo := 0
      minSequence := 0
      midSequence := 0
      maxSequence := 0
      packetInBuffer := none
      dataReceived := 0
      maxIgnore := 0
      received := 0
      dropped := 0
      aborted := false
      returned := []
      arrived := [] }

/-- What a call does after its loop; the next call follows. -/
def endCall (timeoutOccurred : Bool) (s : BpsrState) : BpsrState :=
  g.beginCall <|
    if 0 < s.dataReceived then
      { s with
        dropped :=
          if s.currBufferCount < g.packetsPerBlock ∧ timeoutOccurred = false then
            s.dropped + (g.packetsPerBlock - s.currBufferCount)
          else s.dropped
        expectedSequenceNo := s.expectedSequenceNo + g.packetsPerBlock
        returned := s.returned ++
          [s.out (if timeoutOccurred then s.currBufferCount * g.packetDataSize else g.blockSize)] }
    else { s with returned := s.returned ++ [s.out 0] }

/-- Where a packet that is not ignored goes. -/
def slot (buf : Datagram) (s : BpsrState) : BpsrState :=
  let seq := g.sequenceNo buf
  let s := { s with
    dataReceived := s.dataReceived + g.packetDataSize
    received := s.received + 1 }
  if s.minSequence ≤ seq ∧ seq < s.midSequence then
    { s with
      currBuffer := s.currBuffer.copy ((seq - s.minSequence) * g.packetDataSize) (g.payload buf)
      currBufferCount := s.currBufferCount + 1 }
  else if s.midSequence ≤ seq ∧ seq < s.maxSequence then
    -- the copy goes to the current buffer, the count to the next one
    { s with
      currBuffer := s.currBuffer.copy ((seq - s.midSequence) * g.packetDataSize) (g.payload buf)
      nextBufferCount := s.nextBufferCount + 1 }
  else if seq < s.minSequence then s
  else { s with packetInBuffer := some buf }

/-- The tests after a packet has been put away: whether the call is done, and the assertion. -/
def checkCounts (s : BpsrState) : BpsrState :=
  if s.currBufferCount = g.packetsPerBlock ∨ s.packetInBuffer.isSome then
    if s.currBufferCount ≤ g.packetsPerBlock then g.endCall false s else { s with aborted := true }
  else if g.packetsPerBlock < s.currBufferCount then { s with aborted := true }
  else if g.packetsPerBlock / 2 < s.nextBufferCount then g.endCall false s
  else s

/-- The counts of the packets that were missed before the first one. -/
def firstCounts (seq : ℕ) (s : BpsrState) : BpsrState :=
  if seq < s.midSequence then { s with currBufferCount := s.currBufferCount + seq }
  else
    { s with
      currBufferCount := s.currBufferCount + g.packetsPerBlock
      nextBufferCount := s.nextBufferCount + (seq - s.midSequence) }

/-- A packet, from the socket or kept from the call before. While the first packet is awaited,
those with high numbers are ignored, and one that is short ends the call. -/
def processPacket (buf : Datagram) (s : BpsrState) : BpsrState :=
  let seq := g.sequenceNo buf
  if s.expectedSequenceNo = 0 ∧ s.dataReceived = 0 then
    if buf.length < g.packetPayloadSize then
      g.endCall false (if seq < s.maxSequence then g.firstCounts seq s else s)
    else if seq < s.maxSequence then g.checkCounts (g.slot buf (g.firstCounts seq s))
    else
      let s := { s with maxIgnore := s.maxIgnore - g.packetPayloadSize }
      if s.maxIgnore < 0 then g.endCall false s else s
  else g.checkCounts (g.slot buf s)

end BpsrConfig

/-- What a turn of the loop gets: `select` without a datagram for a second, or a datagram with a
whole header. -/
inductive BpsrEvent where
  | timeout
  | packet (buf : Datagram) (h : BpsrConfig.packetHeaderSize ≤ buf.length)

namespace BpsrConfig

variable (g : BpsrConfig)

/-- One turn of the loop. A packet that was kept is taken before anything is received. -/
def step (s : BpsrState) (e : BpsrEvent) : BpsrState :=
  if s.aborted then s
  else
    match s.packetInBuffer with
    | some buf => g.processPacket buf { s with packetInBuffer := none }
    | none =>
        match e with
        | .timeout => g.endCall true s
        | .packet buf _ => g.processPacket buf { s with arrived := s.arrived ++ [buf] }

end BpsrConfig

end Psrdada
