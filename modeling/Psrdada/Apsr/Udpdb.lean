import Psrdada.Apsr.Udp
import Psrdada.Memory.Copy
import Mathlib.Data.Int.Notation

/-! # APSR capture

The `buffer_function` of `apsr_udpdb.c`. A call fills one buffer while a second one stands by for
the packets of the next, and returns when its buffer is full, when half of the next has come, when
a packet belongs beyond both, or when nothing comes for a while. -/

namespace Psrdada

/-- `apsr_data_t`, without its size. -/
structure ApsrData where
  buffer : Memory UInt8
  count : ℕ
  min : ℕ
  max : ℕ

/-- What a call returns: the buffer and `*size`. -/
structure ApsrReturned where
  buffer : Memory UInt8
  size : ℤ

/-- `UDPBUFFSIZE`. -/
def udpBuffSize : ℕ := 9000

/-- `UDPHEADERSIZE`. -/
def udpHeaderSize : ℕ := 24

/-- `MAX_IGNORE_PACKETS`. -/
def maxIgnorePackets : ℕ := 5000

/-- The rate from the header and the size of a data buffer, which has room for one packet. -/
structure ApsrUdpdb where
  bps : ℕ
  dataSize : ℕ
  room : udpBuffSize - udpHeaderSize ≤ dataSize

/-- `udpdb_t`, the local variables of the call that is under way, what the calls before it have
returned, and the packets that were taken as data. -/
structure ApsrState where
  curr : ApsrData
  next : ApsrData
  packetsPerBuffer : ℕ
  packetLength : ℕ
  payloadLength : ℕ
  timerCount : ℕ
  timerMax : ℕ
  nextSeq : ℕ
  /-- The packet of the socket buffer, when a call ends with `have_packet` set. -/
  havePacket : Option Datagram
  maxIgnore : ℕ
  size : ℤ
  bytesReceived : ℕ
  received : ℕ
  dropped : ℕ
  /-- A division by zero. -/
  aborted : Bool
  returned : List ApsrReturned
  arrived : List Datagram

/-- `header.sequence` of a packet. -/
def apsrSequence (buf : Datagram) : ℕ := (decodeSequence buf).toNat

/-- The data of a packet, padded with zeros when it is short. -/
def apsrPayload (packetLength : ℕ) (buf : Datagram) : List UInt8 :=
  ((buf ++ List.replicate (udpHeaderSize + packetLength) 0).drop udpHeaderSize).take packetLength

namespace ApsrUdpdb

variable (g : ApsrUdpdb)

/-- What a call does before it waits for a packet. -/
def beginCall (s : ApsrState) : ApsrState :=
  let s :=
    if 0 < s.nextSeq ∧ 0 < s.bytesReceived then
      { s with
        curr := s.next
        next :=
          { buffer := fun i => if i < g.dataSize then 0 else s.curr.buffer i
            count := 0
            min := s.next.max + 1
            max := s.next.max + 1 + s.packetsPerBuffer - 1 } }
    else s
  { s with
    size := s.packetsPerBuffer * s.packetLength
    maxIgnore := maxIgnorePackets
    timerCount := 0
    -- the first turn of the loop clears `have_packet` and only then tests it
    havePacket := none }

/-- What a call does after its loop; the next call follows. -/
def endCall (s : ApsrState) : ApsrState :=
  g.beginCall <|
    if s.size < 0 then { s with returned := s.returned ++ [⟨s.curr.buffer, s.size⟩] }
    else if s.timerCount < s.timerMax then
      { s with
        dropped := s.dropped + (s.packetsPerBuffer - s.curr.count)
        nextSeq := s.nextSeq + s.packetsPerBuffer
        returned := s.returned ++
          [⟨s.curr.buffer, (s.packetsPerBuffer * s.packetLength : ℕ)⟩] }
    else
      { s with
        returned := s.returned ++ [⟨s.curr.buffer, (s.curr.count * s.packetLength : ℕ)⟩] }

/-- The state that `start_function` leaves, in the first call. -/
def started : ApsrState :=
  let blank : ApsrData := ⟨fun _ => 0, 0, 0, 0⟩
  g.beginCall
    { curr := blank
      next := blank
      packetsPerBuffer := g.dataSize / (udpBuffSize - udpHeaderSize)
      packetLength := udpBuffSize - udpHeaderSize
      payloadLength := udpBuffSize
      timerCount := 0
      timerMax := g.bps / (udpBuffSize - udpHeaderSize) / 10
      nextSeq := 0
      havePacket := none
      maxIgnore := 0
      size := 0
      bytesReceived := 0
      received := 0
      dropped := 0
      aborted := false
      returned := []
      arrived := [] }

/-- The sizes and the ranges that the first packet fixes. -/
def firstPacket (buf : Datagram) (s : ApsrState) : ApsrState :=
  let packetLength := buf.length - udpHeaderSize
  let packetsPerBuffer := g.dataSize / packetLength
  let currMax := s.nextSeq + packetsPerBuffer - 1
  { s with
    packetLength := packetLength
    payloadLength := buf.length
    timerMax := g.bps / packetLength / 10
    packetsPerBuffer := packetsPerBuffer
    curr := { s.curr with min := s.nextSeq, max := currMax }
    next := { s.next with min := currMax + 1, max := currMax + 1 + packetsPerBuffer - 1 }
    size := packetsPerBuffer * packetLength }

/-- Where a packet that is taken as data goes. -/
def slot (buf : Datagram) (s : ApsrState) : ApsrState :=
  let seq := apsrSequence buf
  let s := { s with
    bytesReceived := s.bytesReceived + s.packetLength
    received := s.received + 1
    arrived := s.arrived ++ [buf] }
  if seq < s.curr.min then s
  else if seq ≤ s.curr.max then
    { s with
      curr := { s.curr with
        buffer := s.curr.buffer.copy ((seq - s.curr.min) * s.packetLength)
          (apsrPayload s.packetLength buf)
        count := s.curr.count + 1 } }
  else if seq ≤ s.next.max then
    { s with
      next := { s.next with
        buffer := s.next.buffer.copy ((seq - s.next.min) * s.packetLength)
          (apsrPayload s.packetLength buf)
        count := s.next.count + 1 } }
  else { s with havePacket := some buf }

/-- Whether a packet has ended the call. -/
def GotEnough (s : ApsrState) : Prop :=
  s.havePacket.isSome ∨ s.packetsPerBuffer ≤ s.curr.count ∨ s.packetsPerBuffer ≤ 2 * s.next.count

instance (s : ApsrState) : Decidable (GotEnough s) := inferInstanceAs (Decidable (_ ∨ _ ∨ _))

/-- The tests after a packet. The wait for another one starts with a new count. -/
def checkCounts (s : ApsrState) : ApsrState :=
  if GotEnough s then g.endCall s else { s with timerCount := 0 }

/-- A packet from the socket. While the first one is awaited, those with high numbers are ignored,
and one with the wrong length in its header is an error. -/
def processPacket (buf : Datagram) (s : ApsrState) : ApsrState :=
  if s.nextSeq = 0 ∧ s.bytesReceived = 0 then
    if 1000 < apsrSequence buf then
      -- unsigned, so the count goes on from the top after zero
      let maxIgnore := (s.maxIgnore + (2 ^ 64 - 1)) % 2 ^ 64
      g.checkCounts
        { s with
          maxIgnore := maxIgnore
          size := if maxIgnore = 0 then -2 else s.size }
    else if (buf.getD 0 0).toNat ≠ udpHeaderSize then g.endCall { s with size := -2 }
    else if buf.length = udpHeaderSize then { s with aborted := true }
    else g.checkCounts (slot buf (g.firstPacket buf s))
  else g.checkCounts (slot buf s)

end ApsrUdpdb

/-- What `recvfrom` says: nothing there yet, or a datagram with a whole header. -/
inductive ApsrEvent where
  | again
  | packet (buf : Datagram) (h : udpHeaderSize ≤ buf.length)

namespace ApsrUdpdb

variable (g : ApsrUdpdb)

/-- One attempt to receive. What a datagram has beyond the buffer given for it is cut off. -/
def step (s : ApsrState) (e : ApsrEvent) : ApsrState :=
  if s.aborted then s
  else
    match e with
    | .again =>
        if s.timerMax < s.timerCount then g.endCall s else { s with timerCount := s.timerCount + 1 }
    | .packet buf _ => g.processPacket (buf.take s.payloadLength) s

end ApsrUdpdb

/-- The bytes that calls have returned, each buffer cut to the size that was reported. -/
def apsrStream (returned : List ApsrReturned) : List UInt8 :=
  returned.flatMap fun r => r.buffer.slice 0 r.size.toNat

end Psrdada
