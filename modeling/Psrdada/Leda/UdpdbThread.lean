import Psrdada.Capture.Placement

/-! # LEDA capture

`leda_udpdb_receive_obs`: the packets of several inputs, each with a sequence number and the
identifier of its antenna. -/

namespace Psrdada

/-- `UDP_DATA` of `leda_def.h`. -/
def ledaUdpData : ℕ := 8192

/-- `seq_no`. -/
def ledaSeqNo (buf : Datagram) : ℕ := decodeWord buf 8

/-- `ant_id`, the low sixteen bits of `ch_id`. -/
def ledaAntId (buf : Datagram) : ℕ := decodeWord buf 16 % 2 ^ 16

/-- `leda_udpdb_receive_obs` for some number of inputs and of packets to a block. -/
def ledaUdpdb (numInputs packetsPerBuffer : ℕ) (h : 0 < packetsPerBuffer) : QueueCapture where
  udpPayload := udpHeader + ledaUdpData
  size := ledaUdpData
  packetsPerBuffer := packetsPerBuffer
  tempMax := 50
  bytesToAcquire := 0
  number buf := numInputs * ledaSeqNo buf + ledaAntId buf
  startNumber buf := numInputs * ledaSeqNo buf
  saved buf := (buf.drop udpHeader).take ledaUdpData
  size_pos := by decide
  packets_pos := h
  temp_pos := by decide
  size_le := Nat.le_refl _
  startNumber_le _ := Nat.le_add_right _ _
  length_saved buf hlen := by
    rw [List.length_take, List.length_drop, hlen, Nat.add_sub_cancel_left, Nat.min_self]

/-- `seq_byte` as it is computed. -/
theorem ledaUdpdb_seqByte (numInputs packetsPerBuffer : ℕ) (h : 0 < packetsPerBuffer)
    (buf : Datagram) :
    (ledaUdpdb numInputs packetsPerBuffer h).seqByte buf =
      u64 (numInputs * ledaSeqNo buf * ledaUdpData + ledaAntId buf * ledaUdpData) :=
  congrArg u64 (Nat.add_mul _ _ _)

/-- A packet of the first antenna with a small sequence number. -/
def ledaPacket (seqNo : UInt8) : Datagram :=
  0 :: 0 :: 0 :: 0 :: 0 :: 0 :: 0 :: seqNo :: List.replicate 8200 0

theorem length_ledaPacket (seqNo : UInt8) : (ledaPacket seqNo).length = udpHeader + ledaUdpData := by
  simp only [ledaPacket, List.length_cons, List.length_replicate]
  rfl

/-- Blocks of two packets from one input. -/
def ledaPairs : QueueCapture := ledaUdpdb 1 2 Nat.zero_lt_two

/-- The capture of packet 0 twice. -/
def ledaTwice : CaptureState :=
  ledaPairs.step (fun _ _ => 0)
    (ledaPairs.step (fun _ _ => 0) (ledaPairs.entered fun _ _ => 0) (.packet (ledaPacket 0)))
    (.packet (ledaPacket 0))

end Psrdada
