import Psrdada.Capture.Placement
import Psrdada.Mopsr.Udp

/-! # MOPSR capture

`mopsr_udpdb_receive_obs`. A packet that is queued is copied from the start of the socket
buffer, where its header is, and not from the end of the header. -/

namespace Psrdada

/-- `UDP_DATA` of `mopsr_def.h`. -/
def mopsrUdpData : ℕ := 5120

/-- The header of a datagram. -/
def hdrBytes (buf : Datagram) : HdrBytes :=
  Vector.ofFn fun i => (buf.getD i.val 0).toBitVec

/-- `hdr.seq_no`. -/
def mopsrSeqNo (buf : Datagram) : ℕ := (decodeSeqNo (hdrBytes buf)).toNat

/-- Every version decodes the sequence number in the same way. -/
theorem mopsrDecode_seqNo (v : MopsrVersion) (buf : Datagram) (hdr : MopsrHdr) :
    (mopsrDecode v (hdrBytes buf) hdr).seqNo.toNat = mopsrSeqNo buf := by
  cases v with
  | v1 =>
    simp only [mopsrDecode, mopsrDecodeV1]
    split <;> rfl
  | v2 =>
    simp only [mopsrDecode, mopsrDecodeV2]
    split <;> rfl
  | v3 => rfl
  | v4 => rfl

theorem tempMax_pos : 0 < 8 := Nat.succ_pos _

/-- `mopsr_udpdb_receive_obs`, with `pkt_size` bytes used of each packet. -/
def mopsrUdpdb (pktSize packetsPerBuffer bytesToAcquire : ℕ) (hsize : 0 < pktSize)
    (hle : pktSize ≤ mopsrUdpData) (hn : 0 < packetsPerBuffer) : QueueCapture where
  udpPayload := udpHeader + mopsrUdpData
  size := pktSize
  packetsPerBuffer := packetsPerBuffer
  tempMax := 8
  bytesToAcquire := bytesToAcquire
  number := mopsrSeqNo
  startNumber := mopsrSeqNo
  -- without the `UDP_HEADER` of the other copy
  saved buf := buf.take pktSize
  size_pos := hsize
  packets_pos := hn
  temp_pos := tempMax_pos
  size_le := Nat.add_le_add_left hle _
  startNumber_le _ := Nat.le_refl _
  length_saved buf hlen := by
    rw [List.length_take, hlen, Nat.min_eq_left (Nat.le_add_left_of_le hle)]

/-- A packet with a small sequence number, and with data other than zero. -/
def mopsrPacket (seqNo : UInt8) : Datagram :=
  0 :: 0 :: 0 :: 0 :: 0 :: 0 :: 0 :: 0 :: 0 :: 0 :: 0 :: 0 :: 0 :: 0 :: 0 :: seqNo ::
    List.replicate 5120 1

theorem length_mopsrPacket (seqNo : UInt8) :
    (mopsrPacket seqNo).length = udpHeader + mopsrUdpData := by
  simp only [mopsrPacket, List.length_cons, List.length_replicate]
  rfl

/-- Blocks of two packets. -/
def mopsrPairs : QueueCapture :=
  mopsrUdpdb mopsrUdpData 2 0 (by decide) (Nat.le_refl _) Nat.zero_lt_two

/-- The capture of packets 0, 2, 1 and 3. -/
def mopsrEarly : CaptureState :=
  [mopsrPacket 0, mopsrPacket 2, mopsrPacket 1, mopsrPacket 3].foldl
    (fun s p => mopsrPairs.step (fun _ _ => 0) s (.packet p)) (mopsrPairs.entered fun _ _ => 0)

end Psrdada
