import Psrdada.Apsr.Udpdb
import Psrdada.Capture.Blocks

/-! # Continuity of the APSR stream

As long as every packet belongs in one of the two buffers and comes once, and the socket is quiet
only before the first packet and after the last, the buffers that are returned follow on from one
another. -/

namespace Psrdada

theorem length_apsrPayload (packetLength : ℕ) (buf : Datagram) :
    (apsrPayload packetLength buf).length = packetLength := by
  simp only [apsrPayload, List.length_take, List.length_drop, List.length_append,
    List.length_replicate]
  omega

theorem apsrStream_append (returned : List ApsrReturned) (buffer : Memory UInt8) (size : ℕ) :
    apsrStream (returned ++ [⟨buffer, size⟩]) = apsrStream returned ++ buffer.slice 0 size := by
  simp only [apsrStream, List.flatMap_append, List.flatMap_singleton, Int.toNat_natCast]

theorem length_apsrStream (returned : List ApsrReturned) :
    (apsrStream returned).length = (returned.map fun r => r.size.toNat).sum := by
  simp only [apsrStream, List.length_flatMap, Memory.length_slice]

namespace ApsrUdpdb

variable (g : ApsrUdpdb)

/-- What belongs in the buffers, for packets of some length. -/
abbrev Filled (packetLength : ℕ) := Holds apsrSequence (apsrPayload packetLength) packetLength

/-- The first `n` packets of the stream. -/
abbrev streamTo (packetLength : ℕ) := dueStream apsrSequence (apsrPayload packetLength) packetLength

/-! ## The state before the first packet, and after it -/

/-- No packet has been taken as data. -/
structure Waits (s : ApsrState) : Prop where
  going : s.aborted = false
  kept : s.havePacket = none
  nextSeq : s.nextSeq = 0
  bytes : s.bytesReceived = 0
  received : s.received = 0
  dropped : s.dropped = 0
  arrived : s.arrived = []
  currCount : s.curr.count = 0
  nextCount : s.next.count = 0
  currBlank : ∀ i < g.dataSize, s.curr.buffer i = 0
  nextBlank : ∀ i < g.dataSize, s.next.buffer i = 0
  packets_pos : 0 < s.packetsPerBuffer
  payload_le : s.payloadLength ≤ udpBuffSize
  stream : apsrStream s.returned = []

/-- What holds once the packets have a length. -/
structure Keeps (s : ApsrState) : Prop where
  going : s.aborted = false
  kept : s.havePacket = none
  length_pos : 0 < s.packetLength
  packets_pos : 0 < s.packetsPerBuffer
  room : s.packetsPerBuffer * s.packetLength ≤ g.dataSize
  size : 0 ≤ s.size
  currMax : s.curr.max + 1 = s.curr.min + s.packetsPerBuffer
  nextMin : s.next.min = s.curr.min + s.packetsPerBuffer
  nextMax : s.next.max + 1 = s.next.min + s.packetsPerBuffer
  distinct : s.arrived.Pairwise fun p q => apsrSequence p ≠ apsrSequence q
  inRange : ∀ p ∈ s.arrived, apsrSequence p < s.next.min + s.packetsPerBuffer
  currFilled : Filled s.packetLength s.curr.min s.packetsPerBuffer s.curr.buffer s.arrived
  nextFilled : Filled s.packetLength s.next.min s.packetsPerBuffer s.next.buffer s.arrived
  currCount : s.curr.count = countIn apsrSequence s.curr.min s.next.min s.arrived
  nextCount : s.next.count =
    countIn apsrSequence s.next.min (s.next.min + s.packetsPerBuffer) s.arrived
  received : s.received = s.arrived.length
  -- the numbers below the current buffer are each received or dropped
  dropped : countIn apsrSequence 0 s.curr.min s.arrived + s.dropped = s.curr.min
  stream : apsrStream s.returned = streamTo s.packetLength s.curr.min s.arrived

/-- What the loop of a call keeps once a packet has been taken as data. -/
structure Loops (s : ApsrState) : Prop extends g.Keeps s where
  bytes : 0 < s.bytesReceived

variable {g}

theorem Keeps.count_le {s : ApsrState} (h : g.Keeps s) : s.curr.count ≤ s.packetsPerBuffer := by
  have hle : countIn apsrSequence s.curr.min s.next.min s.arrived ≤ s.next.min - s.curr.min :=
    countIn_le h.distinct
  have hnext := h.nextMin
  rw [h.currCount]
  omega

theorem started_waits : g.Waits g.started where
  going := rfl
  kept := rfl
  nextSeq := rfl
  bytes := rfl
  received := rfl
  dropped := rfl
  arrived := rfl
  currCount := rfl
  nextCount := rfl
  currBlank _ _ := rfl
  nextBlank _ _ := rfl
  packets_pos := Nat.div_pos g.room (by decide)
  payload_le := Nat.le_refl _
  stream := rfl

/-! ## The end of a call -/

/-- A call that ends in time returns a whole buffer, and so does one that ends late with a full
one; the packets that are missing are counted as dropped. -/
theorem endCall_eq {s : ApsrState} (h : g.Keeps s)
    (hprompt : s.timerCount < s.timerMax ∨
      0 < s.nextSeq ∧ s.curr.count = s.packetsPerBuffer) :
    ∃ nextSeq, 0 < nextSeq ∧ g.endCall s =
      g.beginCall
        { s with
          dropped := s.dropped + (s.packetsPerBuffer - s.curr.count)
          nextSeq := nextSeq
          returned := s.returned ++
            [⟨s.curr.buffer, (s.packetsPerBuffer * s.packetLength : ℕ)⟩] } := by
  have hsize : ¬ s.size < 0 := Int.not_lt.mpr h.size
  have hpos := h.packets_pos
  by_cases htimer : s.timerCount < s.timerMax
  · refine ⟨s.nextSeq + s.packetsPerBuffer, by omega, ?_⟩
    rw [endCall, if_neg hsize, if_pos htimer]
  · obtain ⟨hnext, hfull⟩ := hprompt.resolve_left htimer
    refine ⟨s.nextSeq, hnext, ?_⟩
    rw [endCall, if_neg hsize, if_neg htimer, hfull, Nat.sub_self, Nat.add_zero]

/-- The buffers are exchanged and the ranges go on by one buffer. -/
theorem endCall_loops {s : ApsrState} (h : g.Loops s)
    (hprompt : s.timerCount < s.timerMax ∨
      0 < s.nextSeq ∧ s.curr.count = s.packetsPerBuffer) : g.Loops (g.endCall s) := by
  obtain ⟨nextSeq, hnext, heq⟩ := endCall_eq h.toKeeps hprompt
  have hpos := h.packets_pos
  have hnextMin := h.nextMin
  have hnextMax := h.nextMax
  have hcount := h.currCount
  have hle := h.count_le
  have hdropped := h.dropped
  have hadd : countIn apsrSequence 0 s.curr.min s.arrived +
      countIn apsrSequence s.curr.min s.next.min s.arrived =
        countIn apsrSequence 0 s.next.min s.arrived :=
    countIn_add (Nat.zero_le _) (by omega) s.arrived
  rw [heq, beginCall, if_pos ⟨hnext, h.bytes⟩]
  refine
    { going := h.going
      kept := rfl
      length_pos := h.length_pos
      packets_pos := h.packets_pos
      room := h.room
      size := ?_
      currMax := h.nextMax
      nextMin := h.nextMax
      nextMax := ?_
      distinct := h.distinct
      inRange := ?_
      currFilled := h.nextFilled
      nextFilled := ?_
      currCount := ?_
      nextCount := ?_
      received := h.received
      dropped := ?_
      stream := ?_
      bytes := h.bytes }
  · exact Int.mul_nonneg (Int.natCast_nonneg _) (Int.natCast_nonneg _)
  · show s.next.max + 1 + s.packetsPerBuffer - 1 + 1 = s.next.max + 1 + s.packetsPerBuffer
    omega
  · intro p hp
    have := h.inRange p hp
    show apsrSequence p < s.next.max + 1 + s.packetsPerBuffer
    omega
  · -- the buffer that was returned is set to zero
    apply holds_of_blank
    · intro i hi
      exact if_pos (Nat.lt_of_lt_of_le hi h.room)
    · intro p hp
      have := h.inRange p hp
      left
      show apsrSequence p < s.next.max + 1
      omega
  · show s.next.count = countIn apsrSequence s.next.min (s.next.max + 1) s.arrived
    rw [h.nextMax]
    exact h.nextCount
  · symm
    apply countIn_eq_zero
    intro p hp
    have := h.inRange p hp
    left
    show apsrSequence p < s.next.max + 1
    omega
  · show countIn apsrSequence 0 s.next.min s.arrived + (s.dropped + _) = s.next.min
    omega
  · show apsrStream (s.returned ++ _) = streamTo s.packetLength s.next.min s.arrived
    rw [apsrStream_append, h.stream, hnextMin]
    exact (h.currFilled.dueStream_add (Nat.le_refl _)).symm

/-! ## One packet -/

/-- The packets of the current buffer, once this one has been put away. -/
def currCountWith (s : ApsrState) (buf : Datagram) : ℕ :=
  s.curr.count + if apsrSequence buf ≤ s.curr.max then 1 else 0

/-- The packets of the next buffer, once this one has been put away. -/
def nextCountWith (s : ApsrState) (buf : Datagram) : ℕ :=
  s.next.count + if apsrSequence buf ≤ s.curr.max then 0 else 1

/-- The condition on a packet: it belongs in one of the two buffers, its number has not come
before, and when it completes the call it has not been waited for until the limit. Waiting that
long does no harm when the buffer is full and not the first. -/
structure Timely (s : ApsrState) (buf : Datagram) : Prop where
  notPast : s.curr.min ≤ apsrSequence buf
  notBeyond : apsrSequence buf ≤ s.next.max
  fresh : ∀ p ∈ s.arrived, apsrSequence p ≠ apsrSequence buf
  prompt : s.packetsPerBuffer ≤ currCountWith s buf ∨
      s.packetsPerBuffer ≤ 2 * nextCountWith s buf →
    s.timerCount < s.timerMax ∨ 0 < s.nextSeq ∧ currCountWith s buf = s.packetsPerBuffer

theorem inRange_concat {s : ApsrState} (h : g.Keeps s) {buf : Datagram}
    (hle : apsrSequence buf ≤ s.next.max) :
    ∀ p ∈ s.arrived ++ [buf], apsrSequence p < s.next.min + s.packetsPerBuffer := by
  intro p hp
  rcases List.mem_append.mp hp with hp | hp
  · exact h.inRange p hp
  · rw [List.mem_singleton.mp hp]
    have := h.nextMax
    omega

theorem distinct_concat {s : ApsrState} (h : g.Keeps s) {buf : Datagram}
    (hfresh : ∀ p ∈ s.arrived, apsrSequence p ≠ apsrSequence buf) :
    (s.arrived ++ [buf]).Pairwise fun p q => apsrSequence p ≠ apsrSequence q := by
  rw [List.pairwise_append]
  refine ⟨h.distinct, List.pairwise_singleton _ _, ?_⟩
  intro p hp q hq
  rw [List.mem_singleton.mp hq]
  exact hfresh p hp

/-- A timely packet goes to its place in one of the two buffers. -/
theorem slot_loops {s : ApsrState} (h : g.Keeps s) {buf : Datagram} (ht : Timely s buf) :
    g.Loops (slot buf s) ∧ (slot buf s).curr.count = currCountWith s buf ∧
      (slot buf s).next.count = nextCountWith s buf ∧
      (slot buf s).timerCount = s.timerCount ∧ (slot buf s).timerMax = s.timerMax ∧
      (slot buf s).nextSeq = s.nextSeq ∧
      (slot buf s).packetsPerBuffer = s.packetsPerBuffer := by
  have hpast := ht.notPast
  have hcurrMax := h.currMax
  have hnextMin := h.nextMin
  have hnextMax := h.nextMax
  have hlen := length_apsrPayload s.packetLength buf
  have hreceived : s.received + 1 = (s.arrived ++ [buf]).length := by
    rw [List.length_append, h.received]
    rfl
  have hbytes : 0 < s.bytesReceived + s.packetLength := Nat.add_pos_right _ h.length_pos
  have hdropped : countIn apsrSequence 0 s.curr.min (s.arrived ++ [buf]) + s.dropped =
      s.curr.min := by
    rw [countIn_concat, if_neg (by omega)]
    exact h.dropped
  have hstream : apsrStream s.returned =
      streamTo s.packetLength s.curr.min (s.arrived ++ [buf]) :=
    h.stream.trans (dueStream_concat hpast s.arrived).symm
  by_cases hcurr : apsrSequence buf ≤ s.curr.max
  · -- the packet belongs in the current buffer
    have hbefore : apsrSequence buf < s.next.min := by omega
    have hcount : s.curr.count + 1 =
        countIn apsrSequence s.curr.min s.next.min (s.arrived ++ [buf]) := by
      rw [countIn_concat, if_pos (by omega), ← h.currCount]
    have hothers : s.next.count =
        countIn apsrSequence s.next.min (s.next.min + s.packetsPerBuffer) (s.arrived ++ [buf]) := by
      rw [countIn_concat, if_neg (by omega)]
      exact h.nextCount
    rw [slot, if_neg (Nat.not_lt.mpr hpast), if_pos hcurr]
    refine ⟨?_, by rw [currCountWith, if_pos hcurr], by rw [nextCountWith, if_pos hcurr]; rfl, rfl,
      rfl, rfl, rfl⟩
    exact
      { going := h.going
        kept := h.kept
        length_pos := h.length_pos
        packets_pos := h.packets_pos
        room := h.room
        size := h.size
        currMax := h.currMax
        nextMin := h.nextMin
        nextMax := h.nextMax
        distinct := distinct_concat h ht.fresh
        inRange := inRange_concat h ht.notBeyond
        currFilled := h.currFilled.copy hlen hpast
        nextFilled := h.nextFilled.other (.inl hbefore)
        currCount := hcount
        nextCount := hothers
        received := hreceived
        dropped := hdropped
        stream := hstream
        bytes := hbytes }
  · -- the packet belongs in the next buffer
    have hnext : s.next.min ≤ apsrSequence buf := by omega
    have hafter : s.curr.min + s.packetsPerBuffer ≤ apsrSequence buf := by omega
    have hothers : s.curr.count =
        countIn apsrSequence s.curr.min s.next.min (s.arrived ++ [buf]) := by
      rw [countIn_concat, if_neg (by omega)]
      exact h.currCount
    have hnotBeyond := ht.notBeyond
    have hcount : s.next.count + 1 =
        countIn apsrSequence s.next.min (s.next.min + s.packetsPerBuffer) (s.arrived ++ [buf]) := by
      rw [countIn_concat, if_pos (by omega), ← h.nextCount]
    rw [slot, if_neg (Nat.not_lt.mpr hpast), if_neg hcurr, if_pos ht.notBeyond]
    refine ⟨?_, by rw [currCountWith, if_neg hcurr]; rfl, by rw [nextCountWith, if_neg hcurr], rfl,
      rfl, rfl, rfl⟩
    exact
      { going := h.going
        kept := h.kept
        length_pos := h.length_pos
        packets_pos := h.packets_pos
        room := h.room
        size := h.size
        currMax := h.currMax
        nextMin := h.nextMin
        nextMax := h.nextMax
        distinct := distinct_concat h ht.fresh
        inRange := inRange_concat h ht.notBeyond
        currFilled := h.currFilled.other (.inr hafter)
        nextFilled := h.nextFilled.copy hlen hnext
        currCount := hothers
        nextCount := hcount
        received := hreceived
        dropped := hdropped
        stream := hstream
        bytes := hbytes }

/-- The tests after a timely packet. -/
theorem checkCounts_slot {s : ApsrState} (h : g.Keeps s) {buf : Datagram} (ht : Timely s buf) :
    g.Loops (g.checkCounts (slot buf s)) := by
  obtain ⟨hloops, hcurr, hnext, htimer, hmax, hseq, hpackets⟩ := slot_loops h ht
  by_cases henough : GotEnough (slot buf s)
  · rw [checkCounts, if_pos henough]
    apply endCall_loops hloops
    rw [htimer, hmax, hseq, hcurr, hpackets]
    apply ht.prompt
    rw [← hcurr, ← hnext, ← hpackets]
    refine henough.resolve_left ?_
    rw [hloops.kept]
    exact Bool.false_ne_true
  · rw [checkCounts, if_neg henough]
    exact { hloops with }

/-- The first packet fixes the sizes and the ranges. -/
theorem firstPacket_keeps {s : ApsrState} (h : g.Waits s) {buf : Datagram}
    (hlt : udpHeaderSize < buf.length) (hle : buf.length ≤ udpBuffSize) :
    g.Keeps (g.firstPacket buf s) := by
  have hroom := g.room
  have hlength : buf.length - udpHeaderSize ≤ g.dataSize := by omega
  have hpackets : 0 < g.dataSize / (buf.length - udpHeaderSize) :=
    Nat.div_pos hlength (Nat.sub_pos_of_lt hlt)
  have hbytes : g.dataSize / (buf.length - udpHeaderSize) * (buf.length - udpHeaderSize) ≤
      g.dataSize := Nat.div_mul_le_self _ _
  have hnone : ∀ p ∈ s.arrived, ∀ first n : ℕ,
      apsrSequence p < first ∨ first + n ≤ apsrSequence p := by
    rw [h.arrived]
    intro p hp
    cases hp
  refine
    { going := h.going
      kept := h.kept
      length_pos := Nat.sub_pos_of_lt hlt
      packets_pos := hpackets
      room := hbytes
      size := ?_
      currMax := ?_
      nextMin := ?_
      nextMax := ?_
      distinct := ?_
      inRange := ?_
      currFilled := ?_
      nextFilled := ?_
      currCount := ?_
      nextCount := ?_
      received := ?_
      dropped := ?_
      stream := ?_ }
  · exact Int.mul_nonneg (Int.natCast_nonneg _) (Int.natCast_nonneg _)
  · exact Nat.sub_add_cancel (hpackets.trans_le (Nat.le_add_left _ _))
  · exact Nat.sub_add_cancel (hpackets.trans_le (Nat.le_add_left _ _))
  · exact Nat.sub_add_cancel (hpackets.trans_le (Nat.le_add_left _ _))
  · show s.arrived.Pairwise _
    rw [h.arrived]
    exact List.Pairwise.nil
  · intro p hp
    rw [show (g.firstPacket buf s).arrived = [] from h.arrived] at hp
    cases hp
  · apply holds_of_blank
    · intro i hi
      exact h.currBlank i (Nat.lt_of_lt_of_le hi hbytes)
    · intro p hp
      exact hnone p hp _ _
  · apply holds_of_blank
    · intro i hi
      exact h.nextBlank i (Nat.lt_of_lt_of_le hi hbytes)
    · intro p hp
      exact hnone p hp _ _
  · show s.curr.count = countIn _ _ _ s.arrived
    rw [h.currCount, h.arrived]
    rfl
  · show s.next.count = countIn _ _ _ s.arrived
    rw [h.nextCount, h.arrived]
    rfl
  · show s.received = s.arrived.length
    rw [h.received, h.arrived]
    rfl
  · show countIn _ _ s.nextSeq s.arrived + s.dropped = s.nextSeq
    rw [h.dropped, h.nextSeq, h.arrived]
    rfl
  · show apsrStream s.returned = streamTo _ s.nextSeq s.arrived
    rw [h.stream, h.nextSeq]
    rfl

/-! ## Waiting for the first packet -/

/-- A call that ends before the first packet returns nothing. -/
theorem endCall_waits {s : ApsrState} (h : g.Waits s)
    (hlate : s.size < 0 ∨ ¬ s.timerCount < s.timerMax) : g.Waits (g.endCall s) := by
  have hnoswap : ¬ (0 < s.nextSeq ∧ 0 < s.bytesReceived) := by
    rw [h.nextSeq]
    exact fun hpos => Nat.lt_irrefl 0 hpos.1
  have hempty : ∀ size : ℤ, size.toNat = 0 →
      apsrStream (s.returned ++ [⟨s.curr.buffer, size⟩]) = [] := by
    intro size hsize
    simp only [apsrStream, List.flatMap_append, List.flatMap_singleton, hsize]
    rw [← apsrStream, h.stream]
    rfl
  by_cases hsize : s.size < 0
  · rw [endCall, if_pos hsize, beginCall, if_neg hnoswap]
    exact { h with
      kept := rfl
      stream := hempty _ (by omega) }
  · rw [endCall, if_neg hsize, if_neg (hlate.resolve_left hsize), beginCall, if_neg hnoswap]
    refine { h with
      kept := rfl
      stream := hempty _ ?_ }
    rw [h.currCount, Nat.zero_mul]
    rfl

theorem Waits.ignoring {s : ApsrState} (h : g.Waits s) (maxIgnore : ℕ) (size : ℤ) :
    g.Waits { s with maxIgnore := maxIgnore, size := size } := { h with }

theorem checkCounts_waits {s : ApsrState} (h : g.Waits s) : g.Waits (g.checkCounts s) := by
  have hpos := h.packets_pos
  have hnot : ¬ GotEnough s := by
    simp only [GotEnough, h.kept, h.currCount, h.nextCount]
    simp
    omega
  rw [checkCounts, if_neg hnot]
  exact { h with }

/-! ## Runs -/

/-- The condition on an event. Once data have come, the wait for a packet does not reach its
limit. -/
def InTime (s : ApsrState) : ApsrEvent → Prop
  | .again => s.timerMax < s.timerCount → s.nextSeq = 0 ∧ s.curr.count = 0
  | .packet buf _ =>
      let buf := buf.take s.payloadLength
      if s.nextSeq = 0 ∧ s.bytesReceived = 0 then
        apsrSequence buf ≤ 1000 → (buf.getD 0 0).toNat = udpHeaderSize →
          udpHeaderSize < buf.length ∧ Timely (g.firstPacket buf s) buf
      else Timely s buf

variable (g) in
/-- The runs in which every event satisfies the condition. -/
inductive Runs : ApsrState → Prop
  | started : Runs g.started
  | step {s : ApsrState} {e : ApsrEvent} : Runs s → g.InTime s e → Runs (g.step s e)

/-- The wait reaches its limit before anything has come for the current buffer. -/
theorem endCall_idle {s : ApsrState} (h : g.Loops s) (hlate : s.timerMax < s.timerCount)
    (hseq : s.nextSeq = 0) (hcount : s.curr.count = 0) : g.Loops (g.endCall s) := by
  have hnoswap : ¬ (0 < s.nextSeq ∧ 0 < s.bytesReceived) := by
    rw [hseq]
    exact fun hpos => Nat.lt_irrefl 0 hpos.1
  rw [endCall, if_neg (Int.not_lt.mpr h.size), if_neg (Nat.not_lt.mpr hlate.le), beginCall,
    if_neg hnoswap]
  refine { h with
    kept := rfl
    size := Int.mul_nonneg (Int.natCast_nonneg _) (Int.natCast_nonneg _)
    stream := ?_ }
  show apsrStream (s.returned ++ _) = _
  rw [apsrStream_append, hcount, Nat.zero_mul]
  exact (List.append_nil _).trans h.stream

theorem step_again {s : ApsrState} (h : s.aborted = false) :
    g.step s .again =
      if s.timerMax < s.timerCount then g.endCall s
      else { s with timerCount := s.timerCount + 1 } := by
  rw [step.eq_def, h, if_neg Bool.false_ne_true]

theorem step_packet {s : ApsrState} (h : s.aborted = false) (buf : Datagram)
    (hbuf : udpHeaderSize ≤ buf.length) :
    g.step s (.packet buf hbuf) = g.processPacket (buf.take s.payloadLength) s := by
  rw [step.eq_def, h, if_neg Bool.false_ne_true]

theorem runs_keeps {s : ApsrState} (h : g.Runs s) : g.Waits s ∨ g.Loops s := by
  induction h with
  | started => exact .inl started_waits
  | @step s e _ hcond ih =>
    have hgoing : s.aborted = false := by
      rcases ih with ih | ih
      · exact ih.going
      · exact ih.going
    cases e with
    | again =>
      rw [step_again hgoing]
      by_cases hlate : s.timerMax < s.timerCount
      · rw [if_pos hlate]
        rcases ih with ih | ih
        · exact .inl (endCall_waits ih (.inr (Nat.not_lt.mpr hlate.le)))
        · obtain ⟨hseq, hcount⟩ := hcond hlate
          exact .inr (endCall_idle ih hlate hseq hcount)
      · rw [if_neg hlate]
        rcases ih with ih | ih
        · exact .inl { ih with }
        · exact .inr { ih with }
    | packet buf hbuf =>
      rw [step_packet hgoing, processPacket]
      rcases ih with ih | ih
      · have hwaits : s.nextSeq = 0 ∧ s.bytesReceived = 0 := ⟨ih.nextSeq, ih.bytes⟩
        rw [InTime, if_pos hwaits] at hcond
        rw [if_pos hwaits]
        by_cases hhigh : 1000 < apsrSequence (buf.take s.payloadLength)
        · rw [if_pos hhigh]
          exact .inl (checkCounts_waits (ih.ignoring _ _))
        · rw [if_neg hhigh]
          by_cases hheader : ((buf.take s.payloadLength).getD 0 0).toNat ≠ udpHeaderSize
          · rw [if_pos hheader]
            exact .inl (endCall_waits (ih.ignoring _ (-2)) (.inl (show (-2 : ℤ) < 0 by decide)))
          · obtain ⟨hlong, htimely⟩ := hcond (Nat.not_lt.mp hhigh) (not_not.mp hheader)
            have hshort : (buf.take s.payloadLength).length ≤ udpBuffSize := by
              rw [List.length_take]
              exact (Nat.min_le_left _ _).trans ih.payload_le
            rw [if_neg hheader, if_neg hlong.ne']
            exact .inr (checkCounts_slot (firstPacket_keeps ih hlong hshort) htimely)
      · have hruns : ¬ (s.nextSeq = 0 ∧ s.bytesReceived = 0) := fun h => by
          have := ih.bytes
          omega
        rw [InTime, if_neg hruns] at hcond
        rw [if_neg hruns]
        exact .inr (checkCounts_slot ih.toKeeps hcond)

/-! ## The end of the data -/

variable (g) in
/-- What follows when the data end: the wait reaches its limit when what has come of the current
block is its first packets, and after that with nothing in the current buffer. -/
inductive Ends : ApsrState → Prop
  | last {s : ApsrState} : g.Runs s → s.timerMax < s.timerCount →
      (∀ p ∈ s.arrived, s.curr.min + s.curr.count ≤ apsrSequence p → s.next.min ≤ apsrSequence p) →
      Ends (g.step s .again)
  | again {s : ApsrState} : Ends s → (s.timerMax < s.timerCount → s.curr.count = 0) →
      Ends (g.step s .again)

/-- The stream is that of the first `n` numbers, each of them received or dropped. -/
structure Ended (s : ApsrState) (n : ℕ) : Prop where
  going : s.aborted = false
  distinct : s.arrived.Pairwise fun p q => apsrSequence p ≠ apsrSequence q
  received : s.received = s.arrived.length
  dropped : countIn apsrSequence 0 n s.arrived + s.dropped = n
  stream : apsrStream s.returned = streamTo s.packetLength n s.arrived

theorem beginCall_ended {s : ApsrState} {n : ℕ} (h : Ended s n) : Ended (g.beginCall s) n := by
  by_cases hswap : 0 < s.nextSeq ∧ 0 < s.bytesReceived
  · rw [beginCall, if_pos hswap]
    exact { h with }
  · rw [beginCall, if_neg hswap]
    exact { h with }

theorem Waits.ended {s : ApsrState} (h : g.Waits s) : Ended s 0 where
  going := h.going
  distinct := by
    rw [h.arrived]
    exact List.Pairwise.nil
  received := by
    rw [h.received, h.arrived]
    rfl
  dropped := by
    rw [h.dropped, h.arrived]
    rfl
  stream := h.stream

theorem Keeps.ended {s : ApsrState} (h : g.Keeps s) : Ended s s.curr.min where
  going := h.going
  distinct := h.distinct
  received := h.received
  dropped := h.dropped
  stream := h.stream

/-- The last block is cut after the packets that have come for it. -/
theorem endCall_last {s : ApsrState} (h : g.Loops s) (hlate : s.timerMax < s.timerCount)
    (hfirst : ∀ p ∈ s.arrived,
      s.curr.min + s.curr.count ≤ apsrSequence p → s.next.min ≤ apsrSequence p) :
    Ended (g.endCall s) (s.curr.min + s.curr.count) := by
  have hle := h.count_le
  have hnextMin := h.nextMin
  have hrest : countIn apsrSequence (s.curr.min + s.curr.count) s.next.min s.arrived = 0 := by
    apply countIn_eq_zero
    intro p hp
    rcases Nat.lt_or_ge (apsrSequence p) (s.curr.min + s.curr.count) with hlt | hge
    · exact .inl hlt
    · exact .inr (hfirst p hp hge)
  have hblock : countIn apsrSequence s.curr.min (s.curr.min + s.curr.count) s.arrived +
      countIn apsrSequence (s.curr.min + s.curr.count) s.next.min s.arrived =
        countIn apsrSequence s.curr.min s.next.min s.arrived :=
    countIn_add (Nat.le_add_right _ _) (by omega) s.arrived
  have hall : countIn apsrSequence 0 s.curr.min s.arrived +
      countIn apsrSequence s.curr.min (s.curr.min + s.curr.count) s.arrived =
        countIn apsrSequence 0 (s.curr.min + s.curr.count) s.arrived :=
    countIn_add (Nat.zero_le _) (Nat.le_add_right _ _) s.arrived
  rw [endCall, if_neg (Int.not_lt.mpr h.size), if_neg (Nat.not_lt.mpr hlate.le)]
  apply beginCall_ended
  refine
    { going := h.going
      distinct := h.distinct
      received := h.received
      dropped := ?_
      stream := ?_ }
  · have hdropped := h.dropped
    have hcount := h.currCount
    show countIn apsrSequence 0 (s.curr.min + s.curr.count) s.arrived + s.dropped = _
    omega
  · show apsrStream (s.returned ++ _) = _
    rw [apsrStream_append, h.stream]
    exact (h.currFilled.dueStream_add hle).symm

/-- After the end of the data a call that times out returns nothing. -/
theorem endCall_after {s : ApsrState} {n : ℕ} (h : Ended s n) (hsize : 0 ≤ s.size)
    (hlate : s.timerMax < s.timerCount) (hcount : s.curr.count = 0) : Ended (g.endCall s) n := by
  rw [endCall, if_neg (Int.not_lt.mpr hsize), if_neg (Nat.not_lt.mpr hlate.le)]
  apply beginCall_ended
  refine { h with stream := ?_ }
  show apsrStream (s.returned ++ _) = _
  rw [apsrStream_append, hcount, Nat.zero_mul]
  exact (List.append_nil _).trans h.stream

theorem size_endCall (s : ApsrState) : 0 ≤ (g.endCall s).size := by
  rw [endCall, beginCall]
  exact Int.mul_nonneg (Int.natCast_nonneg _) (Int.natCast_nonneg _)

theorem ends_ended {s : ApsrState} (h : g.Ends s) : 0 ≤ s.size ∧ ∃ n, Ended s n := by
  induction h with
  | @last s hruns hlate hfirst =>
    rcases runs_keeps hruns with hs | hs
    · rw [step_again hs.going, if_pos hlate]
      exact ⟨size_endCall s, 0, (endCall_waits hs (.inr (Nat.not_lt.mpr hlate.le))).ended⟩
    · rw [step_again hs.going, if_pos hlate]
      exact ⟨size_endCall s, _, endCall_last hs hlate hfirst⟩
  | @again s _ hcond ih =>
    obtain ⟨hsize, n, hn⟩ := ih
    rw [step_again hn.going]
    by_cases hlate : s.timerMax < s.timerCount
    · rw [if_pos hlate]
      exact ⟨size_endCall s, n, endCall_after hn hsize hlate (hcond hlate)⟩
    · rw [if_neg hlate]
      exact ⟨hsize, n, { hn with }⟩

/-! ## Continuity -/

/-- The stream has a place of one packet length for each of the first `n` numbers. -/
structure Continuous (s : ApsrState) (n : ℕ) : Prop where
  length : (apsrStream s.returned).length = n * s.packetLength
  /-- A packet is at the place of its number. -/
  placed : ∀ p ∈ s.arrived, apsrSequence p < n →
    ((apsrStream s.returned).drop (apsrSequence p * s.packetLength)).take s.packetLength =
      apsrPayload s.packetLength p
  /-- A packet that was lost leaves a hole. -/
  holes : ∀ k < n, (∀ p ∈ s.arrived, apsrSequence p ≠ k) →
    ((apsrStream s.returned).drop (k * s.packetLength)).take s.packetLength =
      List.replicate s.packetLength 0
  received : s.received = s.arrived.length
  /-- Each of the numbers is received once or dropped. -/
  once : s.arrived.Pairwise fun p q => apsrSequence p ≠ apsrSequence q
  counted : countIn apsrSequence 0 n s.arrived + s.dropped = n

theorem Ended.continuous {s : ApsrState} {n : ℕ} (h : Ended s n) : Continuous s n := by
  have hlen := length_apsrPayload s.packetLength
  refine
    { length := ?_
      placed := ?_
      holes := ?_
      received := h.received
      once := h.distinct
      counted := h.dropped }
  · rw [h.stream]
    exact length_dueStream hlen n s.arrived
  · intro p hp hlt
    rw [h.stream]
    exact (place_dueStream hlen hlt s.arrived).trans (due_of_mem h.distinct hp)
  · intro k hk hnone
    rw [h.stream]
    exact (place_dueStream hlen hk s.arrived).trans (due_of_none hnone)

end ApsrUdpdb

/-! ## A packet that is held over -/

/-- A packet with one byte of data, by the two high bytes of its number. -/
def apsrPacket (high low : UInt8) : Datagram :=
  [24, 0, high, low, 0, 0, 8, 0, 1, 1, 0, 0, 0, 0, 0, 0, 0, 0, 0, 0, 0, 0, 0, 0, 1]

theorem room_in_data : udpBuffSize - udpHeaderSize ≤ 32 * 1024 * 1024 := by decide

/-- The default rate, and the 32 MB of `apsr_udpdb_init`. -/
def apsrDefault : ApsrUdpdb := ⟨64000000, 32 * 1024 * 1024, room_in_data⟩

theorem header_le_apsrPacket (high low : UInt8) :
    udpHeaderSize ≤ (apsrPacket high low).length := by
  show udpHeaderSize ≤ 25
  decide

/-- A packet as the next event. -/
def apsrArrival (high low : UInt8) : ApsrEvent :=
  .packet (apsrPacket high low) (header_le_apsrPacket high low)

/-- The capture of packets `0`, `0x4000000`, `0x8000000` and `0xc000000`, each but the first one
beyond both buffers. -/
def apsrHeldOver : ApsrState :=
  [apsrArrival 0 0, apsrArrival 4 0, apsrArrival 8 0, apsrArrival 12 0].foldl apsrDefault.step
    apsrDefault.started

end Psrdada
