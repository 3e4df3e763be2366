import Psrdada.Bpsr.Udpdb
import Mathlib.Data.List.Chain

/-! # What the buffers of the BPSR capture hold

As long as no packet is met that belongs beyond the current block, every buffer that is returned
holds at each place what the last packet with that number brought, or zeros. -/

namespace Psrdada

namespace BpsrConfig

variable (g : BpsrConfig)

/-- What belongs at the place of packet `k`. -/
def expected (k : ℕ) (ps : List Datagram) : List UInt8 :=
  latest g.sequenceNo g.payload (List.replicate g.packetDataSize 0) k ps

theorem length_payload (buf : Datagram) : (g.payload buf).length = g.packetDataSize := by
  simp only [payload, packetPayloadSize, List.length_take, List.length_drop, List.length_append,
    List.length_replicate]
  omega

/-- A buffer that holds what has come for its block. -/
def Filled (minSequence : ℕ) (buffer : Memory UInt8) (ps : List Datagram) : Prop :=
  ∀ k, minSequence ≤ k → k < minSequence + g.packetsPerBlock →
    buffer.slice ((k - minSequence) * g.packetDataSize) g.packetDataSize = g.expected k ps

/-- What the loop of a call keeps, apart from the bound on its count. -/
structure Keeps (s : BpsrState) : Prop where
  min_eq : s.minSequence = s.expectedSequenceNo
  mid_eq : s.midSequence = s.minSequence + g.packetsPerBlock
  max_eq : s.maxSequence = s.midSequence + g.packetsPerBlock
  punctual : ∀ p ∈ s.arrived, g.sequenceNo p < s.midSequence
  filled : g.Filled s.minSequence s.currBuffer s.arrived
  blank : ∀ i < g.blockSize, s.nextBuffer i = 0
  nextCount : s.nextBufferCount = 0
  none_kept : s.packetInBuffer = none
  idle : s.dataReceived = 0 → ∀ p ∈ s.arrived, g.sequenceNo p < s.minSequence
  going : s.aborted = false
  count_le : s.currBufferCount ≤ g.packetsPerBlock
  returned : ∀ r ∈ s.returned, g.Filled r.minSequence r.buffer r.arrived
  -- the blocks come in order, none left out
  first : s.returned = [] → s.minSequence = 0
  order : (s.returned.map BpsrReturned.minSequence ++ [s.minSequence]).IsChain
    fun a b => b = a ∨ b = a + g.packetsPerBlock
  start : ∀ r ∈ s.returned.head?, r.minSequence = 0

/-- In the loop a call that has taken nothing has counted nothing. -/
structure Loops (s : BpsrState) : Prop extends g.Keeps s where
  count_lt : s.currBufferCount < g.packetsPerBlock
  count_idle : s.dataReceived = 0 → s.currBufferCount = 0

/-- A buffer of zeros is filled as long as nothing has come for its block. -/
theorem filled_of_blank {minSequence : ℕ} {buffer : Memory UInt8} {ps : List Datagram}
    (hblank : ∀ i < g.blockSize, buffer i = 0)
    (hnone : ∀ p ∈ ps, g.sequenceNo p < minSequence) : g.Filled minSequence buffer ps := by
  intro k hge hlt
  rw [expected, latest_of_none _ _ _ (fun p hp => by have := hnone p hp; omega)]
  have hroom : (k - minSequence) * g.packetDataSize + g.packetDataSize ≤ g.blockSize := by
    rw [← Nat.succ_mul]
    exact Nat.mul_le_mul_right _ (by omega)
  rw [List.eq_replicate_iff]
  refine ⟨Memory.length_slice _ _ _, ?_⟩
  intro b hb
  obtain ⟨i, hi, rfl⟩ := List.mem_map.mp hb
  rw [List.mem_range] at hi
  exact hblank _ (by omega)

/-- The start of a call, with a blank buffer and nothing that has come for it. -/
theorem beginCall_loops {s : BpsrState} (hblank : ∀ i < g.blockSize, s.nextBuffer i = 0)
    (hcount : s.nextBufferCount = 0) (hnone : s.packetInBuffer = none)
    (hgoing : s.aborted = false) (hcome : ∀ p ∈ s.arrived, g.sequenceNo p < s.expectedSequenceNo)
    (hreturned : ∀ r ∈ s.returned, g.Filled r.minSequence r.buffer r.arrived)
    (hfirst : s.returned = [] → s.expectedSequenceNo = 0)
    (horder : (s.returned.map BpsrReturned.minSequence ++ [s.expectedSequenceNo]).IsChain
      fun a b => b = a ∨ b = a + g.packetsPerBlock)
    (hstart : ∀ r ∈ s.returned.head?, r.minSequence = 0) : g.Loops (g.beginCall s) where
  min_eq := rfl
  mid_eq := rfl
  max_eq := rfl
  punctual p hp := Nat.lt_add_right _ (hcome p hp)
  filled := g.filled_of_blank hblank hcome
  blank i hi := if_pos hi
  nextCount := rfl
  none_kept := hnone
  idle _ := hcome
  going := hgoing
  count_le := by show s.nextBufferCount ≤ _; rw [hcount]; exact Nat.zero_le _
  returned := hreturned
  first := hfirst
  order := horder
  start := hstart
  count_lt := by show s.nextBufferCount < _; rw [hcount]; exact g.packets_pos
  count_idle _ := hcount

/-- The end of a call and the start of the next. -/
theorem endCall_loops {s : BpsrState} (h : g.Keeps s) (timeoutOccurred : Bool) :
    g.Loops (g.endCall timeoutOccurred s) := by
  have hreturned : ∀ (size : ℕ), ∀ r ∈ s.returned ++ [s.out size],
      g.Filled r.minSequence r.buffer r.arrived := by
    intro size r hr
    rcases List.mem_append.mp hr with hr | hr
    · exact h.returned r hr
    · rw [List.mem_singleton.mp hr]
      exact h.filled
  have hstart : ∀ (size : ℕ), ∀ r ∈ (s.returned ++ [s.out size]).head?, r.minSequence = 0 := by
    intro size r hr
    cases hcase : s.returned with
    | nil =>
      rw [hcase] at hr
      cases hr
      exact h.first hcase
    | cons r' rest =>
      rw [hcase] at hr
      cases hr
      exact h.start r (by rw [hcase]; rfl)
  have horder : ∀ (size next : ℕ),
      next = s.minSequence ∨ next = s.minSequence + g.packetsPerBlock →
        ((s.returned ++ [s.out size]).map
          BpsrReturned.minSequence ++ [next]).IsChain
            fun a b => b = a ∨ b = a + g.packetsPerBlock := by
    intro size next hnext
    rw [List.map_append, List.append_assoc]
    apply List.isChain_split.mpr
    refine ⟨h.order, List.isChain_pair.mpr hnext⟩
  by_cases hdata : 0 < s.dataReceived
  · rw [endCall, if_pos hdata]
    refine g.beginCall_loops h.blank h.nextCount h.none_kept h.going ?_ (hreturned _) (by simp) ?_
      (hstart _)
    · intro p hp
      have := h.punctual p hp
      rwa [h.mid_eq, h.min_eq] at this
    · exact horder _ _ (.inr (by rw [h.min_eq]))
  · rw [endCall, if_neg hdata]
    refine g.beginCall_loops h.blank h.nextCount h.none_kept h.going ?_ (hreturned _) (by simp) ?_
      (hstart _)
    · intro p hp
      have := h.idle (by omega) p hp
      rwa [h.min_eq] at this
    · exact horder _ _ (.inl h.min_eq.symm)

/-! ## One packet -/

/-- The condition on a packet: it does not belong beyond the current block, and when it is the
first it is not short. -/
structure Punctual (s : BpsrState) (buf : Datagram) : Prop where
  inTime : g.sequenceNo buf < s.midSequence
  whole : s.expectedSequenceNo = 0 ∧ s.dataReceived = 0 → g.packetPayloadSize ≤ buf.length

/-- A packet of the block goes to its place and leaves the others alone. -/
theorem filled_copy {minSequence : ℕ} {buffer : Memory UInt8} {ps : List Datagram}
    (h : g.Filled minSequence buffer ps) {buf : Datagram} (hge : minSequence ≤ g.sequenceNo buf) :
    g.Filled minSequence
      (buffer.copy ((g.sequenceNo buf - minSequence) * g.packetDataSize) (g.payload buf))
      (ps ++ [buf]) := by
  intro k hk hlt
  rw [expected, latest_concat]
  have hlen := g.length_payload buf
  by_cases heq : g.sequenceNo buf = k
  · subst heq
    rw [if_pos rfl, ← hlen]
    exact Memory.slice_copy_self _ _ _
  · rw [if_neg heq, Memory.slice_copy_of_disjoint]
    · exact h k hk hlt
    · rw [hlen, ← Nat.succ_mul, ← Nat.succ_mul]
      rcases Nat.lt_or_gt_of_ne heq with hcase | hcase
      · exact .inr (Nat.mul_le_mul_right _ (by omega))
      · exact .inl (Nat.mul_le_mul_right _ (by omega))

/-- A packet of an earlier block changes nothing that is expected. -/
theorem filled_late {minSequence : ℕ} {buffer : Memory UInt8} {ps : List Datagram}
    (h : g.Filled minSequence buffer ps) {buf : Datagram} (hlate : g.sequenceNo buf < minSequence) :
    g.Filled minSequence buffer (ps ++ [buf]) := by
  intro k hk hlt
  rw [expected, latest_concat, if_neg (by omega)]
  exact h k hk hlt

theorem slot_keeps {s : BpsrState} (h : g.Loops s) {count : ℕ} (hcount : count < g.packetsPerBlock)
    {buf : Datagram} (htime : g.sequenceNo buf < s.midSequence) :
    g.Keeps (g.slot buf { s with arrived := s.arrived ++ [buf], currBufferCount := count }) ∧
      0 < (g.slot buf { s with
        arrived := s.arrived ++ [buf], currBufferCount := count }).dataReceived := by
  have hdata := g.data_pos
  have hpunctual : ∀ p ∈ s.arrived ++ [buf], g.sequenceNo p < s.midSequence := by
    intro p hp
    rcases List.mem_append.mp hp with hp | hp
    · exact h.punctual p hp
    · rw [List.mem_singleton.mp hp]
      exact htime
  have hbusy : s.dataReceived + g.packetDataSize = 0 → ∀ p ∈ s.arrived ++ [buf],
      g.sequenceNo p < s.minSequence := fun hzero => by omega
  by_cases hin : s.minSequence ≤ g.sequenceNo buf
  · have hboth : s.minSequence ≤ g.sequenceNo buf ∧ g.sequenceNo buf < s.midSequence :=
      ⟨hin, htime⟩
    simp only [slot, if_pos hboth]
    refine ⟨?_, Nat.add_pos_right _ hdata⟩
    exact
      { min_eq := h.min_eq
        mid_eq := h.mid_eq
        max_eq := h.max_eq
        punctual := hpunctual
        filled := g.filled_copy h.filled hin
        blank := h.blank
        nextCount := h.nextCount
        none_kept := h.none_kept
        idle := hbusy
        going := h.going
        count_le := hcount
        returned := h.returned
        first := h.first
        order := h.order
        start := h.start }
  · have hnext : ¬ (s.midSequence ≤ g.sequenceNo buf ∧ g.sequenceNo buf < s.maxSequence) := by
      omega
    simp only [slot, if_neg (show ¬ (s.minSequence ≤ g.sequenceNo buf ∧
      g.sequenceNo buf < s.midSequence) from fun hboth => hin hboth.1), if_neg hnext,
      if_pos (Nat.lt_of_not_le hin)]
    refine ⟨?_, Nat.add_pos_right _ hdata⟩
    exact
      { min_eq := h.min_eq
        mid_eq := h.mid_eq
        max_eq := h.max_eq
        punctual := hpunctual
        filled := g.filled_late h.filled (Nat.lt_of_not_le hin)
        blank := h.blank
        nextCount := h.nextCount
        none_kept := h.none_kept
        idle := hbusy
        going := h.going
        count_le := Nat.le_of_lt hcount
        returned := h.returned
        first := h.first
        order := h.order
        start := h.start }

theorem checkCounts_loops {s : BpsrState} (h : g.Keeps s) (hbusy : 0 < s.dataReceived) :
    g.Loops (g.checkCounts s) := by
  have hnone := h.none_kept
  by_cases hfull : s.currBufferCount = g.packetsPerBlock ∨ s.packetInBuffer.isSome
  · rw [checkCounts, if_pos hfull, if_pos h.count_le]
    exact g.endCall_loops h false
  · have hle := h.count_le
    have hnext := h.nextCount
    rw [checkCounts, if_neg hfull, if_neg (by omega), if_neg (by omega)]
    exact { h with
      count_lt := by
        have : s.currBufferCount ≠ g.packetsPerBlock := fun heq => hfull (.inl heq)
        omega
      count_idle := fun hzero => by omega }

/-- A packet that meets the condition, with the end of the call that it may bring. -/
theorem processPacket_loops {s : BpsrState} (h : g.Loops s) {buf : Datagram}
    (hp : g.Punctual s buf) :
    g.Loops (g.processPacket buf { s with arrived := s.arrived ++ [buf] }) := by
  have htime := hp.inTime
  by_cases hwait : s.expectedSequenceNo = 0 ∧ s.dataReceived = 0
  · have hshort : ¬ buf.length < g.packetPayloadSize := Nat.not_lt.mpr (hp.whole hwait)
    have hmax : g.sequenceNo buf < s.maxSequence := by
      have := h.max_eq
      omega
    have hcount : s.currBufferCount + g.sequenceNo buf < g.packetsPerBlock := by
      have := h.count_idle hwait.2
      have := h.mid_eq
      have := h.min_eq
      omega
    obtain ⟨hkeeps, hbusy⟩ := g.slot_keeps h hcount htime
    have heq : g.processPacket buf { s with arrived := s.arrived ++ [buf] } =
        g.checkCounts (g.slot buf { s with
          arrived := s.arrived ++ [buf]
          currBufferCount := s.currBufferCount + g.sequenceNo buf }) := by
      simp only [processPacket, if_pos hwait, if_neg hshort, if_pos hmax, firstCounts,
        if_pos htime]
    rw [heq]
    exact g.checkCounts_loops hkeeps hbusy
  · obtain ⟨hkeeps, hbusy⟩ := g.slot_keeps h h.count_lt htime
    have heq : g.processPacket buf { s with arrived := s.arrived ++ [buf] } =
        g.checkCounts (g.slot buf { s with
          arrived := s.arrived ++ [buf]
          currBufferCount := s.currBufferCount }) := by
      simp only [processPacket, if_neg hwait]
    rw [heq]
    exact g.checkCounts_loops hkeeps hbusy

/-! ## Runs -/

/-- The runs of the calls in which every packet that is met satisfies the condition. -/
inductive Runs : BpsrState → Prop
  | started : Runs g.started
  | step {s : BpsrState} {e : BpsrEvent} : Runs s →
      (∀ buf h, e = .packet buf h → g.Punctual s buf) → Runs (g.step s e)

theorem started_loops : g.Loops g.started :=
  g.beginCall_loops (fun _ _ => rfl) rfl rfl rfl (fun p hp => by cases hp)
    (fun r hr => by cases hr) (fun _ => rfl) (List.isChain_singleton _) (fun r hr => by cases hr)

theorem runs_loops {s : BpsrState} (h : g.Runs s) : g.Loops s := by
  induction h with
  | started => exact g.started_loops
  | @step s e _ hcond ih =>
    have hgo : ¬ s.aborted = true := by rw [ih.going]; decide
    rw [BpsrConfig.step.eq_def, if_neg hgo]
    split
    · next buf hkept =>
      rw [ih.none_kept] at hkept
      cases hkept
    · cases e with
      | timeout => exact g.endCall_loops ih.toKeeps true
      | packet buf hbuf => exact g.processPacket_loops ih (hcond buf hbuf rfl)

/-- What the buffers that have been returned hold, and which blocks they are. -/
structure Delivered (s : BpsrState) : Prop where
  /-- At the place of each number is what the last packet with it brought before the buffer was
  returned, and zeros where none has come. -/
  filled : ∀ r ∈ s.returned, g.Filled r.minSequence r.buffer r.arrived
  /-- The blocks are returned in order from the first, and none is left out. -/
  start : ∀ r ∈ s.returned.head?, r.minSequence = 0
  order : (s.returned.map BpsrReturned.minSequence).IsChain
    fun a b => b = a ∨ b = a + g.packetsPerBlock

end BpsrConfig

/-! ## A packet of the next block -/

/-- A packet with a small sequence number and data that tell it from the others, for an
accumulation length of one. -/
def bpsrPacket (seq : UInt8) : Datagram :=
  0 :: 0 :: 0 :: 0 :: 0 :: 0 :: 2 * seq :: 0 :: List.replicate 2048 (seq + 1)

theorem length_bpsrPacket (seq : UInt8) : (bpsrPacket seq).length = 2056 := by
  simp only [bpsrPacket, List.length_cons, List.length_replicate]

/-- Blocks of two packets. -/
def bpsrPairs : BpsrConfig where
  packetDataSize := 2048
  packetsPerBlock := 2
  sequenceIncr := 512
  data_pos := Nat.succ_pos _
  packets_pos := Nat.zero_lt_two

theorem header_le_bpsrPacket (seq : UInt8) :
    BpsrConfig.packetHeaderSize ≤ (bpsrPacket seq).length := by
  rw [length_bpsrPacket]
  decide

/-- A packet as the next event. -/
def bpsrArrival (seq : UInt8) : BpsrEvent := .packet (bpsrPacket seq) (header_le_bpsrPacket seq)

/-- The capture of packets 0, 2 and 1. -/
def bpsrEarly : BpsrState :=
  [bpsrArrival 0, bpsrArrival 2, bpsrArrival 1].foldl bpsrPairs.step bpsrPairs.started

end Psrdada
