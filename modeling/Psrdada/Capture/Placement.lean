import Psrdada.Capture.Queue
import Mathlib.Data.List.Nodup
import Mathlib.Data.List.Perm.Subperm
import Mathlib.Tactic.Ring

/-! # Placement and accounting of a capture

The condition on an arriving packet under which the loop of `Psrdada.Capture.Queue` keeps its
books: in the block that is open or the next, and not seen before. Over any run of such packets
every block that is closed holds each of its packets at its place, and every packet is counted
once. -/

namespace Psrdada

namespace QueueCapture

variable (g : QueueCapture) (ring : ℕ → Memory UInt8)

/-! ## Packets by their position -/

/-- The packets with `seq_byte` from `lo` on and below `hi`. -/
def between (lo hi : ℕ) (ps : List Datagram) : List Datagram :=
  ps.filter fun p => decide (lo ≤ g.seqByte p) && decide (g.seqByte p < hi)

/-- The packets below `hi`. -/
def below (hi : ℕ) (ps : List Datagram) : List Datagram :=
  ps.filter fun p => g.seqByte p < hi

theorem mem_between {lo hi : ℕ} {ps : List Datagram} {p : Datagram} :
    p ∈ g.between lo hi ps ↔ p ∈ ps ∧ lo ≤ g.seqByte p ∧ g.seqByte p < hi := by
  simp [between]

theorem mem_below {hi : ℕ} {ps : List Datagram} {p : Datagram} :
    p ∈ g.below hi ps ↔ p ∈ ps ∧ g.seqByte p < hi := by
  simp [below]

theorem between_concat (lo hi : ℕ) (ps : List Datagram) (p : Datagram) :
    g.between lo hi (ps ++ [p]) =
      g.between lo hi ps ++ if lo ≤ g.seqByte p ∧ g.seqByte p < hi then [p] else [] := by
  by_cases h : lo ≤ g.seqByte p ∧ g.seqByte p < hi <;> simp [between, List.filter_append, h]

theorem below_concat (hi : ℕ) (ps : List Datagram) (p : Datagram) :
    g.below hi (ps ++ [p]) = g.below hi ps ++ if g.seqByte p < hi then [p] else [] := by
  by_cases h : g.seqByte p < hi <;> simp [below, List.filter_append, h]

/-- Below the end of a stretch are those below its start and those in it. -/
theorem length_below_add (lo hi : ℕ) (h : lo ≤ hi) (ps : List Datagram) :
    (g.below hi ps).length = (g.below lo ps).length + (g.between lo hi ps).length := by
  induction ps with
  | nil => rfl
  | cons p ps ih =>
    simp only [below, between] at ih ⊢
    by_cases hlo : g.seqByte p < lo
    · have hhi : g.seqByte p < hi := by omega
      simp [hlo, hhi, Nat.not_le.mpr hlo]
      omega
    · by_cases hhi : g.seqByte p < hi
      · simp [hlo, hhi, Nat.not_lt.mp hlo]
        omega
      · simp [hlo, hhi]
        omega

/-- No two packets have the same position, and each position is a multiple of the size. -/
structure Distinct (ps : List Datagram) : Prop where
  differ : ps.Pairwise fun p q => g.seqByte p ≠ g.seqByte q
  whole : ∀ p ∈ ps, g.size ∣ g.seqByte p
  sized : ∀ p ∈ ps, p.length = g.udpPayload

theorem length_payload {p : Datagram} (h : p.length = g.udpPayload) :
    (g.payload p).length = g.size := by
  have hle := g.size_le
  simp only [payload, List.length_take, List.length_drop, h]
  omega

theorem size_le_hduBufsz : g.size ≤ g.hduBufsz :=
  Nat.le_mul_of_pos_left _ g.packets_pos

/-- Two packets at different multiples of the size are a whole packet apart. -/
theorem apart_of_ne {a b : ℕ} (ha : g.size ∣ a) (hb : g.size ∣ b) (h : a ≠ b) :
    a + g.size ≤ b ∨ b + g.size ≤ a := by
  obtain ⟨i, rfl⟩ := ha
  obtain ⟨j, rfl⟩ := hb
  have hne : i ≠ j := fun hij => h (by rw [hij])
  rcases Nat.lt_or_gt_of_ne hne with hlt | hlt
  · exact .inl (by rw [← Nat.mul_succ]; exact Nat.mul_le_mul_left _ hlt)
  · exact .inr (by rw [← Nat.mul_succ]; exact Nat.mul_le_mul_left _ hlt)

/-- A packet that starts inside of a block ends inside of it. -/
theorem end_le_of_lt {start a : ℕ} (hstart : g.size ∣ start) (ha : g.size ∣ a)
    (hlt : a < start + g.hduBufsz) : a + g.size ≤ start + g.hduBufsz := by
  have hblock : g.size ∣ start + g.hduBufsz := Nat.dvd_add hstart (Nat.dvd_mul_left _ _)
  rcases g.apart_of_ne ha hblock (by omega) with h | h
  · exact h
  · omega

/-- A stretch has room for as many distinct packets as it is long. -/
theorem length_between_le {start : ℕ} (hstart : g.size ∣ start) (room : ℕ) {ps : List Datagram}
    (h : g.Distinct ps) : (g.between start (start + room * g.size) ps).length ≤ room := by
  let slot : Datagram → ℕ := fun p => (g.seqByte p - start) / g.size
  have hslot : ∀ p ∈ g.between start (start + room * g.size) ps,
      g.seqByte p = start + slot p * g.size := by
    intro p hp
    rw [mem_between] at hp
    have hdvd : g.size ∣ g.seqByte p - start := Nat.dvd_sub (h.whole p hp.1) hstart
    have hmul := Nat.div_mul_cancel hdvd
    show _ = start + (g.seqByte p - start) / g.size * g.size
    omega
  have hnodup : ((g.between start (start + room * g.size) ps).map slot).Nodup := by
    rw [List.Nodup, List.pairwise_map]
    refine (h.differ.filter _).imp_of_mem ?_
    intro p q hp hq hne heq
    apply hne
    rw [hslot p hp, hslot q hq, heq]
  have hsub : (g.between start (start + room * g.size) ps).map slot ⊆ List.range room := by
    intro k hk
    obtain ⟨p, hp, rfl⟩ := List.mem_map.mp hk
    have hlt := ((g.mem_between).mp hp).2.2
    rw [hslot p hp] at hlt
    rw [List.mem_range]
    exact lt_of_mul_lt_mul_right (show slot p * g.size < room * g.size by omega) (Nat.zero_le _)
  have hle := (hnodup.subperm hsub).length_le
  simpa using hle

/-! ## What holds of a run -/

/-- The packets of a closed block are all at their places, and those that are not there are
declared lost. -/
structure Settled (b : ClosedBlock) (ps : List Datagram) : Prop where
  full : b.bytesWritten = g.hduBufsz
  lost : b.dropped + (g.between b.startByte (b.startByte + g.hduBufsz) ps).length =
    g.packetsPerBuffer
  placed : ∀ p ∈ g.between b.startByte (b.startByte + g.hduBufsz) ps,
    b.contents.slice (g.seqByte p - b.startByte) g.size = g.payload p

/-- What the loop keeps track of once the first packet has come. -/
structure Tracks (s : CaptureState) : Prop where
  distinct : g.Distinct s.arrived
  aligned : g.size ∣ s.blockStartByte
  ends : s.blockEndByte + g.size = s.blockStartByte + g.hduBufsz
  room : s.blockStartByte + g.hduBufsz ≤ 2 ^ 64
  ahead : ∀ p ∈ s.arrived, g.seqByte p < s.blockStartByte + 2 * g.hduBufsz
  begun : ∀ p ∈ s.arrived, s.blockStartByte ≤ g.seqByte p + s.closed.length * g.hduBufsz
  chain : ∀ (i : ℕ) (h : i < s.closed.length),
    s.closed[i].startByte + (s.closed.length - i) * g.hduBufsz = s.blockStartByte
  queue : s.temp = (g.between (s.blockStartByte + g.hduBufsz) (s.blockStartByte + 2 * g.hduBufsz)
    s.arrived).map fun p => (g.seqByte p, g.payload p)
  count : s.blockCount =
    (g.between s.blockStartByte (s.blockStartByte + g.hduBufsz) s.arrived).length
  placed : ∀ p ∈ g.between s.blockStartByte (s.blockStartByte + g.hduBufsz) s.arrived,
    s.block.slice (g.seqByte p - s.blockStartByte) g.size = g.payload p
  received : s.received = (g.below (s.blockStartByte + g.hduBufsz) s.arrived).length
  dropped : s.dropped + (g.below s.blockStartByte s.arrived).length =
    g.packetsPerBuffer * s.closed.length
  settled : ∀ b ∈ s.closed, g.Settled b s.arrived

/-- The condition on an arriving packet: its position fits the 64 bits with two blocks to spare,
it belongs in the block that is open or the next one, none of its position has come before, and
if it is queued the bytes that are kept are those that belong in the block. -/
structure Orderly (s : CaptureState) (p : Datagram) : Prop where
  fits : g.number p * g.size + 2 * g.hduBufsz ≤ 2 ^ 64
  notLate : (g.start p s).blockStartByte ≤ g.seqByte p
  notFar : g.seqByte p < (g.start p s).blockStartByte + 2 * g.hduBufsz
  fresh : ∀ q ∈ s.arrived, g.seqByte q ≠ g.seqByte p
  whole : (g.start p s).blockStartByte + g.hduBufsz ≤ g.seqByte p → g.saved p = g.payload p

/-! ## One packet -/

theorem place_current {p : Datagram} {s : CaptureState} (hlate : s.blockStartByte ≤ g.seqByte p)
    (hin : g.seqByte p ≤ s.blockEndByte) :
    g.place p s =
      { s with
        lastByte := g.seqByte p
        seqByte := g.seqByte p
        arrived := s.arrived ++ [p]
        block := s.block.copy (g.seqByte p - s.blockStartByte) (g.payload p)
        received := s.received + 1
        blockCount := s.blockCount + 1 } := by
  simp only [place, if_neg (Nat.not_lt.mpr hlate), if_pos hin]

theorem place_later {p : Datagram} {s : CaptureState} (hlate : s.blockStartByte ≤ g.seqByte p)
    (hin : ¬ g.seqByte p ≤ s.blockEndByte) (htemp : s.temp.length < g.tempMax) :
    g.place p s =
      { s with
        lastByte := g.seqByte p
        seqByte := g.seqByte p
        arrived := s.arrived ++ [p]
        temp := s.temp ++ [(g.seqByte p, g.saved p)] } := by
  simp only [place, if_neg (Nat.not_lt.mpr hlate), if_neg hin, if_pos htemp]

/-- A new packet joins those that have come. -/
theorem Distinct.concat {ps : List Datagram} (h : g.Distinct ps) {p : Datagram}
    (hlen : p.length = g.udpPayload) (hwhole : g.size ∣ g.seqByte p)
    (hfresh : ∀ q ∈ ps, g.seqByte q ≠ g.seqByte p) : g.Distinct (ps ++ [p]) where
  differ := by
    rw [List.pairwise_append]
    refine ⟨h.differ, List.pairwise_singleton _ _, ?_⟩
    intro q hq p' hp'
    rw [List.mem_singleton.mp hp']
    exact hfresh q hq
  whole := by
    intro q hq
    rcases List.mem_append.mp hq with hq | hq
    · exact h.whole q hq
    · rw [List.mem_singleton.mp hq]
      exact hwhole
  sized := by
    intro q hq
    rcases List.mem_append.mp hq with hq | hq
    · exact h.sized q hq
    · rw [List.mem_singleton.mp hq]
      exact hlen

/-- A packet from the open block on changes nothing for the blocks that are closed. -/
theorem Settled.concat {b : ClosedBlock} {ps : List Datagram} (h : g.Settled b ps) {p : Datagram}
    (hlate : b.startByte + g.hduBufsz ≤ g.seqByte p) : g.Settled b (ps ++ [p]) := by
  have hsame : g.between b.startByte (b.startByte + g.hduBufsz) (ps ++ [p]) =
      g.between b.startByte (b.startByte + g.hduBufsz) ps := by
    rw [between_concat, if_neg (by omega), List.append_nil]
  exact ⟨h.full, by rw [hsame]; exact h.lost, by rw [hsame]; exact h.placed⟩

/-- Every closed block ends before the open one starts. -/
theorem Tracks.closed_before {s : CaptureState} (h : g.Tracks s) {b : ClosedBlock}
    (hb : b ∈ s.closed) : b.startByte + g.hduBufsz ≤ s.blockStartByte := by
  obtain ⟨i, hi, rfl⟩ := List.getElem_of_mem hb
  have hchain := h.chain i hi
  have hone : g.hduBufsz ≤ (s.closed.length - i) * g.hduBufsz :=
    Nat.le_mul_of_pos_left _ (by omega)
  omega

section Placing

variable {g}
variable {s : CaptureState} {p : Datagram} (h : g.Tracks s) (hlen : p.length = g.udpPayload)
  (hfits : g.number p * g.size + 2 * g.hduBufsz ≤ 2 ^ 64)
  (hlate : s.blockStartByte ≤ g.seqByte p)
  (hfar : g.seqByte p < s.blockStartByte + 2 * g.hduBufsz)
  (hfresh : ∀ q ∈ s.arrived, g.seqByte q ≠ g.seqByte p)

include hfits in
theorem seqByte_eq : g.seqByte p = g.number p * g.size := by
  have hpos := g.size_le_hduBufsz
  have hsize := g.size_pos
  exact u64_of_lt (by omega)

include hfits in
theorem dvd_seqByte : g.size ∣ g.seqByte p := by
  rw [seqByte_eq hfits]
  exact Nat.dvd_mul_left _ _

include h hfits in
/-- The open block ends where the test for it says. -/
theorem le_blockEnd_iff :
    g.seqByte p ≤ s.blockEndByte ↔ g.seqByte p < s.blockStartByte + g.hduBufsz := by
  have hends := h.ends
  have hsize := g.size_pos
  constructor
  · intro hle
    omega
  · intro hlt
    have := g.end_le_of_lt h.aligned (dvd_seqByte hfits) hlt
    omega

include h hlen hfits hlate hfresh in
theorem place_tracks_current (hin : g.seqByte p < s.blockStartByte + g.hduBufsz) :
    g.Tracks (g.place p s) := by
  have hdvd := dvd_seqByte hfits
  have hsettled : ∀ b ∈ s.closed, g.Settled b (s.arrived ++ [p]) := fun b hb =>
    (h.settled b hb).concat g (by have := h.closed_before g hb; omega)
  have hmem : s.blockStartByte ≤ g.seqByte p ∧ g.seqByte p < s.blockStartByte + g.hduBufsz :=
    ⟨hlate, hin⟩
  have hblock : g.between s.blockStartByte (s.blockStartByte + g.hduBufsz) (s.arrived ++ [p]) =
      g.between s.blockStartByte (s.blockStartByte + g.hduBufsz) s.arrived ++ [p] := by
    rw [between_concat, if_pos hmem]
  have hnext : g.between (s.blockStartByte + g.hduBufsz) (s.blockStartByte + 2 * g.hduBufsz)
      (s.arrived ++ [p]) = g.between (s.blockStartByte + g.hduBufsz)
        (s.blockStartByte + 2 * g.hduBufsz) s.arrived := by
    rw [between_concat, if_neg (by omega), List.append_nil]
  rw [g.place_current hlate ((le_blockEnd_iff h hfits).mpr hin)]
  refine
    { distinct := h.distinct.concat g hlen hdvd hfresh
      aligned := h.aligned
      ends := h.ends
      room := h.room
      ahead := ?_
      begun := ?_
      chain := h.chain
      queue := by rw [hnext]; exact h.queue
      count := by rw [hblock, List.length_append, ← h.count]; rfl
      placed := ?_
      received := ?_
      dropped := ?_
      settled := hsettled }
  · intro q hq
    rcases List.mem_append.mp hq with hq | hq
    · exact h.ahead q hq
    · rw [List.mem_singleton.mp hq]
      show _ < s.blockStartByte + 2 * g.hduBufsz
      omega
  · intro q hq
    rcases List.mem_append.mp hq with hq | hq
    · exact h.begun q hq
    · rw [List.mem_singleton.mp hq]
      exact Nat.le_add_right_of_le hlate
  · rw [hblock]
    intro q hq
    rcases List.mem_append.mp hq with hq | hq
    · have hq' := (g.mem_between).mp hq
      have hplen := g.length_payload hlen
      -- the copy is a whole packet away from the packets that are there
      have hapart := g.apart_of_ne (h.distinct.whole q hq'.1) hdvd (hfresh q hq'.1)
      show (s.block.copy (g.seqByte p - s.blockStartByte) (g.payload p)).slice
        (g.seqByte q - s.blockStartByte) g.size = _
      rw [Memory.slice_copy_of_disjoint _ _ (by omega)]
      exact h.placed q hq
    · rw [List.mem_singleton.mp hq, ← g.length_payload hlen]
      exact Memory.slice_copy_self _ _ _
  · show s.received + 1 = _
    rw [below_concat, if_pos hin, List.length_append, h.received]
    rfl
  · show s.dropped + (g.below s.blockStartByte (s.arrived ++ [p])).length = _
    rw [below_concat, if_neg (by omega), List.append_nil]
    exact h.dropped

include h hlen hfits hlate hfar hfresh in
theorem place_tracks_later (hin : ¬ g.seqByte p < s.blockStartByte + g.hduBufsz)
    (hwhole : g.saved p = g.payload p) (htemp : s.temp.length < g.tempMax) :
    g.Tracks (g.place p s) := by
  have hdvd := dvd_seqByte hfits
  have hsettled : ∀ b ∈ s.closed, g.Settled b (s.arrived ++ [p]) := fun b hb =>
    (h.settled b hb).concat g (by have := h.closed_before g hb; omega)
  have hblock : g.between s.blockStartByte (s.blockStartByte + g.hduBufsz) (s.arrived ++ [p]) =
      g.between s.blockStartByte (s.blockStartByte + g.hduBufsz) s.arrived := by
    rw [between_concat, if_neg (by omega), List.append_nil]
  have hnext : g.between (s.blockStartByte + g.hduBufsz) (s.blockStartByte + 2 * g.hduBufsz)
      (s.arrived ++ [p]) = g.between (s.blockStartByte + g.hduBufsz)
        (s.blockStartByte + 2 * g.hduBufsz) s.arrived ++ [p] := by
    rw [between_concat, if_pos (by omega)]
  rw [g.place_later hlate (fun hle => hin ((le_blockEnd_iff h hfits).mp hle)) htemp]
  refine
    { distinct := h.distinct.concat g hlen hdvd hfresh
      aligned := h.aligned
      ends := h.ends
      room := h.room
      ahead := ?_
      begun := ?_
      chain := h.chain
      queue := by rw [hnext, List.map_append, ← h.queue, hwhole]; rfl
      count := by rw [hblock]; exact h.count
      placed := by rw [hblock]; exact h.placed
      received := ?_
      dropped := ?_
      settled := hsettled }
  · intro q hq
    rcases List.mem_append.mp hq with hq | hq
    · exact h.ahead q hq
    · rw [List.mem_singleton.mp hq]
      exact hfar
  · intro q hq
    rcases List.mem_append.mp hq with hq | hq
    · exact h.begun q hq
    · rw [List.mem_singleton.mp hq]
      exact Nat.le_add_right_of_le hlate
  · rw [below_concat, if_neg hin, List.append_nil]
    exact h.received
  · show s.dropped + (g.below s.blockStartByte (s.arrived ++ [p])).length = _
    rw [below_concat, if_neg (by omega), List.append_nil]
    exact h.dropped

end Placing

/-! ## The change of blocks -/

/-- A queued packet of the block goes to its place. -/
theorem replay_inside {s : CaptureState} {q : ℕ × List UInt8} (hge : s.blockStartByte ≤ q.1)
    (hlt : q.1 < s.blockStartByte + g.hduBufsz) (hfits : q.1 < 2 ^ 64) :
    g.replay s q =
      { s with
        seqByte := q.1
        block := s.block.copy (q.1 - s.blockStartByte) q.2
        blockCount := s.blockCount + 1
        received := s.received + 1 } := by
  have hoffset : u64 (q.1 + 2 ^ 64 - s.blockStartByte) = q.1 - s.blockStartByte := by
    rw [u64, show q.1 + 2 ^ 64 - s.blockStartByte = q.1 - s.blockStartByte + 2 ^ 64 by omega,
      Nat.add_mod_right, Nat.mod_eq_of_lt (by omega)]
  simp only [replay, hoffset]
  rw [if_pos (by omega)]

/-- When every queued packet belongs in the block, the queue is a list of copies into it. -/
theorem foldl_replay {temp : List (ℕ × List UInt8)} {s : CaptureState}
    (h : ∀ q ∈ temp, s.blockStartByte ≤ q.1 ∧ q.1 < s.blockStartByte + g.hduBufsz ∧
      q.1 < 2 ^ 64) :
    ∃ seqByte, temp.foldl g.replay s =
      { s with
        seqByte := seqByte
        block := s.block.copies (temp.map fun q => (q.1 - s.blockStartByte, q.2))
        blockCount := s.blockCount + temp.length
        received := s.received + temp.length } := by
  induction temp generalizing s with
  | nil => exact ⟨s.seqByte, by simp⟩
  | cons q temp ih =>
    obtain ⟨hge, hlt, hfits⟩ := h q List.mem_cons_self
    have hone := g.replay_inside hge hlt hfits
    rw [List.foldl_cons, hone]
    obtain ⟨seqByte, hrest⟩ := ih (s := { s with
        seqByte := q.1
        block := s.block.copy (q.1 - s.blockStartByte) q.2
        blockCount := s.blockCount + 1
        received := s.received + 1 }) (fun q' hq' => h q' (List.mem_cons_of_mem q hq'))
    refine ⟨seqByte, ?_⟩
    rw [hrest]
    simp only [List.map_cons, Memory.copies_cons, List.length_cons, Nat.cast_add, Nat.cast_one]
    rw [Nat.add_right_comm s.blockCount, Int.add_right_comm s.received, Nat.add_assoc,
      Int.add_assoc]

section Rotation

variable {g}
variable {s : CaptureState} (h : g.Tracks s)
  (hnext : s.blockStartByte + 2 * g.hduBufsz ≤ 2 ^ 64)

include h hnext in
theorem nextStart_eq : u64 (s.blockEndByte + g.size) = s.blockStartByte + g.hduBufsz := by
  have hsize := g.size_le_hduBufsz
  have hpos := g.size_pos
  rw [h.ends, u64_of_lt (by omega)]

include hnext in
theorem nextEnd_eq :
    u64 (s.blockStartByte + g.hduBufsz + (g.packetsPerBuffer - 1) * g.size) + g.size =
      s.blockStartByte + g.hduBufsz + g.hduBufsz := by
  have hsize := g.size_pos
  have hlast : (g.packetsPerBuffer - 1) * g.size + g.size = g.hduBufsz := by
    rw [← Nat.succ_mul, Nat.succ_eq_add_one, Nat.sub_add_cancel g.packets_pos, hduBufsz]
  rw [u64_of_lt (by omega)]
  omega

include h hnext in
/-- The queue holds the packets of the next block and no others. -/
theorem rotate_eq :
    ∃ seqByte, g.rotate ring s =
      { s with
        seqByte := seqByte
        blockStartByte := s.blockStartByte + g.hduBufsz
        blockEndByte := u64 (s.blockStartByte + g.hduBufsz + (g.packetsPerBuffer - 1) * g.size)
        block := (ring s.opened).copies
          (s.temp.map fun q => (q.1 - (s.blockStartByte + g.hduBufsz), q.2))
        blockCount := s.temp.length
        received := s.received + s.temp.length
        dropped := s.dropped + (g.packetsPerBuffer - s.blockCount)
        opened := s.opened + 1
        closed := s.closed ++ [⟨s.blockStartByte, s.block, g.hduBufsz,
          g.packetsPerBuffer - s.blockCount⟩]
        temp := [] } := by
  have hqueue : ∀ q ∈ s.temp, s.blockStartByte + g.hduBufsz ≤ q.1 ∧
      q.1 < s.blockStartByte + g.hduBufsz + g.hduBufsz ∧ q.1 < 2 ^ 64 := by
    intro q hq
    rw [h.queue] at hq
    obtain ⟨p, hp, rfl⟩ := List.mem_map.mp hq
    have := (g.mem_between).mp hp
    omega
  have hstart := nextStart_eq h hnext
  have hopen : ∀ q ∈ s.temp,
      (g.newBuffer ring (g.packetsPerBuffer - s.blockCount)
        { s with dropped := s.dropped + (g.packetsPerBuffer - s.blockCount) }).blockStartByte ≤
          q.1 ∧
      q.1 < (g.newBuffer ring (g.packetsPerBuffer - s.blockCount)
        { s with dropped := s.dropped + (g.packetsPerBuffer - s.blockCount) }).blockStartByte +
          g.hduBufsz ∧
      q.1 < 2 ^ 64 := by
    simpa only [newBuffer, openBuffer, hstart] using hqueue
  obtain ⟨seqByte, hfold⟩ := g.foldl_replay hopen
  refine ⟨seqByte, ?_⟩
  show { s.temp.foldl g.replay (g.newBuffer ring (g.packetsPerBuffer - s.blockCount)
    { s with dropped := s.dropped + (g.packetsPerBuffer - s.blockCount) }) with temp := [] } = _
  rw [hfold]
  simp only [newBuffer, openBuffer, hstart, Nat.zero_add]

include h in
/-- No packet beyond the next block has come, so none is left for the block after it. -/
theorem between_next_nil :
    g.between (s.blockStartByte + g.hduBufsz + g.hduBufsz)
      (s.blockStartByte + g.hduBufsz + 2 * g.hduBufsz) s.arrived = [] := by
  rw [List.eq_nil_iff_forall_not_mem]
  intro p hp
  obtain ⟨hmem, hge, -⟩ := (g.mem_between).mp hp
  have := h.ahead p hmem
  omega

include h in
/-- The copies of the queue into the new block do not overlap. -/
theorem queue_apart :
    (s.temp.map fun q => (q.1 - (s.blockStartByte + g.hduBufsz), q.2)).Pairwise Memory.Apart := by
  rw [h.queue, List.map_map, List.pairwise_map]
  refine (h.distinct.differ.filter _).imp_of_mem ?_
  intro p q hp hq hne
  obtain ⟨hp, hpge, -⟩ := (g.mem_between).mp hp
  obtain ⟨hq, hqge, -⟩ := (g.mem_between).mp hq
  have hplen := g.length_payload (h.distinct.sized p hp)
  have hqlen := g.length_payload (h.distinct.sized q hq)
  rcases g.apart_of_ne (h.distinct.whole p hp) (h.distinct.whole q hq) hne with hap | hap
  · left
    show g.seqByte p - _ + (g.payload p).length ≤ g.seqByte q - _
    omega
  · right
    show g.seqByte q - _ + (g.payload q).length ≤ g.seqByte p - _
    omega

include h hnext in
theorem rotate_tracks : g.Tracks (g.rotate ring s) := by
  have hend := nextEnd_eq hnext
  have hsize := g.size_pos
  have hlen : s.temp.length = (g.between (s.blockStartByte + g.hduBufsz)
      (s.blockStartByte + g.hduBufsz + g.hduBufsz) s.arrived).length := by
    rw [h.queue, List.length_map, Nat.two_mul, Nat.add_assoc]
  have hbelow := g.length_below_add s.blockStartByte (s.blockStartByte + g.hduBufsz)
    (Nat.le_add_right _ _) s.arrived
  have hclosed := h.dropped
  have hcount := h.count
  obtain ⟨seqByte, heq⟩ := rotate_eq ring h hnext
  rw [heq]
  refine
    { distinct := h.distinct
      aligned := Nat.dvd_add h.aligned (Nat.dvd_mul_left _ _)
      ends := hend
      room := by show s.blockStartByte + g.hduBufsz + g.hduBufsz ≤ _; omega
      ahead := ?_
      begun := ?_
      chain := ?_
      queue := by rw [between_next_nil h]; rfl
      count := hlen
      placed := ?_
      received := ?_
      dropped := ?_
      settled := ?_ }
  · intro p hp
    have := h.ahead p hp
    show _ < s.blockStartByte + g.hduBufsz + 2 * g.hduBufsz
    omega
  · intro p hp
    have := h.begun p hp
    show s.blockStartByte + g.hduBufsz ≤
      g.seqByte p + (s.closed ++ [_]).length * g.hduBufsz
    rw [List.length_append, List.length_singleton, Nat.add_mul, Nat.one_mul]
    omega
  · intro i hi
    have hi' : i < (s.closed ++ [_]).length := hi
    show ((s.closed ++ [_])[i]).startByte + ((s.closed ++ [_]).length - i) * g.hduBufsz =
      s.blockStartByte + g.hduBufsz
    rw [List.length_append, List.length_singleton] at hi' ⊢
    rcases Nat.lt_or_ge i s.closed.length with hlt | hge
    · rw [List.getElem_append_left hlt, Nat.sub_add_comm (Nat.le_of_lt hlt), Nat.add_mul,
        Nat.one_mul]
      have := h.chain i hlt
      omega
    · have hlast : i = s.closed.length := by omega
      subst hlast
      rw [List.getElem_concat_length rfl, Nat.add_sub_cancel_left, Nat.one_mul]
  · intro p hp
    obtain ⟨hmem, hge, hlt⟩ := (g.mem_between).mp hp
    have hin : (g.seqByte p, g.payload p) ∈ s.temp := by
      rw [h.queue]
      exact List.mem_map.mpr ⟨p, (g.mem_between).mpr ⟨hmem, hge, by
        have : g.seqByte p < s.blockStartByte + g.hduBufsz + g.hduBufsz := hlt
        omega⟩, rfl⟩
    have hw := List.mem_map_of_mem
      (f := fun q : ℕ × List UInt8 => (q.1 - (s.blockStartByte + g.hduBufsz), q.2)) hin
    have hread := Memory.slice_copies_of_mem (queue_apart h) hw (ring s.opened)
    rwa [g.length_payload (h.distinct.sized p hmem)] at hread
  · have hnextBelow := g.length_below_add (s.blockStartByte + g.hduBufsz)
      (s.blockStartByte + g.hduBufsz + g.hduBufsz) (Nat.le_add_right _ _) s.arrived
    have hreceived := h.received
    show s.received + s.temp.length =
      (g.below (s.blockStartByte + g.hduBufsz + g.hduBufsz) s.arrived).length
    rw [hnextBelow, hreceived, hlen]
    exact (Nat.cast_add _ _).symm
  · show s.dropped + (g.packetsPerBuffer - s.blockCount) +
      ((g.below (s.blockStartByte + g.hduBufsz) s.arrived).length : ℤ) =
        g.packetsPerBuffer * ((s.closed ++ [_]).length : ℕ)
    rw [hbelow, ← hcount, List.length_append, List.length_singleton]
    push_cast
    rw [mul_add, mul_one, ← hclosed]
    ring
  · intro b hb
    rcases List.mem_append.mp hb with hb | hb
    · exact h.settled b hb
    · rw [List.mem_singleton.mp hb]
      refine ⟨rfl, ?_, h.placed⟩
      show (g.packetsPerBuffer : ℤ) - s.blockCount +
        (g.between s.blockStartByte (s.blockStartByte + g.hduBufsz) s.arrived).length = _
      rw [← hcount]
      ring

end Rotation

/-! ## Runs -/

/-- Before the first packet nothing has been counted. -/
structure Untouched (s : CaptureState) : Prop where
  notStarted : s.captureStarted = false
  arrived : s.arrived = []
  closed : s.closed = []
  temp : s.temp = []
  count : s.blockCount = 0
  received : s.received = 0
  dropped : s.dropped = 0
  seqByte : s.seqByte = 0

/-- The first packet sets the range of a block that has room in the 64 bits. -/
theorem start_tracks {s : CaptureState} (h : Untouched s) {p : Datagram}
    (hfits : g.number p * g.size + 2 * g.hduBufsz ≤ 2 ^ 64) : g.Tracks (g.start p s) := by
  have hsize := g.size_le_hduBufsz
  have hpos := g.size_pos
  have hle : g.startNumber p * g.size ≤ g.number p * g.size :=
    Nat.mul_le_mul_right _ (g.startNumber_le p)
  have hstart : u64 (g.startNumber p * g.size) = g.startNumber p * g.size :=
    u64_of_lt (by omega)
  have hend : u64 (g.startNumber p * g.size + g.hduBufsz - g.size) =
      g.startNumber p * g.size + g.hduBufsz - g.size := u64_of_lt (by omega)
  have hnone : ∀ lo hi, g.between lo hi s.arrived = [] := fun lo hi => by rw [h.arrived]; rfl
  have hbelow : ∀ hi, g.below hi s.arrived = [] := fun hi => by rw [h.arrived]; rfl
  simp only [start, h.notStarted, Bool.false_eq_true, if_false, hstart, hend]
  refine
    { distinct := ?_
      aligned := Nat.dvd_mul_left _ _
      ends := by
        show g.startNumber p * g.size + g.hduBufsz - g.size + g.size =
          g.startNumber p * g.size + g.hduBufsz
        omega
      room := by show g.startNumber p * g.size + g.hduBufsz ≤ _; omega
      ahead := by intro q hq; rw [h.arrived] at hq; cases hq
      begun := by intro q hq; rw [h.arrived] at hq; cases hq
      chain := by intro i hi; rw [h.closed] at hi; cases hi
      queue := by rw [hnone]; exact h.temp
      count := by rw [hnone]; exact h.count
      placed := by intro q hq; rw [hnone] at hq; cases hq
      received := by rw [hbelow]; exact h.received
      dropped := by rw [hbelow, h.closed, h.dropped]; simp
      settled := by intro b hb; rw [h.closed] at hb; cases hb }
  show g.Distinct s.arrived
  rw [h.arrived]
  exact ⟨List.Pairwise.nil, by simp, by simp⟩

/-- The runs of the loop in which every packet that is taken meets the condition. -/
inductive Runs : CaptureState → Prop
  | entered : Runs (g.entered ring)
  | step {s : CaptureState} {e : CaptureEvent} : Runs s →
      (∀ p, e = .packet p → s.finished = false → p.length = g.udpPayload → g.Orderly s p) →
      Runs (g.step ring s e)

/-- What is true of the state after every turn of the loop. -/
structure Keeps (s : CaptureState) : Prop where
  tracks : Untouched s ∨ s.captureStarted = true ∧ g.Tracks s
  room : s.temp.length < g.tempMax
  going : s.finished = false → s.last = none
  last : ∀ b ∈ s.last, b.startByte = s.blockStartByte ∧ b.contents = s.block ∧
    b.bytesWritten ≤ g.hduBufsz

theorem start_of_started {s : CaptureState} (h : s.captureStarted = true) (p : Datagram) :
    g.start p s = s := by
  simp only [start, h, if_true]

theorem start_same (p : Datagram) (s : CaptureState) :
    (g.start p s).arrived = s.arrived ∧ (g.start p s).temp = s.temp ∧
      (g.start p s).last = s.last ∧ (g.start p s).captureStarted = true := by
  cases h : s.captureStarted <;> simp [start, h]

/-- A packet in its order, put into the block or the queue. -/
theorem place_tracks {s : CaptureState} (h : g.Tracks s) {p : Datagram}
    (hlen : p.length = g.udpPayload) (hfits : g.number p * g.size + 2 * g.hduBufsz ≤ 2 ^ 64)
    (hlate : s.blockStartByte ≤ g.seqByte p)
    (hfar : g.seqByte p < s.blockStartByte + 2 * g.hduBufsz)
    (hfresh : ∀ q ∈ s.arrived, g.seqByte q ≠ g.seqByte p)
    (hwhole : s.blockStartByte + g.hduBufsz ≤ g.seqByte p → g.saved p = g.payload p)
    (htemp : s.temp.length < g.tempMax) :
    g.Tracks (g.place p s) ∧ (g.place p s).blockStartByte = s.blockStartByte ∧
      (g.place p s).last = s.last ∧ (g.place p s).captureStarted = s.captureStarted := by
  by_cases hin : g.seqByte p < s.blockStartByte + g.hduBufsz
  · have htracks := place_tracks_current h hlen hfits hlate hfresh hin
    rw [g.place_current hlate ((le_blockEnd_iff h hfits).mpr hin)] at htracks ⊢
    exact ⟨htracks, rfl, rfl, rfl⟩
  · have htracks := place_tracks_later h hlen hfits hlate hfar hfresh hin
      (hwhole (Nat.not_lt.mp hin)) htemp
    rw [g.place_later hlate (fun hle => hin ((le_blockEnd_iff h hfits).mp hle)) htemp]
      at htracks ⊢
    exact ⟨htracks, rfl, rfl, rfl⟩

theorem checkFull_tracks {s : CaptureState} (h : g.Tracks s)
    (hnext : s.blockStartByte + 2 * g.hduBufsz ≤ 2 ^ 64) :
    g.Tracks (g.checkFull ring s) ∧ (g.checkFull ring s).temp.length < g.tempMax ∧
      (g.checkFull ring s).last = s.last ∧
      (g.checkFull ring s).captureStarted = s.captureStarted := by
  by_cases hfull : g.packetsPerBuffer ≤ s.blockCount ∨ g.tempMax ≤ s.temp.length
  · have htracks := rotate_tracks ring h hnext
    obtain ⟨seqByte, heq⟩ := rotate_eq ring h hnext
    rw [checkFull, if_pos hfull]
    refine ⟨htracks, ?_, ?_, ?_⟩
    · rw [heq]
      exact g.temp_pos
    · rw [heq]
    · rw [heq]
  · rw [checkFull, if_neg hfull]
    exact ⟨h, by omega, rfl, rfl⟩

theorem checkStop_keeps {s : CaptureState} (h : g.Keeps s) : g.Keeps (g.checkStop s) := by
  by_cases hstop : s.stopByte ≠ 0 ∧ s.stopByte ≤ s.seqByte
  · rw [checkStop, if_pos hstop]
    refine ⟨?_, h.room, (fun hfin => by cases hfin), ?_⟩
    · rcases h.tracks with hfresh | ⟨hstarted, ht⟩
      · exact .inl ⟨hfresh.notStarted, hfresh.arrived, hfresh.closed, hfresh.temp, hfresh.count,
          hfresh.received, hfresh.dropped, hfresh.seqByte⟩
      · exact .inr ⟨hstarted, ht.distinct, ht.aligned, ht.ends, ht.room, ht.ahead, ht.begun,
          ht.chain, ht.queue, ht.count, ht.placed, ht.received, ht.dropped, ht.settled⟩
    · intro b hb
      cases hb
      refine ⟨rfl, rfl, ?_⟩
      have hpos := g.size_pos
      have hsize := g.size_le_hduBufsz
      show (if s.seqByte ≤ s.blockStartByte then 1
        else if s.seqByte < s.blockEndByte then s.seqByte - s.blockStartByte
        else g.hduBufsz) ≤ g.hduBufsz
      split_ifs with hstart hend
      · omega
      · rcases h.tracks with hfresh | ⟨-, ht⟩
        · have := hfresh.seqByte
          omega
        · have := ht.ends
          omega
      · exact Nat.le_refl _
  · rw [checkStop, if_neg hstop]
    exact h

theorem keeps_finished {s : CaptureState} (h : g.Keeps s) :
    g.Keeps { s with finished := true } := by
  refine ⟨?_, h.room, (fun hfin => by cases hfin), h.last⟩
  rcases h.tracks with hnew | ⟨hstarted, ht⟩
  · exact .inl ⟨hnew.notStarted, hnew.arrived, hnew.closed, hnew.temp, hnew.count,
      hnew.received, hnew.dropped, hnew.seqByte⟩
  · exact .inr ⟨hstarted, ht.distinct, ht.aligned, ht.ends, ht.room, ht.ahead, ht.begun,
      ht.chain, ht.queue, ht.count, ht.placed, ht.received, ht.dropped, ht.settled⟩

theorem keeps_stopByte {s : CaptureState} (h : g.Keeps s) (byte : ℕ) :
    g.Keeps { s with stopByte := byte } := by
  refine ⟨?_, h.room, h.going, h.last⟩
  rcases h.tracks with hnew | ⟨hstarted, ht⟩
  · exact .inl ⟨hnew.notStarted, hnew.arrived, hnew.closed, hnew.temp, hnew.count,
      hnew.received, hnew.dropped, hnew.seqByte⟩
  · exact .inr ⟨hstarted, ht.distinct, ht.aligned, ht.ends, ht.room, ht.ahead, ht.begun,
      ht.chain, ht.queue, ht.count, ht.placed, ht.received, ht.dropped, ht.settled⟩

/-- A packet that meets the condition, with the change of blocks and the stop it may bring. -/
theorem packet_keeps {s : CaptureState} (h : g.Keeps s) (hfin : s.finished = false)
    {p : Datagram} (hlen : p.length = g.udpPayload) (ho : g.Orderly s p) :
    g.Keeps (g.checkStop (g.checkFull ring (g.place p (g.start p s)))) := by
  obtain ⟨harrived, htemp, hlast, hstarted⟩ := g.start_same p s
  have htracks : g.Tracks (g.start p s) := by
    rcases h.tracks with hnew | ⟨hs, ht⟩
    · exact g.start_tracks hnew ho.fits
    · rw [g.start_of_started hs]
      exact ht
  obtain ⟨hplaced, hsame, hplast, hpstarted⟩ := g.place_tracks htracks hlen ho.fits
    ho.notLate ho.notFar (by rw [harrived]; exact ho.fresh) ho.whole
    (by rw [htemp]; exact h.room)
  have hseq := seqByte_eq ho.fits
  have hlate := ho.notLate
  have hfits := ho.fits
  obtain ⟨hfull, hroom, hflast, hfstarted⟩ := g.checkFull_tracks ring hplaced (by omega)
  have hnone : (g.checkFull ring (g.place p (g.start p s))).last = none := by
    rw [hflast, hplast, hlast, h.going hfin]
  apply g.checkStop_keeps
  refine ⟨.inr ⟨?_, hfull⟩, hroom, fun _ => hnone, ?_⟩
  · rw [hfstarted, hpstarted, hstarted]
  · rw [hnone]
    intro b hb
    cases hb

/-- One turn of the loop. -/
theorem step_keeps {s : CaptureState} (h : g.Keeps s) {e : CaptureEvent}
    (hcond : ∀ p, e = .packet p → s.finished = false → p.length = g.udpPayload → g.Orderly s p) :
    g.Keeps (g.step ring s e) := by
  cases hfin : s.finished with
  | true =>
    rw [QueueCapture.step.eq_def, if_pos hfin]
    exact h
  | false =>
    have hgo : ¬ s.finished = true := by rw [hfin]; decide
    rw [QueueCapture.step.eq_def, if_neg hgo]
    cases e with
    | packet p =>
      by_cases hlen : p.length = g.udpPayload
      · simp only [if_pos hlen]
        exact g.packet_keeps ring h hfin hlen (hcond p rfl hfin hlen)
      · simp only [if_neg hlen]
        exact h
    | stop byte => exact g.keeps_stopByte h byte
    | pending => exact g.keeps_finished (g.checkStop_keeps h)
    | timeout =>
      by_cases hstarted : s.captureStarted = true
      · simp only [if_pos hstarted]
        exact g.keeps_finished (g.checkStop_keeps (g.keeps_stopByte h s.lastByte))
      · simp only [if_neg hstarted]
        exact h

/-- Every run whose packets meet the condition. -/
theorem runs_keeps {s : CaptureState} (h : g.Runs ring s) : g.Keeps s := by
  induction h with
  | entered =>
    refine ⟨.inl ⟨rfl, rfl, rfl, rfl, rfl, rfl, rfl, rfl⟩, g.temp_pos, fun _ => rfl, ?_⟩
    intro b hb
    cases hb
  | step _ hcond ih => exact g.step_keeps ring ih hcond

/-! ## The books of a capture -/

/-- The placement of the packets and the accounting for them. -/
structure Accounted (s : CaptureState) : Prop where
  /-- Every packet that has come is at its place in the block of its range that was closed. -/
  placed : ∀ b ∈ s.closed, ∀ p ∈ s.arrived, b.startByte ≤ g.seqByte p →
    g.seqByte p < b.startByte + g.hduBufsz →
      b.contents.slice (g.seqByte p - b.startByte) g.size = g.payload p
  /-- So is every packet that lies in what is written of the last block. -/
  lastPlaced : ∀ b ∈ s.last, ∀ p ∈ s.arrived, b.startByte ≤ g.seqByte p →
    g.seqByte p + g.size ≤ b.startByte + b.bytesWritten →
      b.contents.slice (g.seqByte p - b.startByte) g.size = g.payload p
  /-- A block is closed with each of its packets come or declared lost. -/
  complete : ∀ b ∈ s.closed, 0 ≤ b.dropped ∧
    b.dropped + (g.between b.startByte (b.startByte + g.hduBufsz) s.arrived).length =
      g.packetsPerBuffer
  /-- The closed blocks and the open one follow each other. -/
  contiguous : ∀ (i : ℕ) (h : i < s.closed.length),
    s.closed[i].startByte + (s.closed.length - i) * g.hduBufsz = s.blockStartByte
  /-- No two packets have the same position, and none lies before the first block. -/
  distinct : s.arrived.Pairwise fun p q => g.seqByte p ≠ g.seqByte q
  begun : ∀ p ∈ s.arrived, s.blockStartByte ≤ g.seqByte p + s.closed.length * g.hduBufsz
  /-- The packets counted as received are those that have come for these blocks, -/
  received : s.received = (g.below (s.blockStartByte + g.hduBufsz) s.arrived).length
  /-- those counted as dropped are the others of the closed blocks, -/
  dropped : 0 ≤ s.dropped ∧ s.dropped + (g.below s.blockStartByte s.arrived).length =
    g.packetsPerBuffer * s.closed.length
  /-- and together they are the packets of the closed blocks and those that have come for the
  open one. -/
  counted : s.received + s.dropped = g.packetsPerBuffer * s.closed.length +
    (g.between s.blockStartByte (s.blockStartByte + g.hduBufsz) s.arrived).length

/-- The packets of the closed blocks are at most as many as these have room for. -/
theorem length_below_le {s : CaptureState} (h : g.Tracks s) :
    (g.below s.blockStartByte s.arrived).length ≤ g.packetsPerBuffer * s.closed.length := by
  rcases Nat.eq_zero_or_pos s.closed.length with hnone | hsome
  · have hdropped := h.dropped
    have hempty : g.below s.blockStartByte s.arrived = [] := by
      rw [List.eq_nil_iff_forall_not_mem]
      intro p hp
      obtain ⟨hmem, hlt⟩ := (g.mem_below).mp hp
      have := h.begun p hmem
      rw [hnone] at this
      omega
    rw [hempty]
    exact Nat.zero_le _
  · -- from the start of the first closed block
    have hchain := h.chain 0 hsome
    rw [Nat.sub_zero] at hchain
    have hspan : s.closed.length * g.hduBufsz = g.packetsPerBuffer * s.closed.length * g.size := by
      rw [hduBufsz, ← Nat.mul_assoc, Nat.mul_comm s.closed.length]
    have hfirst : g.size ∣ s.closed[0].startByte := by
      have haligned := h.aligned
      rw [← hchain, hspan] at haligned
      exact (Nat.dvd_add_left (Nat.dvd_mul_left _ _)).mp haligned
    have hsplit := g.length_below_add s.closed[0].startByte s.blockStartByte
      (by omega) s.arrived
    have hbefore : g.below s.closed[0].startByte s.arrived = [] := by
      rw [List.eq_nil_iff_forall_not_mem]
      intro p hp
      obtain ⟨hmem, hlt⟩ := (g.mem_below).mp hp
      have := h.begun p hmem
      omega
    have hle := g.length_between_le hfirst (g.packetsPerBuffer * s.closed.length) h.distinct
    rw [← hspan, hchain] at hle
    rw [hsplit, hbefore]
    simpa using hle

theorem accounted_of_tracks {s : CaptureState} (h : g.Tracks s)
    (hlast : ∀ b ∈ s.last, b.startByte = s.blockStartByte ∧ b.contents = s.block ∧
      b.bytesWritten ≤ g.hduBufsz) : g.Accounted s where
  placed := fun b hb p hp hge hlt =>
    (h.settled b hb).placed p ((g.mem_between).mpr ⟨hp, hge, hlt⟩)
  lastPlaced := by
    intro b hb p hp hge hle
    obtain ⟨hstart, hcontents, hbytes⟩ := hlast b hb
    have hpos := g.size_pos
    rw [hstart] at hge hle
    rw [hstart, hcontents]
    exact h.placed p ((g.mem_between).mpr ⟨hp, hge, by omega⟩)
  complete := by
    intro b hb
    have hsettled := h.settled b hb
    refine ⟨?_, hsettled.lost⟩
    obtain ⟨i, hi, rfl⟩ := List.getElem_of_mem hb
    have hchain := h.chain i hi
    have hdvd : g.size ∣ s.closed[i].startByte := by
      have haligned := h.aligned
      rw [← hchain, hduBufsz, ← Nat.mul_assoc] at haligned
      exact (Nat.dvd_add_left (Nat.dvd_mul_left _ _)).mp haligned
    have hle := g.length_between_le hdvd g.packetsPerBuffer h.distinct
    have hlost := hsettled.lost
    rw [hduBufsz] at hlost
    omega
  contiguous := h.chain
  distinct := h.distinct.differ
  begun := h.begun
  received := h.received
  dropped := by
    have hle := g.length_below_le h
    have hdropped := h.dropped
    refine ⟨?_, hdropped⟩
    have : ((g.below s.blockStartByte s.arrived).length : ℤ) ≤
        (g.packetsPerBuffer * s.closed.length : ℕ) := by exact_mod_cast hle
    push_cast at this
    omega
  counted := by
    have hsplit := g.length_below_add s.blockStartByte
      (s.blockStartByte + g.hduBufsz) (Nat.le_add_right _ _) s.arrived
    rw [h.received, hsplit, ← h.dropped]
    push_cast
    ring

/-- In a run whose packets all meet the condition every packet is placed and counted once. -/
theorem runs_accounted {s : CaptureState} (h : g.Runs ring s) : g.Accounted s := by
  have hkeeps := g.runs_keeps ring h
  rcases hkeeps.tracks with hnew | ⟨-, ht⟩
  · have hbelow : ∀ hi, g.below hi s.arrived = [] := fun hi => by rw [hnew.arrived]; rfl
    have hnone : ∀ lo hi, g.between lo hi s.arrived = [] := fun lo hi => by rw [hnew.arrived]; rfl
    refine
      { placed := by rw [hnew.closed]; intro b hb; cases hb
        lastPlaced := by rw [hnew.arrived]; intro b hb p hp; cases hp
        complete := by rw [hnew.closed]; intro b hb; cases hb
        contiguous := by rw [hnew.closed]; intro i hi; cases hi
        distinct := by rw [hnew.arrived]; exact List.Pairwise.nil
        begun := by rw [hnew.arrived]; intro p hp; cases hp
        received := by rw [hbelow]; exact hnew.received
        dropped := by rw [hbelow, hnew.closed, hnew.dropped]; simp
        counted := by rw [hnone, hnew.closed, hnew.received, hnew.dropped]; simp }
  · exact g.accounted_of_tracks ht hkeeps.last

end QueueCapture

end Psrdada
