import Psrdada.Caspsr.UdpNdb

/-! # What the transfers of the CASPSR capture hold

Numbers are written in order up to a frontier. As long as every packet starts at the frontier or
before it and pads over no number that has come, each place of a transfer has what a packet with
its number brought, or zeros. -/

namespace Psrdada

/-- What may be at the place of number `k`: the data of a packet with that number that came in time,
or zeros when there is none. -/
def CaspsrSlot (arrived : List CaspsrArrival) (k : ℕ) (bytes : List UInt8) : Prop :=
  (∃ a ∈ arrived, a.number = k ∧ a.inTime = true ∧ bytes = a.payload) ∨
    (∀ a ∈ arrived, a.number = k → a.inTime = false) ∧ bytes = List.replicate caspsrUdpData 0

theorem CaspsrSlot.concat {arrived : List CaspsrArrival} {k : ℕ} {bytes : List UInt8}
    (h : CaspsrSlot arrived k bytes) {a : CaspsrArrival} (ha : a.number = k → a.inTime = false) :
    CaspsrSlot (arrived ++ [a]) k bytes := by
  rcases h with ⟨b, hb, hnumber, htime, hbytes⟩ | ⟨hnone, hbytes⟩
  · exact .inl ⟨b, List.mem_append_left _ hb, hnumber, htime, hbytes⟩
  · refine .inr ⟨?_, hbytes⟩
    intro b hb
    rcases List.mem_append.mp hb with hb | hb
    · exact hnone b hb
    · rw [List.mem_singleton.mp hb]
      exact ha

theorem caspsrOutput_concat (closed : List CaspsrBlock) (b : CaspsrBlock) (k : ℕ) :
    caspsrOutput (closed ++ [b]) k =
      caspsrOutput closed k ++ if b.transfer = k then b.contents.slice 0 b.bytesWritten else [] := by
  by_cases h : b.transfer = k <;> simp [caspsrOutput, List.filter_append, h]

/-- A place in the second of two stretches. -/
theorem place_append_slice (xs : List UInt8) (mem : Memory UInt8) {i m : ℕ}
    (hge : xs.length ≤ i * caspsrUdpData) (hdvd : caspsrUdpData ∣ xs.length)
    (hlt : (i + 1) * caspsrUdpData ≤ xs.length + m * caspsrUdpData) :
    ((xs ++ mem.slice 0 (m * caspsrUdpData)).drop (i * caspsrUdpData)).take caspsrUdpData =
      mem.slice ((i - xs.length / caspsrUdpData) * caspsrUdpData) caspsrUdpData := by
  obtain ⟨o, ho⟩ := hdvd
  have hdiv : xs.length / caspsrUdpData = o := by
    rw [ho]
    exact Nat.mul_div_cancel_left o (by decide)
  rw [hdiv, List.drop_append, List.drop_eq_nil_of_le hge, List.nil_append]
  have hsplit : m * caspsrUdpData =
      (i - o) * caspsrUdpData + (caspsrUdpData + (m * caspsrUdpData - (i - o + 1) * caspsrUdpData)) := by
    simp only [caspsrUdpData] at *
    omega
  have hstart : i * caspsrUdpData - xs.length = (i - o) * caspsrUdpData := by
    simp only [caspsrUdpData] at *
    omega
  rw [hstart, hsplit, Memory.slice_add, Memory.slice_add, Nat.zero_add,
    List.drop_append, List.drop_eq_nil_of_le (Memory.length_slice _ _ _).le, List.nil_append,
    Memory.length_slice, Nat.sub_self, List.drop_zero, List.take_append_of_le_length
    (Memory.length_slice _ _ _).ge, List.take_of_length_le (Memory.length_slice _ _ _).le]

namespace CaspsrUdpNdb

variable (g : CaspsrUdpNdb)

/-! ## The closed blocks -/

/-- The blocks that have been closed, of which the transfers before some one are complete. -/
structure Outputs (transfer : ℕ) (closed : List CaspsrBlock) (arrived : List CaspsrArrival) :
    Prop where
  /-- The transfers go to the HDUs in turn. -/
  hdu : ∀ b ∈ closed, b.hdu = b.transfer % g.nhdus
  /-- Place `i` of transfer `k` is that of number `k * packetsPerXfer + i`. -/
  placed : ∀ k i, (i + 1) * caspsrUdpData ≤ (caspsrOutput closed k).length →
    CaspsrSlot arrived (k * g.packetsPerXfer + i)
      (((caspsrOutput closed k).drop (i * caspsrUdpData)).take caspsrUdpData)
  length_le : ∀ k, (caspsrOutput closed k).length ≤ g.packetsPerXfer * caspsrUdpData
  packets : ∀ k, caspsrUdpData ∣ (caspsrOutput closed k).length
  complete : ∀ k < transfer, (caspsrOutput closed k).length = g.packetsPerXfer * caspsrUdpData

/-- The block that is open holds the numbers from `first` on, and all below `next` have been
written. -/
structure Open (s : CaspsrState) (arrived : List CaspsrArrival) (first next : ℕ) : Prop where
  running : s.status = .running
  startByte : s.bufferStartByte = first * caspsrUdpData
  endByte : s.bufferEndByte = (first + g.packetsPerBuffer - 1) * caspsrUdpData
  xferEnd : s.xferEndByte =
    (s.transfer * g.packetsPerXfer + g.packetsPerXfer - 1) * caspsrUdpData
  inWord : (s.transfer * g.packetsPerXfer + g.packetsPerXfer) * caspsrUdpData ≤ 2 ^ 64
  ihdu : s.ihdu = s.transfer % g.nhdus
  low : s.transfer * g.packetsPerXfer ≤ first
  high : first < s.transfer * g.packetsPerXfer + g.packetsPerXfer
  dvd : g.packetsPerBuffer ∣ first
  first_le : first ≤ next
  next_le : next ≤ first + g.packetsPerBuffer
  filled : ∀ k, first ≤ k → k < next →
    CaspsrSlot arrived k (s.currentBuffer.slice ((k - first) * caspsrUdpData) caspsrUdpData)
  outputs : g.Outputs s.transfer s.closed arrived
  length : (caspsrOutput s.closed s.transfer).length =
    (first - s.transfer * g.packetsPerXfer) * caspsrUdpData
  later : ∀ k, s.transfer < k → caspsrOutput s.closed k = []

/-- Between the turns nothing or some of the block has been written. -/
structure Keeps (s : CaspsrState) (arrived : List CaspsrArrival) (first next : ℕ) : Prop
    extends g.Open s arrived first next where
  begun : next = first → next = 0

variable {g}

/-- A block ends with its transfer or before it. -/
theorem Open.room {s : CaspsrState} {arrived : List CaspsrArrival} {first next : ℕ}
    (h : g.Open s arrived first next) :
    first + g.packetsPerBuffer ≤ s.transfer * g.packetsPerXfer + g.packetsPerXfer := by
  obtain ⟨x, rfl⟩ := h.dvd
  obtain ⟨y, hy⟩ : g.packetsPerBuffer ∣ s.transfer * g.packetsPerXfer + g.packetsPerXfer :=
    Nat.dvd_add (Dvd.dvd.mul_left g.whole _) g.whole
  have hlt := h.high
  rw [hy] at hlt ⊢
  have hxy : x < y := Nat.lt_of_mul_lt_mul_left hlt
  rw [← Nat.mul_succ]
  exact Nat.mul_le_mul_left _ hxy

theorem output_close (s : CaspsrState) (m k : ℕ) :
    caspsrOutput (s.closed ++ [out s m]) k =
      caspsrOutput s.closed k ++ if s.transfer = k then s.currentBuffer.slice 0 m else [] :=
  caspsrOutput_concat _ _ _

/-- The block is closed after its first `m` numbers. -/
theorem Open.close {s : CaspsrState} {arrived : List CaspsrArrival} {first next : ℕ}
    (h : g.Open s arrived first next) {m : ℕ} (hm : first + m ≤ next) :
    g.Outputs s.transfer (s.closed ++ [out s (m * caspsrUdpData)]) arrived ∧
      (caspsrOutput (s.closed ++ [out s (m * caspsrUdpData)]) s.transfer).length =
        (first + m - s.transfer * g.packetsPerXfer) * caspsrUdpData ∧
      ∀ k, s.transfer < k → caspsrOutput (s.closed ++ [out s (m * caspsrUdpData)]) k = [] := by
  have hout := h.outputs
  have hroom := h.room
  have hnext := h.next_le
  have hlow := h.low
  have hsame : caspsrOutput (s.closed ++ [out s (m * caspsrUdpData)]) s.transfer =
      caspsrOutput s.closed s.transfer ++ s.currentBuffer.slice 0 (m * caspsrUdpData) := by
    rw [output_close, if_pos rfl]
  have hother : ∀ k, s.transfer ≠ k →
      caspsrOutput (s.closed ++ [out s (m * caspsrUdpData)]) k = caspsrOutput s.closed k := by
    intro k hk
    rw [output_close, if_neg hk, List.append_nil]
  have hlen : (caspsrOutput (s.closed ++ [out s (m * caspsrUdpData)]) s.transfer).length =
      (first + m - s.transfer * g.packetsPerXfer) * caspsrUdpData := by
    rw [hsame, List.length_append, Memory.length_slice, h.length, ← Nat.add_mul]
    congr 1
    omega
  refine ⟨?_, hlen, ?_⟩
  · refine
      { hdu := ?_
        placed := ?_
        length_le := ?_
        packets := ?_
        complete := ?_ }
    · intro b hb
      rcases List.mem_append.mp hb with hb | hb
      · exact hout.hdu b hb
      · rw [List.mem_singleton.mp hb]
        exact h.ihdu
    · intro k i hi
      by_cases hk : s.transfer = k
      · subst hk
        rw [hsame] at hi ⊢
        rw [List.length_append, Memory.length_slice] at hi
        have hopen := h.length
        have hdvd := hout.packets s.transfer
        rcases Nat.lt_or_ge i (first - s.transfer * g.packetsPerXfer) with hlt | hge
        · -- the place is in a block that was closed before
          have hroom' : (i + 1) * caspsrUdpData ≤ (caspsrOutput s.closed s.transfer).length := by
            rw [hopen]
            exact Nat.mul_le_mul_right _ hlt
          rw [List.drop_append_of_le_length (by rw [Nat.succ_mul] at hroom'; omega),
            List.take_append_of_le_length
              (by rw [List.length_drop]; rw [Nat.succ_mul] at hroom'; omega)]
          exact hout.placed _ i hroom'
        · -- the place is in this block
          have hdiv : (caspsrOutput s.closed s.transfer).length / caspsrUdpData =
              first - s.transfer * g.packetsPerXfer := by
            rw [hopen]
            exact Nat.mul_div_cancel _ (by decide)
          have hlt : i < first - s.transfer * g.packetsPerXfer + m := by
            rw [hopen, ← Nat.add_mul] at hi
            exact Nat.lt_of_succ_le (Nat.le_of_mul_le_mul_right hi (by decide))
          have hnumber : s.transfer * g.packetsPerXfer + i =
              first + (i - (first - s.transfer * g.packetsPerXfer)) := by omega
          rw [place_append_slice _ _ (by rw [hopen]; exact Nat.mul_le_mul_right _ hge) hdvd hi,
            hdiv, hnumber]
          have hslot := h.filled (first + (i - (first - s.transfer * g.packetsPerXfer)))
            (Nat.le_add_right _ _) (by omega)
          rwa [Nat.add_sub_cancel_left] at hslot
      · rw [hother k hk] at hi ⊢
        exact hout.placed k i hi
    · intro k
      by_cases hk : s.transfer = k
      · subst hk
        rw [hlen]
        exact Nat.mul_le_mul_right _ (by omega)
      · rw [hother k hk]
        exact hout.length_le k
    · intro k
      by_cases hk : s.transfer = k
      · subst hk
        rw [hlen]
        exact Nat.dvd_mul_left _ _
      · rw [hother k hk]
        exact hout.packets k
    · intro k hk
      rw [hother k (by omega)]
      exact hout.complete k hk
  · intro k hk
    rw [hother k (by omega)]
    exact h.later k hk

/-! ## The next block -/

theorem seqByte_eq {k : ℕ} (h : k * caspsrUdpData < 2 ^ 64) :
    u64 (k * caspsrUdpData) = k * caspsrUdpData := u64_of_lt h

/-- The markers of what comes after `n` packets, for a block or for a transfer. -/
theorem nextMarkers {first n endByte : ℕ} (hpos : 0 < n)
    (hend : endByte = (first + n - 1) * caspsrUdpData)
    (hword : (first + n + n) * caspsrUdpData ≤ 2 ^ 64) :
    u64 (endByte + caspsrUdpData) = (first + n) * caspsrUdpData ∧
      u64 ((first + n) * caspsrUdpData + (n - 1) * caspsrUdpData) =
        (first + n + n - 1) * caspsrUdpData := by
  constructor
  · have hsum : endByte + caspsrUdpData = (first + n) * caspsrUdpData := by
      rw [hend, ← Nat.succ_mul, Nat.succ_eq_add_one, Nat.sub_add_cancel (by omega)]
    rw [hsum]
    apply u64_of_lt
    simp only [caspsrUdpData] at *
    omega
  · rw [← Nat.add_mul, ← Nat.add_sub_assoc hpos]
    apply u64_of_lt
    simp only [caspsrUdpData] at *
    omega

/-- The next block of the same transfer. -/
theorem newBuffer_open (ring : ℕ → Memory UInt8) {s : CaspsrState}
    {arrived : List CaspsrArrival} {first : ℕ}
    (h : g.Open s arrived first (first + g.packetsPerBuffer))
    (hmore : first + g.packetsPerBuffer < s.transfer * g.packetsPerXfer + g.packetsPerXfer) :
    g.Open (g.newBuffer ring s) arrived (first + g.packetsPerBuffer)
      (first + g.packetsPerBuffer) := by
  obtain ⟨hout, hlen, hlater⟩ := h.close (Nat.le_refl _)
  have hword := h.inWord
  have hroom : first + g.packetsPerBuffer + g.packetsPerBuffer ≤
      s.transfer * g.packetsPerXfer + g.packetsPerXfer := by
    obtain ⟨x, hx⟩ := h.dvd
    obtain ⟨y, hy⟩ : g.packetsPerBuffer ∣ s.transfer * g.packetsPerXfer + g.packetsPerXfer :=
      Nat.dvd_add (Dvd.dvd.mul_left g.whole _) g.whole
    rw [hx, hy, ← Nat.mul_succ] at hmore
    have hxy := Nat.lt_of_mul_lt_mul_left hmore
    rw [hx, hy, ← Nat.mul_succ, ← Nat.mul_succ]
    exact Nat.mul_le_mul_left _ hxy
  obtain ⟨hstart, hend⟩ := nextMarkers g.packets_pos h.endByte
    ((Nat.mul_le_mul_right _ hroom).trans hword)
  simp only [newBuffer, nextBuffer, hstart, hend]
  exact
    { running := h.running
      startByte := rfl
      endByte := rfl
      xferEnd := h.xferEnd
      inWord := h.inWord
      ihdu := h.ihdu
      low := Nat.le_add_right_of_le h.low
      high := hmore
      dvd := Nat.dvd_add h.dvd (Nat.dvd_refl _)
      first_le := Nat.le_refl _
      next_le := Nat.le_add_right _ _
      filled := fun k hge hlt => absurd hlt (Nat.not_lt.mpr hge)
      outputs := hout
      length := hlen
      later := hlater }

/-- The first block of the next transfer, on the next HDU. -/
theorem newHdu_open (ring : ℕ → Memory UInt8) {s : CaspsrState}
    {arrived : List CaspsrArrival} {first : ℕ}
    (h : g.Open s arrived first (first + g.packetsPerBuffer))
    (hlast : first + g.packetsPerBuffer = s.transfer * g.packetsPerXfer + g.packetsPerXfer)
    (hword : (first + g.packetsPerBuffer + g.packetsPerXfer) * caspsrUdpData ≤ 2 ^ 64) :
    g.Open (g.newHdu ring s) arrived (first + g.packetsPerBuffer)
      (first + g.packetsPerBuffer) := by
  obtain ⟨hout, hlen, hlater⟩ := h.close (Nat.le_refl _)
  have hxfer := g.xfer_pos
  have hle := Nat.le_of_dvd hxfer g.whole
  have hbuffer : (first + g.packetsPerBuffer + g.packetsPerBuffer) * caspsrUdpData ≤ 2 ^ 64 :=
    (Nat.mul_le_mul_right _ (Nat.add_le_add_left hle _)).trans hword
  have hnext : (s.transfer + 1) * g.packetsPerXfer = first + g.packetsPerBuffer := by
    rw [Nat.succ_mul]
    exact hlast.symm
  obtain ⟨hstart, hend⟩ := nextMarkers g.packets_pos h.endByte hbuffer
  rw [hlast] at hword
  obtain ⟨hxferStart, hxferEnd⟩ := nextMarkers hxfer h.xferEnd hword
  rw [← hlast] at hxferStart hxferEnd hword
  simp only [newHdu, nextBuffer, hstart, hend, hxferStart, hxferEnd]
  refine
    { running := h.running
      startByte := rfl
      endByte := rfl
      xferEnd := ?_
      inWord := ?_
      ihdu := ?_
      low := hnext.le
      high := ?_
      dvd := Nat.dvd_add h.dvd (Nat.dvd_refl _)
      first_le := Nat.le_refl _
      next_le := Nat.le_add_right _ _
      filled := fun k hge hlt => absurd hlt (Nat.not_lt.mpr hge)
      outputs := ?_
      length := ?_
      later := fun k hk => hlater k (Nat.lt_of_succ_lt hk) }
  · rw [hnext]
  · rw [hnext]
    exact hword
  · rw [h.ihdu, Nat.mod_add_mod]
  · rw [hnext]
    exact Nat.lt_add_of_pos_right hxfer
  · -- the transfer that has ended is complete
    refine { hout with complete := ?_ }
    intro k hk
    rcases Nat.lt_succ_iff_lt_or_eq.mp hk with hlt | rfl
    · exact hout.complete k hlt
    · rw [hlast, Nat.add_sub_cancel_left] at hlen
      exact hlen
  · rw [hnext, Nat.sub_self, Nat.zero_mul]
    exact congrArg List.length (hlater _ (Nat.lt_succ_self _))

/-! ## One turn -/

/-- What may be said of the packets that have come, when only what is said of number `k` changes,
and that only if its place is still to be written. -/
def ExtendsAt (first k : ℕ) (arrived arrived' : List CaspsrArrival) : Prop :=
  ∀ j bytes, j ≠ k ∨ k < first → CaspsrSlot arrived j bytes → CaspsrSlot arrived' j bytes

theorem Outputs.extend {transfer : ℕ} {closed : List CaspsrBlock}
    {arrived arrived' : List CaspsrArrival} (h : g.Outputs transfer closed arrived)
    {first k : ℕ} (hbelow : ∀ j i, (i + 1) * caspsrUdpData ≤ (caspsrOutput closed j).length →
      j * g.packetsPerXfer + i < first)
    (hext : ExtendsAt first k arrived arrived') : g.Outputs transfer closed arrived' := by
  refine { h with placed := ?_ }
  intro j i hi
  have hlt := hbelow j i hi
  exact hext _ _ (by omega) (h.placed j i hi)

/-- The numbers in the closed blocks are below those of the open one. -/
theorem Open.number_lt {s : CaspsrState} {arrived : List CaspsrArrival} {first next : ℕ}
    (h : g.Open s arrived first next) (k i : ℕ)
    (hi : (i + 1) * caspsrUdpData ≤ (caspsrOutput s.closed k).length) :
    k * g.packetsPerXfer + i < first := by
  have hlow := h.low
  rcases Nat.lt_trichotomy k s.transfer with hlt | rfl | hgt
  · have hle := hi.trans (h.outputs.length_le k)
    have hlast : (k + 1) * g.packetsPerXfer ≤ s.transfer * g.packetsPerXfer :=
      Nat.mul_le_mul_right _ hlt
    have hin : i + 1 ≤ g.packetsPerXfer := Nat.le_of_mul_le_mul_right hle (by decide)
    rw [Nat.succ_mul] at hlast
    omega
  · rw [h.length] at hi
    have hin := Nat.le_of_mul_le_mul_right hi (by decide)
    omega
  · rw [h.later k hgt] at hi
    have := Nat.le_of_mul_le_mul_right (hi.trans (Nat.zero_le (0 * caspsrUdpData))) (by decide)
    omega

/-- A number that belongs in the block is written to its place. -/
theorem copyPacket_keeps {s : CaspsrState} {arrived arrived' : List CaspsrArrival}
    {first next k : ℕ} (seqNo : ℕ) {payload : List UInt8} (h : g.Open s arrived first next)
    (hge : first ≤ k) (hlt : k < first + g.packetsPerBuffer) (hle : k ≤ next)
    (hlen : payload.length = caspsrUdpData)
    (hslot : CaspsrSlot arrived' k
      (if k = seqNo then payload else List.replicate caspsrUdpData 0))
    (hext : ExtendsAt first k arrived arrived') :
    g.Keeps (g.copyPacket k seqNo payload s) arrived' first (max next (k + 1)) ∧
      (g.copyPacket k seqNo payload s).stopByte = s.stopByte ∧
      (g.copyPacket k seqNo payload s).xferEndByte = s.xferEndByte := by
  have hroom := h.room
  have hword := h.inWord
  have hnext := h.next_le
  have hfirst := h.first_le
  have hbyte : u64 (k * caspsrUdpData) = k * caspsrUdpData := by
    apply u64_of_lt
    simp only [caspsrUdpData] at *
    omega
  have hoffset : u64 (k * caspsrUdpData) - s.bufferStartByte = (k - first) * caspsrUdpData := by
    rw [hbyte, h.startByte, Nat.sub_mul]
  have hbounds : ¬ (u64 (k * caspsrUdpData) < s.bufferStartByte ∨
      g.hduBufsz - caspsrUdpData < u64 (k * caspsrUdpData) - s.bufferStartByte) := by
    rw [hoffset, hbyte, h.startByte, hduBufsz]
    simp only [caspsrUdpData] at *
    omega
  rw [hoffset] at hbounds
  have hdata : (if k = seqNo then payload else List.replicate caspsrUdpData 0).length =
      caspsrUdpData := by
    by_cases hk : k = seqNo
    · rw [if_pos hk]
      exact hlen
    · rw [if_neg hk]
      exact List.length_replicate
  -- both branches copy, and differ in what they copy and count
  obtain ⟨received, dropped, heq⟩ : ∃ received dropped, g.copyPacket k seqNo payload s =
      { s with
        currentBuffer := s.currentBuffer.copy ((k - first) * caspsrUdpData)
          (if k = seqNo then payload else List.replicate caspsrUdpData 0)
        received := received
        dropped := dropped } := by
    by_cases hk : k = seqNo
    · refine ⟨s.received + 1, s.dropped, ?_⟩
      simp only [copyPacket, hoffset, if_neg hbounds, if_pos hk]
    · refine ⟨s.received, s.dropped + 1, ?_⟩
      simp only [copyPacket, hoffset, if_neg hbounds, if_neg hk]
  rw [heq]
  refine ⟨?_, rfl, rfl⟩
  refine
    { running := h.running
      startByte := h.startByte
      endByte := h.endByte
      xferEnd := h.xferEnd
      inWord := h.inWord
      ihdu := h.ihdu
      low := h.low
      high := h.high
      dvd := h.dvd
      first_le := by omega
      next_le := by omega
      filled := ?_
      outputs := h.outputs.extend h.number_lt hext
      length := h.length
      later := h.later
      begun := by omega }
  intro j hj hjlt
  by_cases hjk : j = k
  · subst hjk
    have hself := Memory.slice_copy_self s.currentBuffer ((j - first) * caspsrUdpData)
      (if j = seqNo then payload else List.replicate caspsrUdpData 0)
    rw [hdata] at hself
    rw [hself]
    exact hslot
  · rw [Memory.slice_copy_of_disjoint]
    · exact hext j _ (.inl hjk) (h.filled j hj (by omega))
    · rw [hdata]
      simp only [caspsrUdpData]
      omega

/-- A number of a block that has been closed is counted and passed by. -/
theorem late_keeps {s : CaspsrState} {arrived arrived' : List CaspsrArrival} {first next k : ℕ}
    (h : g.Keeps s arrived first next) (hlt : k < first)
    (hext : ExtendsAt first k arrived arrived') :
    g.Keeps { s with dropped := s.dropped + 1 } arrived' first next :=
  { h with
    filled := fun j hj hjlt => hext j _ (.inr hlt) (h.filled j hj hjlt)
    outputs := h.outputs.extend h.number_lt hext }

/-- The loop has not come to the number at which the capture stops. -/
def GoesOn (s : CaspsrState) (k : ℕ) : Prop :=
  s.stopByte = 0 ∨ k * caspsrUdpData < s.stopByte

/-- A turn at the frontier or before it. -/
theorem turn_keeps (ring : ℕ → Memory UInt8) {s : CaspsrState}
    {arrived arrived' : List CaspsrArrival} {first next k seqNo : ℕ} {payload : List UInt8}
    (h : g.Keeps s arrived first next) (hle : k ≤ next) (hgo : GoesOn s k)
    (hword : (k + g.packetsPerXfer) * caspsrUdpData ≤ 2 ^ 64)
    (hblocks : 1 < g.packetsPerBuffer ∨ g.packetsPerXfer = 1 ∨
      k * caspsrUdpData < s.xferEndByte)
    (hlen : payload.length = caspsrUdpData)
    (hslot : first ≤ k → CaspsrSlot arrived' k
      (if k = seqNo then payload else List.replicate caspsrUdpData 0))
    (hext : ExtendsAt first k arrived arrived') :
    ∃ first', first ≤ first' ∧ (first' = first ∨ first' = k) ∧
      g.Keeps (g.turn ring seqNo payload s k) arrived' first' (max next (k + 1)) ∧
      (g.turn ring seqNo payload s k).stopByte = s.stopByte ∧
      s.xferEndByte ≤ (g.turn ring seqNo payload s k).xferEndByte := by
  have hxfer := g.xfer_pos
  have hpos := g.packets_pos
  have hnext := h.next_le
  have hroom := h.room
  have hbyte : u64 (k * caspsrUdpData) = k * caspsrUdpData := by
    apply u64_of_lt
    simp only [caspsrUdpData] at *
    omega
  have hstop : ¬ (s.stopByte ≠ 0 ∧ s.stopByte ≤ u64 (k * caspsrUdpData)) := by
    rw [hbyte]
    rcases hgo with hgo | hgo
    · exact fun hboth => hboth.1 hgo
    · exact fun hboth => absurd hboth.2 (Nat.not_le.mpr hgo)
  simp only [turn, if_pos h.running, if_neg hstop]
  rcases Nat.lt_or_ge k first with hlate | hge
  · -- the block of the number has been closed
    have hlt : u64 (k * caspsrUdpData) < s.bufferStartByte := by
      rw [hbyte, h.startByte]
      exact Nat.mul_lt_mul_of_pos_right hlate (by decide)
    have hmax : max next (k + 1) = next := by
      have := h.first_le
      omega
    rw [if_pos hlt, hmax]
    exact ⟨first, Nat.le_refl _, .inl rfl, late_keeps h hlate hext, rfl, Nat.le_refl _⟩
  · have hnot : ¬ u64 (k * caspsrUdpData) < s.bufferStartByte := by
      rw [hbyte, h.startByte]
      exact Nat.not_lt.mpr (Nat.mul_le_mul_right _ hge)
    rw [if_neg hnot]
    rcases Nat.lt_or_ge k (first + g.packetsPerBuffer) with hin | hout
    · -- the number belongs in the block that is open
      have hend : u64 (k * caspsrUdpData) ≤ s.bufferEndByte := by
        rw [hbyte, h.endByte]
        exact Nat.mul_le_mul_right _ (by omega)
      rw [if_pos hend]
      obtain ⟨hkeeps, hsame, hxferEnd⟩ :=
        copyPacket_keeps seqNo h.toOpen hge hin hle hlen (hslot hge) hext
      exact ⟨first, Nat.le_refl _, .inl rfl, hkeeps, hsame, hxferEnd.ge⟩
    · -- the number is the first of the next block
      have hk : k = first + g.packetsPerBuffer := by omega
      have hopen : g.Open s arrived first (first + g.packetsPerBuffer) := by
        have hfull : next = first + g.packetsPerBuffer := by omega
        rw [← hfull]
        exact h.toOpen
      have hend : ¬ u64 (k * caspsrUdpData) ≤ s.bufferEndByte := by
        rw [hbyte, h.endByte, Nat.not_le]
        exact Nat.mul_lt_mul_of_pos_right (by omega) (by decide)
      have hext' : ExtendsAt (first + g.packetsPerBuffer) k arrived arrived' := by
        intro j bytes hj hjslot
        exact hext j bytes (by omega) hjslot
      rw [if_neg hend]
      have hframe : (g.newBuffer ring s).stopByte = s.stopByte ∧
          (g.newHdu ring s).stopByte = s.stopByte ∧
          (g.newBuffer ring s).transfer = s.transfer ∧
          (g.newBuffer ring s).xferEndByte = s.xferEndByte ∧
          (g.newHdu ring s).transfer = s.transfer + 1 := by
        simp only [newBuffer, newHdu, nextBuffer, and_self]
      have hmax : max next (k + 1) = max (first + g.packetsPerBuffer) (k + 1) := by omega
      rw [hmax]
      rcases Nat.lt_or_ge k (s.transfer * g.packetsPerXfer + g.packetsPerXfer) with hmore | hdone
      · -- it is not the last number of the transfer, as that is not a block of its own
        have hnew := newBuffer_open ring hopen (hk ▸ hmore)
        have hxferEnd : u64 (k * caspsrUdpData) < s.xferEndByte := by
          rcases hblocks with hblocks | hblocks | hblocks
          · have hnewRoom := hnew.room
            rw [hframe.2.2.1] at hnewRoom
            rw [hbyte, h.xferEnd]
            exact Nat.mul_lt_mul_of_pos_right (by omega) (by decide)
          · have := h.low
            omega
          · rw [hbyte]
            exact hblocks
        obtain ⟨hkeeps, hsame, hsameEnd⟩ := copyPacket_keeps seqNo hnew hk.ge (by omega) hk.le hlen
          (hslot hge) hext'
        rw [if_pos hxferEnd]
        rw [← hk] at hkeeps ⊢
        exact ⟨k, hge, .inr rfl, hkeeps, hsame.trans hframe.1,
          (hsameEnd.trans hframe.2.2.2.1).ge⟩
      · -- it is the first number of the next transfer
        have hlast : first + g.packetsPerBuffer =
            s.transfer * g.packetsPerXfer + g.packetsPerXfer := by omega
        have hxferEnd : ¬ u64 (k * caspsrUdpData) < s.xferEndByte := by
          rw [hbyte, h.xferEnd, Nat.not_lt]
          exact Nat.mul_le_mul_right _ (by omega)
        have hnew := newHdu_open ring hopen hlast (hk ▸ hword)
        obtain ⟨hkeeps, hsame, hsameEnd⟩ := copyPacket_keeps seqNo hnew hk.ge (by omega) hk.le hlen
          (hslot hge) hext'
        have hlater : s.xferEndByte ≤ (g.newHdu ring s).xferEndByte := by
          rw [h.xferEnd, hnew.xferEnd, hframe.2.2.2.2, Nat.succ_mul]
          exact Nat.mul_le_mul_right _ (by omega)
        rw [if_neg hxferEnd]
        rw [← hk] at hkeeps ⊢
        exact ⟨k, hge, .inr rfl, hkeeps, hsame.trans hframe.2.1, hlater.trans hsameEnd.ge⟩

/-! ## The loop over the numbers -/

theorem ExtendsAt.refl (first k : ℕ) (arrived : List CaspsrArrival) :
    ExtendsAt first k arrived arrived := fun _ _ _ h => h

/-- Zeros are written from `start` on, over no number that has come. -/
theorem pads_keep (ring : ℕ → Memory UInt8) {s : CaspsrState} {arrived : List CaspsrArrival}
    {first next start seqNo : ℕ} {payload : List UInt8} (h : g.Keeps s arrived first next)
    (hstart : start ≤ next) (hlen : payload.length = caspsrUdpData) (n : ℕ)
    (hgo : ∀ k, start ≤ k → k < start + n → GoesOn s k) (hbefore : start + n ≤ seqNo)
    (hnotOver : ∀ a ∈ arrived, start ≤ a.number → a.number < seqNo → a.number < first)
    (hword : (seqNo + g.packetsPerXfer) * caspsrUdpData ≤ 2 ^ 64)
    (hblocks : 1 < g.packetsPerBuffer ∨ g.packetsPerXfer = 1 ∨
      seqNo * caspsrUdpData < s.xferEndByte) :
    ∃ first', first ≤ first' ∧ (first' = first ∨ first' < start + n) ∧
      g.Keeps ((List.range' start n).foldl (g.turn ring seqNo payload) s) arrived first'
        (max next (start + n)) ∧
      ((List.range' start n).foldl (g.turn ring seqNo payload) s).stopByte = s.stopByte ∧
      s.xferEndByte ≤ ((List.range' start n).foldl (g.turn ring seqNo payload) s).xferEndByte := by
  induction n with
  | zero =>
    refine ⟨first, Nat.le_refl _, .inl rfl, ?_, rfl, Nat.le_refl _⟩
    rw [Nat.add_zero, Nat.max_eq_left hstart]
    exact h
  | succ n ih =>
    obtain ⟨first', hfirst, hwhere, hkeeps, hstop, hend⟩ :=
      ih (fun k hk hlt => hgo k hk (by omega)) (by omega)
    rw [List.range'_1_concat, List.foldl_append, List.foldl_cons, List.foldl_nil]
    have hword' : (start + n + g.packetsPerXfer) * caspsrUdpData ≤ 2 ^ 64 :=
      (Nat.mul_le_mul_right _ (by omega)).trans hword
    have hgo' : GoesOn ((List.range' start n).foldl (g.turn ring seqNo payload) s) (start + n) := by
      rw [GoesOn, hstop]
      exact hgo (start + n) (Nat.le_add_right _ _) (by omega)
    have hblocks' : 1 < g.packetsPerBuffer ∨ g.packetsPerXfer = 1 ∨ (start + n) * caspsrUdpData <
        ((List.range' start n).foldl (g.turn ring seqNo payload) s).xferEndByte := by
      rcases hblocks with hblocks | hblocks | hblocks
      · exact .inl hblocks
      · exact .inr (.inl hblocks)
      · refine .inr (.inr ?_)
        exact (Nat.mul_le_mul_right _ (by omega)).trans_lt (hblocks.trans_le hend)
    have hslot : first' ≤ start + n → CaspsrSlot arrived (start + n)
        (if start + n = seqNo then payload else List.replicate caspsrUdpData 0) := by
      intro hge
      rw [if_neg (by omega)]
      refine .inr ⟨?_, rfl⟩
      intro a ha hnumber
      have := hnotOver a ha (by omega) (by omega)
      omega
    obtain ⟨first'', hfirst', hwhere', hkeeps', hstop', hend'⟩ :=
      turn_keeps ring hkeeps (Nat.le_max_right _ _) hgo' hword' hblocks' hlen hslot
        (ExtendsAt.refl _ _ _)
    have hmax : max (max next (start + n)) (start + n + 1) = max next (start + (n + 1)) := by omega
    rw [hmax] at hkeeps'
    exact ⟨first'', hfirst.trans hfirst', by omega, hkeeps', hstop'.trans hstop, hend.trans hend'⟩

/-- The turn at which the capture stops: the block is closed after what has been written of it. -/
theorem turn_stop (ring : ℕ → Memory UInt8) {s : CaspsrState} {arrived : List CaspsrArrival}
    {first next k : ℕ} (seqNo : ℕ) (payload : List UInt8) (h : g.Keeps s arrived first next)
    (hle : k ≤ next) (hge : first ≤ k) (hstop : s.stopByte ≠ 0 ∧ s.stopByte ≤ k * caspsrUdpData)
    (hword : (k + g.packetsPerXfer) * caspsrUdpData ≤ 2 ^ 64)
    (hlast : k < next ∨ (k + 1) % g.packetsPerBuffer ≠ 0 ∨ g.packetsPerBuffer = 1 ∧ 0 < k) :
    (g.turn ring seqNo payload s k).status = .stopped ∧
      g.Outputs s.transfer (g.turn ring seqNo payload s k).closed arrived ∧
      (g.turn ring seqNo payload s k).transfer = s.transfer ∧
      (g.turn ring seqNo payload s k).arrived = s.arrived := by
  have hxfer := g.xfer_pos
  have hpos := g.packets_pos
  have hnext := h.next_le
  have hlt : k * caspsrUdpData < 2 ^ 64 := by
    simp only [caspsrUdpData] at *
    omega
  have hbyte : u64 (k * caspsrUdpData) = k * caspsrUdpData := u64_of_lt hlt
  -- how many numbers of the block have been written
  obtain ⟨m, hm, hbytes⟩ : ∃ m, first + m ≤ next ∧
      (if u64 (k * caspsrUdpData) < s.bufferEndByte then
        u64 (u64 (k * caspsrUdpData) + 2 ^ 64 - s.bufferStartByte) else g.hduBufsz) =
          m * caspsrUdpData := by
    rw [hbyte, h.endByte, h.startByte]
    by_cases hbefore : k * caspsrUdpData < (first + g.packetsPerBuffer - 1) * caspsrUdpData
    · refine ⟨k - first, by omega, ?_⟩
      have hsub : k * caspsrUdpData + 2 ^ 64 - first * caspsrUdpData =
          (k - first) * caspsrUdpData + 2 ^ 64 := by
        simp only [caspsrUdpData] at *
        omega
      rw [if_pos hbefore, hsub, u64, Nat.add_mod_right]
      exact Nat.mod_eq_of_lt ((Nat.mul_le_mul_right _ (Nat.sub_le _ _)).trans_lt hlt)
    · refine ⟨g.packetsPerBuffer, ?_, by rw [if_neg hbefore]; rfl⟩
      have hend : first + g.packetsPerBuffer ≤ k + 1 := by
        have := Nat.le_of_mul_le_mul_right (Nat.not_lt.mp hbefore) (show 0 < caspsrUdpData by decide)
        omega
      rcases hlast with hlast | hlast | hlast
      · omega
      · -- the last number of a block is a multiple of the block less one
        rcases Nat.lt_or_ge k (first + g.packetsPerBuffer) with hlt | hgt
        · have hk : k + 1 = first + g.packetsPerBuffer := by omega
          rw [hk, Nat.add_mod_right] at hlast
          exact absurd (Nat.mod_eq_zero_of_dvd h.dvd) hlast
        · omega
      · have hbegun := h.begun
        omega
  have hstops : s.stopByte ≠ 0 ∧ s.stopByte ≤ u64 (k * caspsrUdpData) := by
    rw [hbyte]
    exact hstop
  have heq : g.turn ring seqNo payload s k =
      { s with
        status := .stopped
        stopByte := 0
        closed := s.closed ++ [out s (m * caspsrUdpData)] } := by
    simp only [turn, if_pos h.running, if_pos hstops, hbytes]
  rw [heq]
  exact ⟨rfl, (h.toOpen.close hm).1, rfl, rfl⟩

/-- Once the thread has left its loop the turns that are left do nothing. -/
theorem foldl_turn_of_left (ring : ℕ → Memory UInt8) (seqNo : ℕ) (payload : List UInt8)
    {s : CaspsrState} (h : s.status ≠ .running) (ks : List ℕ) :
    ks.foldl (g.turn ring seqNo payload) s = s := by
  induction ks with
  | nil => rfl
  | cons k ks ih =>
    have hturn : g.turn ring seqNo payload s k = s := by rw [turn, if_neg h]
    rw [List.foldl_cons, hturn]
    exact ih

theorem turn_frame (ring : ℕ → Memory UInt8) (seqNo : ℕ) (payload : List UInt8) (s : CaspsrState)
    (k : ℕ) : (g.turn ring seqNo payload s k).arrived = s.arrived ∧
      (g.turn ring seqNo payload s k).waitingForStart = s.waitingForStart ∧
      (g.turn ring seqNo payload s k).prevSeqNo = s.prevSeqNo := by
  have hcopy : ∀ s' : CaspsrState, (g.copyPacket k seqNo payload s').arrived = s'.arrived ∧
      (g.copyPacket k seqNo payload s').waitingForStart = s'.waitingForStart ∧
      (g.copyPacket k seqNo payload s').prevSeqNo = s'.prevSeqNo := by
    intro s'
    simp only [copyPacket]
    split
    · exact ⟨rfl, rfl, rfl⟩
    · split
      · exact ⟨rfl, rfl, rfl⟩
      · exact ⟨rfl, rfl, rfl⟩
  simp only [turn]
  split
  · split
    · exact ⟨rfl, rfl, rfl⟩
    · split
      · exact ⟨rfl, rfl, rfl⟩
      · split
        · exact hcopy s
        · split
          · have hnew := hcopy (g.newBuffer ring s)
            simpa only [newBuffer, nextBuffer] using hnew
          · have hnew := hcopy (g.newHdu ring s)
            simpa only [newHdu, nextBuffer] using hnew
  · exact ⟨rfl, rfl, rfl⟩

theorem foldl_turn_frame (ring : ℕ → Memory UInt8) (seqNo : ℕ) (payload : List UInt8)
    (ks : List ℕ) (s : CaspsrState) :
    (ks.foldl (g.turn ring seqNo payload) s).arrived = s.arrived ∧
      (ks.foldl (g.turn ring seqNo payload) s).waitingForStart = s.waitingForStart ∧
      (ks.foldl (g.turn ring seqNo payload) s).prevSeqNo = s.prevSeqNo := by
  induction ks generalizing s with
  | nil => exact ⟨rfl, rfl, rfl⟩
  | cons k ks ih =>
    obtain ⟨ha, hw, hp⟩ := turn_frame (g := g) ring seqNo payload s k
    obtain ⟨ha', hw', hp'⟩ := ih (g.turn ring seqNo payload s k)
    exact ⟨ha'.trans ha, hw'.trans hw, hp'.trans hp⟩

/-! ## One packet -/

/-- The number at which the capture stops, in a loop that goes far enough. -/
def stopNumber (s : CaspsrState) (start : ℕ) : ℕ :=
  max start ((s.stopByte + caspsrUdpData - 1) / caspsrUdpData)

variable (g) in
/-- The condition on a packet: the loop over the numbers starts at the frontier or before it and
passes over no number that has come for the block; positions fit in a word; no transfer ends with a
block of a single packet of several; and when the capture stops it does so in the block that is
open, and not at the last number of a block that has not been written. -/
structure Timely (s : CaspsrState) (start seqNo : ℕ) : Prop where
  reached : ∀ k < start, ∃ a ∈ s.arrived, k ≤ a.number
  notOver : ∀ a ∈ s.arrived, start ≤ a.number → a.number < seqNo →
    a.number * caspsrUdpData < s.bufferStartByte
  inWord : (seqNo + g.packetsPerXfer) * caspsrUdpData ≤ 2 ^ 64
  blocks : 1 < g.packetsPerBuffer ∨ g.packetsPerXfer = 1 ∨
    seqNo * caspsrUdpData < s.xferEndByte
  stops : s.stopByte ≠ 0 → s.stopByte ≤ seqNo * caspsrUdpData → start ≤ seqNo →
    s.bufferStartByte ≤ stopNumber s start * caspsrUdpData ∧
      ((∃ a ∈ s.arrived, stopNumber s start ≤ a.number) ∨
        (stopNumber s start + 1) % g.packetsPerBuffer ≠ 0 ∨
        g.packetsPerBuffer = 1 ∧ 0 < stopNumber s start)

variable (g) in
/-- What holds between the packets while the thread is in its loop. -/
structure Loops (s : CaspsrState) (first next : ℕ) : Prop where
  keeps : g.Keeps s s.arrived first next
  reach : ∀ k, k < next ↔ ∃ a ∈ s.arrived, k ≤ a.number
  late : ∀ a ∈ s.arrived, a.inTime = false → a.number < first
  waits : s.waitingForStart = true → s.arrived = []
  prev : s.waitingForStart = false → ∃ a ∈ s.arrived, a.number = s.prevSeqNo

theorem le_padStart {prevSeqNo seqNo : ℕ} (h : seqNo < padStart prevSeqNo seqNo) :
    prevSeqNo = seqNo := by
  unfold padStart at h
  split at h
  · omega
  · split at h
    · omega
    · split at h
      · omega
      · omega

theorem reach_concat {arrived : List CaspsrArrival} {next : ℕ}
    (h : ∀ k, k < next ↔ ∃ a ∈ arrived, k ≤ a.number) (a : CaspsrArrival) :
    ∀ k, k < max next (a.number + 1) ↔ ∃ b ∈ arrived ++ [a], k ≤ b.number := by
  intro k
  constructor
  · intro hk
    rcases Nat.lt_or_ge k next with hlt | hge
    · obtain ⟨b, hb, hle⟩ := (h k).mp hlt
      exact ⟨b, List.mem_append_left _ hb, hle⟩
    · exact ⟨a, List.mem_append_right _ (List.mem_singleton_self a), by omega⟩
  · rintro ⟨b, hb, hle⟩
    rcases List.mem_append.mp hb with hb | hb
    · have := (h k).mpr ⟨b, hb, hle⟩
      omega
    · rw [List.mem_singleton.mp hb] at hle
      omega

/-- The start of a loop is at the frontier or before it. -/
theorem Timely.start_le {s : CaspsrState} {next start seqNo : ℕ} (ht : g.Timely s start seqNo)
    (hreach : ∀ k, k < next ↔ ∃ a ∈ s.arrived, k ≤ a.number) : start ≤ next := by
  rcases Nat.eq_zero_or_pos start with hzero | hpos
  · omega
  · have := (hreach (start - 1)).mpr (ht.reached (start - 1) (by omega))
    omega

theorem Timely.seqByte {s : CaspsrState} {start seqNo : ℕ} (ht : g.Timely s start seqNo) :
    u64 (seqNo * caspsrUdpData) = seqNo * caspsrUdpData := by
  have hword := ht.inWord
  have hxfer := g.xfer_pos
  apply u64_of_lt
  simp only [caspsrUdpData] at *
  omega

/-- The packet as it is taken. -/
def arrival (s : CaspsrState) (seqNo : ℕ) (payload : List UInt8) : CaspsrArrival :=
  ⟨seqNo, payload, decide (s.bufferStartByte ≤ u64 (seqNo * caspsrUdpData))⟩

/-- A packet came in time exactly when its number is not below the block. -/
theorem arrival_inTime {s : CaspsrState} {arrived : List CaspsrArrival} {first next start seqNo : ℕ}
    (h : g.Keeps s arrived first next) (ht : g.Timely s start seqNo) (payload : List UInt8) :
    (arrival s seqNo payload).inTime = decide (first ≤ seqNo) := by
  have hiff : first * caspsrUdpData ≤ seqNo * caspsrUdpData ↔ first ≤ seqNo :=
    Nat.mul_le_mul_right_iff (by decide)
  simp only [arrival, ht.seqByte, h.startByte, hiff]

/-- What a packet that is taken changes about the packets that have come. -/
theorem extendsAt_arrival {s : CaspsrState} {first first' next start seqNo : ℕ}
    (h : g.Keeps s s.arrived first next) (ht : g.Timely s start seqNo) (payload : List UInt8)
    (hfirst : seqNo < first' → seqNo < first) :
    ExtendsAt first' seqNo s.arrived (s.arrived ++ [arrival s seqNo payload]) := by
  intro j bytes hj hslot
  apply hslot.concat
  intro (hnumber : seqNo = j)
  rw [arrival_inTime h ht]
  exact decide_eq_false (by omega)

/-- A packet whose number is not before the start of its loop. -/
theorem record_of_le (ring : ℕ → Memory UInt8) {s : CaspsrState} {first next start seqNo : ℕ}
    {payload : List UInt8} (h : g.Keeps s s.arrived first next)
    (hreach : ∀ k, k < next ↔ ∃ a ∈ s.arrived, k ≤ a.number)
    (ht : g.Timely s start seqNo) (hlen : payload.length = caspsrUdpData)
    (hle : start ≤ seqNo) (hgo : GoesOn s seqNo) :
    ∃ s' first', g.record ring start seqNo payload s =
        { s' with arrived := s.arrived ++ [arrival s seqNo payload] } ∧
      g.Keeps s' (s.arrived ++ [arrival s seqNo payload]) first' (max next (seqNo + 1)) ∧
      first ≤ first' ∧ s'.waitingForStart = s.waitingForStart ∧ s'.prevSeqNo = s.prevSeqNo := by
  have hstart := ht.start_le hreach
  have hsum : start + (seqNo - start) = seqNo := by omega
  have hlist : List.range' start (seqNo + 1 - start) =
      List.range' start (seqNo - start) ++ [seqNo] := by
    rw [Nat.succ_sub hle, List.range'_1_concat, hsum]
  have hgoes : ∀ k, start ≤ k → k < start + (seqNo - start) → GoesOn s k := by
    intro k _ hk
    rcases hgo with hgo | hgo
    · exact .inl hgo
    · exact .inr ((Nat.mul_le_mul_right _ (by omega)).trans_lt hgo)
  have hnotOver : ∀ a ∈ s.arrived, start ≤ a.number → a.number < seqNo → a.number < first := by
    intro a ha hge hlt
    have hbyte := ht.notOver a ha hge hlt
    rw [h.startByte] at hbyte
    exact Nat.lt_of_mul_lt_mul_right hbyte
  obtain ⟨first₁, hfirst₁, hwhere, hkeeps, hstop, hend⟩ :=
    pads_keep ring h hstart hlen (seqNo - start) hgoes hsum.le hnotOver ht.inWord ht.blocks
  have hblocks : 1 < g.packetsPerBuffer ∨ g.packetsPerXfer = 1 ∨ seqNo * caspsrUdpData <
      ((List.range' start (seqNo - start)).foldl (g.turn ring seqNo payload) s).xferEndByte := by
    rcases ht.blocks with hblocks | hblocks | hblocks
    · exact .inl hblocks
    · exact .inr (.inl hblocks)
    · exact .inr (.inr (hblocks.trans_le hend))
  have hgo' : GoesOn ((List.range' start (seqNo - start)).foldl (g.turn ring seqNo payload) s)
      seqNo := by
    rw [GoesOn, hstop]
    exact hgo
  rw [hsum] at hwhere hkeeps
  have hslot : first₁ ≤ seqNo → CaspsrSlot (s.arrived ++ [arrival s seqNo payload]) seqNo
      (if seqNo = seqNo then payload else List.replicate caspsrUdpData 0) := by
    intro hge
    rw [if_pos rfl]
    refine .inl ⟨_, List.mem_append_right _ (List.mem_singleton_self _), rfl, ?_, rfl⟩
    rw [arrival_inTime h ht]
    exact decide_eq_true (hfirst₁.trans hge)
  obtain ⟨first', hfirst', -, hkeeps', -, -⟩ :=
    turn_keeps ring hkeeps (Nat.le_max_right _ _) hgo' ht.inWord hblocks hlen hslot
      (extendsAt_arrival h ht payload (by omega))
  have hmax : max (max next seqNo) (seqNo + 1) = max next (seqNo + 1) := by omega
  rw [hmax] at hkeeps'
  obtain ⟨harrived, hwaiting, hprev⟩ := foldl_turn_frame (g := g) ring seqNo payload
    (List.range' start (seqNo - start) ++ [seqNo]) s
  rw [List.foldl_append, List.foldl_cons, List.foldl_nil] at harrived hwaiting hprev
  refine ⟨_, first', ?_, hkeeps', hfirst₁.trans hfirst', hwaiting, hprev⟩
  simp only [record, hlist, List.foldl_append, List.foldl_cons, List.foldl_nil,
    if_pos hkeeps'.running, harrived, arrival]

/-- A packet with the number of the one before it, over which the loop does not go. -/
theorem record_again (ring : ℕ → Memory UInt8) {s : CaspsrState} {first next start seqNo : ℕ}
    {payload : List UInt8} (h : g.Keeps s s.arrived first next)
    (hreach : ∀ k, k < next ↔ ∃ a ∈ s.arrived, k ≤ a.number)
    (hlate : ∀ a ∈ s.arrived, a.inTime = false → a.number < first)
    (ht : g.Timely s start seqNo) (hlt : seqNo < start)
    (hagain : ∃ a ∈ s.arrived, a.number = seqNo) :
    g.record ring start seqNo payload s =
        { s with arrived := s.arrived ++ [arrival s seqNo payload] } ∧
      g.Keeps s (s.arrived ++ [arrival s seqNo payload]) first (max next (seqNo + 1)) := by
  have hstart := ht.start_le hreach
  have hempty : List.range' start (seqNo + 1 - start) = [] := by
    rw [Nat.sub_eq_zero_of_le hlt]
    rfl
  have hmax : max next (seqNo + 1) = next := by omega
  -- one with this number came in time, or the block of the number has been closed
  have hext : ∀ j bytes, CaspsrSlot s.arrived j bytes →
      CaspsrSlot (s.arrived ++ [arrival s seqNo payload]) j bytes := by
    intro j bytes hslot
    rcases hslot with ⟨b, hb, hnumber, htime, hbytes⟩ | ⟨hnone, hbytes⟩
    · exact .inl ⟨b, List.mem_append_left _ hb, hnumber, htime, hbytes⟩
    · apply CaspsrSlot.concat (.inr ⟨hnone, hbytes⟩)
      intro (hnumber : seqNo = j)
      obtain ⟨b, hb, hbnumber⟩ := hagain
      have hbelow := hlate b hb (hnone b hb (hbnumber.trans hnumber))
      rw [arrival_inTime h ht]
      exact decide_eq_false (by omega)
  rw [hmax]
  constructor
  · simp only [record, hempty, List.foldl_nil, if_pos h.running, arrival]
  · exact { h with
      filled := fun j hj hjlt => hext j _ (h.filled j hj hjlt)
      outputs := { h.outputs with placed := fun j i hi => hext _ _ (h.outputs.placed j i hi) } }

/-- A packet whose loop stops. -/
theorem record_stops (ring : ℕ → Memory UInt8) {s : CaspsrState} {first next start seqNo : ℕ}
    {payload : List UInt8} (h : g.Keeps s s.arrived first next)
    (hreach : ∀ k, k < next ↔ ∃ a ∈ s.arrived, k ≤ a.number)
    (ht : g.Timely s start seqNo) (hlen : payload.length = caspsrUdpData)
    (hle : start ≤ seqNo) (hstop : ¬ GoesOn s seqNo) :
    (g.record ring start seqNo payload s).status = .stopped ∧
      ∃ transfer, (g.record ring start seqNo payload s).transfer = transfer ∧
        g.Outputs transfer (g.record ring start seqNo payload s).closed
          (g.record ring start seqNo payload s).arrived := by
  rw [GoesOn, not_or, Nat.not_lt] at hstop
  obtain ⟨hopen, hlast⟩ := ht.stops hstop.1 hstop.2 hle
  have hstart := ht.start_le hreach
  -- the number at which it stops, and the numbers before it
  obtain ⟨k, hk⟩ : ∃ k, stopNumber s start = k := ⟨_, rfl⟩
  have hk' := hk
  rw [stopNumber] at hk'
  have hge : start ≤ k := by omega
  have hkle : k ≤ seqNo := by
    have := hstop.2
    simp only [caspsrUdpData] at *
    omega
  have hkstop : s.stopByte ≤ k * caspsrUdpData := by
    simp only [caspsrUdpData] at *
    omega
  have hsum : start + (k - start) = k := by omega
  rw [hk] at hopen hlast
  have hgoes : ∀ j, start ≤ j → j < start + (k - start) → GoesOn s j := by
    intro j hstartj hj
    refine .inr ?_
    simp only [caspsrUdpData] at *
    omega
  have hnotOver : ∀ a ∈ s.arrived, start ≤ a.number → a.number < seqNo → a.number < first := by
    intro a ha hage hlt
    have hbyte := ht.notOver a ha hage hlt
    rw [h.startByte] at hbyte
    exact Nat.lt_of_mul_lt_mul_right hbyte
  obtain ⟨first', hfirst, hwhere, hkeeps, hsame, -⟩ :=
    pads_keep ring h hstart hlen (k - start) hgoes (by omega) hnotOver ht.inWord ht.blocks
  rw [hsum] at hwhere hkeeps
  have hfirst' : first' ≤ k := by
    rw [h.startByte] at hopen
    have := Nat.le_of_mul_le_mul_right hopen (show 0 < caspsrUdpData by decide)
    omega
  have hlast' : k < max next k ∨ (k + 1) % g.packetsPerBuffer ≠ 0 ∨
      g.packetsPerBuffer = 1 ∧ 0 < k := by
    rcases hlast with hlast | hlast
    · have := (hreach k).mpr hlast
      exact .inl (by omega)
    · exact .inr hlast
  have hword : (k + g.packetsPerXfer) * caspsrUdpData ≤ 2 ^ 64 :=
    (Nat.mul_le_mul_right _ (by omega)).trans ht.inWord
  obtain ⟨hstatus, hout, htransfer, -⟩ := turn_stop ring seqNo payload hkeeps
    (Nat.le_max_right _ _) hfirst' (by rw [hsame]; exact ⟨hstop.1, hkstop⟩) hword hlast'
  have hleft : (g.turn ring seqNo payload
      ((List.range' start (k - start)).foldl (g.turn ring seqNo payload) s) k).status ≠
        .running := by
    rw [hstatus]
    decide
  have hlist : List.range' start (seqNo + 1 - start) =
      List.range' start (k - start) ++ k :: List.range' (k + 1) (seqNo - k) := by
    rw [← List.range'_succ]
    have happend := List.range'_append_1 (s := start) (m := k - start) (n := seqNo - k + 1)
    rw [hsum] at happend
    rw [happend]
    congr 1
    omega
  have hfold : (List.range' start (seqNo + 1 - start)).foldl (g.turn ring seqNo payload) s =
      g.turn ring seqNo payload
        ((List.range' start (k - start)).foldl (g.turn ring seqNo payload) s) k := by
    rw [hlist, List.foldl_append, List.foldl_cons, foldl_turn_of_left ring seqNo payload hleft]
  have harrived := (foldl_turn_frame (g := g) ring seqNo payload
    (List.range' start (seqNo + 1 - start)) s).1
  rw [hfold] at harrived
  have heq : g.record ring start seqNo payload s =
      g.turn ring seqNo payload
        ((List.range' start (k - start)).foldl (g.turn ring seqNo payload) s) k := by
    simp only [record, hfold, if_neg hleft]
  rw [heq, harrived]
  exact ⟨hstatus, _, rfl, by rw [htransfer]; exact hout⟩

theorem length_payload {buf : Datagram} (h : buf.length = caspsrUdpPayload) :
    (payload buf).length = caspsrUdpData := by
  simp only [payload, List.length_take, List.length_drop, h, caspsrUdpPayload]
  omega

/-- A packet that is taken, when the capture goes on. -/
theorem record_loops (ring : ℕ → Memory UInt8) {s : CaspsrState} {first next start seqNo : ℕ}
    {data : List UInt8} (h : g.Keeps s s.arrived first next)
    (hreach : ∀ k, k < next ↔ ∃ a ∈ s.arrived, k ≤ a.number)
    (hlate : ∀ a ∈ s.arrived, a.inTime = false → a.number < first)
    (hwaits : s.waitingForStart = false) (hprev : s.prevSeqNo = seqNo)
    (ht : g.Timely s start seqNo) (hlen : data.length = caspsrUdpData)
    (hgo : start ≤ seqNo → GoesOn s seqNo)
    (hagain : seqNo < start → ∃ a ∈ s.arrived, a.number = seqNo) :
    ∃ first', g.Loops (g.record ring start seqNo data s) first' (max next (seqNo + 1)) := by
  have hlater : ∀ first', first ≤ first' → ∀ a ∈ s.arrived ++ [arrival s seqNo data],
      a.inTime = false → a.number < first' := by
    intro first' hle a ha htime
    rcases List.mem_append.mp ha with ha | ha
    · exact (hlate a ha htime).trans_le hle
    · rw [List.mem_singleton.mp ha] at htime ⊢
      rw [arrival_inTime h ht] at htime
      have := of_decide_eq_false htime
      show seqNo < first'
      omega
  have hmem : ∃ a ∈ s.arrived ++ [arrival s seqNo data], a.number = seqNo :=
    ⟨_, List.mem_append_right _ (List.mem_singleton_self _), rfl⟩
  rcases Nat.lt_or_ge seqNo start with hlt | hle
  · obtain ⟨heq, hkeeps⟩ := record_again ring h hreach hlate ht hlt (hagain hlt)
    rw [heq]
    exact ⟨first,
      { keeps := { hkeeps with }
        reach := reach_concat hreach (arrival s seqNo data)
        late := hlater first (Nat.le_refl _)
        waits := fun hw => absurd (hwaits.symm.trans hw) Bool.false_ne_true
        prev := fun _ => by rw [hprev]; exact hmem }⟩
  · obtain ⟨s', first', heq, hkeeps, hfirst, hw, hp⟩ :=
      record_of_le ring h hreach ht hlen hle (hgo hle)
    rw [heq]
    exact ⟨first',
      { keeps := { hkeeps with }
        reach := reach_concat hreach (arrival s seqNo data)
        late := hlater first' hfirst
        waits := fun hw' => absurd ((hw.trans hwaits).symm.trans hw') Bool.false_ne_true
        prev := fun _ => by rw [hp, hprev]; exact hmem }⟩

/-! ## Runs -/

variable (g) in
/-- The condition on an event. Only before the first packet that is taken may the numbers fail to
fall on a multiple of the increment, or be too high for a start. -/
def InTime (s : CaspsrState) : CaspsrEvent → Prop
  | .stop _ => True
  | .packet buf =>
      let buf := buf.take caspsrUdpPayload
      let aligned := g.align s.globalOffset (decodeWord buf 8)
      let seqNo := aligned.2 / g.seqInc
      buf.length = caspsrUdpPayload →
        if aligned.2 % g.seqInc ≠ 0 then s.waitingForStart = true
        else s.waitingForStart = true ∧ 10000 ≤ seqNo ∨
          g.Timely s (padStart s.prevSeqNo seqNo) seqNo

variable (g) in
/-- The runs in which every event satisfies the condition. -/
inductive Runs (ring : ℕ → Memory UInt8) : CaspsrState → Prop
  | entered : Runs ring (g.entered ring)
  | step {s : CaspsrState} {e : CaspsrEvent} : Runs ring s → g.InTime s e →
      Runs ring (g.step ring s e)

variable (g) in
/-- What holds in every state of a run: of the loop, or once the thread has left it. -/
def Holding (s : CaspsrState) : Prop :=
  (∃ first next, g.Loops s first next) ∨
    s.status ≠ .running ∧ g.Outputs s.transfer s.closed s.arrived

theorem entered_loops (ring : ℕ → Memory UInt8) : g.Loops (g.entered ring) 0 0 := by
  have hxfer := g.xfer_pos
  have hlt := g.xfer_lt
  have hle := Nat.le_of_dvd hxfer g.whole
  have hbuffer : u64 ((g.packetsPerBuffer - 1) * caspsrUdpData) =
      (0 + g.packetsPerBuffer - 1) * caspsrUdpData := by
    rw [Nat.zero_add]
    apply u64_of_lt
    simp only [caspsrUdpData]
    omega
  have hend : u64 ((g.packetsPerXfer - 1) * caspsrUdpData) =
      (0 * g.packetsPerXfer + g.packetsPerXfer - 1) * caspsrUdpData := by
    rw [Nat.zero_mul, Nat.zero_add]
    apply u64_of_lt
    simp only [caspsrUdpData]
    omega
  refine
    { keeps :=
        { running := rfl
          startByte := (Nat.zero_mul _).symm
          endByte := hbuffer
          xferEnd := hend
          inWord := ?_
          ihdu := (Nat.zero_mod _).symm
          low := (Nat.zero_mul _).le
          high := ?_
          dvd := Nat.dvd_zero _
          first_le := Nat.le_refl _
          next_le := Nat.zero_le _
          filled := fun k _ hk => absurd hk (Nat.not_lt_zero k)
          outputs := ?_
          length := ?_
          later := fun k _ => rfl
          begun := fun h => h }
      reach := ?_
      late := fun a ha => absurd ha (List.not_mem_nil)
      waits := fun _ => rfl
      prev := fun h => absurd (show true = false from h) (by decide) }
  · show (0 * g.packetsPerXfer + g.packetsPerXfer) * caspsrUdpData ≤ 2 ^ 64
    simp only [caspsrUdpData]
    omega
  · show 0 < 0 * g.packetsPerXfer + g.packetsPerXfer
    omega
  · refine
      { hdu := fun b hb => absurd hb List.not_mem_nil
        placed := fun k i hi => ?_
        length_le := fun k => Nat.zero_le _
        packets := fun k => Nat.dvd_zero _
        complete := fun k hk => absurd hk (Nat.not_lt_zero k) }
    have hpos : 0 < (i + 1) * caspsrUdpData := Nat.mul_pos (Nat.succ_pos i) (by decide)
    exact absurd hi (Nat.not_le.mpr hpos)
  · show 0 = (0 - 0 * g.packetsPerXfer) * caspsrUdpData
    rw [Nat.zero_sub, Nat.zero_mul]
  · intro k
    constructor
    · intro hk
      exact absurd hk (Nat.not_lt_zero k)
    · rintro ⟨a, ha, -⟩
      exact absurd ha List.not_mem_nil

/-- Before the first packet that is taken the offset and the last number are of no account. -/
theorem Loops.ignored {s : CaspsrState} {first next : ℕ} (h : g.Loops s first next)
    (hw : s.waitingForStart = true) (globalOffset prevSeqNo problemPackets : ℕ) :
    g.Loops { s with
      globalOffset := globalOffset
      prevSeqNo := prevSeqNo
      problemPackets := problemPackets } first next :=
  have hkeeps := h.keeps
  { keeps := { hkeeps with }
    reach := h.reach
    late := h.late
    waits := h.waits
    prev := fun hnot => absurd (hnot.symm.trans hw) Bool.false_ne_true }

/-- A packet that is taken. -/
theorem Loops.record {ring : ℕ → Memory UInt8} {s : CaspsrState} {first next : ℕ}
    (h : g.Loops s first next) {seqNo : ℕ} {data : List UInt8} (hlen : data.length = caspsrUdpData)
    (ht : g.Timely s (padStart s.prevSeqNo seqNo) seqNo) (globalOffset : ℕ) :
    g.Holding (g.record ring (padStart s.prevSeqNo seqNo) seqNo data
      { s with globalOffset := globalOffset, prevSeqNo := seqNo, waitingForStart := false }) := by
  have hkeeps := h.keeps
  have hagain : seqNo < padStart s.prevSeqNo seqNo → ∃ a ∈ s.arrived, a.number = seqNo := by
    intro hlt
    have hsame := le_padStart hlt
    cases hwaiting : s.waitingForStart with
    | true =>
      obtain ⟨a, ha, -⟩ := ht.reached 0 (by omega)
      rw [h.waits hwaiting] at ha
      exact absurd ha List.not_mem_nil
    | false =>
      obtain ⟨a, ha, hnumber⟩ := h.prev hwaiting
      exact ⟨a, ha, hnumber.trans hsame⟩
  generalize padStart s.prevSeqNo seqNo = start at ht hagain ⊢
  have hkeeps' : g.Keeps
      { s with globalOffset := globalOffset, prevSeqNo := seqNo, waitingForStart := false }
      s.arrived first next := { hkeeps with }
  have ht' : g.Timely
      { s with globalOffset := globalOffset, prevSeqNo := seqNo, waitingForStart := false }
      start seqNo := { ht with }
  by_cases hgo : start ≤ seqNo → GoesOn s seqNo
  · obtain ⟨first', hloops⟩ :=
      record_loops ring hkeeps' h.reach h.late rfl rfl ht' hlen hgo hagain
    exact .inl ⟨first', _, hloops⟩
  · rw [Classical.not_imp] at hgo
    obtain ⟨hstatus, transfer, htransfer, hout⟩ :=
      record_stops ring hkeeps' h.reach ht' hlen hgo.1 hgo.2
    refine .inr ⟨?_, ?_⟩
    · rw [hstatus]
      decide
    · rw [htransfer]
      exact hout

theorem processPacket_holding (ring : ℕ → Memory UInt8) {s : CaspsrState} {first next : ℕ}
    (h : g.Loops s first next) {buf : Datagram} (hlen : buf.length = caspsrUdpPayload)
    (hcond : let aligned := g.align s.globalOffset (decodeWord buf 8)
      let seqNo := aligned.2 / g.seqInc
      if aligned.2 % g.seqInc ≠ 0 then s.waitingForStart = true
      else s.waitingForStart = true ∧ 10000 ≤ seqNo ∨
        g.Timely s (padStart s.prevSeqNo seqNo) seqNo) :
    g.Holding (g.processPacket ring buf s) := by
  simp only [processPacket]
  simp only at hcond
  generalize g.align s.globalOffset (decodeWord buf 8) = aligned at hcond ⊢
  by_cases halign : aligned.2 % g.seqInc ≠ 0
  · -- a number that cannot be adjusted
    rw [if_pos halign] at hcond ⊢
    by_cases hmany : 10 < s.problemPackets + 1
    · rw [if_pos hmany]
      exact .inr ⟨CaspsrStatus.noConfusion, h.keeps.outputs⟩
    · rw [if_neg hmany]
      exact .inl ⟨first, next, h.ignored hcond _ _ _⟩
  · rw [if_neg halign] at hcond ⊢
    generalize aligned.2 / g.seqInc = seqNo at hcond ⊢
    by_cases hhigh : s.waitingForStart = true ∧ 10000 ≤ seqNo
    · -- a number that is too high for a start
      rw [if_pos hhigh]
      exact .inl ⟨first, next, h.ignored hhigh.1 _ _ _⟩
    · rw [if_neg hhigh]
      exact h.record (length_payload hlen) (hcond.resolve_left hhigh) _

theorem runs_holding {ring : ℕ → Memory UInt8} {s : CaspsrState} (h : g.Runs ring s) :
    g.Holding s := by
  induction h with
  | entered => exact .inl ⟨0, 0, entered_loops ring⟩
  | @step s e _ hcond ih =>
    rcases ih with ⟨first, next, hloops⟩ | ⟨hleft, hout⟩
    · rw [step.eq_def, if_pos hloops.keeps.running]
      cases e with
      | stop byte =>
        have hkeeps := hloops.keeps
        exact .inl ⟨first, next,
          { keeps := { hkeeps with }
            reach := hloops.reach
            late := hloops.late
            waits := hloops.waits
            prev := hloops.prev }⟩
      | packet buf =>
        show g.Holding (if (buf.take caspsrUdpPayload).length = caspsrUdpPayload then _ else _)
        by_cases hlen : (buf.take caspsrUdpPayload).length = caspsrUdpPayload
        · rw [if_pos hlen]
          exact processPacket_holding ring hloops hlen (hcond hlen)
        · rw [if_neg hlen]
          exact .inl ⟨first, next, hloops⟩
    · rw [step.eq_def, if_neg hleft]
      exact .inr ⟨hleft, hout⟩

variable (g) in
/-- What the transfers hold, and the block that is open. -/
structure Delivered (s : CaspsrState) : Prop where
  outputs : g.Outputs s.transfer s.closed s.arrived
  /-- In the block that is open what has been copied is still there. -/
  current : s.status = .running → ∀ k, s.bufferStartByte ≤ k * caspsrUdpData →
    (∃ a ∈ s.arrived, k ≤ a.number) →
      CaspsrSlot s.arrived k
        (s.currentBuffer.slice (k * caspsrUdpData - s.bufferStartByte) caspsrUdpData)

end CaspsrUdpNdb

/-! ## A late packet before a gap -/

/-- A packet of a single distributor by its number, with data that tell it from the others. -/
def caspsrPacket (seq : UInt8) : Datagram :=
  0 :: 0 :: 0 :: 0 :: 0 :: 0 :: 4 * seq :: 1 :: 0 :: 0 :: 0 :: 0 :: 0 :: 0 :: 0 :: 0 ::
    List.replicate 8192 (seq + 1)

theorem length_caspsrPacket (seq : UInt8) : (caspsrPacket seq).length = caspsrUdpPayload := by
  simp only [caspsrPacket, List.length_cons, List.length_replicate]
  rfl

theorem eight_pos : 0 < 8 := Nat.succ_pos _

theorem eight_lt_word : 8 < 2 ^ 32 := by decide

/-- One HDU with a block of eight packets, a transfer each. -/
def caspsrOne : CaspsrUdpNdb where
  nhdus := 1
  packetsPerBuffer := 8
  packetsPerXfer := 8
  iDistrib := 0
  nDistrib := 1
  nhdus_pos := Nat.one_pos
  packets_pos := eight_pos
  xfer_pos := eight_pos
  xfer_lt := eight_lt_word
  whole := Nat.dvd_refl _

/-- The capture of packets 0, 1, 3, 2 and 4. -/
def caspsrReordered : CaspsrState :=
  [0, 1, 3, 2, 4].foldl (fun s seq => caspsrOne.step (fun _ _ => 0) s (.packet (caspsrPacket seq)))
    (caspsrOne.entered fun _ _ => 0)

theorem payload_caspsrPacket (seq : UInt8) :
    CaspsrUdpNdb.payload (caspsrPacket seq) = List.replicate 8192 (seq + 1) := by
  simp only [CaspsrUdpNdb.payload, caspsrPacket, caspsrUdpHeader, caspsrUdpData,
    List.drop_succ_cons, List.drop_zero]
  exact List.take_of_length_le (List.length_replicate).le

end Psrdada
