import Mathlib.Data.List.Sort
import Psrdada.Dbevent.Replaying

/-! # Requests for events

`receive_events` is to replay the data of all events of a request that is still in the ring, each byte once
and in order (`Request.Replays`).  It does exactly when as many events have been sent as declared, no event
starts within the first `resolution` bytes or ends less than a byte after a multiple of it, none reaches
over the place in the ring at which the request arrives, and the data of the others does not end before
they do (`replays_iff`). -/

namespace Psrdada

open CString Intervals

/-- The event in a line. -/
def Line.toEvent : Line → Option EventLine
  | ignored => none
  | event e => some e

/-- A request, and the ring at the time at which it arrives. -/
structure Request where
  /-- The parameters of the observation. -/
  dbevent : Dbevent
  /-- `UTC_START` is known. -/
  utcStart_ne : dbevent.utcStart ≠ 0
  /-- The resolution is positive. -/
  resolution_pos : 0 < dbevent.resolution
  /-- `N_EVENTS`. -/
  nEvents : ℕ
  /-- The lines that are sent. -/
  lines : List Line
  /-- There are no more events than declared. -/
  length_le : (lines.filterMap Line.toEvent).length ≤ nEvents
  /-- The ring. -/
  input : Input
  /-- There is data that has not been read. -/
  unread : input.source.left ≠ []

namespace Request

variable (r : Request)

/-- The events that are received. -/
def events : List EventLine := r.lines.filterMap Line.toEvent

/-- Their intervals. -/
def received (powf : Powf) : List (Span ℕ) := r.events.map (interval r.dbevent powf)

/-- The first byte that is still in the ring. -/
def first : ℕ := r.input.past.length

/-- The number of bytes of the observation. -/
def total : ℕ := r.input.stream.length

theorem first_lt_total : r.first < r.total := by
  have := List.length_pos_iff.mpr r.unread
  rw [total, Input.stream, List.length_append, first]
  omega

/-- The data that is replayed is that of the events, as far as it is in the ring. -/
structure Replayed (powf : Powf) (replays : List Replay) : Prop where
  /-- Each interval ends before the next one starts. -/
  separate : Separate (replays.map Replay.span)
  /-- Together they are the intervals of the events, from the first byte in the ring on. -/
  exact : ∀ x, (∃ s ∈ replays.map Replay.span, s.Contains x) ↔
    (∃ i ∈ r.received powf, i.Contains x) ∧ r.first ≤ x ∧ x < r.total
  /-- The data is that of the observation. -/
  data : ∀ q ∈ replays, q.data = (r.input.stream.drop q.obsOffset).take q.fileSize

/-- All intervals are rounded as they shall and replayed, whatever the array holds where no event has been
written to it. -/
def Replays : Prop :=
  ∀ (powf : Powf) (qsort : Qsort) (garbage : List (Span ℕ)),
    garbage.length = r.nEvents - r.events.length →
    (∀ e ∈ r.events, Rounded r.dbevent e (interval r.dbevent powf e)) ∧
    r.Replayed powf (receiveEvents r.dbevent powf qsort r.nEvents r.lines garbage r.input)

end Request

/-- The interval of an event, from a multiple of the resolution to another one. -/
def EventLine.rounded (d : Dbevent) (e : EventLine) : Span ℕ :=
  ⟨d.resolution * (e.start.byte d / d.resolution),
    d.resolution * ((e.stop.byte d + (d.resolution - 1)) / d.resolution)⟩

/-- The requests that are replayed as they shall. -/
structure Request.Servable (r : Request) : Prop where
  /-- As many events have been sent as declared. -/
  declared : r.events.length = r.nEvents
  /-- All times are rounded as they shall. -/
  roundable : ∀ e ∈ r.events, Roundable r.dbevent e
  /-- An event that starts before the first byte in the ring ends before it. -/
  expired : ∀ e ∈ r.events, (e.rounded r.dbevent).start < r.first → (e.rounded r.dbevent).stop ≤ r.first
  /-- The others end with the data or before it. -/
  recorded : ∀ e ∈ r.events, r.first ≤ (e.rounded r.dbevent).start →
    (e.rounded r.dbevent).start < (e.rounded r.dbevent).stop → (e.rounded r.dbevent).stop ≤ r.total

/-! ## The intervals that are received -/

/-- Rounding up to a multiple. -/
theorem mul_div_roundUp {m : ℕ} (hm : 0 < m) (n : ℕ) :
    m * ((n + (m - 1)) / m) = if n % m = 0 then n else n + (m - n % m) := by
  have hlt := Nat.mod_lt n hm
  have hdiv := Nat.div_add_mod n m
  have hcomm : n / m * m = m * (n / m) := Nat.mul_comm _ _
  split_ifs with hzero
  · have hquot : (n + (m - 1)) / m = n / m :=
      Nat.div_eq_of_lt_le (by omega) (by rw [Nat.succ_mul]; omega)
    rw [hquot]
    omega
  · have hquot : (n + (m - 1)) / m = n / m + 1 := by
      refine Nat.div_eq_of_lt_le ?_ ?_
      · rw [Nat.succ_mul]
        omega
      · rw [Nat.succ_mul, Nat.succ_mul]
        omega
    rw [hquot, Nat.mul_add, Nat.mul_one]
    omega

theorem interval_eq_rounded {d : Dbevent} (hutc : d.utcStart ≠ 0) (hres : 0 < d.resolution) (powf : Powf)
    {e : EventLine} (h : e.Representable d) (hr : Roundable d e) : interval d powf e = e.rounded d := by
  have hstart : eventStart d (calculateByteOffset d powf e.start) =
      d.resolution * (e.start.byte d / d.resolution) := by
    rw [eventStart_eq hutc powf h.start, if_neg (by have := hr.start; omega)]
    have := Nat.div_add_mod (e.start.byte d) d.resolution
    omega
  have hstop : eventEnd d (calculateByteOffset d powf e.stop) =
      d.resolution * ((e.stop.byte d + (d.resolution - 1)) / d.resolution) := by
    rw [eventEnd_eq hutc powf h.stop, mul_div_roundUp hres]
  rw [interval, hstart, hstop]
  rfl

/-- The loop over the lines stores the interval of each event. -/
theorem receiveLines_eq (d : Dbevent) (powf : Powf) (lines : List Line) {n : ℕ}
    (h : (lines.filterMap Line.toEvent).length ≤ n) :
    receiveLines d powf n lines = (lines.filterMap Line.toEvent).map (interval d powf) := by
  induction lines generalizing n with
  | nil => cases n <;> rfl
  | cons line lines ih =>
    cases line with
    | ignored =>
      have hskip : (Line.ignored :: lines).filterMap Line.toEvent = lines.filterMap Line.toEvent := rfl
      rw [hskip] at h ⊢
      cases n with
      | zero =>
        rw [List.length_eq_zero_iff.mp (Nat.le_zero.mp h)]
        rfl
      | succ n => exact ih h
    | event e =>
      have htake : (Line.event e :: lines).filterMap Line.toEvent =
          e :: lines.filterMap Line.toEvent := rfl
      rw [htake] at h ⊢
      cases n with
      | zero => simp at h
      | succ n =>
        rw [receiveLines, List.map_cons, ih (Nat.le_of_succ_le_succ h)]

/-- What is replayed, in terms of the entries of the sorted array. -/
theorem receiveEvents_spec (r : Request) (powf : Powf) (qsort : Qsort) (garbage : List (Span ℕ))
    (hproper : Proper (r.received powf ++ garbage)) :
    ((qsort.run (r.received powf ++ garbage) = [] ∧
        receiveEvents r.dbevent powf qsort r.nEvents r.lines garbage r.input = []) ∨
      ∃ e rest, qsort.run (r.received powf ++ garbage) = e :: rest ∧
        (receiveEvents r.dbevent powf qsort r.nEvents r.lines garbage r.input).map Replay.span =
          ((merge e rest).filter nonzero).filter (fun e => decide (r.first ≤ e.start))) ∧
      ∀ q ∈ receiveEvents r.dbevent powf qsort r.nEvents r.lines garbage r.input,
        q.data = (r.input.stream.drop q.obsOffset).take q.fileSize := by
  have hentries : receiveLines r.dbevent powf r.nEvents r.lines = r.received powf :=
    receiveLines_eq r.dbevent powf r.lines r.length_le
  unfold receiveEvents
  rw [hentries]
  cases hrun : qsort.run (r.received powf ++ garbage) with
  | nil => exact ⟨.inl ⟨rfl, rfl⟩, fun q hq => absurd hq List.not_mem_nil⟩
  | cons e rest =>
    have hordered : Ordered (e :: rest) := hrun ▸ qsort.ordered _
    have hproper' : Proper (e :: rest) := fun s hs =>
      hproper s ((hrun ▸ qsort.perm (r.received powf ++ garbage)).mem_iff.mp hs)
    have hfilter := filter_amalgamate e rest
    have hsep : Separate ((amalgamate e rest).filter nonzero) := by
      rw [hfilter]
      exact (merge_separate hordered).sublist List.filter_sublist
    have hprop : Proper ((amalgamate e rest).filter nonzero) := by
      rw [hfilter]
      exact fun s hs => merge_proper hproper' s (List.mem_of_mem_filter hs)
    have hend : r.input.source.eod = false := by
      by_contra hend
      exact r.unread (Source.left_of_eod (by simpa using hend))
    have hahead : Ahead r.first r.input (amalgamate e rest) :=
      ⟨fun _ => ⟨Nat.le_refl _, fun s _ hs => hs⟩, fun heod => by simp [hend] at heod⟩
    obtain ⟨hspans, hdata⟩ := replayEvents_spec (amalgamate e rest) 0 rfl hsep hprop hahead
    exact ⟨.inr ⟨e, rest, rfl, by rw [hspans, hfilter]⟩, hdata⟩

/-! ## The condition -/

/-- A `powf` without rounding. -/
def exactPowf : Powf where
  run n := 10 ^ n
  exact _ _ := rfl

/-- A `qsort` that keeps the order of events with the same start. -/
def stableQsort : Qsort where
  run events := events.mergeSort fun a b => decide (a.start ≤ b.start)
  perm events := List.mergeSort_perm events _
  ordered events := by
    have h := @List.pairwise_mergeSort (Span ℕ) (fun a b => decide (a.start ≤ b.start))
      (fun a b c => by simpa using Nat.le_trans) (fun a b => by simpa using Nat.le_total _ _) events
    simpa [Ordered] using h

namespace Request

variable {r : Request}

/-- The elements of the intervals that are replayed. -/
theorem contains_replayed {e : Span ℕ} {rest : List (Span ℕ)} {bound x : ℕ} :
    (∃ s ∈ ((merge e rest).filter nonzero).filter (fun e => decide (bound ≤ e.start)), s.Contains x) ↔
      ∃ s ∈ merge e rest, bound ≤ s.start ∧ s.Contains x := by
  constructor
  · rintro ⟨s, hs, hx⟩
    obtain ⟨hs', hbound⟩ := List.mem_filter.mp hs
    exact ⟨s, List.mem_of_mem_filter hs', by simpa using hbound, hx⟩
  · rintro ⟨s, hs, hbound, hx⟩
    have hne : ¬ (s.start = 0 ∧ s.stop = 0) := by
      have := hx.2
      omega
    exact ⟨s, List.mem_filter.mpr ⟨List.mem_filter.mpr ⟨hs, decide_eq_true hne⟩, by simpa using hbound⟩, hx⟩

/-- A bound on where intervals end. -/
theorem exists_stop_le (spans : List (Span ℕ)) : ∃ x, ∀ s ∈ spans, s.stop ≤ x := by
  induction spans with
  | nil => exact ⟨0, fun s hs => absurd hs List.not_mem_nil⟩
  | cons s spans ih =>
    obtain ⟨x, hx⟩ := ih
    refine ⟨max s.stop x, fun t ht => ?_⟩
    rcases List.mem_cons.mp ht with rfl | ht
    · exact Nat.le_max_left _ _
    · exact Nat.le_trans (hx t ht) (Nat.le_max_right _ _)

variable (h : ∀ e ∈ r.events, e.Representable r.dbevent)
include h

theorem received_proper (powf : Powf) : Proper (r.received powf) := by
  intro s hs
  obtain ⟨e, he, rfl⟩ := List.mem_map.mp hs
  exact interval_proper r.utcStart_ne r.resolution_pos powf (h e he)

/-- As many events have been sent as declared: what an entry holds that no event has been written to may
be an interval after all others. -/
theorem Replays.declared (hr : r.Replays) : r.events.length = r.nEvents := by
  by_contra hne
  have hle : r.events.length ≤ r.nEvents := r.length_le
  obtain ⟨bound, hbound⟩ := exists_stop_le (r.received exactPowf)
  -- the garbage is one byte after the others, in each entry
  obtain ⟨x, hx⟩ : ∃ x, x = max bound r.total := ⟨_, rfl⟩
  have hxb : bound ≤ x := hx ▸ Nat.le_max_left _ _
  have hxt : r.total ≤ x := hx ▸ Nat.le_max_right _ _
  set garbage := List.replicate (r.nEvents - r.events.length) (⟨x, x + 1⟩ : Span ℕ)
  have hmem : (⟨x, x + 1⟩ : Span ℕ) ∈ garbage := List.mem_replicate.mpr ⟨by omega, rfl⟩
  have hproper : Proper (r.received exactPowf ++ garbage) := by
    intro s hs
    rcases List.mem_append.mp hs with hs | hs
    · exact received_proper h exactPowf s hs
    · rw [(List.mem_replicate.mp hs).2]
      exact Nat.le_succ _
  obtain ⟨-, hreplayed⟩ := hr exactPowf stableQsort garbage List.length_replicate
  obtain ⟨hspec, -⟩ := receiveEvents_spec r exactPowf stableQsort garbage hproper
  have hperm := (stableQsort.perm (r.received exactPowf ++ garbage))
  rcases hspec with ⟨hnil, -⟩ | ⟨e, rest, hrun, hspans⟩
  · rw [hnil] at hperm
    have := hperm.mem_iff.mpr (List.mem_append_right _ hmem)
    exact absurd this List.not_mem_nil
  · have hordered : Ordered (e :: rest) := hrun ▸ stableQsort.ordered _
    rw [hrun] at hperm
    obtain ⟨s, hs, hstart, hstop⟩ := merge_within hordered _ (hperm.mem_iff.mpr (List.mem_append_right _ hmem))
    have hsx : s.Contains x := ⟨hstart, hstop⟩
    -- no event has been absorbed with it
    have hfirst : r.first ≤ s.start := by
      rcases Nat.eq_or_lt_of_le hstart with heq | hlt
      · rw [heq]
        exact Nat.le_trans (Nat.le_of_lt r.first_lt_total) hxt
      · obtain ⟨i, hi, hi1, hi2⟩ := merge_interior s hs x hlt hstop
        rcases List.mem_append.mp (hperm.mem_iff.mp hi) with hi | hi
        · exact absurd (Nat.le_trans (hbound i hi) hxb) (Nat.not_le.mpr hi2)
        · rw [(List.mem_replicate.mp hi).2] at hi1
          exact absurd hi1 (Nat.lt_irrefl _)
    have hin := (hreplayed.exact x).mp (by rw [hspans]; exact contains_replayed.mpr ⟨s, hs, hfirst, hsx⟩)
    exact absurd hin.2.2 (Nat.not_lt.mpr hxt)

/-- When all entries are events, what is replayed is the data of the events in the ring exactly when no
interval reaches over the first byte in it and none of the others over the end of the data. -/
theorem exact_iff (powf : Powf) (qsort : Qsort) :
    (∀ x, (∃ s ∈ (receiveEvents r.dbevent powf qsort r.nEvents r.lines [] r.input).map Replay.span,
          s.Contains x) ↔
        (∃ i ∈ r.received powf, i.Contains x) ∧ r.first ≤ x ∧ x < r.total) ↔
      (∀ i ∈ r.received powf, i.start < r.first → i.stop ≤ r.first) ∧
      ∀ i ∈ r.received powf, r.first ≤ i.start → i.start < i.stop → i.stop ≤ r.total := by
  obtain ⟨hspec, -⟩ := receiveEvents_spec r powf qsort []
    (by rw [List.append_nil]; exact received_proper h powf)
  have hperm := qsort.perm (r.received powf ++ [])
  rw [List.append_nil] at hspec hperm
  rcases hspec with ⟨hrun, hnone⟩ | ⟨e, rest, hrun, hspans⟩
  · rw [hrun] at hperm
    rw [hnone, hperm.nil_eq.symm]
    simp
  · have hordered : Ordered (e :: rest) := hrun ▸ qsort.ordered _
    rw [hrun] at hperm
    have hdropped := dropped_iff hordered r.first_lt_total
    simp only [hperm.mem_iff] at hdropped
    rw [← hdropped, hspans]
    simp only [contains_replayed]

end Request

/-! ## Two requests -/

/-- Ten bytes in a second, a resolution of eight bytes. -/
def tenBytes : Dbevent := ⟨1000000000, 10, 8⟩

/-- A time with one digit after the point. -/
def timeAt (secs : ℤ) (digit : Char) (h : digit.isDigit = true) : EventTime :=
  ⟨secs, [digit], by simpa using h, by simp⟩

/-- A ring with 32 bytes, none of which has been read. -/
def fourBlocks : Input := ⟨.between (List.replicate 4 (List.replicate 8 0)), []⟩

/-- An event from the start of the observation on, for 2.4 seconds. -/
def fromStart : EventLine := ⟨timeAt 1000000000 '0' rfl, timeAt 1000000002 '4' rfl, by decide⟩

/-- An event that starts half a second later, within the first eight bytes. -/
def halfSecondLater : EventLine := ⟨timeAt 1000000000 '5' rfl, timeAt 1000000002 '4' rfl, by decide⟩

/-- A request for one event. -/
def requestFor (e : EventLine) : Request where
  dbevent := tenBytes
  utcStart_ne := by decide
  resolution_pos := by decide
  nEvents := 1
  lines := [.ignored, .event e]
  length_le := Nat.le_refl 1
  input := fourBlocks
  unread := by decide

end Psrdada
