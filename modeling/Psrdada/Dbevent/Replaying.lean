import Psrdada.Dbevent.Rounding

/-! # What is replayed

The merged events are replayed in order, except those that begin before the place in the ring at which the
request arrives: such an event is skipped as a whole, also where it reaches over that place, or has
absorbed events that begin after it. -/

namespace Psrdada

open CString Intervals

/-! ## Reading -/

/-- Nothing is read after the end of the data. -/
theorem Source.ipcioRead_of_eod {s : Source} (h : s.eod = true) (n : ℕ) : s.ipcioRead n = ([], s) := by
  obtain ⟨blocks, curbuf, bytes, hle⟩ := s
  obtain ⟨rfl, rfl⟩ : blocks = [] ∧ curbuf = none := by simpa [eod] using h
  rfl

namespace Input

variable (p : Input)

/-- All data of the observation. -/
def stream : List UInt8 := p.past ++ p.source.left

/-- What a read leaves. -/
theorem ipcioRead_spec (n : ℕ) :
    (p.ipcioRead n).1 = p.source.left.take n ∧ (p.ipcioRead n).2.stream = p.stream ∧
      (p.ipcioRead n).2.past.length = min (p.past.length + n) p.stream.length ∧
      (p.ipcioRead n).2.source.Settled := by
  have hlen (taken : List UInt8) (htaken : taken = p.source.left.take n) :
      (p.past ++ taken).length = min (p.past.length + n) p.stream.length := by
    rw [htaken, stream, List.length_append, List.length_append, List.length_take]
    omega
  unfold ipcioRead
  cases heod : p.source.eod with
  | false =>
    obtain ⟨hdata, hleft, hsettled⟩ := Source.ipcioRead_spec heod n
    refine ⟨hdata, ?_, hlen _ hdata, hsettled⟩
    show (p.past ++ _) ++ _ = p.past ++ p.source.left
    rw [hdata, hleft, List.append_assoc, List.take_append_drop]
  | true =>
    have hnil := Source.left_of_eod heod
    rw [Source.ipcioRead_of_eod heod]
    refine ⟨by rw [hnil, List.take_nil], ?_, hlen _ (by rw [hnil, List.take_nil]), iff_of_true heod hnil⟩
    show (p.past ++ []) ++ p.source.left = _
    rw [List.append_nil]
    rfl

/-- Seeking forward. -/
theorem ipcioSeek_spec {p : Input} {start : ℕ} (h : p.ipcioTell ≤ start)
    (heod : p.source.eod = true → p.stream.length ≤ start) :
    ∃ p', p.ipcioSeek start = some p' ∧ p'.stream = p.stream ∧
      p'.past.length = min start p.stream.length := by
  have hsplit : p.stream.length = p.past.length + p.source.left.length := List.length_append
  unfold ipcioSeek
  by_cases hlt : p.ipcioTell < start
  · obtain ⟨-, hstream, hpast, -⟩ := p.ipcioRead_spec (start - p.ipcioTell)
    refine ⟨_, if_pos hlt, hstream, ?_⟩
    rw [hpast]
    cases hend : p.source.eod with
    | false =>
      have htell : p.ipcioTell = p.past.length := by simp [ipcioTell, hend]
      rw [htell] at hlt ⊢
      omega
    | true =>
      have hnil := Source.left_of_eod hend
      have hle := heod hend
      rw [hnil, List.length_nil] at hsplit
      omega
  · have heq : ¬ start < p.ipcioTell := Nat.not_lt.mpr h
    refine ⟨p, by simp only [hlt, heq, if_false], rfl, ?_⟩
    cases hend : p.source.eod with
    | false =>
      have htell : p.ipcioTell = p.past.length := by simp [ipcioTell, hend]
      rw [htell] at h hlt
      omega
    | true =>
      have hnil := Source.left_of_eod hend
      have hle := heod hend
      rw [hnil, List.length_nil] at hsplit
      omega

end Input

/-! ## The loop -/

/-- An entry that has not been set to zero. -/
def nonzero (e : Span ℕ) : Bool := ¬ (e.start = 0 ∧ e.stop = 0)

/-- Where the input is when the events that remain are replayed which begin at `bound` or after it. -/
structure Ahead (bound : ℕ) (p : Input) (events : List (Span ℕ)) : Prop where
  /-- Those are still to come. -/
  ahead : p.source.eod = false →
    bound ≤ p.past.length ∧ ∀ e ∈ events.filter nonzero, bound ≤ e.start → p.past.length ≤ e.start
  /-- At the end of the data there is none with data. -/
  ended : p.source.eod = true →
    ∀ e ∈ events.filter nonzero, bound ≤ e.start ∧ p.stream.length ≤ e.start

/-- The events that are replayed are those that begin at the bound or after it. -/
theorem replayEvents_spec {bound : ℕ} {stream : List UInt8} (events : List (Span ℕ)) (skipped : ℕ)
    {p : Input} (hstream : p.stream = stream) (hsep : Separate (events.filter nonzero))
    (hproper : Proper (events.filter nonzero)) (h : Ahead bound p events) :
    (replayEvents events skipped p).map Replay.span =
        (events.filter nonzero).filter (fun e => decide (bound ≤ e.start)) ∧
      ∀ r ∈ replayEvents events skipped p, r.data = (stream.drop r.obsOffset).take r.fileSize := by
  induction events generalizing skipped p with
  | nil => exact ⟨rfl, fun r hr => absurd hr List.not_mem_nil⟩
  | cons e events ih =>
    rw [replayEvents]
    by_cases hzero : e.start = 0 ∧ e.stop = 0
    · -- an event that has been absorbed
      have hfilter : (e :: events).filter nonzero = events.filter nonzero :=
        List.filter_cons_of_neg (by simp [nonzero, hzero])
      rw [if_pos hzero, hfilter]
      rw [hfilter] at hsep hproper
      exact ih (skipped + 1) hstream hsep hproper
        ⟨fun hend => hfilter ▸ h.ahead hend, fun hend => hfilter ▸ h.ended hend⟩
    · have hfilter : (e :: events).filter nonzero = e :: events.filter nonzero :=
        List.filter_cons_of_pos (decide_eq_true hzero)
      have hahead := h.ahead
      have hended := h.ended
      rw [hfilter] at hsep hproper hahead hended
      obtain ⟨hfirst, hrest⟩ := List.pairwise_cons.mp hsep
      have hproper' : Proper (events.filter nonzero) := fun s hs => hproper s (List.mem_cons_of_mem _ hs)
      rw [if_neg hzero, hfilter]
      by_cases hbound : bound ≤ e.start
      · -- the event is replayed
        have htell : p.ipcioTell ≤ e.start := by
          unfold Input.ipcioTell
          split
          case isTrue => exact Nat.zero_le _
          case isFalse hend =>
            exact (hahead (by simpa using hend)).2 e List.mem_cons_self hbound
        obtain ⟨p', hseek, hstream', hpast'⟩ := Input.ipcioSeek_spec htell
          (fun hend => (hended hend e List.mem_cons_self).2)
        obtain ⟨hdata, hstream'', hpast'', hsettled⟩ := p'.ipcioRead_spec (e.stop - e.start)
        have hle := hproper e List.mem_cons_self
        rw [if_neg (Nat.not_lt.mpr htell), hseek]
        have hsplit : (p'.ipcioRead (e.stop - e.start)).2.stream.length =
            (p'.ipcioRead (e.stop - e.start)).2.past.length +
              (p'.ipcioRead (e.stop - e.start)).2.source.left.length := List.length_append
        rw [hstream', hpast'] at hpast''
        rw [hstream', hstream] at hstream''
        rw [hstream''] at hsplit
        rw [hstream] at hpast' hpast''
        have hnext : Ahead bound (p'.ipcioRead (e.stop - e.start)).2 events := by
          constructor
          · intro hend
            have hne : (p'.ipcioRead (e.stop - e.start)).2.source.left.length ≠ 0 := by
              intro hnil
              rw [hsettled.mpr (List.length_eq_zero_iff.mp hnil)] at hend
              exact absurd hend (by decide)
            refine ⟨by omega, fun s hs _ => ?_⟩
            have := hfirst s hs
            omega
          · intro hend s hs
            have hnil := Source.left_of_eod hend
            have := hfirst s hs
            rw [hnil, List.length_nil] at hsplit
            rw [hstream'']
            omega
        obtain ⟨hspans, hall⟩ := ih 0 hstream'' hrest hproper' hnext
        constructor
        · rw [List.map_cons, hspans, List.filter_cons_of_pos (by simpa using hbound)]
          have hspan : (⟨e.start, e.start + (e.stop - e.start)⟩ : Span ℕ) = e := by
            rw [Nat.add_sub_cancel' hle]
          exact congrArg (· :: _) hspan
        · intro r hr
          rcases List.mem_cons.mp hr with rfl | hr
          · show (p'.ipcioRead (e.stop - e.start)).1 = (stream.drop e.start).take (e.stop - e.start)
            rw [hdata]
            have hleft : p'.source.left = stream.drop (min e.start stream.length) := by
              rw [← hpast', ← hstream, ← hstream', Input.stream, List.drop_left]
            rw [hleft]
            rcases Nat.le_total e.start stream.length with hin | hout
            · rw [Nat.min_eq_left hin]
            · rw [Nat.min_eq_right hout, List.drop_length, List.drop_eq_nil_of_le hout]
          · exact hall r hr
      · -- it is skipped
        have hend : p.source.eod = false := by
          by_contra hend
          exact hbound (hended (by simpa using hend) e List.mem_cons_self).1
        have htell : e.start < p.ipcioTell := by
          have := (hahead hend).1
          simp only [Input.ipcioTell, hend, Bool.false_eq_true, if_false]
          omega
        rw [if_pos htell, List.filter_cons_of_neg (by simpa using hbound)]
        refine ih skipped hstream hrest hproper' ⟨fun _ => ?_, fun hend' => ?_⟩
        · exact ⟨(hahead hend).1, fun s hs => (hahead hend).2 s (List.mem_cons_of_mem _ hs)⟩
        · exact fun s hs => hended hend' s (List.mem_cons_of_mem _ hs)

/-! ## Merging -/

/-- The events that have not been absorbed are the merged ones. -/
theorem filter_amalgamate (e : Span ℕ) (events : List (Span ℕ)) :
    (amalgamate e events).filter nonzero = (merge e events).filter nonzero := by
  induction events generalizing e with
  | nil => rfl
  | cons f events ih =>
    rw [amalgamate, merge]
    have hmax : (if e.stop > f.stop then e.stop else f.stop) = max e.stop f.stop := by
      split
      all_goals omega
    split
    · rw [List.filter_cons_of_neg (by simp [nonzero]), ih, hmax]
    · cases hn : nonzero e with
      | false => rw [List.filter_cons_of_neg (by simp [hn]), List.filter_cons_of_neg (by simp [hn]), ih]
      | true => rw [List.filter_cons_of_pos hn, List.filter_cons_of_pos hn, ih]

end Psrdada
