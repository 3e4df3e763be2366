import Psrdada.Ib.WaitCq
import Mathlib.Data.List.Nodup
import Mathlib.Data.List.Range

/-! # Completions and their waits

What the waits of a connection promise (`Matched`): no call waits for an event while its completion is in
its queue, every call returns with a completion of its own buffer on its own queue, none is lost or used
twice, and no decision is taken from a work completion that was not filled in.

The promise is kept as long as no completion arrives on a queue that is not armed: then there is one event
for each entry (`Paired`).  A second completion before the next call posts no event, and is left in the
queue when the first one is polled (`second_arrival_blocks`). -/

namespace Psrdada

/-- How many events of a queue the call has taken without having polled. -/
def WaitStage.taken : WaitStage → CqSide → ℕ
  | .reqNotify q _, q' => if q' = q then 1 else 0
  | .pollCq q _, q' => if q' = q then 1 else 0
  | _, _ => 0

namespace IbCm

/-! ## The promise -/

/-- What has arrived and was not polled. -/
def queued (cq : CqSide → CompletionQueue) : List Completion := (cq .send).entries ++ (cq .recv).entries

/-- What the calls have returned with. -/
def used (results : List WaitResult) : List Completion := results.filterMap (·.source)

/-- Whether a call returned with a completion of its own. -/
def Own (r : WaitResult) : Prop :=
  ∃ c, r.source = some c ∧ c.queue = r.queue ∧ c.wrId = r.wrId ∧ c.success = r.success

/-- What the waits of a connection promise. -/
structure Matched (s : IbCm) : Prop where
  /-- A call that has to wait does not find its completion in its queue. -/
  waits : ∀ q mb, s.stage = .getEvent q mb → (s.cq q).events = 0 → ∀ c ∈ (s.cq q).entries, c.wrId ≠ mb
  /-- A call returns with its own completion. -/
  own : ∀ r ∈ s.results, Own r
  /-- Every completion is still in its queue, or set aside, or was used, once. -/
  kept : (used s.results ++ (s.setAside.toList ++ queued s.cq)).Perm s.arrived
  /-- No completion arrives twice. -/
  distinct : s.arrived.Nodup
  /-- The slot is taken while a completion is set aside, under its own `wr_id`. -/
  slot : s.setAside.map (·.wrId) = if s.bufferedCqe = true then some s.bufferedCqeWrId else none
  /-- Every work completion was filled in when it was looked at. -/
  filled : s.unfilled = false

/-- The queue that the call is about to poll, with the buffer of the call. -/
def polling (s : IbCm) : Option (List Completion × ℕ) :=
  match s.stage with
  | .pollCq q mb => some ((s.cq q).entries, mb)
  | _ => none

/-- That a step does not disturb the waits: a completion arrives on a queue that is armed; a call does not
ask for the `wr_id` of a completion that is set aside from the other queue; a poll returns an entry when
there is one, and a completion of another buffer is a success and finds the slot free. -/
def Undisturbed (s : IbCm) : Action → Prop
  | .arrive q _ _ => (s.cq q).armed = true
  | .call q mb => s.bufferedCqe = true ∧ s.bufferedCqeWrId = mb → ∀ c ∈ s.setAside, c.queue = q
  | .event => True
  | .arm => True
  | .poll => ∀ p ∈ s.polling, ∀ c ∈ p.1.head?, c.wrId ≠ p.2 → c.success = true ∧ s.bufferedCqe = false
  | .pollNothing _ => ∀ p ∈ s.polling, p.1 = []

instance (s : IbCm) : (a : Action) → Decidable (s.Undisturbed a)
  | .arrive q _ _ => inferInstanceAs (Decidable ((s.cq q).armed = true))
  | .call q _ => inferInstanceAs (Decidable (_ ∧ _ → ∀ c ∈ s.setAside, c.queue = q))
  | .event => instDecidableTrue
  | .arm => instDecidableTrue
  | .poll => inferInstanceAs (Decidable (∀ p ∈ s.polling, ∀ c ∈ p.1.head?, _ → _ ∧ _))
  | .pollNothing _ => inferInstanceAs (Decidable (∀ p ∈ s.polling, p.1 = []))

/-! ## The queues -/

/-- What arrives on a queue is queued. -/
theorem queued_push (cq : CqSide → CompletionQueue) (q : CqSide) (c : Completion) :
    (queued (Function.update cq q ((cq q).push c))).Perm (c :: queued cq) := by
  cases q with
  | send =>
    simp only [queued, Function.update_self, ne_eq, reduceCtorEq, not_false_eq_true,
      Function.update_of_ne, CompletionQueue.push, List.append_assoc]
    exact List.perm_middle
  | recv =>
    simp only [queued, Function.update_self, ne_eq, reduceCtorEq, not_false_eq_true,
      Function.update_of_ne, CompletionQueue.push, ← List.append_assoc]
    exact List.perm_append_singleton _ _

/-- What is polled was queued. -/
theorem queued_pop {cq : CqSide → CompletionQueue} {q : CqSide} {c : Completion}
    {rest : List Completion} (h : (cq q).entries = c :: rest) :
    (queued cq).Perm (c :: queued (Function.update cq q { cq q with entries := rest })) := by
  cases q with
  | send =>
    simp only [queued, Function.update_self, ne_eq, reduceCtorEq, not_false_eq_true,
      Function.update_of_ne, h]
    exact .refl _
  | recv =>
    simp only [queued, Function.update_self, ne_eq, reduceCtorEq, not_false_eq_true,
      Function.update_of_ne, h]
    exact List.perm_middle

/-- What leaves the entries alone leaves what is queued. -/
theorem queued_update {cq : CqSide → CompletionQueue} {q : CqSide} {new : CompletionQueue}
    (h : new.entries = (cq q).entries) : queued (Function.update cq q new) = queued cq := by
  cases q <;> simp [queued, h]

/-- Entries stay in their queues when one queue is changed. -/
theorem placed_update {cq : CqSide → CompletionQueue} (h : ∀ q, ∀ c ∈ (cq q).entries, c.queue = q)
    {q : CqSide} {new : CompletionQueue} (hnew : ∀ c ∈ new.entries, c.queue = q) (q' : CqSide) :
    ∀ c ∈ (Function.update cq q new q').entries, c.queue = q' := by
  intro c hc
  by_cases hq : q' = q
  · subst hq
    rw [Function.update_self] at hc
    exact hnew c hc
  · rw [Function.update_of_ne hq] at hc
    exact h q' c hc

/-! ## The invariant -/

/-- There is one event for each entry, and everything that has arrived is accounted for. -/
structure Paired (s : IbCm) : Prop where
  /-- One event for each entry. -/
  events : ∀ q, (s.cq q).entries.length = (s.cq q).events + s.stage.taken q
  /-- Entries are in the queue they arrived on. -/
  placed : ∀ q, ∀ c ∈ (s.cq q).entries, c.queue = q
  /-- What is set aside stands in the slot. -/
  slot : s.setAside.map (·.wrId) = if s.bufferedCqe = true then some s.bufferedCqeWrId else none
  /-- What is set aside is a success. -/
  good : ∀ c ∈ s.setAside, c.success = true
  /-- Every call returned with its own completion. -/
  own : ∀ r ∈ s.results, Own r
  /-- Nothing is lost. -/
  kept : (used s.results ++ (s.setAside.toList ++ queued s.cq)).Perm s.arrived
  /-- The completions are numbered. -/
  numbered : s.arrived.map (·.number) = List.range s.arrived.length
  /-- Every work completion was filled in when it was looked at. -/
  filled : s.unfilled = false

variable {s s' : IbCm}

/-- In a connection that is in order the promise is kept. -/
theorem Paired.matched (h : s.Paired) : s.Matched where
  waits q mb hstage hevents c hc := by
    have hlen := h.events q
    rw [hstage, hevents] at hlen
    rw [List.length_eq_zero_iff.mp hlen] at hc
    exact absurd hc List.not_mem_nil
  own := h.own
  kept := h.kept
  distinct := by
    apply List.Nodup.of_map (·.number)
    rw [h.numbered]
    exact List.nodup_range
  slot := h.slot
  filled := h.filled

theorem paired_init : Paired init where
  events _ := rfl
  placed _ _ hc := absurd hc List.not_mem_nil
  slot := rfl
  good _ hc := absurd hc (Option.not_mem_none _)
  own _ hr := absurd hr List.not_mem_nil
  kept := .refl _
  numbered := rfl
  filled := rfl

/-! ## Steps -/

theorem Paired.arrive (h : s.Paired) {q : CqSide} (harmed : (s.cq q).armed = true) (wrId : ℕ)
    (success : Bool) (hs : s.step (.arrive q wrId success) = some s') : s'.Paired := by
  obtain rfl := Option.some.inj hs
  refine ⟨fun q' => ?_, placed_update h.placed fun c hc => ?_, h.slot, h.good, h.own, ?_, ?_, h.filled⟩
  · by_cases hq : q' = q
    · subst hq
      have := h.events q'
      simp only [Function.update_self, CompletionQueue.push, harmed, if_true, List.length_append,
        List.length_singleton]
      omega
    · simp only [Function.update_of_ne hq]
      exact h.events q'
  · rcases List.mem_append.mp hc with hc | hc
    · exact h.placed q c hc
    · rw [List.mem_singleton.mp hc]
  · -- the new completion is moved behind those that were there before
    have hpush := queued_push s.cq q ⟨q, wrId, success, s.arrived.length⟩
    have hmoved := (hpush.append_left s.setAside.toList).append_left (used s.results)
    refine hmoved.trans ?_
    rw [← List.append_assoc]
    refine List.perm_middle.trans ?_
    rw [List.append_assoc]
    exact (h.kept.cons _).trans (List.perm_append_singleton _ _).symm
  · simp only [List.map_append, h.numbered, List.map_singleton, List.length_append,
      List.length_singleton, List.range_succ]

theorem Paired.call (h : s.Paired) {q : CqSide} {mb : ℕ} (hok : s.Undisturbed (.call q mb))
    (hs : s.step (.call q mb) = some s') : s'.Paired := by
  simp only [step, Option.ite_none_right_eq_some, Option.some.injEq] at hs
  obtain ⟨hidle, rfl⟩ := hs
  have hevents (q' : CqSide) : (s.cq q').entries.length = (s.cq q').events := by
    simpa [hidle, WaitStage.taken] using h.events q'
  unfold begin
  split
  · rename_i hslot
    -- the completion is in the slot
    have hsome := h.slot
    rw [if_pos hslot.1] at hsome
    obtain ⟨c, hc, hid⟩ := Option.map_eq_some_iff.mp hsome
    have hown : Own ⟨q, mb, true, s.setAside⟩ :=
      ⟨c, hc, hok hslot c hc, hid.trans hslot.2, h.good c hc⟩
    refine ⟨hevents, h.placed, rfl, fun _ hc => absurd hc (Option.not_mem_none _), ?_, ?_, h.numbered,
      h.filled⟩
    · intro r hr
      rcases List.mem_cons.mp hr with rfl | hr
      · exact hown
      · exact h.own r hr
    · have hkept := h.kept
      simp only [used, hc] at hkept
      simp only [giveBack, used, hc, List.filterMap_cons]
      exact List.perm_middle.symm.trans hkept
  · exact ⟨hevents, h.placed, h.slot, h.good, h.own, h.kept, h.numbered, h.filled⟩

theorem Paired.event (h : s.Paired) (hs : s.step .event = some s') : s'.Paired := by
  simp only [step] at hs
  split at hs
  · rename_i q mb hstage
    split at hs
    · rename_i hpos
      obtain rfl := Option.some.inj hs
      refine ⟨fun q' => ?_, placed_update h.placed (h.placed q), h.slot, h.good, h.own, ?_,
        h.numbered, h.filled⟩
      · -- the event is taken now
        have hlen := h.events q'
        simp only [hstage, WaitStage.taken] at hlen ⊢
        by_cases hq : q' = q
        · subst hq
          simp only [Function.update_self, if_true]
          omega
        · simp only [Function.update_of_ne hq, if_neg hq]
          exact hlen
      · simp only [queued_update]
        exact h.kept
    · exact absurd hs (Option.some_ne_none _).symm
  · exact absurd hs (Option.some_ne_none _).symm

theorem Paired.arm (h : s.Paired) (hs : s.step .arm = some s') : s'.Paired := by
  simp only [step] at hs
  split at hs
  · rename_i q mb hstage
    obtain rfl := Option.some.inj hs
    refine ⟨fun q' => ?_, placed_update h.placed (h.placed q), h.slot, h.good, h.own, ?_,
      h.numbered, h.filled⟩
    · have hlen := h.events q'
      simp only [hstage, WaitStage.taken] at hlen ⊢
      by_cases hq : q' = q
      · subst hq
        simpa only [Function.update_self] using hlen
      · simpa only [Function.update_of_ne hq] using hlen
    · simp only [queued_update]
      exact h.kept
  · exact absurd hs (Option.some_ne_none _).symm

/-- A completion that was polled ends up with the call or in the slot. -/
theorem Paired.judge (h : s.Paired) {q : CqSide} {mb : ℕ} {c : Completion} (hq : c.queue = q)
    {cq : CqSide → CompletionQueue} (hevents : ∀ q, (cq q).entries.length = (cq q).events)
    (hplaced : ∀ q, ∀ c ∈ (cq q).entries, c.queue = q) (hpop : (queued s.cq).Perm (c :: queued cq))
    (hok : c.wrId ≠ mb → c.success = true ∧ s.bufferedCqe = false) :
    ({ s with cq := cq }.judge q mb ⟨c.wrId, c.success⟩ (some c)).Paired := by
  have hkept : (used s.results ++ (s.setAside.toList ++ c :: queued cq)).Perm s.arrived :=
    ((hpop.symm.append_left _).append_left _).trans h.kept
  by_cases hid : c.wrId = mb
  · -- the completion of the call, whatever its status
    have hresult : { s with cq := cq }.judge q mb ⟨c.wrId, c.success⟩ (some c) =
        { s with cq := cq }.giveBack q mb c.success (some c) := by
      unfold IbCm.judge
      cases hsuccess : c.success with
      | false => rw [if_pos rfl]
      | true => rw [if_neg (Bool.noConfusion ·), if_neg (not_not_intro hid)]
    rw [hresult]
    refine ⟨hevents, hplaced, h.slot, h.good, ?_, ?_, h.numbered, h.filled⟩
    · intro r hr
      rcases List.mem_cons.mp hr with rfl | hr
      · exact ⟨c, rfl, hq, hid, rfl⟩
      · exact h.own r hr
    · rw [← List.append_assoc] at hkept
      rw [giveBack, used, List.filterMap_cons, ← List.append_assoc]
      exact List.perm_middle.symm.trans hkept
  · -- a completion of another call is set aside
    obtain ⟨hsuccess, hfree⟩ := hok hid
    have hnone : s.setAside = none := by
      have hslot := h.slot
      rw [hfree] at hslot
      exact Option.map_eq_none_iff.mp hslot
    unfold IbCm.judge
    rw [hsuccess, if_neg (Bool.noConfusion ·), if_pos hid, if_neg (by rw [hfree]; exact Bool.noConfusion)]
    refine ⟨hevents, hplaced, rfl, ?_, h.own, ?_, h.numbered, h.filled⟩
    · intro c' hc'
      obtain rfl := Option.some.inj hc'
      exact hsuccess
    · rw [hnone] at hkept
      exact hkept

theorem Paired.poll (h : s.Paired) (hok : s.Undisturbed .poll) (hs : s.step .poll = some s') :
    s'.Paired := by
  simp only [step] at hs
  split at hs
  · rename_i q mb hstage
    split at hs
    · exact absurd hs (Option.some_ne_none _).symm
    · rename_i c rest hentries
      obtain rfl := Option.some.inj hs
      have hpolling : s.polling = some ((s.cq q).entries, mb) := by rw [polling, hstage]
      refine h.judge (h.placed q c (hentries ▸ List.mem_cons_self)) (fun q' => ?_)
        (placed_update h.placed fun c' hc' => ?_) (queued_pop hentries) (hok _ hpolling c ?_)
      · -- the event that was taken was for this entry
        have hlen := h.events q'
        simp only [hstage, WaitStage.taken] at hlen
        by_cases hq : q' = q
        · subst hq
          simp only [hentries, if_true, List.length_cons] at hlen
          simp only [Function.update_self]
          omega
        · simpa only [Function.update_of_ne hq, if_neg hq, Nat.add_zero] using hlen
      · exact h.placed q c' (hentries ▸ List.mem_cons_of_mem c hc')
      · rw [hentries]
        rfl
  · exact absurd hs (Option.some_ne_none _).symm

/-- There is always an entry to poll. -/
theorem Paired.pollNothing (h : s.Paired) {wc : WorkCompletion} (hok : s.Undisturbed (.pollNothing wc)) :
    s.step (.pollNothing wc) = none := by
  simp only [step]
  split
  · rename_i q mb hstage
    have hempty : (s.cq q).entries = [] := hok ((s.cq q).entries, mb) (by rw [polling, hstage]; rfl)
    have hlen := h.events q
    simp only [hempty, hstage, WaitStage.taken, if_true, List.length_nil] at hlen
    omega
  · rfl

/-- Every step that does not disturb the waits keeps the connection in order. -/
theorem Paired.step (h : s.Paired) {a : Action} (hok : s.Undisturbed a) (hs : s.step a = some s') :
    s'.Paired := by
  cases a with
  | arrive q wrId success => exact h.arrive hok wrId success hs
  | call q mb => exact h.call hok hs
  | event => exact h.event hs
  | arm => exact h.arm hs
  | poll => exact h.poll hok hs
  | pollNothing wc =>
    rw [h.pollNothing hok] at hs
    exact absurd hs (Option.some_ne_none _).symm

end IbCm

/-! ## Runs -/

open IbCm Concurrency

/-- In every run of arrivals and waits in which each step leaves the waits undisturbed, the waits of the
connection keep their promise. -/
theorem waitCq_matched {s : IbCm} (h : Reached IbCm.step Undisturbed .init s) : s.Matched := by
  have hpaired : s.Paired := by
    refine h.invariant paired_init ?_
    intro t a t' ht hok hstep
    exact ht.step hok hstep
  exact hpaired.matched

/-- While buffer 1 is sent, buffer 3 is received and the completion of buffer 2 comes first. -/
def foreignFirst : List IbCm.Action :=
  [.call .send 1, .arrive .recv 3 true, .arrive .send 2 true, .event, .arm, .poll,
    .arrive .send 1 true, .event, .arm, .poll, .call .recv 3, .event, .arm, .poll, .call .send 2]

theorem waitCq_matched_foreign :
    ∃ s, (Reached IbCm.step Undisturbed .init s ∧ s.results.length = 3) ∧ s.Matched := by
  obtain ⟨s, hs, hlen⟩ := exists_reached_of_foldlM IbCm.step Undisturbed
    (fun s => decide (s.results.length = 3)) .init foreignFirst (by decide)
  exact ⟨s, ⟨hs, of_decide_eq_true hlen⟩, waitCq_matched hs⟩

/-- Two completions arrive before the first wait: the second one posts no event, and the call for it waits
with its completion in the queue. -/
theorem second_arrival_blocks :
    ¬ ∀ s : IbCm, Reached IbCm.step (fun _ _ => True) .init s → s.Matched := by
  intro h
  obtain ⟨s, hs, hstuck⟩ := exists_reached_of_foldlM IbCm.step (fun _ _ => True)
    (fun s => decide (s.stage = .getEvent .send 2 ∧ (s.cq .send).events = 0 ∧
      (s.cq .send).entries = [⟨.send, 2, true, 1⟩])) .init
    [.arrive .send 1 true, .arrive .send 2 true, .call .send 1, .event, .arm, .poll, .call .send 2]
    (by decide)
  obtain ⟨hstage, hevents, hentries⟩ := of_decide_eq_true hstuck
  exact (h s hs).waits .send 2 hstage hevents _ (hentries ▸ List.mem_cons_self) rfl

end Psrdada
