import Mathlib.Algebra.Order.BigOperators.Group.Finset
import Psrdada.Concurrency.Solo
import Psrdada.Session.Streams

/-! # Semaphore accounting

In every reachable state each `FULL`, `SODACK` and `EODACK` is what has been added less what has been
taken, and the pending counts of the sub-blocks are what has been published less what has been reclaimed.
When all sessions have come to their end, nothing is left over: so a process that locks the ring and
resets it never waits. -/

namespace Psrdada

open Concurrency Outline

variable {g : Geometry} {p : ℕ}

/-! ## In every state -/

/-- How many sub-blocks the reader in a slot holds. -/
def Ring.held (s : Ring) (i : ℕ) : ℕ := s.takes (.full i) - s.posts (.clear i)

/-- No call of a writer is in progress: its notes say so, or no process has the writer's lock. -/
def Ring.NoCall (s : Ring) : Prop := Quiet (s.notes.filter Event.isWriters) ∨ s.sem .write ≠ 0

/-- The accounts of a reader slot. -/
structure Ring.Balanced (g : Geometry) (s : Ring) (i : ℕ) : Prop where
  /-- What has been posted to `FULL` is there, held, or cleared. -/
  full : s.posts (.full i) = s.sem (.full i) + s.held i + s.posts (.clear i)
  /-- A reader holds one sub-block at most. -/
  held_le : s.held i ≤ 1
  /-- No pending count is lost, -/
  published : s.posts (.full i) ≤ s.sync.pending g + s.takes (.clear i)
  /-- and there is none too many, but for the sub-block that an operation is about. -/
  pending : s.sync.pending g + s.takes (.clear i) ≤ s.posts (.full i) + 1
  /-- Nor that while no call of a writer is in progress. -/
  quiet : s.NoCall → s.sync.pending g + s.takes (.clear i) = s.posts (.full i)
  /-- `SODACK` lacks the transfers that have been raised and not acknowledged. -/
  sodack : (s.sem (.sodack i) : ℤ) = ipcbufXfers - (s.takes (.sodack i) - s.posts (.sodack i))
  /-- `EODACK` lacks the transfers that have been ended and not acknowledged. -/
  eodack : (s.sem (.eodack i) : ℤ) = ipcbufXfers - (s.takes (.eodack i) - s.posts (.eodack i))
  /-- The transfers that have been raised and ended are those that the writer counts. -/
  transfers : s.NoCall →
    s.takes (.sodack i) = s.sync.wXfer + (if s.sync.wState = 0 then 0 else 1) ∧
      s.takes (.eodack i) = s.sync.wXfer

theorem Inv.balanced {γ : (sessionContract g).Log} {G : ℕ → Ghost (sessionContract g)} {s : Ring}
    (h : Inv (sessionContract g) γ G s) {i : ℕ} (hi : i < g.nReaders) : s.Balanced g i := by
  have hfull := h.coherent (.full i)
  have hsod := h.coherent (.sodack i)
  have heod := h.coherent (.eodack i)
  simp only [Sem.created, hi, if_true] at hfull hsod heod
  obtain ⟨hle, hacq, -⟩ := h.rinv i hi
  obtain ⟨hposted, hpending, hquiet⟩ := h.winv.accounted trivial i hi
  have hexact : s.NoCall → s.sync.pending g + s.takes (.clear i) = s.posts (.full i) ∧
      s.takes (.sodack i) = s.sync.wXfer + (if s.sync.wState = 0 then 0 else 1) ∧
      s.takes (.eodack i) = s.sync.wXfer := by
    rintro (hq | hfree)
    · exact hquiet hq
    · obtain ⟨-, hok, -⟩ := h.writer.rest_of_free hfree
      obtain ⟨rec, hi', hreclaim⟩ := hok.reclaims trivial
      exact ⟨(hreclaim.pending_add hi).trans (hok.posted i hi).symm, hok.sod i hi, hok.eod i hi⟩
  simp only [Ring.rview] at hle hacq
  refine ⟨?_, ?_, hposted, hpending, fun hq => (hexact hq).1, ?_, ?_, fun hq => (hexact hq).2⟩
  · rw [Ring.held]
    omega
  · rw [Ring.held]
    omega
  · omega
  · omega

/-! ## At the end -/

/-- A reader slot in which nothing is left over. -/
structure Ring.Settled (g : Geometry) (s : Ring) (i : ℕ) : Prop where
  /-- No sub-block is left to read. -/
  full : s.sem (.full i) = 0
  /-- Every transfer that has been raised is acknowledged. -/
  sodack : s.sem (.sodack i) = ipcbufXfers
  /-- So is every transfer that has ended. -/
  eodack : s.sem (.eodack i) = ipcbufXfers
  /-- What has been cleared is what is pending. -/
  clear : s.sem (.clear i) = s.sync.pending g

/-- A reader that has read as many transfers as there are, up to the end of the last, has read all. -/
theorem PubLog.acq_eq_length {strict : Prop} (γ : PubLog g strict) {n : ℕ} (hn : n ≤ γ.toks.length)
    (hbetween : Between (γ.toks.take n)) (hxfer : nextXfer (γ.toks.take n) = nextXfer γ.toks)
    (hend : Between γ.toks) : n = γ.toks.length := by
  by_contra hne
  have hlt : n < γ.toks.length := Nat.lt_of_le_of_ne hn hne
  have hnext := γ.next_of_between hbetween (List.getElem?_eq_getElem hlt)
  have hmem : γ.toks[n] ∈ γ.toks := List.getElem_mem hlt
  have := γ.xfer_lt_nextXfer hend hmem
  omega

/-- When no process knows anything of the ring, no process has the writer's lock. -/
theorem Inv.writer_rest {γ : (sessionContract g).Log} {G : ℕ → Ghost (sessionContract g)} {s : Ring}
    (h : Inv (sessionContract g) γ G s) (hidle : ∀ p, G p = .idle) :
    s.sem .write = 1 ∧ WOk _ γ s.wview ∧ WriterRest s.wview := by
  rcases h.writer with ⟨hfree, hrest, -⟩ | ⟨-, q, hq, -⟩
  · exact ⟨hfree, hrest⟩
  · rw [hidle q] at hq
    exact absurd hq id

/-- Between two sessions, nothing is left over in a slot that has had as many sessions as the writers. -/
theorem Inv.settled {γ : (sessionContract g).Log} {G : ℕ → Ghost (sessionContract g)} {s : Ring}
    (h : Inv (sessionContract g) γ G s) (hidle : ∀ p, G p = .idle) {i : ℕ} (hi : i < g.nReaders)
    (hsessions : (readerSessions i s.notes).length = (writerSessions s.notes).length) :
    s.Settled g i := by
  have hreader : RIdle _ γ (s.rview i) ∧ ReaderRest i (s.rview i) := by
    rcases h.reader i hi with ⟨-, hrest, -⟩ | ⟨-, q, hq, -⟩
    · exact hrest
    · rw [hidle q] at hq
      exact absurd hq id
  obtain ⟨-, hok, hwrest⟩ := h.writer_rest hidle
  obtain ⟨hridle, hrrest⟩ := hreader
  have hbetween : Between (γ.toks.take (s.rview i).acq) := by
    intro t ht
    by_contra heod
    obtain ⟨hreading, -, -⟩ := hridle.mid t ht (by simpa using heod)
    rw [hrrest.state] at hreading
    exact absurd hreading (by decide)
  -- the sessions are the transfers
  have hxfer : (s.rview i).rXfer = s.wview.sync.wXfer := by
    rw [← hrrest.sessions, ← hwrest.sessions]
    simpa only [Ring.rview, Ring.wview, readerSessions_filter, writerSessions_filter] using hsessions
  have hacq := γ.acq_eq_length hridle.acq_le hbetween
    (hridle.xfer.symm.trans (hxfer.trans hok.xfer.symm)) (hok.closed hwrest.state)
  obtain ⟨-, hsodPosted⟩ := hridle.between hbetween
  have hsodTaken := hok.sod i hi
  rw [if_pos hwrest.state] at hsodTaken
  have heodPosted := hridle.eod
  have heodTaken := hok.eod i hi
  have hposted := hok.posted i hi
  have hcleared := hridle.acq
  obtain ⟨rec, hi', hreclaim⟩ := hok.reclaims trivial
  have hpending := hreclaim.pending_add hi
  have hfull := h.coherent (.full i)
  have hsod := h.coherent (.sodack i)
  have heod := h.coherent (.eodack i)
  have hclear := h.coherent (.clear i)
  simp only [Sem.created, hi, if_true] at hfull hsod heod hclear
  simp only [Ring.rview, Ring.wview] at hacq hxfer hsodPosted hsodTaken heodPosted
  simp only [Ring.rview, Ring.wview] at heodTaken hposted hcleared hpending
  have hwriters : s.sync.writers.pending g = s.sync.pending g := rfl
  have hcount : s.sync.writers.wXfer = s.sync.wXfer := rfl
  refine ⟨?_, ?_, ?_, ?_⟩
  · omega
  · omega
  · omega
  · omega

/-! ## Resetting the ring -/

section Alone

variable {τ : Type} {t : τ} {s : Ring}

theorem finishes_load {x : Var} {Q : ℕ → τ → Ring → Prop} (h : Q (s.sync.load x) t s) :
    (ringMachine g).Finishes p (load x) t s Q :=
  Machine.finishes_perform rfl h

theorem finishes_test {x : Var} {v : ℕ} {Q : Bool → τ → Ring → Prop} (h : Q (s.sync.load x == v) t s) :
    (ringMachine g).Finishes p (test x v) t s Q :=
  Machine.finishes_perform rfl h

theorem finishes_store {x : Var} {v : ℕ} {Q : Unit → τ → Ring → Prop}
    (h : Q () t { s with sync := s.sync.store x v }) : (ringMachine g).Finishes p (store x v) t s Q :=
  Machine.finishes_perform rfl h

/-- A semaphore operation that does not block. -/
theorem finishes_ipcSemop {x : Sem} {op : ℤ} {undo : Bool} {v : ℕ} {Q : Unit → τ → Ring → Prop}
    (hv : semStep (s.sem x) (toShort op) = some v)
    (h : ∀ s' : Ring, s'.sync = s.sync → s'.sem = Function.update s.sem x v → Q () t s') :
    (ringMachine g).Finishes p (ipcSemop x op undo) t s Q := by
  have hexec : ∃ s', ringExec g p (.semop x (toShort op) undo) s = some ((), s') ∧
      s'.sync = s.sync ∧ s'.sem = Function.update s.sem x v := by
    simp only [ringExec, Ring.semop, hv, Option.map_some]
    exact ⟨_, rfl, rfl, rfl⟩
  obtain ⟨s', hexec, hsync, hsem⟩ := hexec
  exact Machine.finishes_perform hexec (h s' hsync hsem)

end Alone

/-- A ring from which every reader's `CLEAR` gives what the pending counts ask for. -/
structure Ring.Clearable (g : Geometry) (s : Ring) : Prop where
  /-- What has been cleared is what is pending. -/
  clear : ∀ i < g.nReaders, s.sem (.clear i) = s.sync.pending g
  /-- Every transfer that has been raised is acknowledged. -/
  sodack : ∀ i < g.nReaders, s.sem (.sodack i) = ipcbufXfers
  /-- So is every transfer that has ended. -/
  eodack : ∀ i < g.nReaders, s.sem (.eodack i) = ipcbufXfers
  /-- No count has wrapped around. -/
  count : ∀ j < g.nbufs, s.sync.count j < 256

/-- Changing one count changes the sum by as much. -/
theorem Ipcsync.pending_store (m : Ipcsync) {b : ℕ} (hb : b < g.nbufs) (v : ℕ) :
    (m.store (.count b) v).pending g + m.count b = m.pending g + v := by
  have hmem : b ∈ Finset.range g.nbufs := Finset.mem_range.mpr hb
  have hnew : (m.store (.count b) v).pending g = v + ∑ j ∈ Finset.range g.nbufs \ {b}, m.count j :=
    Finset.sum_update_of_mem hmem _ _
  have hold : m.pending g = m.count b + ∑ j ∈ Finset.range g.nbufs \ {b}, m.count j := by
    rw [Finset.sdiff_singleton_eq_erase]
    exact (Finset.add_sum_erase _ _ hmem).symm
  omega

/-- A count is part of the sum. -/
theorem Ipcsync.count_le_pending (m : Ipcsync) {b : ℕ} (hb : b < g.nbufs) : m.count b ≤ m.pending g :=
  Finset.single_le_sum (f := m.count) (fun _ _ => Nat.zero_le _) (Finset.mem_range.mpr hb)

namespace Ring.Clearable

variable {s : Ring} {d : Ipcbuf}

/-- The pending counts of a sub-block are taken back without waiting. -/
theorem finishes_reclaim (h : s.Clearable g) {b : ℕ} (hb : b < g.nbufs) :
    (ringMachine g).Finishes p (reclaim g b) d s fun _ _ s' => s'.Clearable g := by
  refine Machine.finishes_iterate (n := s.sync.count b)
    (fun n _ _ s' => s'.sync.count b = n ∧ s'.Clearable g) ⟨rfl, h⟩ ?_
  rintro n - d s ⟨hn, h⟩
  refine Machine.finishes_bind (finishes_load ?_)
  rw [Ipcsync.load]
  by_cases hzero : s.sync.count b = 0
  · rw [if_neg (not_not_intro hzero)]
    exact Machine.finishes_pure h
  rw [if_pos hzero]
  have hle := s.sync.count_le_pending hb
  -- after `k` decrements, the first `k` readers have one less to clear
  refine Machine.finishes_bind (Machine.finishes_countUp (fun k _ s' => s'.sync = s.sync ∧
    (∀ i < g.nReaders, s'.sem (.clear i) + (if i < k then 1 else 0) = s.sync.pending g) ∧
    (∀ i < g.nReaders, s'.sem (.sodack i) = ipcbufXfers) ∧
    ∀ i < g.nReaders, s'.sem (.eodack i) = ipcbufXfers) ⟨rfl, h.clear, h.sodack, h.eodack⟩ ?_ ?_)
  · rintro k hk d s' ⟨hsync, hclear, hsod, heod⟩
    have hk' := hclear k hk
    rw [if_neg (Nat.lt_irrefl k)] at hk'
    have hpos : 1 ≤ s'.sem (.clear k) := by omega
    refine finishes_ipcSemop ((semStep_neg_one _).trans (if_pos hpos)) fun s'' hsync' hsem => ?_
    refine ⟨hsync'.trans hsync, fun i hi => ?_, fun i hi => ?_, fun i hi => ?_⟩
    · rw [hsem]
      have hi' := hclear i hi
      by_cases hik : i = k
      · subst hik
        rw [Function.update_self, if_pos (Nat.lt_succ_self i)]
        omega
      · rw [Function.update_of_ne (by simpa using hik), ← hi']
        simp only [Nat.lt_succ_iff_lt_or_eq, hik, or_false]
    · rw [hsem, Function.update_of_ne Sem.noConfusion]
      exact hsod i hi
    · rw [hsem, Function.update_of_ne Sem.noConfusion]
      exact heod i hi
  · rintro d s' ⟨hsync, hclear, hsod, heod⟩
    have hcount : (s'.sync.load (.count b) + 255) % 256 = s.sync.count b - 1 := by
      have hlt := h.count b hb
      rw [hsync, Ipcsync.load]
      omega
    have hpending := s.sync.pending_store hb (s.sync.count b - 1)
    refine Machine.finishes_bind (finishes_load (Machine.finishes_bind (finishes_store
      (Machine.finishes_pure ?_))))
    rw [hcount, hsync]
    refine ⟨n - 1, by omega, ?_, fun i hi => ?_, hsod, heod, fun j hj => ?_⟩
    · rw [← hn]
      exact Function.update_self _ _ _
    · have hi' := hclear i hi
      rw [if_pos hi] at hi'
      show s'.sem (.clear i) = (s.sync.store (.count b) (s.sync.count b - 1)).pending g
      omega
    · show Function.update s.sync.count b (s.sync.count b - 1) j < 256
      have hj' := h.count j hj
      by_cases hjb : j = b
      · subst hjb
        rw [Function.update_self]
        omega
      · rwa [Function.update_of_ne hjb]

/-- The transfers of a reader are acknowledged without waiting. -/
theorem finishes_resetReader {i : ℕ}
    (h : ∀ j < g.nReaders, s.sem (.sodack j) = ipcbufXfers ∧ s.sem (.eodack j) = ipcbufXfers)
    (hi : i < g.nReaders) : (ringMachine g).Finishes p (resetReader i) d s fun _ _ s' =>
      ∀ j < g.nReaders, s'.sem (.sodack j) = ipcbufXfers ∧ s'.sem (.eodack j) = ipcbufXfers := by
  obtain ⟨hsod, heod⟩ := h i hi
  refine Machine.finishes_bind (finishes_ipcSemop (v := 0) (by rw [hsod]; rfl) fun s₁ _ h₁ => ?_)
  have heod₁ : s₁.sem (.eodack i) = ipcbufXfers := by rwa [h₁, Function.update_of_ne Sem.noConfusion]
  refine Machine.finishes_bind (finishes_ipcSemop (v := 0) (by rw [heod₁]; rfl) fun s₂ _ h₂ => ?_)
  have hsod₂ : s₂.sem (.sodack i) = 0 := by
    rw [h₂, Function.update_of_ne Sem.noConfusion, h₁, Function.update_self]
  refine Machine.finishes_bind (finishes_ipcSemop (v := ipcbufXfers) (by rw [hsod₂]; rfl) fun s₃ _ h₃ => ?_)
  have heod₃ : s₃.sem (.eodack i) = 0 := by
    rw [h₃, Function.update_of_ne Sem.noConfusion, h₂, Function.update_self]
  refine Machine.finishes_bind (finishes_ipcSemop (v := ipcbufXfers) (by rw [heod₃]; rfl) fun s₄ _ h₄ => ?_)
  refine Machine.finishes_bind (finishes_store (finishes_store fun j hj => ?_))
  show s₄.sem (.sodack j) = ipcbufXfers ∧ s₄.sem (.eodack j) = ipcbufXfers
  obtain ⟨hsodj, heodj⟩ := h j hj
  by_cases hji : j = i
  · subst hji
    rw [h₄, Function.update_self, Function.update_of_ne Sem.noConfusion, h₃, Function.update_self]
    exact ⟨rfl, rfl⟩
  · have hsodne : Sem.sodack j ≠ .sodack i := fun h => hji (Sem.sodack.inj h)
    have heodne : Sem.eodack j ≠ .eodack i := fun h => hji (Sem.eodack.inj h)
    rw [h₄, h₃, h₂, h₁]
    simp only [Function.update_of_ne hsodne, Function.update_of_ne heodne, ne_eq, reduceCtorEq,
      not_false_eq_true, Function.update_of_ne]
    exact ⟨hsodj, heodj⟩

/-- The ring is reset without waiting. -/
theorem finishes_resetRing (h : s.Clearable g) :
    (ringMachine g).Finishes p (resetRing g) d s fun rc _ _ => rc = 0 := by
  refine Machine.finishes_bind (Machine.finishes_countUp (fun _ _ s' => s'.Clearable g) h
    (fun b hb d s' h' => h'.finishes_reclaim hb) fun d s₁ h₁ => ?_)
  refine Machine.finishes_bind (Machine.finishes_countUp (fun _ _ s' =>
    ∀ j < g.nReaders, s'.sem (.sodack j) = ipcbufXfers ∧ s'.sem (.eodack j) = ipcbufXfers)
    (fun j hj => ⟨h₁.sodack j hj, h₁.eodack j hj⟩) (fun i hi d s' h' => finishes_resetReader h' hi)
    fun d s₂ _ => ?_)
  refine Machine.finishes_bind (finishes_store (Machine.finishes_bind (finishes_store
    (Machine.finishes_bind (finishes_store ?_)))))
  exact Machine.finishes_bind (Machine.finishes_countUp (fun _ _ _ => True) trivial
    (fun _ _ _ _ _ => finishes_store trivial) fun _ _ _ => Machine.finishes_pure rfl)

/-- Locking the ring for writing, when no process has the lock. -/
theorem finishes_ipcbufLockWrite (hwrite : 1 ≤ s.sem .write) (hd : d.state = .viewer) :
    (ringMachine g).Finishes p ipcbufLockWrite d s fun _ d' s' => d'.isWriter = true ∧
      d'.state ≠ .rstop ∧ s'.sync = s.sync ∧ ∃ v, s'.sem = Function.update s.sem .write v := by
  refine Machine.finishes_bind (Machine.finishes_get ?_)
  rw [if_neg (not_not_intro hd)]
  refine Machine.finishes_bind (finishes_ipcSemop ((semStep_neg_one _).trans (if_pos hwrite))
    fun s' hsync hsem => ?_)
  refine Machine.finishes_bind (finishes_test (Machine.finishes_bind (Machine.finishes_modify
    (Machine.finishes_bind (finishes_load (Machine.finishes_bind (Machine.finishes_modify
      (Machine.finishes_pure ⟨?_, ?_, hsync, _, hsem⟩))))))))
  · simp only [Ipcbuf.isWriter]
    split
    · rfl
    · rfl
  · simp only []
    split
    · exact ProcState.noConfusion
    · exact ProcState.noConfusion

/-- A process that locks the ring for writing and resets it never waits. -/
theorem finishes_reset (h : s.Clearable g) (hwrite : 1 ≤ s.sem .write) (hd : d.state = .viewer) :
    (ringMachine g).Finishes p (do let _ ← ipcbufLockWrite; ipcbufReset g) d s fun rc _ _ => rc = 0 := by
  refine Machine.finishes_bind (Machine.finishes_mono (finishes_ipcbufLockWrite hwrite hd) ?_)
  rintro _ d' s' ⟨hwriter, hstate, hsync, v, hsem⟩
  have h' : s'.Clearable g := by
    refine ⟨fun i hi => ?_, fun i hi => ?_, fun i hi => ?_, fun j hj => ?_⟩
    · rw [hsem, hsync, Function.update_of_ne Sem.noConfusion]
      exact h.clear i hi
    · rw [hsem, Function.update_of_ne Sem.noConfusion]
      exact h.sodack i hi
    · rw [hsem, Function.update_of_ne Sem.noConfusion]
      exact h.eodack i hi
    · rw [hsync]
      exact h.count j hj
  refine Machine.finishes_bind (Machine.finishes_get ?_)
  rw [if_neg hstate, if_neg (by simp [hwriter])]
  refine Machine.finishes_bind (finishes_test ?_)
  split
  · refine Machine.finishes_bind (finishes_test ?_)
    split
    · exact Machine.finishes_pure rfl
    · exact h'.finishes_resetRing
  · exact h'.finishes_resetRing

end Ring.Clearable

/-! ## The result -/

/-- **Semaphore accounting.** In every reachable state the accounts of every slot are balanced.  When all
sessions have come to their end, nothing is left over in a slot that has had as many sessions as the
writers; and when that is so of every slot, a process that locks the ring for writing and resets it never
waits. -/
theorem semaphores_accounted (g : Geometry) (clients : ℕ → List Session)
    (hclients : ∀ p, ∀ s ∈ clients p, s.IsByte ∨ s.IsReader) (c : Config ringSig Ring)
    (hc : Reach (ringMachine g) anyStep (Session.system g clients) c) :
    (∀ i < g.nReaders, c.state.Balanced g i) ∧
      ((∀ p, c.proc p = .ret ()) →
        (∀ i < g.nReaders,
          (readerSessions i c.state.notes).length = (writerSessions c.state.notes).length →
          c.state.sem (.full i) = 0 ∧ c.state.sem (.sodack i) = ipcbufXfers ∧
            c.state.sem (.eodack i) = ipcbufXfers) ∧
        ((∀ i < g.nReaders,
          (readerSessions i c.state.notes).length = (writerSessions c.state.notes).length) →
          ∀ p d, d.state = .viewer →
            (ringMachine g).Finishes p (do let _ ← ipcbufLockWrite; ipcbufReset g) d c.state
              fun rc _ _ => rc = 0)) := by
  obtain ⟨γ, G, hinv, hidle⟩ := Session.reach_inv
    (fun p s hs => (hclients p s hs).elim .inl fun h => .inr (.inr h)) hc
  refine ⟨fun i hi => hinv.balanced hi, fun hret => ?_⟩
  have hidle' : ∀ p, G p = .idle := fun p => hidle p (hret p)
  refine ⟨fun i hi hsessions => ?_, fun hsessions p d hd => ?_⟩
  · have hsettled := hinv.settled hidle' hi hsessions
    exact ⟨hsettled.full, hsettled.sodack, hsettled.eodack⟩
  · obtain ⟨hfree, hok, -⟩ := hinv.writer_rest hidle'
    obtain ⟨rec, hi', hreclaim⟩ := hok.reclaims trivial
    have hclearable : c.state.Clearable g := by
      refine ⟨fun i hi => ?_, fun i hi => ?_, fun i hi => ?_, fun j hj => ?_⟩
      · exact (hinv.settled hidle' hi (hsessions i hi)).clear
      · exact (hinv.settled hidle' hi (hsessions i hi)).sodack
      · exact (hinv.settled hidle' hi (hsessions i hi)).eodack
      · have htwo := hreclaim.countP_le_two trivial j
        have hcount := hreclaim.count j hj
        simp only [Ring.wview, Ipcsync.writers] at hcount
        omega
    exact hclearable.finishes_reset (by omega) hd

/-- The one session of each kind leaves nothing over. -/
theorem semaphores_accounted_byteClients :
    ∃ c, Reach (ringMachine .small) anyStep (Session.system .small byteClients) c ∧
      c.state.Balanced .small 0 := by
  obtain ⟨c, hc, -⟩ := byteClients_reach
  refine ⟨c, hc, (semaphores_accounted .small byteClients (fun p s hs => ?_) c hc).1 0 (by decide)⟩
  exact .inl (byteClients_isByte p s hs)

end Psrdada
