import Psrdada.Concurrency.Outline
import Psrdada.Ring.PublicationLog
import Psrdada.Ring.Views
import Mathlib.Algebra.BigOperators.Group.Finset.Basic

/-! # The invariant of a ring

`Inv` relates a ring to its publication log.  The writer's part of it (`WInv`) says that whatever a
reader may still look at is described correctly by the arrays of `ipcsync_t` and by the sub-blocks;
what a reader may still look at is bounded by what the writer has taken from `SODACK`, `EODACK` and
`CLEAR`.  So an access of the writer is judged on the writer's own view, and no reader is mentioned.

A `Contract` collects what differs between the groups of results: which runs are meant, and what the
notes of the clients say about the log. -/

namespace Psrdada

open Concurrency

/-- No call of a writer is in progress. -/
def Quiet (notes : List Event) : Prop :=
  ∀ e ∈ notes.getLast?, e ≠ .wcall ∧ ∀ bytes, e ≠ .wdata bytes

/-- The bytes of a sub-block from `start` to `stop`. -/
def slice (block : ℕ → UInt8) (start stop : ℕ) : List UInt8 :=
  (List.range (stop - start)).map fun j => block (start + j)

@[simp] theorem slice_length (block : ℕ → UInt8) (start stop : ℕ) :
    (slice block start stop).length = stop - start := by
  simp [slice]

theorem slice_getElem? (block : ℕ → UInt8) {start stop off : ℕ} (hs : start ≤ off)
    (ht : off < stop) : (slice block start stop)[off - start]? = some (block off) := by
  have hlt : off - start < stop - start := by omega
  simp [slice, List.getElem?_range hlt, Nat.add_sub_cancel' hs]

/-- What a group of results assumes of runs, and what it keeps of the clients' notes. -/
structure Contract (g : Geometry) where
  /-- No transfer begins before a sub-block that has been published already. -/
  strict : Prop
  /-- Nothing is published when start-of-data is raised. -/
  tight : Prop
  /-- The writer's counters only go up. -/
  raw : Prop
  /-- What is assumed of each step. -/
  ok : ℕ → Op → Ring → Prop
  /-- What is shown when a note is made. -/
  observe : Event → Ring → Prop
  /-- What the notes of the writers say about the log. -/
  wnote : List Tok → List Event → Prop
  /-- What the notes of the readers in a slot say about the log. -/
  rnote : PubLog g strict → ℕ → List Event → Prop
  /-- What else holds of the writer's part while no process has the writer's lock. -/
  wrest : WView → Prop
  /-- What else holds of a slot while no process has it. -/
  rrest : ℕ → RView → Prop
  strict_of_tight : tight → strict
  rnote_mono : ∀ γ γ' i notes, γ ≤ γ' → rnote γ i notes → rnote γ' i notes

variable {g : Geometry} (C : Contract g)

/-- The log of a contract. -/
abbrev Contract.Log : Type := PubLog g C.strict

/-- The notes of the writers have spoken of a log with this sub-block. -/
def Contract.Noted (t : Tok) : Prop := ∃ l notes, t ∈ l ∧ C.wnote l notes

/-! ## The writer's part -/

/-- The arrays say correctly whether a sub-block ends its transfer, and where.  Once the log is
settled, `e_buf` alone tells a sub-block that does not. -/
def Tok.EndAt (t : Tok) (settled : Bool) (m : Ipcsync) : Prop :=
  if t.eod then
    m.eod (t.xfer % ipcbufXfers) ≠ 0 ∧ m.eBuf (t.xfer % ipcbufXfers) = t.blk ∧
      m.eByte (t.xfer % ipcbufXfers) = t.stop
  else if settled then m.eBuf (t.xfer % ipcbufXfers) ≠ t.blk
  else m.eod (t.xfer % ipcbufXfers) = 0

/-- The arrays say correctly where a transfer begins. -/
def Tok.StartAt (t : Tok) (m : Ipcsync) : Prop :=
  t.sod = true → m.sBuf (t.xfer % ipcbufXfers) = t.blk ∧ m.sByte (t.xfer % ipcbufXfers) = t.start

/-- The sum of the pending transfer counts. -/
def Ipcsync.pending (g : Geometry) (m : Ipcsync) : ℕ := ∑ j ∈ Finset.range g.nbufs, m.count j

/-- The pending counts add up to what has been published to a reader and not yet reclaimed from it;
an operation in progress may be one ahead.  Between two calls of the writer, the transfers that have
been raised and ended are those that the counters say. -/
structure WView.Accounted (g : Geometry) (v : WView) (i : ℕ) : Prop where
  posted_le : v.fullPosted i ≤ v.sync.pending g + v.clrTaken i
  le_posted : v.sync.pending g + v.clrTaken i ≤ v.fullPosted i + 1
  quiet : Quiet v.notes → v.sync.pending g + v.clrTaken i = v.fullPosted i ∧
    v.sodTaken i = v.sync.wXfer + (if v.sync.wState = 0 then 0 else 1) ∧
    v.eodTaken i = v.sync.wXfer

/-- The invariant of the writer's part. -/
structure WInv (γ : C.Log) (v : WView) : Prop where
  start : ∀ i < g.nReaders, ∀ t ∈ γ.toks, v.sodTaken i ≤ t.xfer + ipcbufXfers → t.StartAt v.sync
  stop : ∀ i < g.nReaders, ∀ t ∈ γ.toks, v.eodTaken i ≤ t.xfer + ipcbufXfers →
    t.EndAt γ.settled v.sync
  bytes : ∀ i < g.nReaders, ∀ t ∈ γ.toks.drop (v.clrTaken i),
    t.bytes = slice (v.buffer (t.blk % g.nbufs)) t.start t.stop
  posted : ∀ i < g.nReaders, v.fullPosted i ≤ γ.toks.length
  full : ∀ i < g.nReaders, v.full i = (γ.toks.take (v.fullPosted i)).map Tok.toDesc
  accounted : C.tight → ∀ i < g.nReaders, v.Accounted g i
  xfer : nextXfer γ.toks ≤ v.sync.wXfer
  note : C.wnote γ.toks v.notes

/-! ## A reader's part -/

/-- The invariant of a slot. -/
structure RInv (γ : C.Log) (i : ℕ) (v : RView) : Prop where
  cleared_le : v.cleared ≤ v.acq
  acq_le : v.acq ≤ v.cleared + 1
  note : C.rnote γ i v.notes

/-! ## At rest -/

/-- The writer has reclaimed the first `rec` sub-blocks of the log and has never gone beyond
sub-block `hi`. -/
structure Reclaim (γ : C.Log) (v : WView) (rec hi : ℕ) : Prop where
  rec_le : rec ≤ γ.toks.length
  taken : ∀ i < g.nReaders, v.clrTaken i = rec
  next_le : v.sync.wBufNext ≤ hi
  le_curr : hi ≤ v.sync.wBufCurr + g.nbufs
  high : C.raw → hi = v.sync.wBufNext
  blk : ∀ t ∈ γ.toks, t.blk < v.sync.wBufNext
  window : ∀ t ∈ γ.toks.drop rec, hi ≤ t.blk + g.nbufs
  count : ∀ j < g.nbufs,
    v.sync.count j = (γ.toks.drop rec).countP fun t => t.blk % g.nbufs = j

/-- What a strict contract knows of the writer's reclaiming. -/
def Reclaims (γ : C.Log) (v : WView) : Prop := C.strict → ∃ rec hi, Reclaim C γ v rec hi

/-- A transfer is in progress: either nothing of it has been published, or its sub-blocks up to the
one before `w_buf_curr`.  What an earlier transfer left in its place of `e_buf` is behind it. -/
structure Begun {C : Contract g} (γ : C.Log) (v : WView) : Prop where
  next : (Between γ.toks ∧ v.sync.sBuf (v.sync.wXfer % ipcbufXfers) = v.sync.wBufCurr) ∨
    (v.sync.sBuf (v.sync.wXfer % ipcbufXfers) < v.sync.wBufCurr ∧
      ∃ t, γ.toks.getLast? = some t ∧ t.eod = false ∧ t.blk + 1 = v.sync.wBufCurr)
  stale : if γ.settled then
      v.sync.eBuf (v.sync.wXfer % ipcbufXfers) < v.sync.sBuf (v.sync.wXfer % ipcbufXfers)
    else v.sync.eod (v.sync.wXfer % ipcbufXfers) = 0

/-- The writer's part of a ring between two calls of the writer. -/
structure WOk (γ : C.Log) (v : WView) : Prop where
  sod : ∀ i < g.nReaders, v.sodTaken i = v.sync.wXfer + if v.sync.wState = 0 then 0 else 1
  eod : ∀ i < g.nReaders, v.eodTaken i = v.sync.wXfer
  posted : ∀ i < g.nReaders, v.fullPosted i = γ.toks.length
  xfer : nextXfer γ.toks = v.sync.wXfer
  blk : ∀ t ∈ γ.toks, t.blk < v.sync.wBufCurr
  curr_le : v.sync.wBufCurr ≤ v.sync.wBufNext
  closed : v.sync.wState = 0 → Between γ.toks
  begun : v.sync.wState ≠ 0 → Begun γ v
  fresh : γ.settled = false → v.sync.wXfer = 0 ∧ (v.sync.wState = 0 → γ.toks = [])
  settled : γ.settled = true → 0 < v.sync.wBufCurr
  reclaims : Reclaims C γ v

/-- A slot whose reader holds no sub-block. -/
structure RIdle (γ : C.Log) (v : RView) : Prop where
  acq : v.acq = v.cleared
  acq_le : v.acq ≤ γ.toks.length
  xfer : v.rXfer = nextXfer (γ.toks.take v.acq)
  eod : v.eodPosted = v.rXfer
  between : Between (γ.toks.take v.acq) →
    v.rState = ProcState.discon.code ∧ v.sodPosted = v.rXfer
  mid : ∀ t, (γ.toks.take v.acq).getLast? = some t → t.eod = false →
    v.rState = ProcState.reading.code ∧ v.rBuf = t.blk + 1 ∧ v.sodPosted = v.rXfer + 1

/-! ## The whole -/

/-- What a process knows of the ring. -/
inductive Ghost
  /-- Nothing. -/
  | idle
  /-- The log and the writer's part: it has the writer's lock. -/
  | writer (γ : C.Log) (v : WView)
  /-- A log there has been and the part of a slot: it has the slot. -/
  | reader (i : ℕ) (γ : C.Log) (v : RView)

namespace Ghost

variable {C}

/-- The process has the writer's lock. -/
def IsWriter : Ghost C → Prop
  | writer _ _ => True
  | _ => False

/-- The process has a reader slot. -/
def IsReader (i : ℕ) : Ghost C → Prop
  | reader j _ _ => j = i
  | _ => False

/-- What the process knows is the case. -/
def Agrees (γ : C.Log) (s : Ring) : Ghost C → Prop
  | idle => True
  | writer γ' v => γ' = γ ∧ v = s.wview
  | reader i γ' v => i < g.nReaders ∧ γ' ≤ γ ∧ v = s.rview i

@[simp] theorem isWriter_idle : ¬ (idle : Ghost C).IsWriter := id
@[simp] theorem isWriter_writer {γ : C.Log} {v : WView} : (writer γ v).IsWriter := trivial
@[simp] theorem isWriter_reader {i : ℕ} {γ : C.Log} {v : RView} : ¬ (reader i γ v).IsWriter := id
@[simp] theorem isReader_idle {i : ℕ} : ¬ (idle : Ghost C).IsReader i := id
@[simp] theorem isReader_writer {i : ℕ} {γ : C.Log} {v : WView} : ¬ (writer γ v).IsReader i := id
@[simp] theorem isReader_reader {i j : ℕ} {γ : C.Log} {v : RView} :
    (reader j γ v).IsReader i ↔ j = i := Iff.rfl

/-- What the processes know remains the case while no view changes. -/
theorem agrees_update {γ : C.Log} {s s' : Ring} {G : ℕ → Ghost C} {p : ℕ} {l : Ghost C}
    (h : ∀ q, (G q).Agrees γ s) (hw : s'.wview = s.wview) (hr : ∀ j, s'.rview j = s.rview j)
    (hl : l.Agrees γ s') (q : ℕ) : (Function.update G p l q).Agrees γ s' := by
  by_cases hq : q = p
  · subst hq; simpa using hl
  · have hag := h q
    rw [Function.update_of_ne hq]
    cases hG : G q with
    | idle => trivial
    | writer γ' v =>
      rw [hG] at hag
      exact ⟨hag.1, by rw [hw]; exact hag.2⟩
    | reader i γ' v =>
      rw [hG] at hag
      exact ⟨hag.1, hag.2.1, by rw [hr i]; exact hag.2.2⟩

end Ghost

/-- The invariant of a ring with log `γ`, whose processes know what `G` says. -/
structure Inv (γ : C.Log) (G : ℕ → Ghost C) (s : Ring) : Prop where
  coherent : s.Coherent g
  winv : WInv C γ s.wview
  rinv : ∀ i < g.nReaders, RInv C γ i (s.rview i)
  writer : Exclusive Ghost.IsWriter G (s.sem .write) (WOk C γ s.wview ∧ C.wrest s.wview)
  reader : ∀ i < g.nReaders,
    Exclusive (Ghost.IsReader i) G (s.sem (.readerConn i))
      (RIdle C γ (s.rview i) ∧ C.rrest i (s.rview i))
  agrees : ∀ p, (G p).Agrees γ s

/-- The outline of a contract. -/
def Contract.outline : Outline (ringMachine g) C.Log (Ghost C) where
  ok := C.ok
  inv := Inv C
  obs _ o s := match o with
    | .note e => C.observe e s
    | _ => True

variable {C}

theorem RInv.mono {γ γ' : C.Log} {i : ℕ} {v : RView} (hle : γ ≤ γ') (h : RInv C γ i v) :
    RInv C γ' i v :=
  ⟨h.cleared_le, h.acq_le, C.rnote_mono _ _ _ _ hle h.note⟩

/-- What a list holds at a place, a longer one holds there. -/
theorem getElem?_of_prefix {α : Type} {l l' : List α} (h : l <+: l') {n : ℕ} {a : α}
    (ha : l[n]? = some a) : l'[n]? = some a := by
  obtain ⟨r, rfl⟩ := h
  rw [List.getElem?_append_left (List.getElem?_eq_some_iff.mp ha).1]
  exact ha

/-- The first sub-blocks of a log stay the same. -/
theorem take_of_prefix {α : Type} {l l' : List α} (h : l <+: l') {n : ℕ} (hn : n ≤ l.length) :
    l'.take n = l.take n := by
  obtain ⟨r, rfl⟩ := h
  exact List.take_append_of_le_length hn

theorem RIdle.mono {γ γ' : C.Log} {v : RView} (h : RIdle C γ v) (hle : γ ≤ γ') :
    RIdle C γ' v := by
  have htake := take_of_prefix hle.1 h.acq_le
  exact ⟨h.acq, h.acq_le.trans hle.1.length_le, by rw [htake]; exact h.xfer, h.eod,
    by rw [htake]; exact h.between, by rw [htake]; exact h.mid⟩

namespace Inv

variable {γ γ' : C.Log} {G : ℕ → Ghost C} {s u : Ring} {p : ℕ}

/-- What a reader may still look at is bounded by what the writer has taken. -/
structure Bounds (i : ℕ) (w : WView) (v : RView) : Prop where
  sod : w.sodTaken i ≤ v.sodPosted + ipcbufXfers
  eod : w.eodTaken i ≤ v.eodPosted + ipcbufXfers
  clr : w.clrTaken i ≤ v.cleared
  full : v.acq ≤ w.fullPosted i

theorem bounds (h : s.Coherent g) {i : ℕ} (hi : i < g.nReaders) :
    Bounds i s.wview (s.rview i) := by
  have h₁ := h (.sodack i)
  have h₂ := h (.eodack i)
  have h₃ := h (.clear i)
  have h₄ := h (.full i)
  simp only [Sem.created, hi, if_true] at h₁ h₂ h₃ h₄
  refine ⟨?_, ?_, ?_, ?_⟩ <;> simp only [Ring.wview, Ring.rview] <;> omega

/-- An access of the process that has the writer's lock. -/
theorem writer_step (h : Inv C γ G s) {v : WView} (hp : G p = .writer γ v)
    (hcoh : u.Coherent g) (hwrite : u.sem .write = s.sem .write)
    (hconn : ∀ i, u.sem (.readerConn i) = s.sem (.readerConn i))
    (hr : ∀ i, u.rview i = s.rview i) (hle : γ ≤ γ') (hw : WInv C γ' u.wview) :
    Inv C γ' (Function.update G p (.writer γ' u.wview)) u where
  coherent := hcoh
  winv := hw
  rinv i hi := hr i ▸ (h.rinv i hi).mono hle
  writer := by
    have hfree := h.writer.free_eq_zero (p := p) (by simp [hp])
    rw [hwrite]
    exact h.writer.keep (by simp [hp]) fun hone => by omega
  reader i hi := by
    rw [hconn, hr]
    exact (h.reader i hi).keep (by simp [hp]) fun _ => fun h => ⟨h.1.mono hle, h.2⟩
  agrees q := by
    by_cases hq : q = p
    · subst hq; simp [Ghost.Agrees]
    · have hag := h.agrees q
      rw [Function.update_of_ne hq]
      cases hG : G q with
      | idle => trivial
      | writer γ'' v' =>
        exact absurd (h.writer.unique (p := q) (q := p) (by simp [hG]) (by simp [hp])) hq
      | reader i γ'' v' =>
        rw [hG] at hag
        exact ⟨hag.1, hag.2.1.trans hle, by rw [hr]; exact hag.2.2⟩

/-- An access of the process that has a reader slot. -/
theorem reader_step (h : Inv C γ G s) {i : ℕ} {γ₀ : C.Log} {v : RView}
    (hp : G p = .reader i γ₀ v) (hcoh : u.Coherent g) (hwrite : u.sem .write = s.sem .write)
    (hconn : ∀ i, u.sem (.readerConn i) = s.sem (.readerConn i))
    (hw : u.wview = s.wview) (hr : ∀ j, j ≠ i → u.rview j = s.rview j)
    (hi : RInv C γ i (u.rview i)) :
    Inv C γ (Function.update G p (.reader i γ (u.rview i))) u where
  coherent := hcoh
  winv := hw ▸ h.winv
  rinv j hj := by
    by_cases hji : j = i
    · exact hji ▸ hi
    · exact hr j hji ▸ h.rinv j hj
  writer := by
    rw [hwrite, hw]
    exact h.writer.keep (by simp [hp]) fun _ => id
  reader j hj := by
    rw [hconn]
    refine (h.reader j hj).keep (by simp [hp]) fun hone hrest => ?_
    by_cases hji : j = i
    · subst hji
      have := (h.reader j hj).free_eq_zero (p := p) (by simp [hp])
      omega
    · rwa [hr j hji]
  agrees q := by
    have hlt : i < g.nReaders := by have := h.agrees p; rw [hp] at this; exact this.1
    by_cases hq : q = p
    · subst hq; simp [Ghost.Agrees, hlt]
    · have hag := h.agrees q
      rw [Function.update_of_ne hq]
      cases hG : G q with
      | idle => trivial
      | writer γ' v' =>
        rw [hG] at hag
        exact ⟨hag.1, by rw [hw]; exact hag.2⟩
      | reader j γ' v' =>
        rw [hG] at hag
        have hji : j ≠ i := fun hji => hq <|
          (h.reader j hag.1).unique (by simp [hG]) (by simp [hp, hji])
        exact ⟨hag.1, hag.2.1, by rw [hr j hji]; exact hag.2.2⟩

/-- An access of a process that has neither, to nothing that the others own. -/
theorem idle_step (h : Inv C γ G s) (hp : G p = .idle) (hcoh : u.Coherent g)
    (hwrite : u.sem .write = s.sem .write)
    (hconn : ∀ i, u.sem (.readerConn i) = s.sem (.readerConn i))
    (hw : u.wview = s.wview) (hr : ∀ j, u.rview j = s.rview j) :
    Inv C γ (Function.update G p .idle) u where
  coherent := hcoh
  winv := hw ▸ h.winv
  rinv j hj := hr j ▸ h.rinv j hj
  writer := by
    rw [hwrite, hw]
    exact h.writer.keep (by simp [hp]) fun _ => id
  reader j hj := by
    rw [hconn, hr]
    exact (h.reader j hj).keep (by simp [hp]) fun _ => id
  agrees := Ghost.agrees_update h.agrees hw hr trivial

/-- A process takes the writer's lock. -/
theorem writer_acquire (h : Inv C γ G s) (hp : G p = .idle) (hcoh : u.Coherent g)
    (hfree : s.sem .write ≠ 0) (hwrite : u.sem .write = s.sem .write - 1)
    (hconn : ∀ i, u.sem (.readerConn i) = s.sem (.readerConn i))
    (hw : u.wview = s.wview) (hr : ∀ j, u.rview j = s.rview j) :
    (WOk C γ s.wview ∧ C.wrest s.wview) ∧ Inv C γ (Function.update G p (.writer γ s.wview)) u := by
  obtain ⟨hone, hrest⟩ := h.writer.rest_of_free hfree
  refine ⟨hrest, hcoh, hw ▸ h.winv, fun j hj => hr j ▸ h.rinv j hj, ?_, fun j hj => ?_,
    Ghost.agrees_update h.agrees hw hr ⟨rfl, hw.symm⟩⟩
  · rw [hwrite, hone]
    exact h.writer.acquire hfree trivial
  · rw [hconn, hr]
    exact (h.reader j hj).keep (by simp [hp]) fun _ => id

/-- A process gives the writer's lock back. -/
theorem writer_release (h : Inv C γ G s) {v : WView} (hp : G p = .writer γ v)
    (hcoh : u.Coherent g) (hwrite : u.sem .write = s.sem .write + 1)
    (hconn : ∀ i, u.sem (.readerConn i) = s.sem (.readerConn i))
    (hw : u.wview = s.wview) (hr : ∀ j, u.rview j = s.rview j)
    (hrest : WOk C γ s.wview ∧ C.wrest s.wview) : Inv C γ (Function.update G p .idle) u where
  coherent := hcoh
  winv := hw ▸ h.winv
  rinv j hj := hr j ▸ h.rinv j hj
  writer := by
    rw [hwrite, h.writer.free_eq_zero (p := p) (by simp [hp])]
    exact h.writer.release (by simp [hp]) (by simp) (hw ▸ hrest)
  reader j hj := by
    rw [hconn, hr]
    exact (h.reader j hj).keep (by simp [hp]) fun _ => id
  agrees := Ghost.agrees_update h.agrees hw hr trivial

/-- A process takes a reader slot. -/
theorem reader_acquire (h : Inv C γ G s) (hp : G p = .idle) {i : ℕ} (hi : i < g.nReaders)
    (hcoh : u.Coherent g) (hfree : s.sem (.readerConn i) ≠ 0)
    (hwrite : u.sem .write = s.sem .write)
    (hconn : ∀ j, u.sem (.readerConn j) =
      if j = i then s.sem (.readerConn i) - 1 else s.sem (.readerConn j))
    (hw : u.wview = s.wview) (hr : ∀ j, u.rview j = s.rview j) :
    (RIdle C γ (s.rview i) ∧ C.rrest i (s.rview i)) ∧ Inv C γ (Function.update G p (.reader i γ (s.rview i))) u := by
  obtain ⟨hone, hrest⟩ := (h.reader i hi).rest_of_free hfree
  refine ⟨hrest, hcoh, hw ▸ h.winv, fun j hj => hr j ▸ h.rinv j hj, ?_, fun j hj => ?_,
    Ghost.agrees_update h.agrees hw hr ⟨hi, le_rfl, (hr i).symm⟩⟩
  · rw [hwrite, hw]
    exact h.writer.keep (by simp [hp]) fun _ => id
  · rw [hconn, hr]
    by_cases hji : j = i
    · subst hji
      rw [if_pos rfl, hone]
      exact (h.reader j hj).acquire hfree (by simp)
    · rw [if_neg hji]
      exact (h.reader j hj).keep (by simp [hp, Ne.symm hji]) fun _ => id

/-- A process gives a reader slot back. -/
theorem reader_release (h : Inv C γ G s) {i : ℕ} {γ₀ : C.Log} {v : RView}
    (hp : G p = .reader i γ₀ v) (hcoh : u.Coherent g)
    (hwrite : u.sem .write = s.sem .write)
    (hconn : ∀ j, u.sem (.readerConn j) =
      if j = i then s.sem (.readerConn i) + 1 else s.sem (.readerConn j))
    (hw : u.wview = s.wview) (hr : ∀ j, u.rview j = s.rview j)
    (hrest : RIdle C γ (s.rview i) ∧ C.rrest i (s.rview i)) : Inv C γ (Function.update G p .idle) u where
  coherent := hcoh
  winv := hw ▸ h.winv
  rinv j hj := hr j ▸ h.rinv j hj
  writer := by
    rw [hwrite, hw]
    exact h.writer.keep (by simp [hp]) fun _ => id
  reader j hj := by
    rw [hconn, hr]
    by_cases hji : j = i
    · subst hji
      rw [if_pos rfl, (h.reader j hj).free_eq_zero (p := p) (by simp [hp])]
      exact (h.reader j hj).release (by simp [hp]) (by simp) hrest
    · rw [if_neg hji]
      exact (h.reader j hj).keep (by simp [hp, Ne.symm hji]) fun _ => id
  agrees := Ghost.agrees_update h.agrees hw hr trivial

/-- A ring that has just been created satisfies the invariant of any contract that its empty history
satisfies. -/
theorem created (C : Contract g) (hw : C.wnote [] [])
    (hr : ∀ i, C.rnote .empty i []) (hwrest : C.wrest (Ring.created g).wview)
    (hrrest : ∀ i, C.rrest i ((Ring.created g).rview i)) :
    Inv C .empty (fun _ => .idle) (.created g) where
  coherent x := by simp [Ring.created]
  winv :=
    { start := by simp [PubLog.empty]
      stop := by simp [PubLog.empty]
      bytes := by simp [PubLog.empty]
      posted := by simp [PubLog.empty, Ring.wview, Ring.created]
      full := by simp [PubLog.empty, Ring.wview, Ring.created]
      accounted := fun _ i _ => by
        refine ⟨?_, ?_, fun _ => ?_⟩ <;>
          simp [Ring.wview, Ring.created, Ipcsync.pending, Ipcsync.writers, Ipcsync.created,
            ProcState.code]
      xfer := by simp [PubLog.empty]
      note := hw }
  rinv i _ := ⟨by simp [Ring.rview, Ring.created], by simp [Ring.rview, Ring.created], hr i⟩
  writer := by
    refine .inl ⟨rfl, ⟨?_, hwrest⟩, fun _ => by simp⟩
    have hreclaim : Reclaim C .empty (Ring.created g).wview 0 0 := by
      constructor <;> intros <;>
        simp_all [PubLog.empty, Ring.wview, Ring.created, Ipcsync.writers, Ipcsync.created]
    refine ⟨?_, ?_, ?_, ?_, ?_, ?_, ?_, ?_, ?_, ?_, fun _ => ⟨0, 0, hreclaim⟩⟩
    all_goals simp [PubLog.empty, Ring.wview, Ring.created, Ipcsync.writers, Ipcsync.created,
      ProcState.code]
  reader i hi := by
    refine .inl ⟨by simp [Ring.created, Sem.created, hi], ⟨?_, hrrest i⟩, fun _ => by simp⟩
    constructor <;>
      simp [PubLog.empty, Ring.rview, Ring.created, Ipcsync.created, ProcState.code]
  agrees _ := trivial

end Inv

end Psrdada
