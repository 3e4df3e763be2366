import Psrdada.Ring.Reclaim

/-! # The writer's routines

`WOk` is what the writer's part of a ring looks like between two calls of the writer, `Begun` what it
looks like while a transfer is in progress.  Each routine of the writer has one specification here,
in terms of these. -/

namespace Psrdada

open Concurrency Outline

variable {g : Geometry} {C : Contract g}

/-! ## Publishing -/

namespace WView

/-- What the arrays and the sub-blocks say of a sub-block of a transfer. -/
def tok (g : Geometry) (v : WView) (xfer blk : ℕ) : Tok where
  toDesc := v.sync.describe g xfer blk
  sod := decide (v.sync.sBuf (xfer % ipcbufXfers) = blk)
  bytes := slice (v.buffer (blk % g.nbufs)) (v.sync.describe g xfer blk).start
    (v.sync.describe g xfer blk).stop

theorem tok_startAt (v : WView) (xfer blk : ℕ) : (v.tok g xfer blk).StartAt v.sync := by
  intro h
  have h' : v.sync.sBuf (xfer % ipcbufXfers) = blk := by simpa [tok] using h
  simp [tok, Ipcsync.describe, h']

theorem tok_wellFormed (v : WView) (xfer blk : ℕ) : (v.tok g xfer blk).WellFormed g where
  start h := by
    have h' : v.sync.sBuf (xfer % ipcbufXfers) ≠ blk := by simpa [tok] using h
    simp [tok, Ipcsync.describe, h']
  stop h := by
    have h' : ¬(v.sync.eod (xfer % ipcbufXfers) ≠ 0 ∧ v.sync.eBuf (xfer % ipcbufXfers) = blk) := by
      simpa [tok, Ipcsync.describe] using h
    simp only [tok, Ipcsync.describe, if_neg h']
  length := slice_length ..

/-- A sub-block that is not the last of its transfer. -/
theorem tok_endAt_of_not_eod {v : WView} {xfer blk : ℕ} {b : Bool}
    (h : if b then v.sync.eBuf (xfer % ipcbufXfers) ≠ blk
      else v.sync.eod (xfer % ipcbufXfers) = 0) :
    (v.tok g xfer blk).eod = false ∧ (v.tok g xfer blk).EndAt b v.sync := by
  have heod : (v.tok g xfer blk).eod = false := by
    cases b
    · have h' : v.sync.eod (xfer % ipcbufXfers) = 0 := h
      simp [tok, Ipcsync.describe, h']
    · have h' : v.sync.eBuf (xfer % ipcbufXfers) ≠ blk := h
      simp [tok, Ipcsync.describe, h']
  refine ⟨heod, ?_⟩
  rw [Tok.EndAt, heod]
  exact h

/-- The sub-block that ends its transfer. -/
theorem tok_endAt_of_eod {v : WView} {xfer blk : ℕ} {b : Bool}
    (h : v.sync.eod (xfer % ipcbufXfers) ≠ 0) (hb : v.sync.eBuf (xfer % ipcbufXfers) = blk) :
    (v.tok g xfer blk).eod = true ∧ (v.tok g xfer blk).EndAt b v.sync := by
  have heod : (v.tok g xfer blk).eod = true := by simp [tok, Ipcsync.describe, h, hb]
  refine ⟨heod, ?_⟩
  rw [Tok.EndAt, heod]
  simp [tok, Ipcsync.describe, h, hb]

/-- The sub-block that the writer publishes next. -/
def newTok (g : Geometry) (v : WView) (stop : ℕ) (eod : Bool) : Tok where
  xfer := v.sync.wXfer
  blk := v.sync.wBufCurr
  start := if v.sync.sBuf (v.sync.wXfer % ipcbufXfers) = v.sync.wBufCurr then
    v.sync.sByte (v.sync.wXfer % ipcbufXfers) else 0
  stop := stop
  eod := eod
  sod := decide (v.sync.sBuf (v.sync.wXfer % ipcbufXfers) = v.sync.wBufCurr)
  bytes := slice (v.buffer (v.sync.wBufCurr % g.nbufs))
    (if v.sync.sBuf (v.sync.wXfer % ipcbufXfers) = v.sync.wBufCurr then
      v.sync.sByte (v.sync.wXfer % ipcbufXfers) else 0) stop

/-- The transfer that a post announces. -/
def postXfer (v : WView) : ℕ := if v.sync.wState = 0 then v.sync.wXfer - 1 else v.sync.wXfer

/-- The writer's view with one more transfer pending in a sub-block. -/
def counted (g : Geometry) (v : WView) (blk : ℕ) : WView :=
  v.store (.count (blk % g.nbufs)) ((v.sync.count (blk % g.nbufs) + 1) % 256)

/-- The writer's view once sub-block `w_buf_curr` has been posted to the first `m` readers. -/
def postedTo (g : Geometry) (v : WView) (m : ℕ) : WView :=
  { (v.counted g v.sync.wBufCurr).store .wBufCurr (v.sync.wBufCurr + 1) with
    fullPosted := bump 1 v.fullPosted m
    full := upTo m (fun i => v.full i ++ [v.sync.describe g v.postXfer v.sync.wBufCurr]) v.full }

/-- The writer's view once sub-block `w_buf_curr` has been handed to the readers. -/
def published (g : Geometry) (v : WView) : WView := v.postedTo g g.nReaders

theorem postedTo_announced (v : WView) (m : ℕ) :
    (v.postedTo g m).sync.announced g 1 = [v.sync.describe g v.postXfer v.sync.wBufCurr] := by
  change [v.sync.describe g v.postXfer (v.sync.wBufCurr + 1 - 1 + 0)] = _
  rw [Nat.add_sub_cancel, Nat.add_zero]

theorem postedTo_postFull (v : WView) (m : ℕ) :
    (v.postedTo g m).postFull g m 1 = v.postedTo g (m + 1) := by
  rw [postFull, postedTo_announced]
  simp only [postedTo, bump_self, update_bump, upTo_self]
  rw [update_upTo m fun i => v.full i ++ [v.sync.describe g v.postXfer v.sync.wBufCurr]]

end WView

namespace WInv

variable {γ γ' : C.Log} {v : WView}

/-- The log goes on with sub-blocks that the arrays describe. -/
theorem append (h : WInv C γ v) {l : List Tok} (htoks : γ'.toks = γ.toks ++ l)
    (hstart : ∀ t ∈ l, t.StartAt v.sync)
    (hstop : ∀ i < g.nReaders, ∀ t ∈ γ'.toks, v.eodTaken i ≤ t.xfer + ipcbufXfers →
      t.EndAt γ'.settled v.sync)
    (hbytes : ∀ t ∈ l, t.bytes = slice (v.buffer (t.blk % g.nbufs)) t.start t.stop)
    (hxfer : nextXfer γ'.toks ≤ v.sync.wXfer) (hnote : C.wnote γ'.toks v.notes) :
    WInv C γ' v where
  start i hi t ht hle := by
    rw [htoks] at ht
    rcases List.mem_append.mp ht with ht | ht
    · exact h.start i hi t ht hle
    · exact hstart t ht
  stop := hstop
  bytes i hi t ht := by
    rw [htoks, List.drop_append] at ht
    rcases List.mem_append.mp ht with ht | ht
    · exact h.bytes i hi t ht
    · exact hbytes t (List.mem_of_mem_drop ht)
  posted i hi := by
    rw [htoks, List.length_append]
    exact (h.posted i hi).trans (Nat.le_add_right _ _)
  full i hi := by
    rw [htoks, List.take_append_of_le_length (h.posted i hi)]
    exact h.full i hi
  accounted := h.accounted
  xfer := hxfer
  note := hnote

/-- A post announces the next sub-blocks of the log. -/
theorem postFull (h : WInv C γ v) {i k : ℕ} (hi : i < g.nReaders)
    (hlen : v.fullPosted i + k ≤ γ.toks.length)
    (hann : v.sync.announced g k = ((γ.toks.drop (v.fullPosted i)).take k).map Tok.toDesc)
    (hacc : C.tight → ∀ j < g.nReaders, (v.postFull g i k).Accounted g j) :
    WInv C γ (v.postFull g i k) where
  start := h.start
  stop := h.stop
  bytes := h.bytes
  posted j hj := by
    by_cases hji : j = i
    · subst hji; simpa [WView.postFull] using hlen
    · simpa [WView.postFull, hji] using h.posted j hj
  full j hj := by
    by_cases hji : j = i
    · subst hji
      simp only [WView.postFull, Function.update_self]
      rw [h.full j hj, hann, ← List.map_append, List.take_add]
    · simpa [WView.postFull, hji] using h.full j hj
  accounted := hacc
  xfer := h.xfer
  note := h.note

end WInv

/-- Publishing one more sub-block, as far as the pending counts go. -/
theorem Reclaim.push {γ γ' : C.Log} {v : WView} {rec hi : ℕ} {t : Tok} (hs : C.strict)
    (h : Reclaim C γ v rec hi) (htoks : γ'.toks = γ.toks ++ [t]) (hlt : t.blk < v.sync.wBufNext)
    (hwin : hi ≤ t.blk + g.nbufs) :
    Reclaim C γ' (v.store (.count (t.blk % g.nbufs))
      ((v.sync.count (t.blk % g.nbufs) + 1) % 256)) rec hi where
  rec_le := by
    rw [htoks, List.length_append]
    exact h.rec_le.trans (Nat.le_add_right _ _)
  taken := h.taken
  next_le := h.next_le
  le_curr := h.le_curr
  high := h.high
  blk u hu := by
    rw [htoks] at hu
    rcases List.mem_append.mp hu with hu | hu
    · exact h.blk u hu
    · rwa [List.mem_singleton.mp hu]
  window u hu := by
    rw [htoks, List.drop_append_of_le_length h.rec_le] at hu
    rcases List.mem_append.mp hu with hu | hu
    · exact h.window u hu
    · rwa [List.mem_singleton.mp hu]
  count j hj := by
    have htwo := h.countP_le_two hs j
    rw [htoks, List.drop_append_of_le_length h.rec_le, List.countP_append, List.countP_singleton]
    by_cases hjb : j = t.blk % g.nbufs
    · subst hjb
      simp only [WView.store, Ipcsync.store, Function.update_self, h.count _ hj, decide_true,
        if_true]
      omega
    · simp [WView.store, Ipcsync.store, hjb, h.count j hj, Ne.symm hjb]

/-- Moving `w_buf_curr` on. -/
theorem Reclaim.store_curr {γ : C.Log} {v : WView} {rec hi a : ℕ} (h : Reclaim C γ v rec hi)
    (ha : v.sync.wBufCurr ≤ a) : Reclaim C γ (v.store .wBufCurr a) rec hi :=
  ⟨h.rec_le, h.taken, h.next_le, h.le_curr.trans (Nat.add_le_add_right ha _), h.high, h.blk,
    h.window, h.count⟩

section Publish

variable {p : ℕ} {γ γ' : C.Log} {v : WView} {d : Ipcbuf}

/-- While a sub-block is posted to one reader after the other, every reader's account is at most one
behind. -/
theorem InCall.accounted_posting (hcall : InCall C γ v) {rec hi : ℕ} {w : WView}
    (hr : Reclaim C γ' w rec hi) (hlen : γ'.toks.length = γ.toks.length + 1) (ht : C.tight)
    {m : ℕ} (hposted : w.fullPosted = bump 1 v.fullPosted m) (hnotes : w.notes = v.notes) :
    ∀ i < g.nReaders, w.Accounted g i := by
  intro i hi
  obtain ⟨hall, hbusy⟩ := hcall ht
  have hadd := hr.pending_add hi
  have hi' := hall i hi
  have hle := bump_le 1 v.fullPosted m i
  have hge := le_bump 1 v.fullPosted m i
  rw [← hposted] at hle hge
  exact ⟨by omega, by omega, fun hq => absurd (hnotes ▸ hq) hbusy⟩

/-- The sub-block in `w_buf_curr` has been taken, whenever a step that publishes it is assumed of. -/
def HasCurrent (C : Contract g) (p : ℕ) (v : WView) : Prop :=
  (C.tight → v.sync.wBufCurr < v.sync.wBufNext) ∧
    ∀ w : WView, C.Allowed p (.store .wBufCurr (v.sync.wBufCurr + 1)) w →
      w.sync.wBufCurr = v.sync.wBufCurr → w.sync.wBufNext = v.sync.wBufNext →
      v.sync.wBufCurr < v.sync.wBufNext

/-- `publish` appends the sub-block that the arrays describe to the log and posts it to every
reader. -/
theorem ensures_publish {δ : C.Log} {Q : ℤ → Ipcbuf → Ghost C → Prop}
    (hre : Reclaims C γ v) (hcall : InCall C γ v)
    (hposted : ∀ i < g.nReaders, v.fullPosted i = γ.toks.length)
    (htoks : δ.toks = γ.toks ++ [v.tok g v.postXfer v.sync.wBufCurr])
    (hsettled : δ.settled = γ.settled)
    (hend : (v.tok g v.postXfer v.sync.wBufCurr).EndAt γ.settled v.sync)
    (hxfer : nextXfer δ.toks ≤ v.sync.wXfer)
    (hnote : C.wnote γ.toks v.notes → C.wnote δ.toks v.notes) (hcurr : HasCurrent C p v)
    (h : v.sync.wBufCurr < v.sync.wBufNext → Reclaims C δ (v.published g) →
      Q 0 d (.writer δ (v.published g))) :
    C.outline.Ensures p (publish g) d (.writer γ v) Q := by
  have hlen : δ.toks.length = γ.toks.length + 1 := by simp [htoks]
  have hle : γ ≤ δ := ⟨⟨_, htoks.symm⟩, fun hs => hsettled ▸ hs⟩
  have hcounted : v.sync.wBufCurr < v.sync.wBufNext →
      Reclaims C δ (v.counted g v.sync.wBufCurr) := fun hlt hs => by
    obtain ⟨rec, hi, hr⟩ := hre hs
    exact ⟨rec, hi, hr.push (t := v.tok g v.postXfer v.sync.wBufCurr) hs htoks hlt hr.le_curr⟩
  have hpostedTo : v.sync.wBufCurr < v.sync.wBufNext → ∀ m, Reclaims C δ (v.postedTo g m) :=
    fun hlt m hs => by
      obtain ⟨rec, hi, hr⟩ := hcounted hlt hs
      have hr' := hr.store_curr (a := v.sync.wBufCurr + 1) (Nat.le_succ _)
      exact ⟨rec, hi, hr'.rec_le, hr'.taken, hr'.next_le, hr'.le_curr, hr'.high, hr'.blk,
        hr'.window, hr'.count⟩
  rw [publish, ensures_bind]
  refine ensures_load rfl rfl fun _ => ?_
  rw [ensures_bind]
  refine ensures_load rfl rfl fun _ => ?_
  rw [ensures_bind]
  refine ensures_store rfl (fun hw _ => hw.store_count fun ht => ?_) fun _ _ => ?_
  · obtain ⟨rec, hi, hr⟩ := hcounted (hcurr.1 ht) (C.strict_of_tight ht)
    exact hcall.accounted_posting (m := 0) hr hlen ht (by rw [bump_zero]; rfl) rfl
  rw [ensures_bind]
  refine ensures_load rfl rfl fun _ => ?_
  rw [ensures_bind]
  -- from here on the sub-block is in the log
  refine ensures_store_publish rfl fun hw hok => ⟨δ, hle, ?_, ?_⟩
  · refine (hw.append htoks ?_ ?_ ?_ hxfer (hnote hw.note)).store_cursor rfl
      (fun ht => (hcall ht).2) (by simp)
    · intro t ht
      rw [List.mem_singleton.mp ht]
      exact v.tok_startAt _ _
    · intro i hi t ht hxfer
      rw [htoks] at ht
      rw [hsettled]
      rcases List.mem_append.mp ht with ht | ht
      · exact hw.stop i hi t ht hxfer
      · rw [List.mem_singleton.mp ht]
        exact hend
    · intro t ht
      rw [List.mem_singleton.mp ht]
      rfl
  have hlt : v.sync.wBufCurr < v.sync.wBufNext :=
    hcurr.2 _ hok rfl rfl
  rw [ensures_bind]
  refine ensures_mono (ensures_countUp (fun m t l => t = d ∧
    l = Ghost.writer δ (v.postedTo g m)) ⟨rfl, by rw [WView.postedTo, bump_zero, upTo_zero]; rfl⟩
    ?_) ?_
  · rintro i hi d _ ⟨rfl, rfl⟩
    have hone : (v.postedTo g i).fullPosted i = γ.toks.length := by
      simpa [WView.postedTo] using hposted i hi
    refine ensures_postFull_one (fun hw => hw.postFull hi (by omega) ?_ fun ht => ?_)
      ⟨rfl, by rw [WView.postedTo_postFull]⟩
    · rw [WView.postedTo_announced, hone, htoks, List.drop_left']
      · rfl
      · rfl
    · rw [WView.postedTo_postFull]
      obtain ⟨rec, hi', hr⟩ := hpostedTo hlt (i + 1) (C.strict_of_tight ht)
      exact hcall.accounted_posting hr hlen ht rfl rfl
  · rintro _ d _ ⟨rfl, rfl⟩
    exact h hlt (hpostedTo hlt _)

end Publish

/-! ## Between calls -/

/-- The private data of the process that has the writer's lock, between two calls. -/
structure WPrivate (v : WView) (d : Ipcbuf) : Prop where
  xfer : d.xfer = v.sync.wXfer % ipcbufXfers
  state : d.state = .wchange ∨ (d.state = .writer ∧ v.sync.wState = 0) ∨
    (d.state = .writing ∧ v.sync.wState ≠ 0)

theorem WPrivate.isWriter {v : WView} {d : Ipcbuf} (h : WPrivate v d) : d.isWriter = true := by
  rcases h.state with h | ⟨h, -⟩ | ⟨h, -⟩ <;> simp [Ipcbuf.isWriter, h]

/-! ## Start of data -/

variable (C) in
/-- What has to hold for start-of-data to be raised at sub-block `start`: no transfer is in progress,
the sub-block has been reached, no more than a `short` can say has been written since, and it lies
behind what an earlier transfer left in `e_buf`. -/
structure MayRaise (γ : C.Log) (v : WView) (start : ℕ) : Prop where
  closed : v.sync.wState = 0
  le_curr : start ≤ v.sync.wBufCurr
  short : v.sync.wBufCurr - start < 2 ^ 15
  stale : v.sync.wBufCurr = 0 ∨ v.sync.eBuf (v.sync.wXfer % ipcbufXfers) < start
  order : C.strict → ∀ t ∈ γ.toks.getLast?, t.blk ≤ start
  window : C.strict → ∀ rec hi, Reclaim C γ v rec hi → hi ≤ start + g.nbufs
  tight : C.tight → start = v.sync.wBufCurr

/-- What raising start-of-data at byte `byte` of sub-block `start` does. -/
structure Raised (γ : C.Log) (v : WView) (start byte : ℕ) (γ' : C.Log) (v' : WView) : Prop where
  ok : WOk C γ' v'
  le : γ ≤ γ'
  toks : start = v.sync.wBufCurr → γ'.toks = γ.toks
  curr : v'.sync.wBufCurr = v.sync.wBufCurr
  next : v'.sync.wBufNext = v.sync.wBufNext
  xfer : v'.sync.wXfer = v.sync.wXfer
  state : v'.sync.wState = ProcState.writing.code
  sBuf : v'.sync.sBuf (v.sync.wXfer % ipcbufXfers) = start
  sByte : v'.sync.sByte (v.sync.wXfer % ipcbufXfers) = byte
  eBuf : v'.sync.eBuf = v.sync.eBuf
  buffer : v'.buffer = v.buffer
  notes : v'.notes = v.notes

namespace WView

/-- The sub-blocks from `start` on that start-of-data publishes at once. -/
def caughtUp (g : Geometry) (v : WView) (start m : ℕ) : List Tok :=
  (List.range m).map fun j => v.tok g v.sync.wXfer (start + j)

/-- The writer's view once the arrays say where the transfer begins. -/
def started (g : Geometry) (v : WView) (start byte : ℕ) : WView :=
  let w := ({ v with sodTaken := bump 1 v.sodTaken g.nReaders }.store
    (.sBuf (v.sync.wXfer % ipcbufXfers)) start).store (.sByte (v.sync.wXfer % ipcbufXfers)) byte
  if v.sync.wBufCurr = 0 then w.store (.eod (v.sync.wXfer % ipcbufXfers)) 0 else w

/-- The writer's view once `k` sub-blocks have been posted to the first `m` readers. -/
def catchPosted (v : WView) (k : ℕ) (l : List Desc) (m : ℕ) : WView :=
  { v with
    fullPosted := bump k v.fullPosted m
    full := upTo m (fun i => v.full i ++ l) v.full }

variable {v : WView} {start byte : ℕ}

theorem started_cases (v : WView) (start byte : ℕ) :
    (v.sync.wBufCurr = 0 ∧ (v.started g start byte).sync.eod (v.sync.wXfer % ipcbufXfers) = 0 ∨
      v.sync.wBufCurr ≠ 0) ∧
    (v.started g start byte).sync.wBufCurr = v.sync.wBufCurr ∧
    (v.started g start byte).sync.wBufNext = v.sync.wBufNext ∧
    (v.started g start byte).sync.wXfer = v.sync.wXfer ∧
    (v.started g start byte).sync.sBuf (v.sync.wXfer % ipcbufXfers) = start ∧
    (v.started g start byte).sync.sByte (v.sync.wXfer % ipcbufXfers) = byte ∧
    (v.started g start byte).sync.eBuf = v.sync.eBuf ∧
    (v.started g start byte).sync.count = v.sync.count ∧
    (v.started g start byte).sodTaken = bump 1 v.sodTaken g.nReaders ∧
    (v.started g start byte).eodTaken = v.eodTaken ∧
    (v.started g start byte).clrTaken = v.clrTaken ∧
    (v.started g start byte).fullPosted = v.fullPosted ∧
    (v.started g start byte).buffer = v.buffer ∧
    (v.started g start byte).notes = v.notes := by
  by_cases h : v.sync.wBufCurr = 0 <;> simp [started, store, Ipcsync.store, h]

theorem catchPosted_zero (v : WView) (m : ℕ) : v.catchPosted 0 [] m = v := by
  have h₁ : bump 0 v.fullPosted m = v.fullPosted := by
    funext j
    simp [bump, upTo]
  have h₂ : upTo m (fun i => v.full i ++ []) v.full = v.full := by
    funext j
    simp [upTo]
  rw [catchPosted, h₁, h₂]

theorem catchPosted_postFull {k m : ℕ} {l : List Desc} (h : v.sync.announced g k = l) :
    (v.catchPosted k l m).postFull g m k = v.catchPosted k l (m + 1) := by
  have h' : (v.catchPosted k l m).sync.announced g k = l := h
  rw [postFull, h']
  simp only [catchPosted, bump_self, update_bump, upTo_self]
  rw [update_upTo m fun i => v.full i ++ l]

end WView

section Raise

variable {p : ℕ} {γ : C.Log} {v : WView} {d : Ipcbuf}

/-- The log goes on with the sub-blocks that start-of-data publishes. -/
theorem exists_catchUp (start : ℕ) (b : Bool) (hb : Between γ.toks)
    (hx : nextXfer γ.toks = v.sync.wXfer)
    (hstart : v.sync.sBuf (v.sync.wXfer % ipcbufXfers) = start)
    (horder : C.strict → ∀ t ∈ γ.toks.getLast?, t.blk ≤ start)
    (hsettled : γ.settled = true → b = true) (m : ℕ)
    (hend : ∀ j < m, (v.tok g v.sync.wXfer (start + j)).eod = false) :
    ∃ γ' : C.Log, γ'.toks = γ.toks ++ v.caughtUp g start m ∧ γ'.settled = b ∧ γ ≤ γ' := by
  induction m with
  | zero =>
    refine ⟨γ.settle b, by simp [WView.caughtUp], ?_, γ.le_settle b⟩
    cases h : γ.settled
    · simp [PubLog.settle, h]
    · simp [PubLog.settle, h, hsettled h]
  | succ m ih =>
    obtain ⟨γ', htoks, hset, hle⟩ := ih fun j hj => hend j (Nat.lt_succ_of_lt hj)
    have hnew := hend m m.lt_succ_self
    refine ⟨γ'.push (v.tok g v.sync.wXfer (start + m)) ?_ ?_ (v.tok_wellFormed _ _), ?_, hset,
      hle.trans γ'.le_push⟩
    · intro hnil
      rw [htoks, List.append_eq_nil_iff] at hnil
      have hm : m = 0 := by simpa [WView.caughtUp] using hnil.2
      subst hm
      rw [hnil.1] at hx
      simpa [WView.tok, Ipcsync.describe, hstart] using hx.symm
    · intro a ha
      rcases Nat.eq_zero_or_pos m with rfl | hm
      · have ha' : a ∈ γ.toks.getLast? := by simpa [htoks, WView.caughtUp] using ha
        have hxa : nextXfer γ.toks = a.xfer + 1 := by
          rw [Option.mem_def] at ha'
          simp [nextXfer, ha', hb a ha']
        rw [Tok.Follows, if_pos (hb a ha')]
        refine ⟨by simp [WView.tok, hstart], ?_, fun hs => ?_⟩
        · change v.sync.wXfer = a.xfer + 1
          rw [← hx, hxa]
        · rcases Nat.lt_or_eq_of_le (horder hs a ha') with hlt | heq
          · exact .inl hlt
          · exact .inr ⟨heq, hnew⟩
      · obtain ⟨k, rfl⟩ : ∃ k, m = k + 1 := ⟨m - 1, by omega⟩
        have ha' : v.tok g v.sync.wXfer (start + k) = a := by
          simpa [htoks, WView.caughtUp, List.range_succ] using ha
        subst ha'
        rw [Tok.Follows, if_neg (by simp [hend k (by omega)])]
        refine ⟨?_, rfl, rfl⟩
        simp [WView.tok, hstart]
    · change γ'.toks ++ _ = _
      rw [htoks, WView.caughtUp, WView.caughtUp, List.range_succ, List.map_append,
        List.append_assoc]
      rfl

/-- `countWritten` counts every sub-block from `start` to `w_buf_curr` once more. -/
theorem ensures_countWritten {start : ℕ} {Q : Unit → Ipcbuf → Ghost C → Prop}
    (hle : start ≤ v.sync.wBufCurr) (hcurr : v.sync.wBufCurr ≤ v.sync.wBufNext)
    (htight : C.tight → start = v.sync.wBufCurr)
    (hre : C.strict → ∃ rec hi, Reclaim C γ v rec hi ∧ hi ≤ start + g.nbufs)
    (hlog : ∀ m ≤ v.sync.wBufCurr - start,
      ∃ γ' : C.Log, γ'.toks = γ.toks ++ v.caughtUp g start m)
    (h : ∀ c, (∀ γ' : C.Log,
        γ'.toks = γ.toks ++ v.caughtUp g start (v.sync.wBufCurr - start) →
        Reclaims C γ' (v.reclaimed c v.clrTaken)) →
      Q () d (.writer γ (v.reclaimed c v.clrTaken))) :
    C.outline.Ensures p (countWritten g start) d (.writer γ v) Q := by
  refine ensures_iterate (fun b t l => t = d ∧ start ≤ b ∧ b ≤ v.sync.wBufCurr ∧
    ∃ c, l = .writer γ (v.reclaimed c v.clrTaken) ∧
      (C.strict → ∀ γ' : C.Log, γ'.toks = γ.toks ++ v.caughtUp g start (b - start) →
        ∃ rec hi, Reclaim C γ' (v.reclaimed c v.clrTaken) rec hi ∧ hi ≤ start + g.nbufs))
    ⟨rfl, le_rfl, hle, v.sync.count, rfl, fun hs γ' htoks => ?_⟩ ?_
  · obtain ⟨rec, hi, hr, hwin⟩ := hre hs
    have heq : γ'.toks = γ.toks := by simpa [WView.caughtUp] using htoks
    exact ⟨rec, hi, ⟨heq ▸ hr.rec_le, hr.taken, hr.next_le, hr.le_curr, hr.high, heq ▸ hr.blk,
      heq ▸ hr.window, heq ▸ hr.count⟩, hwin⟩
  rintro b d _ ⟨rfl, hsb, hbc, c, rfl, hre'⟩
  rw [ensures_bind]
  refine ensures_load (a := v.sync.wBufCurr) rfl rfl fun _ => ?_
  by_cases hlt : b < v.sync.wBufCurr
  · rw [if_pos hlt, ensures_bind]
    refine ensures_load rfl rfl fun _ => ?_
    rw [ensures_bind]
    refine ensures_store rfl (fun hw _ => hw.store_count fun ht => ?_) fun _ _ =>
      ⟨rfl, by omega, by omega, _, rfl, fun hs γ' htoks => ?_⟩
    · have := htight ht
      omega
    · obtain ⟨γ'', htoks'⟩ := hlog (b - start) (by omega)
      obtain ⟨rec, hi, hr, hwin⟩ := hre' hs γ'' htoks'
      have hpush : γ'.toks = γ''.toks ++ [v.tok g v.sync.wXfer b] := by
        have hb : start + (b - start) = b := by omega
        rw [htoks, htoks', Nat.sub_add_comm hsb, WView.caughtUp, WView.caughtUp, List.range_succ,
          List.map_append, List.append_assoc, List.map_singleton, hb]
      exact ⟨rec, hi, hr.push hs hpush (hlt.trans_le hcurr) (hwin.trans (by
        change start + g.nbufs ≤ b + g.nbufs
        omega)), hwin⟩
  · rw [if_neg hlt]
    have hb : b = v.sync.wBufCurr := by
      have : ¬ b < v.sync.wBufCurr := hlt
      omega
    subst hb
    refine h c fun γ' htoks hs => ?_
    obtain ⟨rec, hi, hr, -⟩ := hre' hs γ' htoks
    exact ⟨rec, hi, hr⟩

/-- While start-of-data is not raised, a store where the next transfer begins leaves what a reader may
still look at. -/
theorem WInv.store_start {x : Var} {a : ℕ}
    (hx : x = .sBuf (v.sync.wXfer % ipcbufXfers) ∨ x = .sByte (v.sync.wXfer % ipcbufXfers))
    (h : WInv C γ v) (hb : Between γ.toks) (hxfer : nextXfer γ.toks = v.sync.wXfer)
    (hsod : ∀ i < g.nReaders, v.sodTaken i = v.sync.wXfer + 1) :
    WInv C γ (v.store x a) := by
  have hold : ∀ i < g.nReaders, ∀ t ∈ γ.toks, v.sodTaken i ≤ t.xfer + ipcbufXfers →
      t.xfer % ipcbufXfers ≠ v.sync.wXfer % ipcbufXfers := by
    intro i hi t ht hle hmod
    have hlt := γ.xfer_lt_nextXfer hb ht
    rw [hxfer] at hlt
    rw [hsod i hi] at hle
    have := eq_of_mod_eq_of_lt hmod hlt.le (by omega)
    omega
  have hstore := h.store_array (x := x) (a := a) (b := false)
    (by rcases hx with rfl | rfl <;> rfl) ?_ ?_
  · simpa using hstore
  · intro i hi t ht hle hsod'
    have hne := hold i hi t ht hle
    have := h.start i hi t ht hle hsod'
    rcases hx with rfl | rfl <;> simpa [Ipcsync.store, hne] using this
  · intro i hi t ht hle
    have := h.stop i hi t ht hle
    rw [Bool.or_false]
    rcases hx with rfl | rfl <;> exact this

/-- `markSod` says in the arrays where the transfer begins. -/
theorem ensures_markSod {start byte : ℕ} {Q : ℕ → Ipcbuf → Ghost C → Prop} (hok : WOk C γ v)
    (hmay : ∀ w : WView, C.Allowed p (.store (.sBuf (v.sync.wXfer % ipcbufXfers)) start) w →
      w.sync = v.sync → MayRaise C γ v start)
    (h : MayRaise C γ v start → Q (v.sync.wXfer % ipcbufXfers)
      { d with xfer := v.sync.wXfer % ipcbufXfers } (.writer γ (v.started g start byte))) :
    C.outline.Ensures p (markSod start byte) d
      (.writer γ { v with sodTaken := bump 1 v.sodTaken g.nReaders }) Q := by
  have hsod : MayRaise C γ v start → ∀ i < g.nReaders,
      bump 1 v.sodTaken g.nReaders i = v.sync.wXfer + 1 := fun hr i hi => by
    rw [bump_of_lt hi, hok.sod i hi, if_pos hr.closed]
  simp only [markSod, ensures_bind, ensures_modify]
  refine ensures_load (a := v.sync.wXfer) rfl rfl fun _ => ?_
  refine ensures_store rfl (fun hw hal => ?_) fun _ hal => ?_
  · have hr := hmay _ hal rfl
    exact hw.store_start (.inl rfl) (hok.closed hr.closed) hok.xfer (hsod hr)
  have hr := hmay _ hal rfl
  refine ensures_store rfl (fun hw _ => ?_) fun _ _ => ?_
  · exact hw.store_start (.inr rfl) (hok.closed hr.closed) hok.xfer (hsod hr)
  refine ensures_load (a := v.sync.wBufCurr) rfl rfl fun _ => ?_
  by_cases h0 : v.sync.wBufCurr = 0
  · have hnil : γ.toks = [] := List.eq_nil_iff_forall_not_mem.mpr fun t ht => by
      have := hok.blk t ht
      omega
    rw [if_pos h0, ensures_bind]
    refine ensures_store rfl (fun hw _ => ?_) fun _ _ => ?_
    · simpa using hw.store_array (b := false) rfl (by simp [hnil]) (by simp [hnil])
    · have := h hr
      rwa [WView.started, if_pos h0] at this
  · rw [if_neg h0, ensures_pure]
    have := h hr
    rwa [WView.started, if_neg h0] at this

/-- Once a transfer has been started, none of its sub-blocks so far ends it. -/
theorem MayRaise.eod_caughtUp {start byte : ℕ} (hr : MayRaise C γ v start)
    {j : ℕ} (hj : j < v.sync.wBufCurr - start) :
    ((v.started g start byte).tok g v.sync.wXfer (start + j)).eod = false ∧
      ((v.started g start byte).tok g v.sync.wXfer (start + j)).EndAt true
        (v.started g start byte).sync := by
  obtain ⟨-, -, -, -, -, -, heBuf, -⟩ := v.started_cases (g := g) start byte
  refine WView.tok_endAt_of_not_eod (b := true) ?_
  rcases hr.stale with h0 | hlt
  · omega
  · simp only [if_true, heBuf]
    omega

/-- `catchUp` hands the sub-blocks of the transfer that have been written already to the readers. -/
theorem ensures_catchUp {start byte : ℕ} {Q : Unit → Ipcbuf → Ghost C → Prop} (hok : WOk C γ v)
    (hr : MayRaise C γ v start) (hbusy : C.tight → ¬ Quiet v.notes)
    (hnote : start ≠ v.sync.wBufCurr → ∀ l, C.wnote l v.notes)
    (h : ∀ γ' v', Raised γ v start byte γ' v' →
      Q () { d with state := .writing } (.writer γ' v')) :
    C.outline.Ensures p (catchUp g (v.sync.wXfer % ipcbufXfers)) d
      (.writer γ (v.started g start byte)) Q := by
  obtain ⟨heod, hcurr, hnext, hxfer, hsBuf, hsByte, heBuf, hcount, hsod, heodT, hclr, hposted,
    hbuffer, hnotes⟩ := v.started_cases (g := g) start byte
  set w := v.started g start byte with hw
  set k := v.sync.wBufCurr - start with hk
  have hle := hr.le_curr
  obtain ⟨γ', htoks, hsettled, hγ⟩ := exists_catchUp (v := w) start
    (γ.settled || decide (v.sync.wBufCurr ≠ 0)) (hok.closed hr.closed)
    (hok.xfer.trans hxfer.symm) (by rw [hxfer, hsBuf]) hr.order (fun h => by simp [h]) k
    fun j hj => by rw [hxfer]; exact (hr.eod_caughtUp hj).1
  have hset : 0 < k → γ'.settled = true := fun hpos => by
    rw [hsettled]
    have : v.sync.wBufCurr ≠ 0 := by omega
    simp [this]
  have hlast : 0 < k → γ'.toks.getLast? = some (w.tok g w.sync.wXfer (start + (k - 1))) := by
    intro hpos
    obtain ⟨m, hm⟩ : ∃ m, k = m + 1 := ⟨k - 1, by omega⟩
    rw [htoks, hm, WView.caughtUp, List.range_succ, List.map_append, ← List.append_assoc]
    simp
  have hnil : k = 0 → γ'.toks = γ.toks := fun h0 => by
    rw [htoks, h0]
    simp [WView.caughtUp]
  have hlasteod : 0 < k → (w.tok g w.sync.wXfer (start + (k - 1))).eod = false := fun hpos => by
    rw [hxfer]
    exact (hr.eod_caughtUp (by omega)).1
  have hnextXfer : nextXfer γ'.toks = w.sync.wXfer := by
    rcases Nat.eq_zero_or_pos k with h0 | hpos
    · rw [hnil h0, hxfer]
      exact hok.xfer
    · rw [nextXfer, hlast hpos]
      simp only [hlasteod hpos, Bool.false_eq_true, if_false]
      rfl
  simp only [catchUp, ensures_bind, ensures_modify]
  refine ensures_load (a := start) rfl hsBuf fun _ => ?_
  refine ensures_countWritten (by omega) (by rw [hcurr, hnext]; exact hok.curr_le)
    (fun ht => (hr.tight ht).trans hcurr.symm) (fun hs => ?_) (fun m hm => ?_) fun c hc => ?_
  · obtain ⟨rec, hi, hrec⟩ := hok.reclaims hs
    refine ⟨rec, hi, ⟨hrec.rec_le, by rw [hclr]; exact hrec.taken, by rw [hnext]; exact hrec.next_le,
      by rw [hcurr]; exact hrec.le_curr, by rw [hnext]; exact hrec.high, by
        rw [hnext]; exact hrec.blk, hrec.window, by rw [hcount]; exact hrec.count⟩,
      hr.window hs rec hi hrec⟩
  · rw [hcurr, ← hk] at hm
    obtain ⟨γ'', h₁, -⟩ := exists_catchUp (v := w) start γ.settled (hok.closed hr.closed)
      (hok.xfer.trans hxfer.symm) (by rw [hxfer, hsBuf]) hr.order id m
      fun j hj => by rw [hxfer]; exact (hr.eod_caughtUp (hj.trans_le hm)).1
    exact ⟨γ'', h₁⟩
  rw [hcurr, ← hk] at hc
  refine ensures_load (a := v.sync.wBufCurr) rfl hcurr fun _ => ?_
  refine ensures_load (a := start) rfl hsBuf fun _ => ?_
  have husub : usub v.sync.wBufCurr start = k := by rw [usub, if_pos hle]
  rw [husub]
  -- the log goes on before the first post
  refine ensures_store_publish rfl fun hwinv _ => ⟨γ', hγ, ?_, ?_⟩
  · refine (hwinv.append htoks ?_ ?_ ?_ hnextXfer.le ?_).store_cursor rfl
      (by rwa [← hnotes] at hbusy) (by simp)
    · intro t ht
      obtain ⟨j, -, rfl⟩ := List.mem_map.mp ht
      exact w.tok_startAt _ _
    · intro i hi t ht hxf
      rw [htoks] at ht
      rcases List.mem_append.mp ht with ht | ht
      · cases hγs : γ.settled with
        | false => simp [(hok.fresh hγs).2 hr.closed] at ht
        | true =>
          have hstop := hwinv.stop i hi t ht hxf
          rw [hsettled, hγs, Bool.true_or]
          rwa [hγs] at hstop
      · obtain ⟨j, hj, rfl⟩ := List.mem_map.mp ht
        have hj' : j < k := List.mem_range.mp hj
        rw [hset (by omega), hxfer]
        exact (hr.eod_caughtUp hj').2
    · intro t ht
      obtain ⟨j, -, rfl⟩ := List.mem_map.mp ht
      rfl
    · by_cases hstart : start = v.sync.wBufCurr
      · have hk0 : k = 0 := by omega
        have hsame : γ'.toks = γ.toks := by
          rw [htoks, hk0]
          simp [WView.caughtUp]
        exact hsame ▸ hwinv.note
      · change C.wnote γ'.toks w.notes
        rw [hnotes]
        exact hnote hstart _
  set u := (w.reclaimed c w.clrTaken).store .wState ProcState.writing.code with hu
  set l := (w.caughtUp g start k).map Tok.toDesc with hl
  have hann : u.sync.announced g k = l := by
    have hcurr' : w.sync.wBufCurr - k = start := by omega
    change (List.range k).map (fun j => w.sync.describe g w.sync.wXfer (w.sync.wBufCurr - k + j)) = l
    rw [hcurr', hl, WView.caughtUp, List.map_map]
    rfl
  refine ensures_mono (ensures_countUp (fun m t l' => t = { d with state := .writing } ∧
    l' = Ghost.writer γ' (u.catchPosted k l m)) ⟨rfl, ?_⟩ ?_) ?_
  · rw [WView.catchPosted, bump_zero, upTo_zero]
  · rintro i hi _ _ ⟨rfl, rfl⟩
    by_cases hk0 : k = 0
    · have hl0 : l = [] := by simp [hl, WView.caughtUp, hk0]
      rw [if_neg (by simp [hk0]), ensures_pure, hk0, hl0, WView.catchPosted_zero,
        WView.catchPosted_zero]
      exact ⟨rfl, rfl⟩
    · rw [if_pos hk0]
      have hone : (u.catchPosted k l i).fullPosted i = γ.toks.length := by
        change bump k w.fullPosted i i = _
        rw [bump_self, hposted]
        exact hok.posted i hi
      have hlen : γ'.toks.length = γ.toks.length + k := by
        rw [htoks, List.length_append, WView.caughtUp, List.length_map, List.length_range]
      refine ensures_postFull (by omega) hr.short (fun hwinv => hwinv.postFull hi (by omega) ?_
        fun ht => ?_) ⟨rfl, by rw [WView.catchPosted_postFull hann]⟩
      · have h' : (u.catchPosted k l i).sync.announced g k = l := hann
        rw [h', hone, htoks, List.drop_left' rfl, List.take_of_length_le]
        simp [WView.caughtUp]
      · have := hr.tight ht
        omega
  rintro _ _ _ ⟨rfl, rfl⟩
  refine h γ' _ ⟨?_, hγ, fun hstart => ?_, hcurr, hnext, hxfer, rfl, hsBuf, hsByte, heBuf, hbuffer,
    hnotes⟩
  · have hstate : (u.catchPosted k l g.nReaders).sync.wState ≠ 0 := by
      change ProcState.writing.code ≠ 0
      decide
    refine ⟨fun i hi => ?_, fun i hi => ?_, fun i hi => ?_, ?_, fun t ht => ?_, ?_,
      fun h0 => absurd h0 hstate, fun _ => ⟨?_, ?_⟩, fun h0 => ⟨?_, fun h0 => absurd h0 hstate⟩,
      fun h0 => ?_, ?_⟩
    · rw [if_neg hstate]
      change w.sodTaken i = w.sync.wXfer + 1
      rw [hsod, hxfer, bump_of_lt hi, hok.sod i hi, if_pos hr.closed]
    · change w.eodTaken i = w.sync.wXfer
      rw [heodT, hxfer]
      exact hok.eod i hi
    · change bump k w.fullPosted g.nReaders i = _
      rw [bump_of_lt hi, hposted, hok.posted i hi, htoks, List.length_append, WView.caughtUp,
        List.length_map, List.length_range]
    · exact hnextXfer
    · change t.blk < w.sync.wBufCurr
      rw [hcurr]
      rw [htoks] at ht
      rcases List.mem_append.mp ht with ht | ht
      · exact hok.blk t ht
      · obtain ⟨j, hj, rfl⟩ := List.mem_map.mp ht
        have hj' : j < k := List.mem_range.mp hj
        change start + j < _
        omega
    · change w.sync.wBufCurr ≤ w.sync.wBufNext
      rw [hcurr, hnext]
      exact hok.curr_le
    · change (Between γ'.toks ∧ w.sync.sBuf (w.sync.wXfer % ipcbufXfers) = w.sync.wBufCurr) ∨
        (w.sync.sBuf (w.sync.wXfer % ipcbufXfers) < w.sync.wBufCurr ∧ _)
      rw [hxfer, hsBuf, hcurr]
      rcases Nat.eq_zero_or_pos k with h0 | hpos
      · exact .inl ⟨hnil h0 ▸ hok.closed hr.closed, by omega⟩
      · refine .inr ⟨by omega, _, hlast hpos, hlasteod hpos, ?_⟩
        change start + (k - 1) + 1 = w.sync.wBufCurr
        omega
    · change if γ'.settled then w.sync.eBuf (w.sync.wXfer % ipcbufXfers) <
        w.sync.sBuf (w.sync.wXfer % ipcbufXfers) else w.sync.eod (w.sync.wXfer % ipcbufXfers) = 0
      rw [hxfer, hsBuf, heBuf]
      rcases heod with ⟨h0, heod⟩ | h0
      · have hγs : γ.settled = false := by
          cases hγs : γ.settled with
          | false => rfl
          | true =>
            have := hok.settled hγs
            omega
        simp [hsettled, hγs, h0, heod]
      · have hlt : v.sync.eBuf (v.sync.wXfer % ipcbufXfers) < start :=
          hr.stale.resolve_left h0
        simp [hsettled, h0, hlt]
    · change w.sync.wXfer = 0
      rw [hxfer]
      refine (hok.fresh ?_).1
      rw [hsettled] at h0
      exact (Bool.or_eq_false_iff.mp h0).1
    · change 0 < w.sync.wBufCurr
      rw [hcurr]
      rw [hsettled, Bool.or_eq_true, decide_eq_true_eq] at h0
      rcases h0 with h0 | h0
      · exact hok.settled h0
      · omega
    · intro hs
      obtain ⟨rec, hi, hrec⟩ := hc γ' htoks hs
      exact ⟨rec, hi, hrec.rec_le, hrec.taken, hrec.next_le, hrec.le_curr, hrec.high, hrec.blk,
        hrec.window, hrec.count⟩
  · have h0 : k = 0 := by omega
    rw [htoks, h0]
    simp [WView.caughtUp]

/-- `raiseSod` begins a transfer. -/
theorem ensures_raiseSod {start byte : ℕ} {Q : ℤ → Ipcbuf → Ghost C → Prop} (hok : WOk C γ v)
    (hmay : ∀ w : WView, C.Allowed p (.store (.sBuf (v.sync.wXfer % ipcbufXfers)) start) w →
      w.sync = v.sync → MayRaise C γ v start)
    (hbusy : C.tight → ¬ Quiet v.notes)
    (hnote : start ≠ v.sync.wBufCurr → ∀ l, C.wnote l v.notes)
    (h : ∀ γ' v', Raised γ v start byte γ' v' →
      Q 0 { d with xfer := v.sync.wXfer % ipcbufXfers, state := .writing } (.writer γ' v')) :
    C.outline.Ensures p (raiseSod g start byte) d (.writer γ v) Q := by
  rw [raiseSod, ensures_bind]
  refine ensures_mono (ensures_countUp (fun m t l => t = d ∧
    l = Ghost.writer γ { v with sodTaken := bump 1 v.sodTaken m }) ⟨rfl, by rw [bump_zero]⟩ ?_) ?_
  · rintro i hi d _ ⟨rfl, rfl⟩
    have hview : ({ v with sodTaken := bump 1 v.sodTaken i } : WView).takeSod i =
        { v with sodTaken := bump 1 v.sodTaken (i + 1) } := by
      simp only [WView.takeSod, bump_self, update_bump]
    exact ensures_takeSod (fun hw => hw.takeSod hbusy i) fun _ => ⟨rfl, by rw [hview]⟩
  rintro _ d _ ⟨rfl, rfl⟩
  rw [ensures_bind]
  refine ensures_markSod hok hmay fun hr => ?_
  rw [ensures_bind]
  exact ensures_catchUp hok hr hbusy hnote fun γ' v' hraised => h γ' v' hraised

/-- The minimum sub-block at which data may start, for a writer that clocks from `soclock` on. -/
def sodMinbuf (g : Geometry) (soclock next : ℕ) : ℕ :=
  if usub next soclock < g.nbufs then soclock else usub (next + 1) g.nbufs

theorem ensures_getSodMinbuf {Q : ℕ → Ipcbuf → Ghost C → Prop}
    (h : Q (sodMinbuf g d.soclockBuf v.sync.wBufNext) d (.writer γ v)) :
    C.outline.Ensures p (ipcbufGetSodMinbuf g) d (.writer γ v) Q := by
  simp only [ipcbufGetSodMinbuf, ensures_bind, ensures_get]
  refine ensures_load (a := v.sync.wBufNext) rfl rfl fun _ => ?_
  by_cases hlt : usub v.sync.wBufNext d.soclockBuf < g.nbufs
  · rw [sodMinbuf, if_pos hlt] at h
    rwa [if_pos hlt, ensures_pure]
  · rw [sodMinbuf, if_neg hlt] at h
    rw [if_neg hlt, ensures_bind]
    exact ensures_load (a := v.sync.wBufNext) rfl rfl fun _ => h

/-- `ipcbuf_enable_sod` accepts its arguments. -/
structure SodAccepted (g : Geometry) (v : WView) (d : Ipcbuf) (start byte : ℕ) : Prop where
  state : d.state = .writer ∨ d.state = .wchange
  le_next : start ≤ v.sync.wBufNext
  minbuf_le : sodMinbuf g d.soclockBuf v.sync.wBufNext ≤ start
  byte_le : byte ≤ g.bufsz

/-- `ipcbuf_enable_sod` either refuses its arguments or begins a transfer. -/
theorem ensures_enableSod {start byte : ℕ} {Q : ℤ → Ipcbuf → Ghost C → Prop} (hok : WOk C γ v)
    (hmay : SodAccepted g v d start byte → ∀ w : WView,
      C.Allowed p (.store (.sBuf (v.sync.wXfer % ipcbufXfers)) start) w → w.sync = v.sync →
      MayRaise C γ v start)
    (hbusy : C.tight → ¬ Quiet v.notes)
    (hnote : start ≠ v.sync.wBufCurr → ∀ l, C.wnote l v.notes)
    (hrefused : ¬ SodAccepted g v d start byte → Q (-1) d (.writer γ v))
    (h : SodAccepted g v d start byte → ∀ γ' v', Raised γ v start byte γ' v' →
      Q 0 { d with xfer := v.sync.wXfer % ipcbufXfers, state := .writing } (.writer γ' v')) :
    C.outline.Ensures p (ipcbufEnableSod g start byte) d (.writer γ v) Q := by
  simp only [ipcbufEnableSod, ensures_bind, ensures_get]
  by_cases hstate : d.state ≠ .writer ∧ d.state ≠ .wchange
  · rw [if_pos hstate, ensures_pure]
    exact hrefused fun ha => ha.state.elim hstate.1 hstate.2
  rw [if_neg hstate, ensures_bind]
  refine ensures_load (a := v.sync.wBufNext) rfl rfl fun _ => ?_
  by_cases hnext : start > v.sync.wBufNext
  · rw [if_pos hnext, ensures_pure]
    exact hrefused fun ha => absurd ha.le_next (by omega)
  rw [if_neg hnext, ensures_bind]
  refine ensures_getSodMinbuf ?_
  by_cases hmin : start < sodMinbuf g d.soclockBuf v.sync.wBufNext
  · rw [if_pos hmin, ensures_pure]
    exact hrefused fun ha => absurd ha.minbuf_le (by omega)
  rw [if_neg hmin]
  by_cases hbyte : byte > g.bufsz
  · rw [if_pos hbyte, ensures_pure]
    exact hrefused fun ha => absurd ha.byte_le (by omega)
  rw [if_neg hbyte]
  have hacc : SodAccepted g v d start byte :=
    ⟨by by_contra hne; exact hstate (not_or.mp hne), by omega, by omega, by omega⟩
  exact ensures_raiseSod hok (hmay hacc) hbusy hnote (h hacc)

end Raise

/-! ## Taking the next sub-block -/

section Write

variable {p : ℕ} {γ : C.Log} {v : WView} {d : Ipcbuf}

/-- What taking the next sub-block does to a view. -/
structure Taken (γ : C.Log) (v v' : WView) : Prop where
  ok : WOk C γ v'
  next : v'.sync.wBufNext = v.sync.wBufNext + 1
  curr : v'.sync.wBufCurr = v.sync.wBufCurr
  xfer : v'.sync.wXfer = v.sync.wXfer
  state : v'.sync.wState = v.sync.wState
  sBuf : v'.sync.sBuf = v.sync.sBuf
  sByte : v'.sync.sByte = v.sync.sByte
  eBuf : v'.sync.eBuf = v.sync.eBuf
  buffer : v'.buffer = v.buffer
  notes : v'.notes = v.notes

theorem WOk.taken (hok : WOk C γ v) {c k : ℕ → ℕ}
    (hre : Reclaims C γ ((v.reclaimed c k).store .wBufNext (v.sync.wBufNext + 1))) :
    Taken γ v ((v.reclaimed c k).store .wBufNext (v.sync.wBufNext + 1)) where
  ok := ⟨hok.sod, hok.eod, hok.posted, hok.xfer, hok.blk, hok.curr_le.trans (Nat.le_succ _),
    hok.closed, fun h => ⟨(hok.begun h).next, (hok.begun h).stale⟩, hok.fresh, hok.settled, hre⟩
  next := rfl
  curr := rfl
  xfer := rfl
  state := rfl
  sBuf := rfl
  sByte := rfl
  eBuf := rfl
  buffer := rfl
  notes := rfl

theorem WOk.inCall (hok : WOk C γ v) (hbusy : C.tight → ¬ Quiet v.notes) : InCall C γ v :=
  fun ht => ⟨hok.posted, hbusy ht⟩

/-- `ipcbuf_get_next_write` takes the next sub-block; in state `WCHANGE` it first raises
start-of-data at the current one, and takes nothing when that is refused. -/
theorem ensures_getNextWrite {Q : Option ℕ → Ipcbuf → Ghost C → Prop} (hok : WOk C γ v)
    (hd : d.isWriter = true)
    (hbusy : C.tight → ¬ Quiet v.notes) (hroom : HasRoom C p v)
    (hmay : d.state = .wchange → SodAccepted g v d v.sync.wBufCurr 0 → ∀ w : WView,
      C.Allowed p (.store (.sBuf (v.sync.wXfer % ipcbufXfers)) v.sync.wBufCurr) w →
      w.sync = v.sync → MayRaise C γ v v.sync.wBufCurr)
    (hrefused : d.state = .wchange → ¬ SodAccepted g v d v.sync.wBufCurr 0 →
      Q none d (.writer γ v))
    (hraised : d.state = .wchange → SodAccepted g v d v.sync.wBufCurr 0 → ∀ γ' v₁ v',
      Raised γ v v.sync.wBufCurr 0 γ' v₁ → Taken γ' v₁ v' →
      Q (some (v.sync.wBufNext % g.nbufs))
        { d with xfer := v.sync.wXfer % ipcbufXfers, state := .writing } (.writer γ' v'))
    (h : d.state ≠ .wchange → ∀ v', Taken γ v v' →
      Q (some (v.sync.wBufNext % g.nbufs)) d (.writer γ v')) :
    C.outline.Ensures p (ipcbufGetNextWrite g) d (.writer γ v) Q := by
  simp only [ipcbufGetNextWrite, ensures_bind, ensures_get]
  rw [if_neg (by simp [hd])]
  by_cases hstate : d.state = .wchange
  · rw [if_pos hstate, ensures_bind]
    refine ensures_load (a := v.sync.wBufCurr) rfl rfl fun _ => ?_
    rw [ensures_bind]
    refine ensures_enableSod hok (hmay hstate) hbusy (fun hne => absurd rfl hne) (fun hacc => ?_)
      fun hacc γ' v₁ hr => ?_
    · rw [if_pos (by decide), ensures_pure]
      exact hrefused hstate hacc
    · rw [if_neg (by decide)]
      have hroom' : HasRoom C p v₁ := fun hs w hal hw => by
        rw [hr.next, hr.curr] at *
        exact hroom hs w hal (hw.trans rfl)
      refine ensures_takeNextWrite hr.ok.reclaims
        (hr.ok.inCall fun ht => by rw [hr.notes]; exact hbusy ht) hroom' fun c k hre => ?_
      have := hraised hstate hacc γ' v₁ _ hr (hr.ok.taken hre)
      rwa [← hr.next] at this
  · rw [if_neg hstate]
    exact ensures_takeNextWrite hok.reclaims (hok.inCall hbusy) hroom fun c k hre =>
      h hstate _ (hok.taken hre)

/-! ## Marking a sub-block filled -/

/-- The writer's view once the arrays say where the transfer ends. -/
def WView.ended (g : Geometry) (v : WView) (nbytes : ℕ) : WView :=
  { v with
    sync := { v.sync with
      wXfer := v.sync.wXfer + 1
      wState := 0
      eBuf := Function.update v.sync.eBuf (v.sync.wXfer % ipcbufXfers) v.sync.wBufCurr
      eByte := Function.update v.sync.eByte (v.sync.wXfer % ipcbufXfers) nbytes
      eod := Function.update v.sync.eod (v.sync.wXfer % ipcbufXfers) 1 }
    eodTaken := bump 1 v.eodTaken g.nReaders }

/-- In transfer `y`, which is in progress, what the arrays say of its sub-blocks so far is kept when
`e_buf` is pointed to one behind them, by any store of `e_byte`, and then when the flag is set. -/
theorem WInv.store_end {x : Var} {a y curr : ℕ} {b : Bool}
    (h : WInv C γ v) (hxfer : nextXfer γ.toks = y) (hblk : ∀ t ∈ γ.toks, t.blk < curr)
    (heod : ∀ i < g.nReaders, v.eodTaken i = y + 1)
    (hx : (x = .eBuf (y % ipcbufXfers) ∧ a = curr ∧ b = false) ∨
      (x = .eByte (y % ipcbufXfers) ∧ b = false) ∨
      (x = .eod (y % ipcbufXfers) ∧ a ≠ 0 ∧ b = true ∧ v.sync.eBuf (y % ipcbufXfers) = curr ∧
        (γ.settled = false → y = 0))) :
    WInv C (γ.settle b) (v.store x a) := by
  refine h.store_array (by rcases hx with ⟨rfl, -⟩ | ⟨rfl, -⟩ | ⟨rfl, -⟩ <;> rfl)
    (fun i hi t ht hle => ?_) fun i hi t ht hle => ?_
  · have hstart := h.start i hi t ht hle
    rcases hx with ⟨rfl, -⟩ | ⟨rfl, -⟩ | ⟨rfl, -⟩ <;> exact hstart
  have hstop := h.stop i hi t ht hle
  have hlt := hblk t ht
  have hxle := γ.xfer_le_nextXfer ht
  rw [hxfer] at hxle
  by_cases hmod : t.xfer % ipcbufXfers = y % ipcbufXfers
  · -- a sub-block of the transfer in progress
    have hcur : t.xfer = y := by
      rw [heod i hi] at hle
      exact eq_of_mod_eq_of_lt hmod hxle (by omega)
    have hne : t.eod = false := by
      by_contra hte
      have := γ.xfer_lt_of_eod ht (by simpa using hte)
      omega
    simp only [Tok.EndAt, hne, Bool.false_eq_true, if_false, hcur] at hstop ⊢
    rcases hx with ⟨rfl, rfl, rfl⟩ | ⟨rfl, rfl⟩ | ⟨rfl, -, rfl, heBuf, -⟩
    · rw [Bool.or_false]
      cases hset : γ.settled
      · simpa [hset, Ipcsync.store] using hstop
      · simp only [Ipcsync.store, Function.update_self, if_true]
        omega
    · rw [Bool.or_false]
      exact hstop
    · simp only [Bool.or_true, if_true, Ipcsync.store, heBuf]
      omega
  · -- a sub-block of another transfer
    rcases hx with ⟨rfl, rfl, rfl⟩ | ⟨rfl, rfl⟩ | ⟨rfl, -, rfl, -, hfresh⟩
    · simpa [Tok.EndAt, Ipcsync.store, hmod] using hstop
    · simpa [Tok.EndAt, Ipcsync.store, hmod] using hstop
    · cases hset : γ.settled with
      | false =>
        have hy := hfresh hset
        have hx0 : t.xfer = 0 := by omega
        exact absurd (by rw [hy, hx0]) hmod
      | true => simpa [Tok.EndAt, Ipcsync.store, hmod, hset] using hstop

/-- What marking the end of a transfer does to a view, up to the post of its last sub-block. -/
structure EndMarked (γ : C.Log) (v : WView) (nbytes : ℕ) (f : WView) : Prop where
  curr : f.sync.wBufCurr = v.sync.wBufCurr
  next : f.sync.wBufNext = if nbytes = 0 then v.sync.wBufNext + 1 else v.sync.wBufNext
  xfer : f.sync.wXfer = v.sync.wXfer + 1
  state : f.sync.wState = 0
  sBuf : f.sync.sBuf = v.sync.sBuf
  sByte : f.sync.sByte = v.sync.sByte
  eBuf : f.sync.eBuf =
    Function.update v.sync.eBuf (v.sync.wXfer % ipcbufXfers) v.sync.wBufCurr
  eByte : f.sync.eByte (v.sync.wXfer % ipcbufXfers) = nbytes
  eod : f.sync.eod (v.sync.wXfer % ipcbufXfers) ≠ 0
  sodTaken : f.sodTaken = v.sodTaken
  eodTaken : ∀ i < g.nReaders, f.eodTaken i = v.sync.wXfer + 1
  fullPosted : f.fullPosted = v.fullPosted
  buffer : f.buffer = v.buffer
  notes : f.notes = v.notes
  reclaims : Reclaims C (γ.settle true) f

/-- `markEod` says in the arrays where the transfer ends. -/
theorem ensures_markEod {nbytes : ℕ} {Q : Unit → Ipcbuf → Ghost C → Prop} (hok : WOk C γ v)
    (hd : d.xfer = v.sync.wXfer % ipcbufXfers) (hbusy : C.tight → ¬ Quiet v.notes)
    (hroom : nbytes = 0 → HasRoom C p v)
    (hopen : ∀ w : WView,
      C.Allowed p (.store (.eBuf (v.sync.wXfer % ipcbufXfers)) v.sync.wBufCurr) w →
      w.sync = v.sync → v.sync.wState ≠ 0)
    (h : v.sync.wState ≠ 0 → ∀ f, EndMarked γ v nbytes f →
      Q () { d with xfer := (v.sync.wXfer + 1) % ipcbufXfers, state := .writer }
        (.writer (γ.settle true) f)) :
    C.outline.Ensures p (markEod g nbytes) d (.writer γ v) Q := by
  rw [markEod, ensures_bind]
  refine ensures_mono (ensures_countUp (fun m t l => t = d ∧
    l = Ghost.writer γ { v with eodTaken := bump 1 v.eodTaken m }) ⟨rfl, by rw [bump_zero]⟩ ?_) ?_
  · rintro i hi d _ ⟨rfl, rfl⟩
    have hview : ({ v with eodTaken := bump 1 v.eodTaken i } : WView).takeEod i =
        { v with eodTaken := bump 1 v.eodTaken (i + 1) } := by
      simp only [WView.takeEod, bump_self, update_bump]
    exact ensures_takeEod (fun hw => hw.takeEod hbusy i) fun _ => ⟨rfl, by rw [hview]⟩
  rintro _ d _ ⟨rfl, rfl⟩
  have heod : ∀ i < g.nReaders, bump 1 v.eodTaken g.nReaders i = v.sync.wXfer + 1 := fun i hi => by
    rw [bump_of_lt hi, hok.eod i hi]
  simp only [ensures_bind, ensures_get, ensures_modify]
  rw [hd]
  refine ensures_load (a := v.sync.wBufCurr) rfl rfl fun _ => ?_
  refine ensures_store rfl (fun hw _ => ?_) fun _ hal => ?_
  · have hinv := hw.store_end hok.xfer hok.blk heod (.inl ⟨rfl, rfl, rfl⟩)
    rwa [PubLog.settle_false] at hinv
  have hst : v.sync.wState ≠ 0 := hopen _ hal rfl
  refine ensures_store rfl (fun hw _ => ?_) fun _ _ => ?_
  · have hinv := hw.store_end (a := nbytes) hok.xfer hok.blk heod (.inr (.inl ⟨rfl, rfl⟩))
    rwa [PubLog.settle_false] at hinv
  refine ensures_store_publish rfl fun hw _ => ⟨γ.settle true, γ.le_settle true, ?_, ?_⟩
  · refine hw.store_end hok.xfer hok.blk heod (.inr (.inr ⟨rfl, one_ne_zero, rfl, ?_, fun h0 =>
      (hok.fresh h0).1⟩))
    simp [WView.store, Ipcsync.store]
  refine ensures_load (a := v.sync.wXfer) rfl rfl fun _ => ?_
  refine ensures_store rfl (fun hw _ => hw.store_cursor rfl hbusy fun _ => Nat.le_succ _)
    fun _ _ => ?_
  refine ensures_load (a := v.sync.wXfer + 1) rfl rfl fun _ => ?_
  refine ensures_store rfl (fun hw _ => hw.store_cursor rfl hbusy (by simp)) fun _ _ => ?_
  simp only [WView.store, Ipcsync.store]
  change C.outline.Ensures p _ _ (Ghost.writer (γ.settle true) (v.ended g nbytes)) _
  have hre : Reclaims C (γ.settle true) (v.ended g nbytes) := fun hs => by
    obtain ⟨rec, hi, hr⟩ := hok.reclaims hs
    exact ⟨rec, hi, hr.rec_le, hr.taken, hr.next_le, hr.le_curr, hr.high, hr.blk, hr.window,
      hr.count⟩
  by_cases h0 : nbytes = 0
  · rw [if_pos h0, ensures_bind, ipcbufGetNextWrite, ensures_bind, ensures_get, if_neg (by simp [Ipcbuf.isWriter]),
      if_neg (by simp)]
    refine ensures_takeNextWrite hre (fun ht => ⟨hok.posted, hbusy ht⟩) (hroom h0) fun c k hre' => ?_
    rw [ensures_pure]
    exact h hst _ ⟨rfl, by rw [if_pos h0]; rfl, rfl, rfl, rfl, rfl, rfl, Function.update_self ..,
      by simp [WView.store, WView.reclaimed, WView.ended, Ipcsync.store], rfl,
      heod, rfl, rfl, rfl, hre'⟩
  · rw [if_neg h0, ensures_pure]
    exact h hst _ ⟨rfl, by rw [if_neg h0]; rfl, rfl, rfl, rfl, rfl, rfl, Function.update_self ..,
      by simp [WView.ended], rfl, heod, rfl, rfl, rfl, hre⟩

/-- In a transfer that is in progress, sub-block `w_buf_curr` fits behind the log. -/
theorem WOk.fits (hok : WOk C γ v) (hb : Begun γ v) {t : Tok} (hx : t.xfer = v.sync.wXfer)
    (hblk : t.blk = v.sync.wBufCurr)
    (hsod : t.sod = decide (v.sync.sBuf (v.sync.wXfer % ipcbufXfers) = v.sync.wBufCurr)) :
    (γ.toks = [] → t.sod = true ∧ t.xfer = 0) ∧
      ∀ a ∈ γ.toks.getLast?, Tok.Follows C.strict a t := by
  rcases hb.next with ⟨hbetween, hs⟩ | ⟨hs, a, ha, hne, hblka⟩
  · refine ⟨fun hnil => ⟨by simp [hsod, hs], ?_⟩, fun a ha => ?_⟩
    · rw [hx, ← hok.xfer, hnil, nextXfer_nil]
    · have hax : nextXfer γ.toks = a.xfer + 1 := by
        rw [nextXfer, Option.mem_def.mp ha]
        simp [hbetween a ha]
      have hlt := hok.blk a (List.mem_of_getLast? ha)
      rw [Tok.Follows, if_pos (hbetween a ha)]
      exact ⟨by simp [hsod, hs], by rw [hx, ← hok.xfer, hax], fun _ => .inl (by omega)⟩
  · refine ⟨fun hnil => by simp [hnil] at ha, fun a' ha' => ?_⟩
    obtain rfl : a = a' := by simpa [ha] using ha'
    have hax : nextXfer γ.toks = a.xfer := by
      rw [nextXfer, ha]
      simp [hne]
    rw [Tok.Follows, if_neg (by simp [hne])]
    exact ⟨by simp [hsod, hs.ne], by rw [hx, ← hok.xfer, hax], by omega⟩

/-- What publishing the current sub-block up to byte `stop` does. -/
structure Filled (γ : C.Log) (v : WView) (stop : ℕ) (eod : Bool) (γ' : C.Log) (v' : WView) :
    Prop where
  ok : WOk C γ' v'
  le : γ ≤ γ'
  toks : γ'.toks = γ.toks ++ [v.newTok g stop eod]
  curr : v'.sync.wBufCurr = v.sync.wBufCurr + 1
  next : v'.sync.wBufNext = if stop = 0 then v.sync.wBufNext + 1 else v.sync.wBufNext
  xfer : v'.sync.wXfer = if eod then v.sync.wXfer + 1 else v.sync.wXfer
  state : v'.sync.wState = if eod then 0 else v.sync.wState
  sBuf : v'.sync.sBuf = v.sync.sBuf
  sByte : v'.sync.sByte = v.sync.sByte
  eBuf : v'.sync.eBuf = if eod then
    Function.update v.sync.eBuf (v.sync.wXfer % ipcbufXfers) v.sync.wBufCurr else v.sync.eBuf
  buffer : v'.buffer = v.buffer
  notes : v'.notes = v.notes

/-- Within a transfer, a sub-block is published whole. -/
theorem ensures_publish_whole {Q : ℤ → Ipcbuf → Ghost C → Prop} (hok : WOk C γ v)
    (hst : v.sync.wState ≠ 0) (hbusy : C.tight → ¬ Quiet v.notes) (hcurr : HasCurrent C p v)
    (hnote : C.wnote γ.toks v.notes → C.wnote (γ.toks ++ [v.newTok g g.bufsz false]) v.notes)
    (h : ∀ γ' v', Filled γ v g.bufsz false γ' v' → Q 0 d (.writer γ' v')) :
    C.outline.Ensures p (publish g) d (.writer γ v) Q := by
  have hb := hok.begun hst
  have hsle : v.sync.sBuf (v.sync.wXfer % ipcbufXfers) ≤ v.sync.wBufCurr := by
    rcases hb.next with ⟨-, h⟩ | ⟨h, -⟩ <;> omega
  have hpost : v.postXfer = v.sync.wXfer := if_neg hst
  obtain ⟨heod, hend⟩ : (v.tok g v.sync.wXfer v.sync.wBufCurr).eod = false ∧
      (v.tok g v.sync.wXfer v.sync.wBufCurr).EndAt γ.settled v.sync := by
    refine WView.tok_endAt_of_not_eod ?_
    have hstale := hb.stale
    cases hset : γ.settled
    · simpa [hset] using hstale
    · simp only [hset, if_true] at hstale ⊢
      omega
  have htok : v.tok g v.sync.wXfer v.sync.wBufCurr = v.newTok g g.bufsz false := by
    have hstop := (v.tok_wellFormed (g := g) v.sync.wXfer v.sync.wBufCurr).stop heod
    simp only [WView.tok, Ipcsync.describe] at heod hstop
    simp only [WView.tok, WView.newTok, Ipcsync.describe, hstop, heod]
  obtain ⟨hfirst, hfollows⟩ := hok.fits hb (t := v.tok g v.sync.wXfer v.sync.wBufCurr) rfl rfl rfl
  set γ' := γ.push _ hfirst hfollows (v.tok_wellFormed _ _) with hγ'
  have hnext : nextXfer γ'.toks = v.sync.wXfer := by
    change nextXfer (γ.toks ++ [_]) = v.sync.wXfer
    rw [nextXfer_concat, if_neg (by simp [heod])]
    rfl
  refine ensures_publish (δ := γ') hok.reclaims (hok.inCall hbusy) hok.posted
    (by rw [hpost]; rfl) rfl (by rwa [hpost]) hnext.le ?_ hcurr fun hlt hre => h γ' _ ⟨?_, γ.le_push, ?_, rfl,
      ?_, rfl, rfl, rfl, rfl, rfl, rfl, rfl⟩
  · change _ → C.wnote (γ.toks ++ [v.tok g v.sync.wXfer v.sync.wBufCurr]) v.notes
    rwa [htok]
  · have hlast : γ'.toks.getLast? = some (v.tok g v.sync.wXfer v.sync.wBufCurr) := by
      simp [hγ', PubLog.push]
    refine ⟨hok.sod, hok.eod, fun i hi => ?_, ?_, fun t ht => ?_, hlt, fun h0 => absurd h0 hst,
      fun _ => ⟨.inr ⟨Nat.lt_succ_of_le hsle, _, hlast, heod, rfl⟩, hb.stale⟩, fun h0 =>
        ⟨(hok.fresh h0).1, fun h0 => absurd h0 hst⟩, fun _ => Nat.succ_pos _, hre⟩
    · change bump 1 v.fullPosted g.nReaders i = _
      rw [bump_of_lt hi, hok.posted i hi]
      simp [hγ', PubLog.push]
    · exact hnext
    · change t.blk < v.sync.wBufCurr + 1
      rcases List.mem_append.mp ht with ht | ht
      · exact (hok.blk t ht).trans (Nat.lt_succ_self _)
      · rw [List.mem_singleton.mp ht]
        exact Nat.lt_succ_self _
  · rw [← htok]
    rfl
  · rw [if_neg g.bufsz_pos.ne']
    rfl

/-- The last sub-block of a transfer is published behind `markEod`. -/
theorem ensures_publish_last {nbytes : ℕ} {f : WView} {Q : ℤ → Ipcbuf → Ghost C → Prop}
    (hok : WOk C γ v) (hst : v.sync.wState ≠ 0) (hbusy : C.tight → ¬ Quiet v.notes)
    (hcurr : nbytes ≠ 0 → HasCurrent C p v)
    (hnote : C.wnote γ.toks v.notes → C.wnote (γ.toks ++ [v.newTok g nbytes true]) v.notes)
    (hf : EndMarked γ v nbytes f)
    (h : ∀ γ' v', Filled γ v nbytes true γ' v' → Q 0 d (.writer γ' v')) :
    C.outline.Ensures p (publish g) d (.writer (γ.settle true) f) Q := by
  have hb := hok.begun hst
  have hpost : f.postXfer = v.sync.wXfer := by
    rw [WView.postXfer, if_pos hf.state, hf.xfer, Nat.add_sub_cancel]
  obtain ⟨heod, hend⟩ : (f.tok g v.sync.wXfer v.sync.wBufCurr).eod = true ∧
      (f.tok g v.sync.wXfer v.sync.wBufCurr).EndAt true f.sync :=
    WView.tok_endAt_of_eod hf.eod (by rw [hf.eBuf, Function.update_self])
  have htok : f.tok g v.sync.wXfer v.sync.wBufCurr = v.newTok g nbytes true := by
    simp [WView.tok, WView.newTok, Ipcsync.describe, hf.eod, hf.eBuf, hf.eByte, hf.sBuf, hf.sByte,
      hf.buffer]
  obtain ⟨hfirst, hfollows⟩ := hok.fits hb (t := f.tok g v.sync.wXfer v.sync.wBufCurr) rfl rfl
    (by simp [WView.tok, hf.sBuf])
  set γ' := (γ.settle true).push (f.tok g v.sync.wXfer v.sync.wBufCurr) hfirst hfollows
    (f.tok_wellFormed _ _) with hγ'
  have hset : (γ.settle true).settled = true := by simp [PubLog.settle]
  have hcurr' : HasCurrent C p f := by
    by_cases h0 : nbytes = 0
    · have hlt : f.sync.wBufCurr < f.sync.wBufNext := by
        rw [hf.curr, hf.next, if_pos h0]
        exact Nat.lt_succ_of_le hok.curr_le
      exact ⟨fun _ => hlt, fun _ _ _ _ => hlt⟩
    · have hn : f.sync.wBufNext = v.sync.wBufNext := by rw [hf.next, if_neg h0]
      rw [HasCurrent, hf.curr, hn]
      exact hcurr h0
  have hnext : nextXfer γ'.toks = f.sync.wXfer := by
    change nextXfer (γ.toks ++ [_]) = f.sync.wXfer
    rw [nextXfer_concat, if_pos heod, hf.xfer]
    rfl
  refine ensures_publish (δ := γ') hf.reclaims
    (fun ht => ⟨fun i hi => by rw [hf.fullPosted]; exact hok.posted i hi,
      by rw [hf.notes]; exact hbusy ht⟩)
    (fun i hi => by rw [hf.fullPosted]; exact hok.posted i hi)
    (by rw [hpost, hf.curr]; rfl) rfl (by rwa [hpost, hf.curr, hset]) hnext.le ?_ hcurr' fun hlt hre =>
      h γ' _ ⟨?_, (γ.le_settle true).trans (γ.settle true).le_push, ?_, ?_, hf.next, hf.xfer, hf.state,
        hf.sBuf, hf.sByte, hf.eBuf, hf.buffer, hf.notes⟩
  · change C.wnote γ.toks f.notes → C.wnote (γ.toks ++ [f.tok g v.sync.wXfer v.sync.wBufCurr]) f.notes
    rwa [htok, hf.notes]
  · refine ⟨fun i hi => ?_, fun i hi => ?_, fun i hi => ?_, ?_, fun t ht => ?_, hlt, fun _ => ?_,
      fun h0 => absurd hf.state h0, fun h0 => ?_, fun _ => Nat.succ_pos _, hre⟩
    · change f.sodTaken i = f.sync.wXfer + if f.sync.wState = 0 then 0 else 1
      rw [hf.sodTaken, hok.sod i hi, if_neg hst, hf.xfer, if_pos hf.state]
    · exact (hf.eodTaken i hi).trans hf.xfer.symm
    · change bump 1 f.fullPosted g.nReaders i = _
      rw [bump_of_lt hi, hf.fullPosted, hok.posted i hi]
      simp [hγ', PubLog.push]
    · exact hnext
    · change t.blk < f.sync.wBufCurr + 1
      rw [hf.curr]
      rcases List.mem_append.mp ht with ht | ht
      · exact (hok.blk t ht).trans (Nat.lt_succ_self _)
      · rw [List.mem_singleton.mp ht]
        exact Nat.lt_succ_self _
    · change Between (γ.toks ++ [_])
      rw [between_concat]
      exact heod
    · exact absurd (hset.symm.trans h0) (by decide)
  · rw [← htok]
    rfl
  · change f.sync.wBufCurr + 1 = _
    rw [hf.curr]

/-- `ipcbuf_mark_filled` clocks the current sub-block in state `WRITER`, ends the transfer with it in
state `WCHANGE` or when it is not full, and publishes it whole otherwise. -/
theorem ensures_markFilled {nbytes : ℕ} {Q : ℤ → Ipcbuf → Ghost C → Prop} (hok : WOk C γ v)
    (hd : WPrivate v d) (hbusy : C.tight → ¬ Quiet v.notes)
    (hcurr : nbytes ≠ 0 ∨ d.state = .writer → HasCurrent C p v)
    (hroom : nbytes = 0 → HasRoom C p v)
    (hopen : d.state = .wchange → ∀ w : WView,
      C.Allowed p (.store (.eBuf (v.sync.wXfer % ipcbufXfers)) v.sync.wBufCurr) w →
      w.sync = v.sync → v.sync.wState ≠ 0)
    (hnoteWhole : d.state = .writing → g.bufsz ≤ nbytes →
      C.wnote γ.toks v.notes → C.wnote (γ.toks ++ [v.newTok g g.bufsz false]) v.notes)
    (hnoteLast : d.state = .wchange ∨ d.state = .writing ∧ nbytes < g.bufsz →
      C.wnote γ.toks v.notes → C.wnote (γ.toks ++ [v.newTok g nbytes true]) v.notes)
    (hclock : d.state = .writer → v.sync.wBufCurr < v.sync.wBufNext →
      WOk C γ (v.store .wBufCurr (v.sync.wBufCurr + 1)) →
      Q 0 d (.writer γ (v.store .wBufCurr (v.sync.wBufCurr + 1))))
    (hwhole : d.state = .writing → g.bufsz ≤ nbytes → ∀ γ' v', Filled γ v g.bufsz false γ' v' →
      Q 0 d (.writer γ' v'))
    (hlast : (d.state = .wchange ∨ d.state = .writing ∧ nbytes < g.bufsz) →
      ∀ γ' v', Filled γ v nbytes true γ' v' →
      Q 0 { d with xfer := (v.sync.wXfer + 1) % ipcbufXfers, state := .writer }
        (.writer γ' v')) :
    C.outline.Ensures p (ipcbufMarkFilled g nbytes) d (.writer γ v) Q := by
  rw [ipcbufMarkFilled, ensures_bind, ensures_get, if_neg (by simp [hd.isWriter])]
  by_cases hw : d.state = .writer
  · have hcl : v.sync.wState = 0 := by
      rcases hd.state with h | ⟨-, h⟩ | ⟨h, -⟩
      · simp [hw] at h
      · exact h
      · simp [hw] at h
    rw [if_pos hw, ensures_bind]
    refine ensures_load (a := v.sync.wBufCurr) rfl rfl fun _ => ?_
    rw [ensures_bind]
    refine ensures_store rfl (fun hinv _ => hinv.store_cursor rfl hbusy (by simp)) fun _ hal => ?_
    have hlt := (hcurr (.inr hw)).2 _ hal rfl rfl
    refine hclock hw hlt ⟨hok.sod, hok.eod, hok.posted, hok.xfer,
      fun t ht => (hok.blk t ht).trans (Nat.lt_succ_self _), hlt, hok.closed,
      fun h => absurd hcl h, hok.fresh, fun _ => Nat.succ_pos _, fun hs => ?_⟩
    obtain ⟨rec, hi, hr⟩ := hok.reclaims hs
    exact ⟨rec, hi, hr.store_curr (Nat.le_succ _)⟩
  rw [if_neg hw]
  by_cases hlt : d.state = .wchange ∨ nbytes < g.bufsz
  · rw [if_pos hlt, ensures_bind]
    have hor : d.state = .wchange ∨ d.state = .writing ∧ nbytes < g.bufsz := by
      rcases hd.state with h | ⟨h, -⟩ | ⟨h, -⟩
      · exact .inl h
      · exact absurd h hw
      · exact .inr ⟨h, hlt.resolve_left (by simp [h])⟩
    refine ensures_markEod hok hd.xfer hbusy hroom (fun w hal hsync => ?_) fun hst f hf => ?_
    · rcases hd.state with h | ⟨h, -⟩ | ⟨-, h⟩
      · exact hopen h w hal hsync
      · exact absurd h hw
      · exact h
    · exact ensures_publish_last hok hst hbusy (fun h0 => hcurr (.inl h0))
        (hnoteLast hor) hf (hlast hor)
  · rw [if_neg hlt]
    have hwr : d.state = .writing ∧ v.sync.wState ≠ 0 := by
      rcases hd.state with h | ⟨h, -⟩ | h
      · exact absurd (.inl h) hlt
      · exact absurd h hw
      · exact h
    have hge : g.bufsz ≤ nbytes := Nat.le_of_not_lt fun h => hlt (.inr h)
    have := g.bufsz_pos
    exact ensures_publish_whole hok hwr.2 hbusy (hcurr (.inl (by omega)))
      (hnoteWhole hwr.1 hge) (hwhole hwr.1 hge)

/-! ## The lock and the copy -/

/-- `ipcbuf_lock_write` takes the writer's lock. -/
theorem ensures_lockWrite_routine {Q : ℤ → Ipcbuf → Ghost C → Prop} (hd : d.state = .viewer)
    (h : ∀ γ v, WInv C γ v → WOk C γ v → C.wrest v →
      Q 0 { d with
          state := if v.sync.wState = 0 then .wchange else .writing
          xfer := v.sync.wXfer % ipcbufXfers } (.writer γ v)) :
    C.outline.Ensures p ipcbufLockWrite d .idle Q := by
  rw [ipcbufLockWrite, ensures_bind, ensures_get, if_neg (by simp [hd])]
  simp only [ensures_bind, ensures_modify]
  refine ensures_lockWrite fun γ v hinv hok hrest => ?_
  refine ensures_test rfl fun _ => ?_
  refine ensures_load (a := v.sync.wXfer) rfl rfl fun _ => ?_
  rw [ensures_pure]
  simpa [Ipcsync.load] using h γ v hinv hok hrest

/-- The private data of a process that has just taken the lock. -/
theorem WPrivate.locked (v : WView) (d : Ipcbuf) : WPrivate v { d with
    state := if v.sync.wState = 0 then .wchange else .writing
    xfer := v.sync.wXfer % ipcbufXfers } := by
  refine ⟨rfl, ?_⟩
  by_cases h : v.sync.wState = 0 <;> simp [h]

/-- `ipcbuf_unlock_write` gives the writer's lock back. -/
theorem ensures_unlockWrite_routine {Q : ℤ → Ipcbuf → Ghost C → Prop} (hd : d.isWriter = true)
    (hok : WOk C γ v) (hrest : C.wrest v) (h : Q 0 { d with state := .viewer } .idle) :
    C.outline.Ensures p ipcbufUnlockWrite d (.writer γ v) Q := by
  rw [ipcbufUnlockWrite, ensures_bind, ensures_get, if_neg (by simp [hd])]
  simp only [ensures_bind, ensures_modify]
  exact ensures_unlockWrite hok hrest h

/-- The writer's view once bytes have been written to a sub-block. -/
def WView.fill (v : WView) (buf off : ℕ) : List UInt8 → WView
  | [] => v
  | b :: bytes => (v.writeByte buf off b).fill buf (off + 1) bytes

/-- The writer's view with other contents of the sub-blocks. -/
theorem WView.fill_eq (v : WView) (buf off : ℕ) (bytes : List UInt8) :
    v.fill buf off bytes = { v with buffer := (v.fill buf off bytes).buffer } := by
  induction bytes generalizing v off with
  | nil => rfl
  | cons b bytes ih => rw [fill, ih]; rfl

/-- What a sub-block holds once bytes have been written to it. -/
theorem WView.fill_apply (v : WView) (buf off : ℕ) (bytes : List UInt8) (c o : ℕ) :
    (v.fill buf off bytes).buffer c o =
      if c = buf ∧ off ≤ o ∧ o < off + bytes.length then bytes.getD (o - off) 0
      else v.buffer c o := by
  induction bytes generalizing v off with
  | nil => simp [fill]
  | cons b bytes ih =>
    rw [fill, ih]
    by_cases hc : c = buf
    · subst hc
      rcases Nat.lt_trichotomy o off with ho | ho | ho
      · simp [WView.writeByte, Nat.not_le.mpr ho, Nat.not_le.mpr (Nat.lt_succ_of_lt ho), ho.ne]
      · subst ho
        simp [WView.writeByte]
      · obtain ⟨k, rfl⟩ : ∃ k, o = off + 1 + k := ⟨o - (off + 1), by omega⟩
        have h₁ : off + 1 + k - (off + 1) = k := by omega
        have h₂ : off + 1 + k - off = k + 1 := by omega
        have h₃ : (off + 1 + k < off + 1 + bytes.length) ↔
            off + 1 + k < off + (b :: bytes).length := by simp; omega
        have h₄ : off ≤ off + 1 + k := by omega
        have h₅ : off + 1 + k ≠ off := by omega
        simp [WView.writeByte, h₁, h₂, h₃, h₄, h₅]
    · simp [WView.writeByte, hc]

/-- A write into a sub-block that the writer has taken leaves what has not been reclaimed. -/
theorem Reclaim.writeByte {rec hi b off : ℕ} {a : UInt8} (h : Reclaim C γ v rec hi)
    (hinv : WInv C γ v) (hb : b < hi) (hfree : ∀ t ∈ γ.toks, t.blk < b) :
    WInv C γ (v.writeByte (b % g.nbufs) off a) where
  start := hinv.start
  stop := hinv.stop
  bytes i hi t ht := by
    have ht' : t ∈ γ.toks.drop rec := by
      rw [← h.taken i hi]
      exact ht
    have hne := h.blk_mod_ne ht' hb (hfree t (List.mem_of_mem_drop ht'))
    have := hinv.bytes i hi t ht
    simpa [WView.writeByte, hne] using this
  posted := hinv.posted
  full := hinv.full
  accounted ht i hi := ⟨(hinv.accounted ht i hi).1, (hinv.accounted ht i hi).2,
    (hinv.accounted ht i hi).3⟩
  xfer := hinv.xfer
  note := hinv.note

/-- What `WOk` says does not depend on the contents of the sub-blocks. -/
theorem WOk.buffer (hok : WOk C γ v) (buffer : ℕ → ℕ → UInt8) :
    WOk C γ { v with buffer := buffer } :=
  ⟨hok.sod, hok.eod, hok.posted, hok.xfer, hok.blk, hok.curr_le, hok.closed,
    fun h => ⟨(hok.begun h).next, (hok.begun h).stale⟩, hok.fresh, hok.settled, fun hs => by
      obtain ⟨rec, hi, hr⟩ := hok.reclaims hs
      exact ⟨rec, hi, hr.rec_le, hr.taken, hr.next_le, hr.le_curr, hr.high, hr.blk, hr.window,
        hr.count⟩⟩

theorem WOk.note (hok : WOk C γ v) (e : Event) : WOk C γ (v.note e) :=
  ⟨hok.sod, hok.eod, hok.posted, hok.xfer, hok.blk, hok.curr_le, hok.closed,
    fun h => ⟨(hok.begun h).next, (hok.begun h).stale⟩, hok.fresh, hok.settled, fun hs => by
      obtain ⟨rec, hi, hr⟩ := hok.reclaims hs
      exact ⟨rec, hi, hr.rec_le, hr.taken, hr.next_le, hr.le_curr, hr.high, hr.blk, hr.window,
        hr.count⟩⟩

/-- Between two calls the accounts of a strict contract are even. -/
theorem WOk.balanced (hok : WOk C γ v) (hs : C.strict) {i : ℕ} (hi : i < g.nReaders) :
    v.sync.pending g + v.clrTaken i = v.fullPosted i := by
  obtain ⟨rec, hi', hr⟩ := hok.reclaims hs
  rw [hr.pending_add hi, hok.posted i hi]

/-- Between two calls a note may be made. -/
theorem WInv.note_of_ok (hw : WInv C γ v) (hok : WOk C γ v) {e : Event}
    (hnote : C.wnote γ.toks (v.notes ++ [e])) : WInv C γ (v.note e) where
  start := hw.start
  stop := hw.stop
  bytes := hw.bytes
  posted := hw.posted
  full := hw.full
  accounted ht i hi := by
    have hbal := hok.balanced (C.strict_of_tight ht) hi
    exact ⟨hbal.ge, hbal.le.trans (Nat.le_succ _), fun _ => ⟨hbal, hok.sod i hi, hok.eod i hi⟩⟩
  xfer := hw.xfer
  note := hnote

/-- `memcpy` into the sub-block that the writer has taken last. -/
theorem ensures_memcpyTo {τ : Type} {t : τ} {bytes : List UInt8} {off : ℕ}
    {Q : Unit → τ → Ghost C → Prop} (hs : C.strict) (hok : WOk C γ v)
    (hlt : v.sync.wBufCurr < v.sync.wBufNext)
    (h : Q () t (.writer γ (v.fill (v.sync.wBufCurr % g.nbufs) off bytes))) :
    C.outline.Ensures p (memcpyTo (v.sync.wBufCurr % g.nbufs) off bytes) t (.writer γ v) Q := by
  induction bytes generalizing off v with
  | nil =>
    rw [memcpyTo, ensures_pure]
    exact h
  | cons b bytes ih =>
    rw [memcpyTo, ensures_bind]
    refine ensures_writeByte (fun hw => ?_) ?_
    · obtain ⟨rec, hi, hr⟩ := hok.reclaims hs
      exact hr.writeByte hw (hlt.trans_le hr.next_le) hok.blk
    · exact ih (v := v.writeByte (v.sync.wBufCurr % g.nbufs) off b) (hok.buffer _) hlt h

end Write

end Psrdada
