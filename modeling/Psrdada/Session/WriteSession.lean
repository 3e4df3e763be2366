import Psrdada.Session.Write
import Mathlib.Data.List.GetD

/-! # Writing bytes and writing blocks

The calls that a writer session makes, on the private data of the byte interface.  `ipcio_write` and
the two calls for a block come down to the same three steps: take the next sub-block, fill it, hand
it over. -/

namespace Psrdada

open Concurrency Outline

variable {g : Geometry} {p : ℕ} {γ : (sessionContract g).Log} {v : WView} {ipc : Ipcio}
  {opened : Bool} {w : List UInt8}

/-- A session writes through the byte interface. -/
structure ByteWriting (γ : (sessionContract g).Log) (v : WView) (ipc : Ipcio) (opened : Bool)
    (w : List UInt8) : Prop where
  sending : Sending γ v ipc.buf opened ipc.bytes w
  mode : ipc.rdwrt = .W
  pending : ipc.sodPending = false
  single : ipc.bufsOpened = 0
  curbuf : ipc.curbuf = if opened then some ⟨v.sync.wBufCurr % g.nbufs, 0⟩ else none
  marked : opened = true → ipc.markedFilled = false
  max : ipc.bufsOpenedMax = g.nbufs - 1

/-- A session has no more to write: its transfer can be ended, or has ended. -/
structure Closable (γ : (sessionContract g).Log) (v : WView) (ipc : Ipcio) : Prop where
  mode : ipc.rdwrt = .W
  pending : ipc.sodPending = false
  single : ipc.bufsOpened = 0
  plain : ipc.buf.Plain
  transfer : (∃ opened w, Sending γ v ipc.buf opened ipc.bytes w ∧ ipc.buf.state = .writing ∧
      w = v.passed ∧ (opened = true → 0 < ipc.bytes)) ∨
    Finished γ v ipc.buf

/-- An `ipcio_t` that is not in use. -/
structure Ipcio.Ready (ipc : Ipcio) : Prop where
  state : ipc.buf.state = .viewer
  plain : ipc.buf.Plain
  pending : ipc.sodPending = false
  single : ipc.bufsOpened = 0

theorem Sending.passed_eq {γ' : (sessionContract g).Log} {v' : WView} {d d' : Ipcbuf}
    {opened' : Bool} {n n' : ℕ} {w' : List UInt8} (h : Sending γ v d opened n w)
    (h' : Sending γ' v' d' opened' n' w') (hn : v'.notes = v.notes) : v'.passed = v.passed := by
  have h₁ := h.sessions
  have h₂ := h'.sessions
  rw [hn] at h₂
  have hx : v'.sync.wXfer = v.sync.wXfer := by omega
  rw [WView.passed, WView.passed, hn, hx]

/-- No start-of-data has been requested. -/
theorem ensures_checkPendingSod_of_not {C : Contract g} {l : Ghost C}
    {Q : ℤ → Ipcio → Ghost C → Prop} (h : ipc.sodPending = false) (hQ : Q 0 ipc l) :
    C.outline.Ensures p (ipcioCheckPendingSod g) ipc l Q := by
  rw [ipcioCheckPendingSod, ensures_bind, ensures_get, if_pos (by simp [h])]
  exact hQ

namespace ByteWriting

/-- `flushFull` hands over the open sub-block if it is full. -/
theorem ensures_flushFull (h : ByteWriting γ v ipc opened w) (hbusy : ¬ Quiet v.notes)
    {Q : ℤ → Ipcio → Ghost (sessionContract g) → Prop}
    (hQ : ∀ γ' v' ipc' opened', ByteWriting γ' v' ipc' opened' w → ipc'.bytes < g.bufsz →
      v'.notes = v.notes → Q 0 ipc' (.writer γ' v')) :
    (sessionContract g).outline.Ensures p (flushFull g) ipc (.writer γ v) Q := by
  rw [flushFull, ensures_bind, ensures_get]
  by_cases hfull : ipc.bytes = g.bufsz
  · have hop : opened = true := by
      by_contra hop
      have := h.sending.closed (by simpa using hop)
      have := g.bufsz_pos
      omega
    subst hop
    have hsend := h.sending
    rw [hfull] at hsend
    rw [if_pos hfull]
    simp only [h.marked rfl, Bool.not_false, if_true, ensures_bind]
    rw [onBuf, ensures_focus, hfull]
    refine hsend.ensures_markFilled_full hbusy fun γ' v' hs hn => ?_
    rw [if_neg (by decide), ensures_bind]
    refine ensures_checkPendingSod_of_not h.pending ?_
    rw [if_neg (by decide), ensures_bind, ensures_modify, ensures_pure]
    exact hQ γ' v' _ false ⟨hs, h.mode, h.pending, h.single, rfl, by simp, h.max⟩ g.bufsz_pos hn
  · rw [if_neg hfull, ensures_pure]
    exact hQ γ v ipc opened h (lt_of_le_of_ne h.sending.le hfull) rfl

/-- `currentWrite` opens the next sub-block unless one is open. -/
theorem ensures_currentWrite (h : ByteWriting γ v ipc opened w) (hbusy : ¬ Quiet v.notes)
    (hlt : ipc.bytes < g.bufsz) {Q : Option Ptr → Ipcio → Ghost (sessionContract g) → Prop}
    (hQ : ∀ γ' v' ipc', ByteWriting γ' v' ipc' true w → ipc'.bytes < g.bufsz →
      v'.notes = v.notes → Q (some ⟨v'.sync.wBufCurr % g.nbufs, 0⟩) ipc' (.writer γ' v')) :
    (sessionContract g).outline.Ensures p (currentWrite g) ipc (.writer γ v) Q := by
  rw [currentWrite, ensures_bind, ensures_get]
  cases opened with
  | true =>
    have hcur : ipc.curbuf = some ⟨v.sync.wBufCurr % g.nbufs, 0⟩ := h.curbuf
    simp only [hcur]
    rw [ensures_pure]
    exact hQ γ v ipc h hlt rfl
  | false =>
    have hcur : ipc.curbuf = none := h.curbuf
    simp only [hcur]
    rw [ensures_bind, onBuf, ensures_focus]
    refine h.sending.ensures_getNextWrite hbusy fun γ' v' d' hs hc hn => ?_
    simp only [ensures_bind, ensures_modify]
    rw [ensures_pure, ← hc]
    exact hQ γ' v' _ ⟨hs, h.mode, h.pending, h.single, rfl, fun _ => rfl, h.max⟩ g.bufsz_pos hn

/-- `ipcio_write` writes all the bytes it is given. -/
theorem ensures_ipcioWrite (h : ByteWriting γ v ipc opened w) (hbusy : ¬ Quiet v.notes)
    {ptr : List UInt8} (hpassed : w ++ ptr = v.passed) (hpos : opened = true → 0 < ipc.bytes)
    {Q : ℤ → Ipcio → Ghost (sessionContract g) → Prop}
    (hQ : ∀ γ' v' ipc' opened', ByteWriting γ' v' ipc' opened' (w ++ ptr) →
      (opened' = true → 0 < ipc'.bytes) → v'.notes = v.notes → Q ptr.length ipc' (.writer γ' v')) :
    (sessionContract g).outline.Ensures p (ipcioWrite g ptr) ipc (.writer γ v) Q := by
  rw [ipcioWrite, ensures_bind, ensures_get, if_neg (by simp [h.mode])]
  -- what is left, behind what has been written, is what the session has passed
  refine ensures_iterate (fun rest ipc l => ∃ γ' v' opened' w', l = .writer γ' v' ∧
    ByteWriting γ' v' ipc opened' w' ∧ (opened' = true → 0 < ipc.bytes) ∧
    v'.notes = v.notes ∧ w' ++ rest = w ++ ptr)
    ⟨γ, v, opened, w, rfl, h, hpos, rfl, rfl⟩ ?_
  rintro rest ipc _ ⟨γ, v₁, opened, w', rfl, h₁, hpos, hn, hrest⟩
  have hbusy₁ : ¬ Quiet v₁.notes := by rwa [hn]
  have hpassed₁ : w' ++ rest = v₁.passed := by
    rw [hrest, hpassed, ← h₁.sending.passed_eq h.sending hn.symm]
  by_cases h0 : rest.length = 0
  · rw [if_pos h0, ensures_pure]
    obtain rfl := List.eq_nil_of_length_eq_zero h0
    rw [List.append_nil] at hrest
    exact hQ γ v₁ ipc opened (hrest ▸ h₁) hpos hn
  rw [if_neg h0, ensures_bind]
  refine h₁.ensures_flushFull hbusy₁ fun γ₂ v₂ ipc₂ opened₂ h₂ hlt₂ hn₂ => ?_
  rw [if_neg (by decide), ensures_bind]
  refine h₂.ensures_currentWrite (by rwa [hn₂]) hlt₂ fun γ₃ v₃ ipc₃ h₃ hlt₃ hn₃ => ?_
  simp only [ensures_bind, ensures_get, ensures_modify]
  rw [Nat.zero_add]
  have hspace : (rest.take (min (g.bufsz - ipc₃.bytes) rest.length)).length =
      min (g.bufsz - ipc₃.bytes) rest.length := by
    rw [List.length_take]
    omega
  have hpassed₃ : w' ++ rest = v₃.passed := by
    rw [hpassed₁, ← h₃.sending.passed_eq h₁.sending (hn₃.trans hn₂).symm]
  refine h₃.sending.ensures_memcpyTo (by rw [hspace]; omega) ?_ fun v₄ h₄ hs₄ hn₄ => ?_
  · rw [← hpassed₃]
    exact (List.prefix_append_right_inj w').mpr (List.take_prefix _ _)
  · rw [hspace] at h₄
    refine ⟨γ₃, v₄, true, _, rfl, ⟨h₄, h₃.mode, h₃.pending, h₃.single, ?_, h₃.marked, h₃.max⟩,
      fun _ => ?_, hn₄.trans (hn₃.trans (hn₂.trans hn)), ?_⟩
    · rw [hs₄]
      exact h₃.curbuf
    · change 0 < ipc₃.bytes + _
      omega
    · rw [List.append_assoc, List.take_append_drop]
      exact hrest

/-! ## Blocks -/

/-- `ipcio_open_block_write` opens the next sub-block. -/
theorem ensures_openBlockWrite (h : ByteWriting γ v ipc false w) (hbusy : ¬ Quiet v.notes)
    (hnbufs : 2 ≤ g.nbufs) {Q : Option Ptr → Ipcio → Ghost (sessionContract g) → Prop}
    (hQ : ∀ γ' v' ipc', Sending γ' v' ipc'.buf true 0 w → ipc'.rdwrt = .W →
      ipc'.sodPending = false → ipc'.bytes = 0 → ipc'.curbuf ≠ none → ipc'.markedFilled = false →
      ipc'.bufsOpened = 1 → ipc'.bufsOpenedMax = g.nbufs - 1 → v'.notes = v.notes →
      Q (some ⟨v'.sync.wBufCurr % g.nbufs, 0⟩) ipc' (.writer γ' v')) :
    (sessionContract g).outline.Ensures p (ipcioOpenBlockWrite g) ipc (.writer γ v) Q := by
  have h0 := h.sending.closed rfl
  have hcur : ipc.curbuf = none := h.curbuf
  have hmax := h.max
  rw [ipcioOpenBlockWrite, ensures_bind, ensures_get, if_neg (by simp [h0]),
    if_neg (by simp [hcur]), if_neg (by simp [h.mode]), if_neg (by rw [h.single]; omega),
    ensures_bind, onBuf, ensures_focus]
  have hsend := h.sending
  rw [h0] at hsend
  refine hsend.ensures_getNextWrite hbusy fun γ' v' d' hs hc hn => ?_
  simp only [ensures_bind, ensures_modify, h.single, if_true]
  rw [ensures_pure, ← hc]
  refine hQ γ' v' _ hs h.mode h.pending rfl ?_ rfl rfl hmax hn
  simp

end ByteWriting

/-- `ipcio_close_block_write` hands over the block that is open. -/
theorem ensures_closeBlockWrite {n : ℕ} (h : Sending γ v ipc.buf true n w)
    (hbusy : ¬ Quiet v.notes) (hmode : ipc.rdwrt = .W) (hpending : ipc.sodPending = false)
    (hbytes : ipc.bytes = 0) (hcur : ipc.curbuf ≠ none) (hmarked : ipc.markedFilled = false)
    (hopened : ipc.bufsOpened = 1) (hmax : ipc.bufsOpenedMax = g.nbufs - 1)
    (hnbufs : 2 ≤ g.nbufs) {Q : ℤ → Ipcio → Ghost (sessionContract g) → Prop}
    (hfull : n = g.bufsz → ∀ γ' v' ipc', ByteWriting γ' v' ipc' false w →
      ipc'.buf.state = .writing → v'.notes = v.notes → Q 0 ipc' (.writer γ' v'))
    (hall : n < g.bufsz → w = v.passed)
    (hlast : n < g.bufsz → ∀ γ' v' ipc', Closable γ' v' ipc' → v'.notes = v.notes →
      Q 0 ipc' (.writer γ' v')) :
    (sessionContract g).outline.Ensures p (ipcioCloseBlockWrite g n) ipc (.writer γ v) Q := by
  have hle := h.le
  rw [ipcioCloseBlockWrite, ensures_bind, ipcioUpdateBlockWrite, ensures_bind, ensures_get,
    if_neg (by simp [hbytes]), if_neg hcur, if_neg (by simp [hmode]),
    if_neg (by rw [hbytes]; omega)]
  simp only [ensures_bind, ensures_modify, ensures_pure]
  rw [if_neg (by decide), ensures_bind, ensures_get]
  rw [if_neg (by simp [hmarked]), ensures_bind, onBuf, ensures_focus, hbytes, Nat.zero_add]
  rcases Nat.lt_or_eq_of_le hle with hlt | heq
  · refine h.ensures_markFilled_last h.writing hbusy (hall hlt) (.inr ⟨rfl, hlt⟩)
      (fun _ => .inr hnbufs) fun γ' v' d' hf hs hn => ?_
    rw [if_neg (by decide), ensures_bind]
    refine ensures_checkPendingSod_of_not hpending ?_
    rw [if_neg (by decide), ensures_bind, ensures_modify, ensures_pure]
    refine hlast hlt γ' v' _ ?_ hn
    simp only [Ipcio.shiftOpened, hopened, Nat.sub_self, if_true]
    exact ⟨hmode, hpending, rfl, hs, .inr hf⟩
  · subst heq
    refine h.ensures_markFilled_full hbusy fun γ' v' hs hn => ?_
    rw [if_neg (by decide), ensures_bind]
    refine ensures_checkPendingSod_of_not hpending ?_
    rw [if_neg (by decide), ensures_bind, ensures_modify, ensures_pure]
    simp only [Ipcio.shiftOpened, hopened, Nat.sub_self, if_true]
    exact hfull rfl γ' v' _ ⟨hs, hmode, hpending, rfl, rfl, by simp, hmax⟩ h.writing hn

/-! ## Opening and closing -/

/-- `ipcio_open` in mode `'W'` takes the writer's lock. -/
theorem ensures_openWrite (h : ipc.Ready) {Q : ℤ → Ipcio → Ghost (sessionContract g) → Prop}
    (hQ : ∀ γ v ipc', WOk (sessionContract g) γ v → WriterRest v → WPrivate v ipc'.buf →
      ipc'.buf.state = .wchange → ipc'.buf.Plain → ipc'.rdwrt = .W →
      ipc'.sodPending = false → ipc'.bufsOpened = 0 → ipc'.curbuf = none → ipc'.bytes = 0 →
      ipc'.bufsOpenedMax = g.nbufs - 1 → Q 0 ipc' (.writer γ v)) :
    (sessionContract g).outline.Ensures p (ipcioOpen g .W) ipc .idle Q := by
  rw [ipcioOpen, if_neg (by decide)]
  simp only [ensures_bind, ensures_modify]
  rw [if_pos (by simp), ensures_bind, onBuf, ensures_focus]
  refine ensures_lockWrite_routine h.state fun γ v _ hok hrest => ?_
  have hpriv := WPrivate.locked v ipc.buf
  rw [if_pos hrest.state] at hpriv ⊢
  rw [if_neg (by decide), if_neg (by decide)]
  simp only [ensures_bind, ensures_pure, ipcioAlloc]
  rw [if_neg (by decide)]
  simp only [ensures_bind, ensures_modify, ensures_pure]
  exact hQ γ v _ hok hrest hpriv rfl ⟨h.plain.1, h.plain.2⟩ rfl h.pending h.single rfl rfl rfl

/-- `releaseWriter` points the writer behind the last transfer and gives the lock back. -/
theorem ensures_releaseWriter {d : Ipcbuf} (h : Finished γ v d) (hd : ipc.buf = d)
    (hbusy : ¬ Quiet v.notes)
    {Q : ℤ → Ipcio → Ghost (sessionContract g) → Prop}
    (hQ : Q 0 { ipc with buf := { ipc.buf with state := .viewer }, rdwrt := .closed } .idle) :
    (sessionContract g).outline.Ensures p releaseWriter ipc (.writer γ v) Q := by
  subst hd
  -- the lock is given back behind the last transfer
  have hunlock : ∀ v', WOk (sessionContract g) γ v' → WriterRest v' →
      (sessionContract g).outline.Ensures p (do
        let rc ← onBuf ipcbufUnlockWrite
        if rc < 0 then
          return -1
        else
          modify fun ipc => { ipc with rdwrt := .closed }
          return 0) ipc (.writer γ v') Q := fun v' hok hrest => by
    rw [ensures_bind, onBuf, ensures_focus]
    have hwriter : ipc.buf.isWriter = true := by
      rcases h.writer with hs | hs <;> simp [Ipcbuf.isWriter, hs]
    refine ensures_unlockWrite_routine hwriter hok hrest ?_
    rw [if_neg (by decide)]
    simp only [ensures_bind, ensures_modify, ensures_pure]
    exact hQ
  rw [releaseWriter, ensures_bind]
  refine ensures_load (a := v.sync.wXfer) rfl rfl fun _ => ?_
  rcases h.last with ⟨h0, hnext⟩ | ⟨hpos, hlast⟩
  · rw [if_neg (by omega)]
    exact hunlock v h.ok ⟨h.state, hnext, h.sessions, h.stale, .inl h0⟩
  · rw [if_pos hpos]
    simp only [ensures_bind]
    refine ensures_load (a := v.sync.wXfer) rfl rfl fun _ => ?_
    refine ensures_load rfl rfl fun _ => ?_
    refine ensures_store rfl (fun hw _ => hw.store_cursor rfl (fun _ => hbusy) (by simp))
      fun _ _ => ?_
    refine ensures_load rfl rfl fun _ => ?_
    refine ensures_store rfl (fun hw _ => hw.store_cursor rfl (fun _ => hbusy) (by simp))
      fun _ _ => ?_
    have hload : v.sync.load (.eBuf ((v.sync.wXfer - 1) % ipcbufXfers)) + 1 = v.sync.wBufCurr :=
      hlast
    rw [hload]
    have := hunlock ((v.store .wBufCurr v.sync.wBufCurr).store .wBufNext v.sync.wBufCurr)
      ⟨h.ok.sod, h.ok.eod, h.ok.posted, h.ok.xfer, h.ok.blk, le_rfl, h.ok.closed,
        fun hst => ⟨(h.ok.begun hst).next, (h.ok.begun hst).stale⟩, h.ok.fresh, h.ok.settled,
        fun hs => by
          obtain ⟨rec, hi, hr⟩ := h.ok.reclaims hs
          exact ⟨rec, hi, hr.rec_le, hr.taken, h.ok.curr_le.trans hr.next_le, hr.le_curr, False.elim,
            h.ok.blk, hr.window, hr.count⟩⟩
      ⟨h.state, rfl, h.sessions, h.stale, .inr ⟨hpos, hlast⟩⟩
    rw [ensures_bind] at this
    exact this

/-- No further block is open. -/
theorem ensures_closeOpened_of_none {C : Contract g} {l : Ghost C} (h : ipc.bufsOpened = 0)
    {Q : Unit → Ipcio → Ghost C → Prop} (hQ : Q () ipc l) :
    C.outline.Ensures p (closeOpened g) ipc l Q := by
  refine ensures_iterate (fun _ ipc' l' => ipc' = ipc ∧ l' = l) ⟨rfl, rfl⟩ ?_
  rintro _ _ _ ⟨rfl, rfl⟩
  rw [ensures_bind, ensures_get, if_neg (by omega), ensures_pure]
  exact hQ

/-- `ipcio_close` ends the transfer, if one is in progress, and gives the lock back. -/
theorem Closable.ensures_ipcioClose (h : Closable γ v ipc) (hbusy : ¬ Quiet v.notes)
    {Q : ℤ → Ipcio → Ghost (sessionContract g) → Prop}
    (hQ : ∀ ipc' : Ipcio, ipc'.Ready → Q 0 ipc' .idle) :
    (sessionContract g).outline.Ensures p (ipcioClose g) ipc (.writer γ v) Q := by
  rw [ipcioClose, ipcioStopClose, ensures_bind, ensures_get, if_pos h.mode]
  rcases h.transfer with ⟨opened, w, hs, hwr, hall, hpos⟩ | hf
  · have hwriting : ipc.buf.isWriting = true := by simp [Ipcbuf.isWriting, hwr]
    simp only [hwriting, if_true, ensures_bind]
    rw [endTransfer, ensures_bind]
    refine ensures_closeOpened_of_none h.single ?_
    rw [ensures_bind, onBuf, ensures_focus, ipcbufEnableEod, ensures_bind, ensures_get,
      if_neg (by simp [hwr])]
    simp only [ensures_bind, ensures_modify, ensures_pure]
    rw [if_neg (by decide), ensures_bind, ensures_get, ensures_bind, onBuf, ensures_focus]
    refine hs.ensures_markFilled_last hwr hbusy hall (.inl rfl) (fun ho => .inl (hpos ho))
      fun γ' v' d' hf hplain hn => ?_
    rw [if_neg (by decide), ensures_bind]
    refine ensures_checkPendingSod_of_not h.pending ?_
    rw [if_neg (by decide)]
    have hrelease : ∀ ipc' : Ipcio, ipc'.buf = d' → ipc'.sodPending = false →
        ipc'.bufsOpened = 0 → (sessionContract g).outline.Ensures p releaseWriter ipc'
          (.writer γ' v') Q := fun ipc' hbuf hp ho =>
      ensures_releaseWriter hf hbuf (by rwa [hn])
        (hQ _ ⟨rfl, ⟨by simp [hbuf, hplain.1], by simp [hbuf, hplain.2]⟩, hp, ho⟩)
    by_cases hfull : ipc.bytes = g.bufsz
    · simp only [ensures_bind, ensures_modify, ensures_get, ensures_pure, hfull, if_true]
      rw [if_neg (by decide)]
      exact hrelease _ rfl h.pending h.single
    · simp only [ensures_bind, ensures_modify, ensures_get, ensures_pure, if_neg hfull]
      rw [if_neg (by decide)]
      exact hrelease _ rfl h.pending h.single
  · have hwriting : ipc.buf.isWriting = false := by
      rcases hf.writer with hs | hs <;> simp [Ipcbuf.isWriting, hs]
    simp only [hwriting, Bool.false_eq_true, if_false, ensures_bind, ensures_pure]
    rw [if_neg (by decide)]
    simp only [ensures_bind, ensures_modify]
    rw [if_neg (by decide)]
    refine ensures_releaseWriter hf ?_ hbusy ?_
    · rfl
    · exact hQ _ ⟨rfl, ⟨h.plain.1, h.plain.2⟩, h.pending, h.single⟩

/-! ## Whole sessions -/

theorem Closable.ok (h : Closable γ v ipc) : WOk (sessionContract g) γ v := by
  rcases h.transfer with ⟨_, _, hs, -⟩ | hf
  · exact hs.ok
  · exact hf.ok

/-- A note of a writer between two of its calls. -/
theorem ensures_callNote {τ : Type} {t : τ} {e : Event} (he : e.isWriters = true)
    (hok : WOk (sessionContract g) γ v)
    (hnote : Published γ.toks (writerSessions v.notes) →
      Published γ.toks (writerSessions (v.notes ++ [e])))
    {Q : Unit → τ → Ghost (sessionContract g) → Prop} (hQ : Q () t (.writer γ (v.note e))) :
    (sessionContract g).outline.Ensures p (note e) t (.writer γ v) Q :=
  ensures_wnote he (fun _ _ _ _ => trivial) fun hw =>
    ⟨hw.note_of_ok hok (hnote hw.note), hQ⟩

/-- A new session has written nothing yet. -/
theorem Published.open {l : List Tok} {sessions : List (List UInt8)}
    (h : Published l sessions) : Published l (sessions ++ [[]]) := by
  have hget : ∀ k, (sessions ++ [[]]).getD k [] = sessions.getD k [] := fun k => by
    rcases Nat.lt_or_ge k sessions.length with hk | hk
    · rw [List.getD_append _ _ _ _ hk]
    · rw [List.getD_append_right _ _ _ _ hk, List.getD_eq_default _ _ hk]
      cases k - sessions.length <;> simp
  refine ⟨h.start, fun t ht => ?_, fun k => hget k ▸ h.stream k, fun k hk => hget k ▸ h.ended k hk⟩
  rw [List.length_append]
  exact (h.xfer t ht).trans_le (Nat.le_add_right _ _)

/-- The session in progress passes more bytes. -/
theorem Published.pass {l : List Tok} {sessions : List (List UInt8)} (h : Published l sessions)
    (bytes : List UInt8) (hopen : ¬ Ended l (sessions.length - 1)) :
    Published l (sessions.modify (sessions.length - 1) (· ++ bytes)) := by
  have hget : ∀ k, (sessions.modify (sessions.length - 1) (· ++ bytes)).getD k [] =
      if k = sessions.length - 1 ∧ k < sessions.length then sessions.getD k [] ++ bytes
      else sessions.getD k [] := fun k => by
    simp only [List.getD_eq_getElem?_getD, List.getElem?_modify]
    by_cases hk : k = sessions.length - 1
    · subst hk
      by_cases hlt : sessions.length - 1 < sessions.length
      · simp [hlt]
      · simp [hlt]
    · simp [Ne.symm hk, hk]
  refine ⟨h.start, by simpa using h.xfer, fun k => ?_, fun k hk => ?_⟩
  · rw [hget]
    split
    · exact (h.stream k).trans (List.prefix_append _ _)
    · exact h.stream k
  · rw [hget, if_neg, h.ended k hk]
    rintro ⟨rfl, -⟩
    exact hopen hk

namespace Sending

variable {d : Ipcbuf} {n : ℕ}

/-- A note that passes no bytes. -/
theorem note (h : Sending γ v d opened n w) {e : Event}
    (he : writerSessionsStep (writerSessions v.notes) e = writerSessions v.notes) :
    Sending γ (v.note e) d opened n w := by
  have hsess : writerSessions (v.note e).notes = writerSessions v.notes := by
    rw [WView.note, writerSessions_concat, he]
  refine ⟨h.ok.note e, ⟨h.priv.xfer, h.priv.state⟩, h.plain, hsess ▸ h.sessions, h.stale, h.sByte,
    h.state, h.next, h.le, h.closed, h.stream, ?_⟩
  rw [WView.passed, hsess]
  exact h.written

/-- A note that passes bytes. -/
theorem pass (h : Sending γ v d opened n w) (bytes : List UInt8) :
    Sending γ (v.note (.wdata bytes)) d opened n w ∧
      (v.note (.wdata bytes)).passed = v.passed ++ bytes := by
  have hlen := h.sessions
  have hsess : writerSessions (v.note (.wdata bytes)).notes =
      (writerSessions v.notes).modify v.sync.wXfer (· ++ bytes) := by
    rw [WView.note, writerSessions_concat, writerSessionsStep, hlen, Nat.add_sub_cancel]
  have hpassed : (v.note (.wdata bytes)).passed = v.passed ++ bytes := by
    change (writerSessions (v.note (.wdata bytes)).notes).getD v.sync.wXfer [] = _
    rw [hsess, WView.passed]
    have hlt : v.sync.wXfer < (writerSessions v.notes).length := by omega
    simp [hlt]
  refine ⟨⟨h.ok.note _, ⟨h.priv.xfer, h.priv.state⟩, h.plain, ?_, h.stale, h.sByte, h.state, h.next,
    h.le, h.closed, h.stream, ?_⟩, hpassed⟩
  · rw [hsess, List.length_modify]
    exact hlen
  · rw [hpassed]
    exact h.written.trans (List.prefix_append _ _)

end Sending

theorem Closable.note (h : Closable γ v ipc) {e : Event}
    (he : writerSessionsStep (writerSessions v.notes) e = writerSessions v.notes) :
    Closable γ (v.note e) ipc := by
  have hsess : writerSessions (v.note e).notes = writerSessions v.notes := by
    rw [WView.note, writerSessions_concat, he]
  refine ⟨h.mode, h.pending, h.single, h.plain, ?_⟩
  rcases h.transfer with ⟨opened, w, hs, hst, hall, hpos⟩ | hf
  · refine .inl ⟨opened, w, hs.note he, hst, ?_, hpos⟩
    rw [hall, WView.passed, WView.passed, hsess]
    rfl
  · exact .inr ⟨hf.ok.note e, hf.writer, hf.state, hsess ▸ hf.sessions, hf.stale, hf.last⟩

namespace ByteWriting

theorem note (h : ByteWriting γ v ipc opened w) {e : Event}
    (he : writerSessionsStep (writerSessions v.notes) e = writerSessions v.notes) :
    ByteWriting γ (v.note e) ipc opened w :=
  ⟨h.sending.note he, h.mode, h.pending, h.single, h.curbuf, h.marked, h.max⟩

theorem pass (h : ByteWriting γ v ipc opened w) (bytes : List UInt8) :
    ByteWriting γ (v.note (.wdata bytes)) ipc opened w :=
  ⟨(h.sending.pass bytes).1, h.mode, h.pending, h.single, h.curbuf, h.marked, h.max⟩

/-- Before a call the session notes the bytes that it passes. -/
theorem ensures_passNote (h : ByteWriting γ v ipc opened w) (bytes : List UInt8)
    {Q : Unit → Ipcio → Ghost (sessionContract g) → Prop}
    (hQ : Q () ipc (.writer γ (v.note (.wdata bytes)))) :
    (sessionContract g).outline.Ensures p (Psrdada.note (.wdata bytes)) ipc (.writer γ v) Q := by
  refine ensures_callNote rfl h.sending.ok (fun hp => ?_) hQ
  rw [writerSessions_concat, writerSessionsStep]
  refine hp.pass bytes ?_
  rw [h.sending.sessions, Nat.add_sub_cancel]
  exact h.sending.not_ended

/-- A sequence of `ipcio_write` calls. -/
theorem ensures_writeChunks {chunks : List (List UInt8)} (h : ByteWriting γ v ipc opened w)
    (hall : w = v.passed) (hpos : opened = true → 0 < ipc.bytes)
    {Q : Unit → Ipcio → Ghost (sessionContract g) → Prop}
    (hQ : ∀ γ' v' ipc' opened', ByteWriting γ' v' ipc' opened' (w ++ chunks.flatten) →
      w ++ chunks.flatten = v'.passed → (opened' = true → 0 < ipc'.bytes) →
      Q () ipc' (.writer γ' v')) :
    (sessionContract g).outline.Ensures p (writeChunks g chunks) ipc (.writer γ v) Q := by
  induction chunks generalizing γ v ipc opened w with
  | nil =>
    rw [writeChunks, ensures_pure]
    exact hQ γ v ipc opened (by simpa using h) (by simpa using hall) hpos
  | cons chunk chunks ih =>
    rw [writeChunks, ensures_bind]
    refine h.ensures_passNote chunk ?_
    rw [ensures_bind]
    have hpassed := (h.sending.pass chunk).2
    refine (h.pass chunk).ensures_ipcioWrite (not_quiet_of_call (.inr ⟨_, rfl⟩))
      (by rw [hpassed, hall]) hpos fun γ' v' ipc' opened' h' hpos' hn => ?_
    rw [ensures_bind]
    refine ensures_callNote rfl h'.sending.ok (by simp [writerSessionsStep]) ?_
    have hv' : w ++ chunk = v'.passed := by
      rw [h'.sending.passed_eq (h.sending.pass chunk).1 hn.symm |>.symm, hpassed, hall]
    refine ih (h'.note rfl) ?_ hpos' fun γ'' v'' ipc'' opened'' h'' hall'' hpos'' => ?_
    · rw [hv']
      simp [WView.passed, WView.note, writerSessionsStep]
    · rw [List.append_assoc] at h'' hall''
      exact hQ γ'' v'' ipc'' opened'' h'' hall'' hpos''

/-- A sequence of blocks. -/
theorem ensures_writeBlocks {blocks : List (List UInt8)} (h : ByteWriting γ v ipc false w)
    (hall : w = v.passed) (hnbufs : 2 ≤ g.nbufs) (hfit : BlocksFit g blocks)
    (hstate : blocks = [] → ipc.buf.state = .writing)
    {Q : Unit → Ipcio → Ghost (sessionContract g) → Prop}
    (hQ : ∀ γ' v' ipc', Closable γ' v' ipc' → Q () ipc' (.writer γ' v')) :
    (sessionContract g).outline.Ensures p (writeBlocks g blocks) ipc (.writer γ v) Q := by
  induction blocks generalizing γ v ipc w with
  | nil =>
    rw [writeBlocks, ensures_pure]
    exact hQ γ v ipc ⟨h.mode, h.pending, h.single, h.sending.plain,
      .inl ⟨false, w, h.sending, hstate rfl, hall, by simp⟩⟩
  | cons block blocks ih =>
    rw [writeBlocks, ensures_bind]
    refine h.ensures_passNote block ?_
    rw [ensures_bind]
    obtain ⟨hsend, hpassed⟩ := h.sending.pass block
    have hbusy : ¬ Quiet (v.note (.wdata block)).notes := not_quiet_of_call (.inr ⟨_, rfl⟩)
    refine (h.pass block).ensures_openBlockWrite hbusy hnbufs
      fun γ₁ v₁ ipc₁ h₁ hmode hpend hbytes hcur hmark hopen hmax hn₁ => ?_
    have hpassed₁ : v₁.passed = w ++ block := by
      rw [h₁.passed_eq hsend hn₁.symm |>.symm, hpassed, hall]
    have hlen : block.length ≤ g.bufsz := by
      cases blocks with
      | nil => exact hfit
      | cons => exact hfit.1.le
    simp only [ensures_bind]
    refine h₁.ensures_memcpyTo (by omega) (by rw [hpassed₁]) fun v₂ h₂ _ hn₂ => ?_
    rw [Nat.zero_add] at h₂
    have hpassed₂ : v₂.passed = w ++ block := by
      rw [h₂.passed_eq h₁ hn₂.symm |>.symm, hpassed₁]
    refine ensures_closeBlockWrite h₂ (by rwa [hn₂, hn₁]) hmode hpend hbytes hcur hmark hopen hmax
      hnbufs (fun _ γ₃ v₃ ipc₃ h₃ hst₃ hn₃ => ?_) (fun _ => hpassed₂.symm) fun hlt γ₃ v₃ ipc₃ h₃ _ => ?_
    · -- the block was full, and there may be more
      refine ensures_callNote rfl h₃.sending.ok (by simp [writerSessionsStep]) ?_
      have hpassed₃ : v₃.passed = w ++ block := by
        rw [h₃.sending.passed_eq h₂ hn₃.symm |>.symm, hpassed₂]
      refine ih (h₃.note rfl) ?_ ?_ (fun _ => hst₃)
      · rw [← hpassed₃]
        simp [WView.passed, WView.note, writerSessionsStep]
      · cases blocks with
        | nil => trivial
        | cons => exact hfit.2
    · -- only the last block is not full
      obtain rfl : blocks = [] := by
        cases blocks with
        | nil => rfl
        | cons => exact absurd hfit.1 hlt.ne
      refine ensures_callNote rfl h₃.ok (by simp [writerSessionsStep]) ?_
      rw [writeBlocks, ensures_pure]
      exact hQ γ₃ _ ipc₃ (h₃.note rfl)

end ByteWriting

/-- A writer session leaves the ring and its `ipcio_t` ready for the next. -/
theorem ensures_writeSession {writes : Bool} {body : IpcioM Unit} (h : ipc.Ready)
    (hbody : ∀ γ v ipc, (writes = true → ByteWriting γ v ipc false [] ∧ v.passed = []) →
      (writes = false → Closable γ v ipc) →
      (sessionContract g).outline.Ensures p body ipc (.writer γ v) fun _ ipc' l =>
        ∃ γ' v', l = .writer γ' v' ∧ Closable γ' v' ipc')
    {Q : Unit → Ipcio → Ghost (sessionContract g) → Prop}
    (hQ : ∀ ipc' : Ipcio, ipc'.Ready → Q () ipc' .idle) :
    (sessionContract g).outline.Ensures p (writeSession g writes body) ipc .idle Q := by
  rw [writeSession, ensures_bind]
  refine ensures_openWrite h fun γ v ipc₁ hok hrest hpriv hst hplain hmode hpend hsingle hcur hbytes
    hmax => ?_
  rw [if_neg (by decide)]
  -- what is left to do once the session has been noted
  have hrun : ∀ v', (writes = true → ByteWriting γ v' ipc₁ false [] ∧ v'.passed = []) →
      (writes = false → Closable γ v' ipc₁) →
      (sessionContract g).outline.Ensures p (do
        body
        note .wcall
        let _ ← ipcioClose g) ipc₁ (.writer γ v') Q := fun v' hw hnw => by
    rw [ensures_bind]
    refine ensures_mono (hbody γ v' ipc₁ hw hnw) ?_
    rintro _ ipc₂ _ ⟨γ₂, v₂, rfl, h₂⟩
    rw [ensures_bind]
    refine ensures_callNote rfl h₂.ok (by simp [writerSessionsStep]) ?_
    rw [ensures_bind]
    refine (h₂.note rfl).ensures_ipcioClose (not_quiet_of_call (.inl rfl)) fun ipc₃ h₃ => ?_
    rw [ensures_pure]
    exact hQ ipc₃ h₃
  cases writes with
  | false =>
    have hf : Finished γ v ipc₁.buf := ⟨hok, .inr hst, hrest.state, hrest.sessions, hrest.stale,
      hrest.last.imp (fun h0 => ⟨h0, hrest.next⟩) id⟩
    have := hrun v (by simp) fun _ => ⟨hmode, hpend, hsingle, hplain, .inr hf⟩
    simpa using this
  | true =>
    rw [if_pos rfl, ensures_bind]
    refine ensures_callNote rfl hok (fun hp => ?_) (hrun _ (fun _ => ?_) (by simp))
    · rw [writerSessions_concat, writerSessionsStep]
      exact hp.open
    · have hsess : writerSessions (v.note .wopen).notes = writerSessions v.notes ++ [[]] := by
        rw [WView.note, writerSessions_concat, writerSessionsStep]
      have hpassed : (v.note .wopen).passed = [] := by
        change (writerSessions (v.note .wopen).notes).getD v.sync.wXfer [] = []
        rw [hsess, ← hrest.sessions]
        simp
      refine ⟨⟨⟨hok.note _, ⟨hpriv.xfer, hpriv.state⟩, hplain, ?_, hrest.stale, fun hs =>
        absurd hrest.state hs, .inr ⟨rfl, hst, hrest.state⟩, hrest.next, ?_, fun _ => hbytes, ?_,
        List.nil_prefix⟩, hmode, hpend, hsingle, hcur, by simp, hmax⟩, hpassed⟩
      · rw [hsess, List.length_append, hrest.sessions]
        rfl
      · rw [hbytes]
        exact Nat.zero_le _
      · rw [hbytes]
        change streamOf γ.toks v.sync.wXfer ++ _ = _
        rw [PubLog.streamOf_eq_nil (hok.closed hrest.state) hok.xfer.le]
        simp [slice]

end Psrdada
