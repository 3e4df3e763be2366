import Psrdada.Session.Contract

/-! # The writer sessions

`Sending` is what the writer's part of a ring looks like while a session writes: what is in the log of
its transfer, and behind it what has been filled of the sub-block that is open, are the bytes written
so far.  Each routine that a writer session calls keeps it, and `ipcio_close` ends the transfer. -/

namespace Psrdada

open Concurrency Outline

variable {g : Geometry} {p : ℕ}

/-! ## A transfer in progress -/

/-- The bytes that the session in progress has passed to the library. -/
def WView.passed (v : WView) : List UInt8 := (writerSessions v.notes).getD v.sync.wXfer []

/-- The process has not clocked data, and has no reader slot. -/
structure Ipcbuf.Plain (d : Ipcbuf) : Prop where
  soclock : d.soclockBuf = 0
  iread : d.iread = none

/-- A session writes: `w` has been written, and of the sub-block that is open, if one is, `n` bytes
have been filled. -/
structure Sending (γ : (sessionContract g).Log) (v : WView) (d : Ipcbuf) (opened : Bool) (n : ℕ)
    (w : List UInt8) : Prop where
  ok : WOk (sessionContract g) γ v
  priv : WPrivate v d
  plain : d.Plain
  sessions : (writerSessions v.notes).length = v.sync.wXfer + 1
  stale : ∀ x, v.sync.eBuf x ≤ v.sync.wBufCurr - 1
  sByte : v.sync.wState ≠ 0 → v.sync.sByte (v.sync.wXfer % ipcbufXfers) = 0
  state : d.state = .writing ∨ opened = false ∧ d.state = .wchange ∧ v.sync.wState = 0
  next : v.sync.wBufNext = v.sync.wBufCurr + opened.toNat
  le : n ≤ g.bufsz
  closed : opened = false → n = 0
  stream : streamOf γ.toks v.sync.wXfer ++ slice (v.buffer (v.sync.wBufCurr % g.nbufs)) 0 n = w
  written : w <+: v.passed

/-- The transfer of a session has ended, or it has begun none. -/
structure Finished (γ : (sessionContract g).Log) (v : WView) (d : Ipcbuf) : Prop where
  ok : WOk (sessionContract g) γ v
  writer : d.state = .writer ∨ d.state = .wchange
  state : v.sync.wState = 0
  sessions : (writerSessions v.notes).length = v.sync.wXfer
  stale : ∀ x, v.sync.eBuf x ≤ v.sync.wBufCurr - 1
  last : (v.sync.wXfer = 0 ∧ v.sync.wBufNext = v.sync.wBufCurr) ∨
    (0 < v.sync.wXfer ∧
      v.sync.eBuf ((v.sync.wXfer - 1) % ipcbufXfers) + 1 = v.sync.wBufCurr)

/-- The log goes on with a sub-block whose bytes the session in progress has passed. -/
theorem Published.push {l : List Tok} {sessions : List (List UInt8)} (h : Published l sessions)
    {t : Tok} (hstart : t.start = 0) (hxfer : t.xfer < sessions.length) (hopen : ¬ Ended l t.xfer)
    (hbytes : streamOf l t.xfer ++ t.bytes <+: sessions.getD t.xfer [])
    (hend : t.eod = true → streamOf l t.xfer ++ t.bytes = sessions.getD t.xfer []) :
    Published (l ++ [t]) sessions where
  start u hu := by
    rcases List.mem_append.mp hu with hu | hu
    · exact h.start u hu
    · rwa [List.mem_singleton.mp hu]
  xfer u hu := by
    rcases List.mem_append.mp hu with hu | hu
    · exact h.xfer u hu
    · rwa [List.mem_singleton.mp hu]
  stream k := by
    rw [streamOf_concat]
    by_cases hk : t.xfer = k
    · subst hk
      rwa [if_pos rfl]
    · rw [if_neg hk, List.append_nil]
      exact h.stream k
  ended k := by
    rintro ⟨u, hu, hue, rfl⟩
    rw [streamOf_concat]
    rcases List.mem_append.mp hu with hu | hu
    · have hne : t.xfer ≠ u.xfer := fun heq => hopen ⟨u, hu, hue, heq.symm⟩
      rw [if_neg hne, List.append_nil]
      exact h.ended _ ⟨u, hu, hue, rfl⟩
    · obtain rfl := List.mem_singleton.mp hu
      rw [if_pos rfl]
      exact hend hue

namespace Sending

variable {γ : (sessionContract g).Log} {v : WView} {d : Ipcbuf} {opened : Bool} {n : ℕ}
  {w : List UInt8}

/-- The transfer in progress has not ended. -/
theorem not_ended (h : Sending γ v d opened n w) : ¬ Ended γ.toks v.sync.wXfer := by
  rintro ⟨t, ht, hte, htx⟩
  have := γ.xfer_lt_of_eod ht hte
  rw [h.ok.xfer] at this
  omega

theorem newTok_start (h : Sending γ v d opened n w) (hst : v.sync.wState ≠ 0) (stop : ℕ)
    (eod : Bool) : (v.newTok g stop eod).start = 0 := by
  simp only [WView.newTok, h.sByte hst, ite_self]

theorem newTok_bytes (h : Sending γ v d opened n w) (hst : v.sync.wState ≠ 0) (stop : ℕ)
    (eod : Bool) : (v.newTok g stop eod).bytes =
      slice (v.buffer (v.sync.wBufCurr % g.nbufs)) 0 stop := by
  simp only [WView.newTok, h.sByte hst, ite_self]

/-- What is published of the open sub-block is what has been filled of it. -/
theorem published (h : Sending γ v d opened n w) (hst : v.sync.wState ≠ 0)
    (hinv : Published γ.toks (writerSessions v.notes)) {eod : Bool}
    (hall : eod = true → w = v.passed) :
    Published (γ.toks ++ [v.newTok g n eod]) (writerSessions v.notes) := by
  have hstream : streamOf γ.toks (v.newTok g n eod).xfer ++ (v.newTok g n eod).bytes = w := by
    rw [h.newTok_bytes hst]
    exact h.stream
  refine hinv.push (h.newTok_start hst n eod) (by rw [h.sessions]; exact Nat.lt_succ_self _)
    h.not_ended ?_ fun he => ?_
  · rw [hstream]
    exact h.written
  · rw [hstream]
    exact hall he

/-- A call of the session takes the next sub-block, and raises start-of-data if it is the first. -/
theorem ensures_getNextWrite (h : Sending γ v d false n w) (hbusy : ¬ Quiet v.notes)
    {Q : Option ℕ → Ipcbuf → Ghost (sessionContract g) → Prop}
    (hQ : ∀ γ' v' d', Sending γ' v' d' true 0 w → v'.sync.wBufCurr = v.sync.wBufCurr →
      v'.notes = v.notes → Q (some (v.sync.wBufCurr % g.nbufs)) d' (.writer γ' v')) :
    (sessionContract g).outline.Ensures p (ipcbufGetNextWrite g) d (.writer γ v) Q := by
  have hnext : v.sync.wBufNext = v.sync.wBufCurr := h.next
  have hn : n = 0 := h.closed rfl
  subst hn
  have hstream : streamOf γ.toks v.sync.wXfer = w := by simpa [slice] using h.stream
  have hacc : d.state = .wchange → SodAccepted g v d v.sync.wBufCurr 0 := fun hs => by
    refine ⟨.inr hs, hnext.ge, ?_, Nat.zero_le _⟩
    have := g.nbufs_pos
    rw [sodMinbuf, h.plain.soclock, hnext]
    split
    · exact Nat.zero_le _
    · rename_i hge
      simp only [usub, Nat.zero_le, if_true, Nat.sub_zero] at hge
      rw [usub, if_pos (by omega)]
      omega
  refine Psrdada.ensures_getNextWrite h.ok h.priv.isWriter (fun _ => hbusy) (fun _ _ _ _ => ?_)
    (fun hs _ _ _ _ => ?_) (fun hs hr => absurd (hacc hs) hr) (fun hs _ γ' v₁ v' hr ht => ?_)
    fun hs v' ht => ?_
  · have := g.nbufs_pos
    omega
  · have hst : v.sync.wState = 0 := by
      rcases h.state with h | ⟨-, -, h⟩
      · simp [hs] at h
      · exact h
    have hstale := h.stale (v.sync.wXfer % ipcbufXfers)
    refine ⟨hst, le_rfl, by omega, by omega, fun _ t ht => ?_, fun _ rec hi hr => hr.le_curr,
      fun _ => rfl⟩
    exact (h.ok.blk t (List.mem_of_getLast? ht)).le
  · have hst : v'.sync.wState ≠ 0 := by
      rw [ht.state, hr.state]
      decide
    rw [hnext]
    refine hQ γ' v' _ ⟨ht.ok, ⟨?_, .inr (.inr ⟨rfl, hst⟩)⟩, ⟨h.plain.1, h.plain.2⟩, ?_, ?_,
      fun _ => ?_, .inl rfl,
      ?_, Nat.zero_le _, by simp, ?_, ?_⟩ (ht.curr.trans hr.curr) (ht.notes.trans hr.notes)
    · rw [ht.xfer, hr.xfer]
    · rw [ht.notes, hr.notes, ht.xfer, hr.xfer]
      exact h.sessions
    · rw [ht.curr, hr.curr, ht.eBuf, hr.eBuf]
      exact h.stale
    · rw [ht.sByte, ht.xfer, hr.xfer, hr.sByte]
    · rw [ht.next, ht.curr, hr.curr, hr.next, hnext]
      rfl
    · rw [hr.toks rfl, ht.xfer, hr.xfer, hstream]
      simp [slice]
    · rw [WView.passed, ht.notes, hr.notes, ht.xfer, hr.xfer]
      exact h.written
  · have hwr : d.state = .writing := by
      rcases h.state with h | ⟨-, h, -⟩
      · exact h
      · exact absurd h hs
    have hst : v.sync.wState ≠ 0 := by
      rcases h.priv.state with h | ⟨h, -⟩ | ⟨-, h⟩
      · simp [hwr] at h
      · simp [hwr] at h
      · exact h
    rw [hnext]
    refine hQ γ v' d ⟨ht.ok, ⟨?_, .inr (.inr ⟨hwr, ?_⟩)⟩, h.plain, ?_, ?_, fun _ => ?_, .inl hwr,
      ?_, Nat.zero_le _, by simp, ?_, ?_⟩ ht.curr ht.notes
    · rw [ht.xfer]
      exact h.priv.xfer
    · rwa [ht.state]
    · rw [ht.notes, ht.xfer]
      exact h.sessions
    · rw [ht.curr, ht.eBuf]
      exact h.stale
    · rw [ht.sByte, ht.xfer]
      exact h.sByte hst
    · rw [ht.next, ht.curr, hnext]
      rfl
    · rw [ht.xfer, hstream]
      simp [slice]
    · rw [WView.passed, ht.notes, ht.xfer]
      exact h.written

/-- What the session has raised, once it has a sub-block. -/
theorem raised (h : Sending γ v d opened n w) (hd : d.state = .writing) : v.sync.wState ≠ 0 := by
  rcases h.priv.state with hs | ⟨hs, -⟩ | ⟨-, hs⟩
  · simp [hd] at hs
  · simp [hd] at hs
  · exact hs

theorem writing (h : Sending γ v d true n w) : d.state = .writing := by
  rcases h.state with hs | ⟨hs, -⟩
  · exact hs
  · simp at hs

/-- A call of the session fills more of the open sub-block. -/
theorem ensures_memcpyTo {τ : Type} {t : τ} (h : Sending γ v d true n w) {bytes : List UInt8}
    (hle : n + bytes.length ≤ g.bufsz) (hpassed : w ++ bytes <+: v.passed)
    {Q : Unit → τ → Ghost (sessionContract g) → Prop}
    (hQ : ∀ v', Sending γ v' d true (n + bytes.length) (w ++ bytes) →
      v'.sync = v.sync → v'.notes = v.notes → Q () t (.writer γ v')) :
    (sessionContract g).outline.Ensures p (memcpyTo (v.sync.wBufCurr % g.nbufs) n bytes) t
      (.writer γ v) Q := by
  have hlt : v.sync.wBufCurr < v.sync.wBufNext := by
    rw [h.next]
    exact Nat.lt_succ_self _
  refine Psrdada.ensures_memcpyTo trivial h.ok hlt (hQ _ ?_ (by rw [WView.fill_eq])
    (by rw [WView.fill_eq]))
  have hslice : slice ((v.fill (v.sync.wBufCurr % g.nbufs) n bytes).buffer
      (v.sync.wBufCurr % g.nbufs)) 0 (n + bytes.length) =
      slice (v.buffer (v.sync.wBufCurr % g.nbufs)) 0 n ++ bytes := by
    refine List.ext_getElem (by simp) fun j hj₁ hj₂ => ?_
    have hj : j < n + bytes.length := by simpa using hj₁
    by_cases hjn : j < n
    · simp [slice, WView.fill_apply, hjn, Nat.not_le.mpr hjn]
    · have hjb : j - n < bytes.length := by omega
      simp [slice, WView.fill_apply, hj, Nat.le_of_not_lt hjn, List.getElem_append_right, hjb]
  rw [WView.fill_eq]
  refine ⟨h.ok.buffer _, ⟨h.priv.xfer, h.priv.state⟩, h.plain, h.sessions, h.stale, h.sByte,
    h.state, h.next, hle, by simp, ?_, hpassed⟩
  rw [hslice, ← List.append_assoc, h.stream]

/-- The sub-block in `w_buf_curr` is at hand. -/
theorem hasCurrent (h : Sending γ v d true n w) : HasCurrent (sessionContract g) p v := by
  have hlt : v.sync.wBufCurr < v.sync.wBufNext := by
    rw [h.next]
    exact Nat.lt_succ_self _
  exact ⟨fun _ => hlt, fun _ _ _ _ => hlt⟩

/-- A call of the session hands over a sub-block that is full. -/
theorem ensures_markFilled_full (h : Sending γ v d true g.bufsz w) (hbusy : ¬ Quiet v.notes)
    {Q : ℤ → Ipcbuf → Ghost (sessionContract g) → Prop}
    (hQ : ∀ γ' v', Sending γ' v' d false 0 w → v'.notes = v.notes → Q 0 d (.writer γ' v')) :
    (sessionContract g).outline.Ensures p (ipcbufMarkFilled g g.bufsz) d (.writer γ v) Q := by
  have hwr := h.writing
  have hst := h.raised hwr
  refine ensures_markFilled h.ok h.priv (fun _ => hbusy) (fun _ => h.hasCurrent)
    (fun h0 => absurd h0 g.bufsz_pos.ne') (fun hs => by simp [hwr] at hs)
    (fun _ _ hinv => h.published hst hinv (by simp)) (fun hs => ?_) (fun hs => by simp [hwr] at hs)
    (fun _ _ γ' v' hf => ?_) fun hs => ?_
  · rcases hs with hs | ⟨-, hlt⟩
    · simp [hwr] at hs
    · exact absurd hlt (lt_irrefl _)
  · have hxfer : v'.sync.wXfer = v.sync.wXfer := hf.xfer
    have heBuf : v'.sync.eBuf = v.sync.eBuf := hf.eBuf
    refine hQ γ' v' ⟨hf.ok, ⟨?_, .inr (.inr ⟨hwr, ?_⟩)⟩, h.plain, ?_, ?_, fun _ => ?_, .inl hwr, ?_,
      Nat.zero_le _, fun _ => rfl, ?_, ?_⟩ hf.notes
    · rw [hxfer]
      exact h.priv.xfer
    · rw [hf.state]
      exact hst
    · rw [hf.notes, hxfer]
      exact h.sessions
    · rw [heBuf, hf.curr]
      exact fun x => (h.stale x).trans (Nat.sub_le _ _)
    · rw [hf.sByte, hxfer]
      exact h.sByte hst
    · have hnext := hf.next
      rw [if_neg g.bufsz_pos.ne', h.next] at hnext
      rw [hnext, hf.curr]
      rfl
    · rw [hxfer, hf.toks, streamOf_concat, if_pos (by rfl), h.newTok_bytes hst]
      simpa [slice] using h.stream
    · rw [WView.passed, hf.notes, hxfer]
      exact h.written
  · rcases hs with hs | ⟨-, hlt⟩
    · simp [hwr] at hs
    · exact absurd hlt (lt_irrefl _)

/-- A call of the session ends the transfer with the open sub-block, or with an empty one. -/
theorem ensures_markFilled_last {d' : Ipcbuf} (h : Sending γ v d opened n w)
    (hwr : d.state = .writing) (hbusy : ¬ Quiet v.notes)
    (hall : w = v.passed) (hd : d' = { d with state := .wchange } ∨ d' = d ∧ n < g.bufsz)
    (hopened : opened = true → 0 < n ∨ 2 ≤ g.nbufs)
    {Q : ℤ → Ipcbuf → Ghost (sessionContract g) → Prop}
    (hQ : ∀ γ' v' d', Finished γ' v' d' → d'.Plain → v'.notes = v.notes →
      Q 0 d' (.writer γ' v')) :
    (sessionContract g).outline.Ensures p (ipcbufMarkFilled g n) d' (.writer γ v) Q := by
  have hst := h.raised hwr
  have hd' : d'.state = .wchange ∨ d'.state = .writing ∧ n < g.bufsz := by
    rcases hd with rfl | ⟨rfl, hn⟩
    · exact .inl rfl
    · exact .inr ⟨hwr, hn⟩
  have hxfer : d'.xfer = v.sync.wXfer % ipcbufXfers ∧ d'.Plain := by
    rcases hd with rfl | ⟨rfl, -⟩ <;> exact ⟨h.priv.xfer, h.plain.1, h.plain.2⟩
  have hne : d'.state ≠ .writer := by
    rcases hd' with hs | ⟨hs, -⟩ <;> simp [hs]
  have hpriv : WPrivate v d' := by
    refine ⟨hxfer.1, ?_⟩
    rcases hd' with hs | ⟨hs, -⟩
    · exact .inl hs
    · exact .inr (.inr ⟨hs, hst⟩)
  have hnbufs := g.nbufs_pos
  refine ensures_markFilled h.ok hpriv (fun _ => hbusy) (fun hs => ?_) (fun h0 _ _ _ _ => ?_)
    (fun _ _ _ _ => hst) (fun hs hge => ?_) (fun _ hinv => h.published hst hinv fun _ => hall)
    (fun hs => absurd hs hne) (fun hs hge => ?_) fun _ γ' v' hf => ?_
  · have hop : opened = true := by
      by_contra hop
      rcases hs with hs | hs
      · exact hs (h.closed (by simpa using hop))
      · exact hne hs
    subst hop
    exact h.hasCurrent
  · have hnext := h.next
    cases opened with
    | false => simp only [Bool.toNat_false] at hnext; omega
    | true =>
      have := hopened rfl
      simp only [Bool.toNat_true] at hnext
      omega
  · rcases hd' with hs' | ⟨-, hlt⟩
    · simp [hs] at hs'
    · omega
  · rcases hd' with hs' | ⟨-, hlt⟩
    · simp [hs] at hs'
    · omega
  · have hfx : v'.sync.wXfer = v.sync.wXfer + 1 := hf.xfer
    have hfe : v'.sync.eBuf =
      Function.update v.sync.eBuf (v.sync.wXfer % ipcbufXfers) v.sync.wBufCurr := hf.eBuf
    refine hQ γ' v' _ ⟨hf.ok, .inl rfl, hf.state, ?_, fun x => ?_, .inr ⟨?_, ?_⟩⟩
      ⟨hxfer.2.1, hxfer.2.2⟩ hf.notes
    · rw [hf.notes, hfx]
      exact h.sessions
    · rw [hfe, hf.curr]
      by_cases hx : x = v.sync.wXfer % ipcbufXfers
      · subst hx
        simp
      · rw [Function.update_of_ne hx]
        exact (h.stale x).trans (Nat.sub_le _ _)
    · rw [hfx]
      exact Nat.succ_pos _
    · rw [hfx, hfe, hf.curr, Nat.add_sub_cancel, Function.update_self]

end Sending

end Psrdada
