import Psrdada.Session.Contract

/-! # The reader sessions

A session on a slot reads one transfer.  It is at a gap between two sub-blocks, it holds one and has
used some of its bytes, or it has been told of the end: `Gap`, `Holding`, `AtEnd`.  Each says that what
the session has got so far is what the log has of the transfer up to there. -/

namespace Psrdada

open Concurrency Outline

variable {g : Geometry} {p i x : ℕ}

/-- What every reader of slot `i` that reads transfer `x` knows. -/
structure InSlot (i : ℕ) (d : Ipcbuf) : Prop where
  lt : i < g.nReaders
  iread : d.iread = some i
  soclock : d.soclockBuf = 0

/-- The session on slot `i` holds no sub-block of transfer `x`, of which it has got `got`. -/
structure Gap (i x : ℕ) (γ : (sessionContract g).Log) (v : RView) (d : Ipcbuf)
    (got : List UInt8) : Prop where
  slot : InSlot (g := g) i d
  idle : RIdle (sessionContract g) γ v
  state : (d.state = .reader ∧ Between (γ.toks.take v.acq)) ∨
    (d.state = .reading ∧ d.xfer = v.rXfer % ipcbufXfers ∧ ¬ Between (γ.toks.take v.acq))
  xfer : v.rXfer = x
  got : streamOf (γ.toks.take v.acq) x = got

/-- The session on slot `i` holds sub-block `t` of transfer `x` and has used `n` bytes of it. -/
structure Holding (i x : ℕ) (γ : (sessionContract g).Log) (v : RView) (d : Ipcbuf) (t : Tok) (n : ℕ)
    (got : List UInt8) : Prop where
  slot : InSlot (g := g) i d
  held : RHeld (sessionContract g) γ v t
  state : d.state = .reading
  dxfer : d.xfer = t.xfer % ipcbufXfers
  start : t.start = 0
  xfer : t.xfer = x
  le : n ≤ t.stop
  got : streamOf (γ.toks.take v.cleared) x ++ t.bytes.take n = got

/-- The session on slot `i` has been told of the end of transfer `x`. -/
structure AtEnd (i x : ℕ) (γ : (sessionContract g).Log) (v : RView) (d : Ipcbuf)
    (got : List UInt8) : Prop where
  slot : InSlot (g := g) i d
  idle : RIdle (sessionContract g) γ v
  state : d.state = .rstop
  between : Between (γ.toks.take v.acq)
  xfer : v.rXfer = x + 1
  ended : Ended (γ.toks.take v.acq) x
  got : streamOf (γ.toks.take v.acq) x = got

section Read

variable {γ γ' : (sessionContract g).Log} {v : RView} {d : Ipcbuf} {t : Tok} {n : ℕ}
  {got : List UInt8}

theorem Gap.mono (h : Gap i x γ v d got) (hle : γ ≤ γ') : Gap i x γ' v d got := by
  have htake := take_of_prefix hle.1 h.idle.acq_le
  exact ⟨h.slot, h.idle.mono hle, htake ▸ h.state, h.xfer, htake ▸ h.got⟩

theorem AtEnd.mono (h : AtEnd i x γ v d got) (hle : γ ≤ γ') : AtEnd i x γ' v d got := by
  have htake := take_of_prefix hle.1 h.idle.acq_le
  exact ⟨h.slot, h.idle.mono hle, h.state, htake ▸ h.between, h.xfer, htake ▸ h.ended,
    htake ▸ h.got⟩

theorem Holding.cleared_lt (h : Holding i x γ v d t n got) : v.cleared < γ.toks.length :=
  (List.getElem?_eq_some_iff.mp h.held.tok).1

theorem Holding.mono (h : Holding i x γ v d t n got) (hle : γ ≤ γ') :
    Holding i x γ' v d t n got := by
  have htake := take_of_prefix hle.1 h.cleared_lt.le
  exact ⟨h.slot, h.held.mono hle, h.state, h.dxfer, h.start, h.xfer, h.le, htake ▸ h.got⟩

theorem Holding.take_succ (h : Holding i x γ v d t n got) :
    γ.toks.take (v.cleared + 1) = γ.toks.take v.cleared ++ [t] := by
  rw [List.take_add_one, h.held.tok]
  rfl

theorem Holding.length (h : Holding i x γ v d t n got) : t.bytes.length = t.stop := by
  rw [(γ.wellFormed t (List.mem_of_getElem? h.held.tok)).length, h.start, Nat.sub_zero]

/-! ## Notes -/

theorem Gap.note (h : Gap i x γ v d got) (e : Event) : Gap i x γ (v.note e) d got :=
  ⟨h.slot, h.idle.note e, h.state, h.xfer, h.got⟩

theorem Holding.note (h : Holding i x γ v d t n got) (e : Event) :
    Holding i x γ (v.note e) d t n got :=
  ⟨h.slot, h.held.note e, h.state, h.dxfer, h.start, h.xfer, h.le, h.got⟩

theorem AtEnd.note (h : AtEnd i x γ v d got) (e : Event) : AtEnd i x γ (v.note e) d got :=
  ⟨h.slot, h.idle.note e, h.state, h.between, h.xfer, h.ended, h.got⟩

/-! ## What has been got is in the log -/

theorem Gap.got_prefix (h : Gap i x γ v d got) : got <+: streamOf γ.toks x :=
  h.got ▸ streamOf_mono (List.take_prefix _ _) x

theorem Holding.got_prefix (h : Holding i x γ v d t n got) : got <+: streamOf γ.toks x := by
  refine List.IsPrefix.trans ?_ (streamOf_mono (List.take_prefix (v.cleared + 1) γ.toks) x)
  rw [h.take_succ, streamOf_concat, if_pos h.xfer, ← h.got]
  exact (List.prefix_append_right_inj _).mpr (List.take_prefix _ _)

theorem AtEnd.got_eq (h : AtEnd i x γ v d got) : got = streamOf γ.toks x := by
  rw [PubLog.streamOf_eq_of_ended (List.take_prefix v.acq γ.toks) h.ended]
  exact h.got.symm

/-! ## The calls -/

/-- `ipcbuf_get_next_read` takes the next sub-block. -/
theorem Gap.ensures_getNextRead (h : Gap i x γ v d got)
    {Q : Option (Ptr × ℕ) → Ipcbuf → Ghost (sessionContract g) → Prop}
    (hQ : ∀ γ' v' d' t, Holding i x γ' v' d' t 0 got → v'.notes = v.notes →
      Q (some (⟨t.blk % g.nbufs, 0⟩, t.stop)) d' (.reader i γ' v')) :
    (sessionContract g).outline.Ensures p (ipcbufGetNextRead g) d (.reader i γ v) Q := by
  have hreader : d.eod = false ∧ d.isReader = true := by
    rcases h.state with ⟨hs, -⟩ | ⟨hs, -, -⟩ <;> simp [Ipcbuf.eod, Ipcbuf.isReader, hs]
  rw [ipcbufGetNextRead, ipcbufGetNextReadWork, ensures_bind, ensures_get,
    if_neg (by simp [hreader.1]), if_pos hreader.2, ensures_bind]
  refine ensures_nextRead h.idle h.slot.iread h.state fun γ' v' t hle hheld hnoted hn hc hx => ?_
  obtain ⟨l, notes, htl, hpub⟩ := hnoted
  have hstart : t.start = 0 := hpub.start t htl
  rw [ensures_pure, hstart, usub, if_pos (Nat.zero_le _), Nat.sub_zero]
  refine hQ γ' v' _ t ⟨⟨h.slot.1, h.slot.2, h.slot.3⟩, hheld, rfl, rfl, hstart, ?_, Nat.zero_le _, ?_⟩
    hn
  · rw [← hheld.xfer, hx, h.xfer]
  · rw [hc, ← h.idle.acq, take_of_prefix hle.1 h.idle.acq_le, List.take_zero, List.append_nil]
    exact h.got

/-- `memcpy` of the next bytes of the sub-block that is held. -/
theorem Holding.ensures_memcpyFrom {τ : Type} {u : τ} (h : Holding i x γ v d t n got) {k : ℕ}
    (hk : n + k ≤ t.stop) {Q : List UInt8 → τ → Ghost (sessionContract g) → Prop}
    (hQ : ∀ γ' bytes, Holding i x γ' v d t (n + k) (got ++ bytes) → bytes.length = k →
      Q bytes u (.reader i γ' v)) :
    (sessionContract g).outline.Ensures p (memcpyFrom (t.blk % g.nbufs) n k) u
      (.reader i γ v) Q := by
  refine Psrdada.ensures_memcpyFrom h.held (by rw [h.start]; exact Nat.zero_le _) hk
    fun γ' hle => hQ γ' _ ?_ ?_
  · have h' := h.mono hle
    refine ⟨h'.slot, h'.held, h'.state, h'.dxfer, h'.start, h'.xfer, hk, ?_⟩
    rw [h.start, Nat.sub_zero, List.take_add, ← List.append_assoc, h'.got]
  · rw [h.start, Nat.sub_zero, List.length_take, List.length_drop, h.length]
    omega

/-- `ipcbuf_mark_cleared` gives the sub-block back once all of it has been used. -/
theorem Holding.ensures_markCleared (h : Holding i x γ v d t t.stop got)
    {Q : ℤ → Ipcbuf → Ghost (sessionContract g) → Prop}
    (hgap : ∀ γ' v' d', Gap i x γ' v' d' got → d'.state = .reading → v'.notes = v.notes →
      Q 0 d' (.reader i γ' v'))
    (hend : ∀ γ' v' d', AtEnd i x γ' v' d' got → v'.notes = v.notes →
      Q 0 d' (.reader i γ' v')) :
    (sessionContract g).outline.Ensures p ipcbufMarkCleared d (.reader i γ v) Q := by
  refine Psrdada.ensures_markCleared h.held h.slot.iread h.state h.dxfer
    fun γ' v' hle hidle hn hc hx => ?_
  have h' := h.mono hle
  have htake : γ'.toks.take v'.acq = γ'.toks.take v.cleared ++ [t] := by
    rw [hidle.acq, hc]
    exact h'.take_succ
  have hgot : streamOf (γ'.toks.take v'.acq) x = got := by
    rw [htake, streamOf_concat, if_pos h.xfer, ← h'.got, ← h.length, List.take_length]
  cases hte : t.eod with
  | true =>
    rw [hte, if_pos rfl] at hx
    refine hend γ' v' _ ⟨⟨h.slot.1, h.slot.2, h.slot.3⟩, hidle, rfl, ?_, ?_, ?_, hgot⟩ hn
    · rw [htake, between_concat]
      exact hte
    · rw [hx, h.xfer]
    · exact ⟨t, by simp [htake], hte, h.xfer⟩
  | false =>
    rw [hte, if_neg (by simp)] at hx
    refine hgap γ' v' _ ⟨⟨h.slot.1, h.slot.2, h.slot.3⟩, hidle, .inr ⟨rfl, rfl, ?_⟩, ?_, hgot⟩ rfl hn
    · rw [htake, between_concat, hte]
      simp
    · rw [hx, h.xfer]

/-! ## The notes of a session -/

/-- The session in progress on slot `i` reads transfer `x` and has noted `got`. -/
structure Reported (i x : ℕ) (v : RView) (got : List UInt8) : Prop where
  sessions : (readerSessions i v.notes).length = x + 1
  last : (readerSessions i v.notes)[x]? = some (got, false)

theorem Reported.congr {v' : RView} (h : Reported i x v got) (hn : v'.notes = v.notes) :
    Reported i x v' got :=
  ⟨hn ▸ h.sessions, hn ▸ h.last⟩

/-- The session in progress changes what it has got. -/
theorem Delivered.modify {l : List Tok} {sessions : List (List UInt8 × Bool)}
    (h : Delivered l sessions) {s : List UInt8 × Bool} {f : List UInt8 × Bool → List UInt8 × Bool}
    {k : ℕ} (hk : sessions[k]? = some s)
    (hs : (f s).1 <+: streamOf l k ∧ ((f s).2 = true → Ended l k ∧ (f s).1 = streamOf l k)) :
    Delivered l (sessions.modify k f) := by
  intro j u hj
  rw [List.getElem?_modify] at hj
  by_cases hjk : k = j
  · subst hjk
    rw [hk] at hj
    simp only [if_true, Option.map_eq_map, Option.map_some, Option.some.injEq] at hj
    rwa [← hj]
  · simp only [hjk, if_false, Option.map_eq_map, Option.map_id'] at hj
    exact h j u hj

/-- A note of bytes that have been read. -/
theorem ensures_dataNote {τ : Type} {u : τ} (h : Reported i x v got) {bytes : List UInt8}
    (hpre : got ++ bytes <+: streamOf γ.toks x)
    {Q : Unit → τ → Ghost (sessionContract g) → Prop}
    (hQ : ∀ γ', γ ≤ γ' → Reported i x (v.note (.rdata i bytes)) (got ++ bytes) →
      Q () u (.reader i γ' (v.note (.rdata i bytes)))) :
    (sessionContract g).outline.Ensures p (note (.rdata i bytes)) u (.reader i γ v) Q := by
  have hlt : x < (readerSessions i v.notes).length := by
    rw [h.sessions]
    exact Nat.lt_succ_self _
  have hsess : readerSessions i (v.notes ++ [.rdata i bytes]) =
      (readerSessions i v.notes).modify x fun s => (s.1 ++ bytes, s.2) := by
    rw [readerSessions_concat, readerSessionsStep, if_pos rfl, h.sessions, Nat.add_sub_cancel]
  refine ensures_rnote (by simp [Event.isReaders]) (fun _ _ _ _ _ _ _ => trivial)
    fun γ' hle hri => ⟨?_, hQ γ' hle ⟨?_, ?_⟩⟩
  · change Delivered γ'.toks (readerSessions i (v.notes ++ [.rdata i bytes]))
    rw [hsess]
    exact Delivered.modify hri.note h.last
      ⟨hpre.trans (streamOf_mono hle.1 x), by simp⟩
  · rw [RView.note, hsess, List.length_modify]
    exact h.sessions
  · rw [RView.note, hsess, List.getElem?_modify, h.last]
    simp

/-- A note of the end of data. -/
theorem ensures_endNote {τ : Type} {u : τ} (h : Reported i x v got) (hend : AtEnd i x γ v d got)
    {Q : Unit → τ → Ghost (sessionContract g) → Prop}
    (hQ : ∀ γ', γ ≤ γ' → (readerSessions i (v.note (.reod i)).notes).length = x + 1 →
      Q () u (.reader i γ' (v.note (.reod i)))) :
    (sessionContract g).outline.Ensures p (note (.reod i)) u (.reader i γ v) Q := by
  have hsess : readerSessions i (v.notes ++ [.reod i]) =
      (readerSessions i v.notes).modify x fun s => (s.1, true) := by
    rw [readerSessions_concat, readerSessionsStep, if_pos rfl, h.sessions, Nat.add_sub_cancel]
  refine ensures_rnote (by simp [Event.isReaders]) (fun _ _ _ _ _ _ _ => trivial)
    fun γ' hle hri => ⟨?_, hQ γ' hle ?_⟩
  · change Delivered γ'.toks (readerSessions i (v.notes ++ [.reod i]))
    rw [hsess]
    have hend' := hend.mono hle
    exact Delivered.modify hri.note h.last ⟨hend'.got_eq ▸ List.prefix_rfl, fun _ =>
      ⟨hend'.ended.mono (List.take_prefix _ _), hend'.got_eq⟩⟩
  · rw [RView.note, hsess, List.length_modify]
    exact h.sessions

end Read

end Psrdada
