import Psrdada.Session.Read
import Psrdada.Session.WriteSession

/-! # Reading bytes and reading blocks

The calls that a reader session makes, on the private data of the byte interface, and the sessions
that read up to the end of data. -/

namespace Psrdada

open Concurrency Outline

variable {g : Geometry} {p i x : ℕ} {γ : (sessionContract g).Log} {v : RView} {ipc : Ipcio}
  {got : List UInt8}

/-- A session reads through the byte interface. -/
inductive ByteReading (i x : ℕ) (γ : (sessionContract g).Log) (v : RView) (ipc : Ipcio)
    (got : List UInt8) : Prop
  /-- No sub-block is open. -/
  | gap (curbuf : ipc.curbuf = none) (bytes : ipc.bytes = 0) (at_gap : Gap i x γ v ipc.buf got)
  /-- A sub-block is open and has not been used up. -/
  | holding (t : Tok) (curbuf : ipc.curbuf = some ⟨t.blk % g.nbufs, 0⟩)
    (curbufsz : ipc.curbufsz = t.stop) (held : Holding i x γ v ipc.buf t ipc.bytes got)
  /-- The end of data has been reached. -/
  | ended (curbuf : ipc.curbuf = none) (bytes : ipc.bytes = 0) (at_end : AtEnd i x γ v ipc.buf got)

/-- What the byte interface keeps besides while it reads. -/
structure Ipcio.Quiescent (ipc : Ipcio) : Prop where
  pending : ipc.sodPending = false
  single : ipc.bufsOpened = 0

/-- `finishBuffer` leaves the open sub-block once it has been used up. -/
theorem ensures_finishBuffer {u : Ipcio} {t : Tok} (hcur : u.curbuf = some ⟨t.blk % g.nbufs, 0⟩)
    (hsz : u.curbufsz = t.stop) (h : Holding i x γ v u.buf t u.bytes got)
    (hmode : u.rdwrt = .R) (hq : u.Quiescent)
    {Q : Option Bool → Ipcio → Ghost (sessionContract g) → Prop}
    (hQ : ∀ γ' v' ipc' left, ByteReading i x γ' v' ipc' got → v'.notes = v.notes →
      ipc'.rdwrt = .R → ipc'.Quiescent → Q (some left) ipc' (.reader i γ' v')) :
    (sessionContract g).outline.Ensures p finishBuffer u (.reader i γ v) Q := by
  rw [finishBuffer, ensures_bind, ensures_get]
  by_cases hfull : u.bytes = u.curbufsz
  · rw [if_pos hfull]
    rw [hfull, hsz] at h
    simp only [hmode, if_true, ensures_bind]
    rw [onBuf, ensures_focus]
    refine h.ensures_markCleared (fun γ' v' d' hgap _ hn => ?_) fun γ' v' d' hend hn => ?_
    · rw [if_neg (by decide)]
      simp only [ensures_bind, ensures_modify, ensures_pure]
      exact hQ γ' v' _ true (.gap rfl rfl hgap) hn hmode ⟨hq.1, hq.2⟩
    · rw [if_neg (by decide)]
      simp only [ensures_bind, ensures_modify, ensures_pure]
      exact hQ γ' v' _ true (.ended rfl rfl hend) hn hmode ⟨hq.1, hq.2⟩
  · rw [if_neg hfull, ensures_pure]
    exact hQ γ v u false (.holding t hcur hsz h) rfl hmode hq

/-- `copyOut` uses more of the open sub-block. -/
theorem ensures_copyOut {t : Tok} (hsz : ipc.curbufsz = t.stop)
    (h : Holding i x γ v ipc.buf t ipc.bytes got) {bytes : ℕ}
    {Q : List UInt8 → Ipcio → Ghost (sessionContract g) → Prop}
    (hQ : ∀ γ' data n, Holding i x γ' v ipc.buf t n (got ++ data) →
      Q data { ipc with bytes := n } (.reader i γ' v)) :
    (sessionContract g).outline.Ensures p (copyOut ⟨t.blk % g.nbufs, 0⟩ bytes) ipc
      (.reader i γ v) Q := by
  have hle := h.le
  simp only [copyOut, ensures_bind, ensures_get]
  rw [Nat.zero_add, hsz]
  refine h.ensures_memcpyFrom (by omega) fun γ' data h' _ => ?_
  rw [ensures_modify, ensures_pure]
  exact hQ γ' data _ h'

/-- `currentRead` opens the next sub-block unless one is open. -/
theorem ByteReading.ensures_currentRead (h : ByteReading i x γ v ipc got)
    (hrun : ipc.buf.eod = false) (hmode : ipc.rdwrt = .R) (hq : ipc.Quiescent)
    {Q : Option Ptr → Ipcio → Ghost (sessionContract g) → Prop}
    (hQ : ∀ γ' v' ipc' t, ipc'.curbuf = some ⟨t.blk % g.nbufs, 0⟩ → ipc'.curbufsz = t.stop →
      Holding i x γ' v' ipc'.buf t ipc'.bytes got → v'.notes = v.notes → ipc'.rdwrt = .R →
      ipc'.Quiescent → Q (some ⟨t.blk % g.nbufs, 0⟩) ipc' (.reader i γ' v')) :
    (sessionContract g).outline.Ensures p (currentRead g) ipc (.reader i γ v) Q := by
  rw [currentRead, ensures_bind, ensures_get]
  cases h with
  | gap curbuf bytes at_gap =>
    simp only [curbuf]
    rw [ensures_bind, onBuf, ensures_focus]
    refine at_gap.ensures_getNextRead fun γ' v' d' t hheld hn => ?_
    simp only [ensures_bind, ensures_modify, ensures_pure]
    exact hQ γ' v' _ t rfl rfl hheld hn hmode ⟨hq.1, hq.2⟩
  | holding t curbuf curbufsz held =>
    simp only [curbuf]
    rw [ensures_pure]
    exact hQ γ v ipc t curbuf curbufsz held rfl hmode hq
  | ended curbuf bytes at_end => simp [Ipcbuf.eod, at_end.state] at hrun

/-- `ipcio_read` reads the next bytes of the transfer. -/
theorem ByteReading.ensures_ipcioRead (h : ByteReading i x γ v ipc got) (hmode : ipc.rdwrt = .R)
    (hq : ipc.Quiescent) {bytes : ℕ}
    {Q : Option (List UInt8) → Ipcio → Ghost (sessionContract g) → Prop}
    (hQ : ∀ γ' v' ipc' data, ByteReading i x γ' v' ipc' (got ++ data) → v'.notes = v.notes →
      ipc'.rdwrt = .R → ipc'.Quiescent → Q (some data) ipc' (.reader i γ' v')) :
    (sessionContract g).outline.Ensures p (ipcioRead g bytes) ipc (.reader i γ v) Q := by
  rw [ipcioRead, ensures_bind, ensures_get, if_neg (by simp [hmode])]
  refine ensures_iterate (fun data ipc l => ∃ γ' v', l = .reader i γ' v' ∧
    ByteReading i x γ' v' ipc (got ++ data) ∧ v'.notes = v.notes ∧ ipc.rdwrt = .R ∧
    ipc.Quiescent) ⟨γ, v, rfl, by simpa using h, rfl, hmode, hq⟩ ?_
  rintro data ipc _ ⟨γ₁, v₁, rfl, h₁, hn₁, hmode₁, hq₁⟩
  rw [ensures_bind, ensures_get]
  by_cases heod : ipc.buf.eod = true
  · rw [if_pos heod, ensures_pure]
    exact hQ γ₁ v₁ ipc data h₁ hn₁ hmode₁ hq₁
  rw [if_neg heod, ensures_bind]
  refine h₁.ensures_currentRead (by simpa using heod) hmode₁ hq₁
    fun γ₂ v₂ ipc₂ t hcur hsz h₂ hn₂ hmode₂ hq₂ => ?_
  simp only [ensures_bind]
  refine ensures_copyOut hsz h₂ fun γ₃ data₃ n h₃ => ?_
  rw [List.append_assoc] at h₃
  refine ensures_finishBuffer (u := { ipc₂ with bytes := n }) hcur hsz h₃ hmode₂ ⟨hq₂.1, hq₂.2⟩
    fun γ₄ v₄ ipc₄ left h₄ hn₄ hmode₄ hq₄ => ?_
  have hn : v₄.notes = v.notes := hn₄.trans (hn₂.trans hn₁)
  cases left with
  | true =>
    exact ⟨γ₄, v₄, rfl, h₄, hn, hmode₄, hq₄⟩
  | false =>
    by_cases hdone : bytes - (data ++ data₃).length = 0
    · simp only [hdone, if_true]
      exact hQ γ₄ v₄ ipc₄ _ h₄ hn hmode₄ hq₄
    · simp only [hdone, if_false]
      exact ⟨γ₄, v₄, rfl, h₄, hn, hmode₄, hq₄⟩

theorem ByteReading.got_prefix (h : ByteReading i x γ v ipc got) : got <+: streamOf γ.toks x := by
  cases h with
  | gap _ _ at_gap => exact at_gap.got_prefix
  | holding _ _ _ held => exact held.got_prefix
  | ended _ _ at_end => exact at_end.got_eq ▸ List.prefix_rfl

/-! ## Whole sessions -/

/-- A session notes what it has read, and the end of data once it has been reached. -/
theorem ensures_noteRead {bytes : List UInt8} (h : Reported i x v got)
    (hpre : got ++ bytes <+: streamOf γ.toks x)
    {Q : Bool → Ipcio → Ghost (sessionContract g) → Prop}
    (hmore : ipc.buf.eod = false → ∀ γ', γ ≤ γ' →
      Reported i x (v.note (.rdata i bytes)) (got ++ bytes) →
      Q false ipc (.reader i γ' (v.note (.rdata i bytes))))
    (hend : ipc.buf.eod = true → AtEnd i x γ v ipc.buf (got ++ bytes) ∧
      ∀ γ' v', AtEnd i x γ' v' ipc.buf (got ++ bytes) →
        (readerSessions i v'.notes).length = x + 1 → Q true ipc (.reader i γ' v')) :
    (sessionContract g).outline.Ensures p (noteRead i bytes) ipc (.reader i γ v) Q := by
  rw [noteRead, ensures_bind]
  refine ensures_dataNote h hpre fun γ₁ h₁ hrep => ?_
  rw [ensures_bind, ensures_get]
  cases heod : ipc.buf.eod with
  | false =>
    rw [if_neg (by simp), ensures_pure]
    exact hmore heod γ₁ h₁ hrep
  | true =>
    obtain ⟨hat, hQ⟩ := hend heod
    rw [if_pos rfl, ensures_bind]
    have hat₁ := (hat.mono h₁).note (.rdata i bytes)
    refine ensures_endNote hrep hat₁ fun γ₂ h₂ hlen => ?_
    rw [ensures_pure]
    exact hQ γ₂ _ ((hat₁.mono h₂).note _) hlen

theorem ByteReading.mono {γ' : (sessionContract g).Log} (h : ByteReading i x γ v ipc got)
    (hle : γ ≤ γ') : ByteReading i x γ' v ipc got := by
  cases h with
  | gap curbuf bytes at_gap => exact .gap curbuf bytes (at_gap.mono hle)
  | holding t curbuf curbufsz held => exact .holding t curbuf curbufsz (held.mono hle)
  | ended curbuf bytes at_end => exact .ended curbuf bytes (at_end.mono hle)

theorem ByteReading.note (h : ByteReading i x γ v ipc got) (e : Event) :
    ByteReading i x γ (v.note e) ipc got := by
  cases h with
  | gap curbuf bytes at_gap => exact .gap curbuf bytes (at_gap.note e)
  | holding t curbuf curbufsz held => exact .holding t curbuf curbufsz (held.note e)
  | ended curbuf bytes at_end => exact .ended curbuf bytes (at_end.note e)

theorem ByteReading.at_end (h : ByteReading i x γ v ipc got) (heod : ipc.buf.eod = true) :
    AtEnd i x γ v ipc.buf got := by
  cases h with
  | gap _ _ at_gap =>
    rcases at_gap.state with ⟨hs, -⟩ | ⟨hs, -, -⟩ <;> simp [Ipcbuf.eod, hs] at heod
  | holding _ _ _ held => simp [Ipcbuf.eod, held.state] at heod
  | ended _ _ at_end => exact at_end

/-- The session on slot `i` has read transfer `x` up to the end of data and has noted so. -/
structure Completed (i x : ℕ) (γ : (sessionContract g).Log) (v : RView) (ipc : Ipcio) : Prop where
  at_end : ∃ got, AtEnd i x γ v ipc.buf got
  sessions : (readerSessions i v.notes).length = x + 1
  quiescent : ipc.Quiescent

/-- `ipcio_read` until end-of-data. -/
theorem ensures_readBytes {sizes : ℕ → ℕ} (h : ByteReading i x γ v ipc [])
    (hrep : Reported i x v []) (hmode : ipc.rdwrt = .R) (hq : ipc.Quiescent)
    {Q : Unit → Ipcio → Ghost (sessionContract g) → Prop}
    (hQ : ∀ γ' v' ipc', Completed i x γ' v' ipc' → ipc'.rdwrt = .R →
      Q () ipc' (.reader i γ' v')) :
    (sessionContract g).outline.Ensures p (readBytes g i sizes) ipc (.reader i γ v) Q := by
  refine ensures_iterate (fun _ ipc l => ∃ γ' v' got, l = .reader i γ' v' ∧
    ByteReading i x γ' v' ipc got ∧ Reported i x v' got ∧ ipc.rdwrt = .R ∧ ipc.Quiescent)
    ⟨γ, v, [], rfl, h, hrep, hmode, hq⟩ ?_
  rintro j ipc _ ⟨γ₁, v₁, got, rfl, h₁, hrep₁, hmode₁, hq₁⟩
  rw [ensures_bind]
  refine h₁.ensures_ipcioRead hmode₁ hq₁ fun γ₂ v₂ ipc₂ data h₂ hn₂ hmode₂ hq₂ => ?_
  simp only [ensures_bind]
  refine ensures_noteRead (hrep₁.congr hn₂) h₂.got_prefix (fun _ γ₃ h₃ hrep₃ => ?_)
    fun heod => ⟨h₂.at_end heod, fun γ₃ v₃ hat hlen => ?_⟩
  · exact ⟨γ₃, _, _, rfl, (h₂.mono h₃).note _, hrep₃, hmode₂, hq₂⟩
  · exact hQ γ₃ v₃ ipc₂ ⟨⟨_, hat⟩, hlen, hq₂⟩ hmode₂

/-- Whole sub-blocks until end-of-data, by any two calls that open and close the next sub-block.  `J`
is what the calls keep of the private data, and `K` what holds of it in between. -/
theorem ensures_readWhole {openNext : IpcioM (Option (Ptr × ℕ))} {close : ℕ → IpcioM ℤ}
    (J : Ipcio → Prop) (K : Tok → Ipcio → Prop)
    (hopen : ∀ γ v ipc got, Gap i x γ v ipc.buf got → J ipc →
      (sessionContract g).outline.Ensures p openNext ipc (.reader i γ v) fun r ipc' l =>
        ∃ γ' v' t, l = .reader i γ' v' ∧ r = some (⟨t.blk % g.nbufs, 0⟩, t.stop) ∧
          Holding i x γ' v' ipc'.buf t 0 got ∧ v'.notes = v.notes ∧ K t ipc')
    (hclose : ∀ γ v ipc t got, Holding i x γ v ipc.buf t t.stop got → K t ipc →
      (sessionContract g).outline.Ensures p (close t.stop) ipc (.reader i γ v) fun _ ipc' l =>
        ∃ γ' v', l = .reader i γ' v' ∧
          (Gap i x γ' v' ipc'.buf got ∨ AtEnd i x γ' v' ipc'.buf got) ∧ v'.notes = v.notes ∧ J ipc')
    (h : Gap i x γ v ipc.buf []) (hrep : Reported i x v []) (hJ : J ipc)
    {Q : Unit → Ipcio → Ghost (sessionContract g) → Prop}
    (hQ : ∀ γ' v' ipc' got, AtEnd i x γ' v' ipc'.buf got →
      (readerSessions i v'.notes).length = x + 1 → J ipc' → Q () ipc' (.reader i γ' v')) :
    (sessionContract g).outline.Ensures p (readWhole i openNext close) ipc (.reader i γ v) Q := by
  refine ensures_iterate (fun _ ipc l => ∃ γ' v' got, l = .reader i γ' v' ∧
    Gap i x γ' v' ipc.buf got ∧ Reported i x v' got ∧ J ipc) ⟨γ, v, [], rfl, h, hrep, hJ⟩ ?_
  rintro _ ipc _ ⟨γ₁, v₁, got, rfl, h₁, hrep₁, hJ₁⟩
  rw [ensures_bind]
  refine ensures_mono (hopen γ₁ v₁ ipc got h₁ hJ₁) ?_
  rintro _ ipc₂ _ ⟨γ₂, v₂, t, rfl, rfl, h₂, hn₂, hK⟩
  simp only [ensures_bind]
  refine h₂.ensures_memcpyFrom (by omega) fun γ₃ bytes h₃ _ => ?_
  rw [Nat.zero_add] at h₃
  refine ensures_mono (hclose γ₃ v₂ ipc₂ t _ h₃ hK) ?_
  rintro _ ipc₄ _ ⟨γ₄, v₄, rfl, h₄, hn₄, hJ₄⟩
  have hrep₄ := hrep₁.congr (hn₄.trans hn₂)
  rcases h₄ with hgap | hend
  · have hrun : ipc₄.buf.eod = false := by
      rcases hgap.state with ⟨hs, -⟩ | ⟨hs, -, -⟩ <;> simp [Ipcbuf.eod, hs]
    refine ensures_noteRead hrep₄ hgap.got_prefix (fun _ γ₅ h₅ hrep₅ => ?_)
      fun heod => by simp [hrun] at heod
    exact ⟨γ₅, _, _, rfl, (hgap.mono h₅).note _, hrep₅, hJ₄⟩
  · have hstop : ipc₄.buf.eod = true := by simp [Ipcbuf.eod, hend.state]
    refine ensures_noteRead hrep₄ (hend.got_eq ▸ List.prefix_rfl) (fun hrun => by
      simp [hstop] at hrun) fun _ => ⟨hend, fun γ₅ v₅ hat hlen => ?_⟩
    exact hQ γ₅ v₅ ipc₄ _ hat hlen hJ₄

/-- `ipcio_open_block_read` and `ipcio_close_block_read` until end-of-data. -/
theorem ensures_readBlocks (h : Gap i x γ v ipc.buf []) (hrep : Reported i x v [])
    (hmode : ipc.rdwrt = .R) (hq : ipc.Quiescent) (hcur : ipc.curbuf = none) (hbytes : ipc.bytes = 0)
    {Q : Unit → Ipcio → Ghost (sessionContract g) → Prop}
    (hQ : ∀ γ' v' ipc', Completed i x γ' v' ipc' → ipc'.rdwrt = .R →
      Q () ipc' (.reader i γ' v')) :
    (sessionContract g).outline.Ensures p (readBlocks g i) ipc (.reader i γ v) Q := by
  refine ensures_readWhole
    (fun ipc => ipc.rdwrt = .R ∧ ipc.Quiescent ∧ ipc.curbuf = none ∧ ipc.bytes = 0)
    (fun t ipc => ipc.rdwrt = .R ∧ ipc.Quiescent ∧ ipc.curbuf ≠ none ∧ ipc.curbufsz = t.stop ∧
      ipc.bytes = 0) ?_ ?_ h hrep ⟨hmode, hq, hcur, hbytes⟩
    fun γ' v' ipc' got hat hlen hJ => hQ γ' v' ipc' ⟨⟨got, hat⟩, hlen, hJ.2.1⟩ hJ.1
  · rintro γ v ipc got hgap ⟨hmode, hq, hcur, hbytes⟩
    have hrun : ipc.buf.eod = false := by
      rcases hgap.state with ⟨hs, -⟩ | ⟨hs, -, -⟩ <;> simp [Ipcbuf.eod, hs]
    rw [ipcioOpenBlockRead, ensures_bind, ensures_get, if_neg (by simp [hbytes]),
      if_neg (by simp [hcur]), if_neg (by simp [hmode]), if_neg (by simp [hrun]), ensures_bind, onBuf,
      ensures_focus]
    refine hgap.ensures_getNextRead fun γ' v' d' t hheld hn => ?_
    simp only [ensures_bind, ensures_modify, ensures_pure]
    exact ⟨γ', v', t, rfl, rfl, hheld, hn, hmode, ⟨hq.1, hq.2⟩, by simp, rfl, trivial⟩
  · rintro γ v ipc t got hheld ⟨hmode, hq, hcur, hsz, hbytes⟩
    rw [ipcioCloseBlockRead, ensures_bind, ensures_get, if_neg (by simp [hbytes]), if_neg hcur,
      if_neg (by simp [hmode])]
    simp only [ensures_bind, ensures_modify, ensures_get]
    rw [if_pos (by rw [hbytes, hsz, Nat.zero_add]), ensures_bind, onBuf, ensures_focus]
    refine hheld.ensures_markCleared (fun γ' v' d' hgap _ hn => ?_) fun γ' v' d' hend hn => ?_
    · rw [if_neg (by decide)]
      simp only [ensures_bind, ensures_modify, ensures_pure]
      exact ⟨γ', v', rfl, .inl hgap, hn, hmode, ⟨hq.1, hq.2⟩, trivial, trivial⟩
    · rw [if_neg (by decide)]
      simp only [ensures_bind, ensures_modify, ensures_pure]
      exact ⟨γ', v', rfl, .inr hend, hn, hmode, ⟨hq.1, hq.2⟩, trivial, trivial⟩

/-- `ipcbuf_get_next_read` and `ipcbuf_mark_cleared` until end-of-data. -/
theorem ensures_readBufs (h : Gap i x γ v ipc.buf []) (hrep : Reported i x v [])
    (hq : ipc.Quiescent) {Q : Unit → Ipcio → Ghost (sessionContract g) → Prop}
    (hQ : ∀ γ' v' ipc', Completed i x γ' v' ipc' → Q () ipc' (.reader i γ' v')) :
    (sessionContract g).outline.Ensures p (readBufs g i) ipc (.reader i γ v) Q := by
  refine ensures_readWhole (fun ipc => ipc.Quiescent) (fun _ ipc => ipc.Quiescent) ?_ ?_ h hrep hq
    fun γ' v' ipc' got hat hlen hJ => hQ γ' v' ipc' ⟨⟨got, hat⟩, hlen, hJ⟩
  · intro γ v ipc got hgap hq
    rw [onBuf, ensures_focus]
    exact hgap.ensures_getNextRead fun γ' v' d' t hheld hn =>
      ⟨γ', v', t, rfl, rfl, hheld, hn, hq.1, hq.2⟩
  · intro γ v ipc t got hheld hq
    rw [onBuf, ensures_focus]
    exact hheld.ensures_markCleared
      (fun γ' v' d' hgap _ hn => ⟨γ', v', rfl, .inl hgap, hn, hq.1, hq.2⟩)
      fun γ' v' d' hend hn => ⟨γ', v', rfl, .inr hend, hn, hq.1, hq.2⟩

/-! ## Taking and giving back a slot -/

/-- A reader that is about to read the next transfer of its slot. -/
structure AtStart (i : ℕ) (γ : (sessionContract g).Log) (v : RView) (ipc : Ipcio) : Prop where
  gap : Gap i v.rXfer γ v ipc.buf []
  reader : ipc.buf.state = .reader
  between : Between (γ.toks.take v.acq)
  sessions : (readerSessions i v.notes).length = v.rXfer
  quiescent : ipc.Quiescent

/-- Between two transfers nothing of the next one has been taken. -/
theorem RIdle.streamOf_eq_nil (h : RIdle (sessionContract g) γ v)
    (hb : Between (γ.toks.take v.acq)) : streamOf (γ.toks.take v.acq) v.rXfer = [] :=
  PubLog.streamOf_eq_nil (γ := γ.take v.acq) hb h.xfer.ge

/-- A slot at rest is between two transfers. -/
theorem RIdle.between_of_discon (h : RIdle (sessionContract g) γ v)
    (hs : v.rState = ProcState.discon.code) : Between (γ.toks.take v.acq) := by
  intro t ht
  by_contra hte
  have := (h.mid t ht (by simpa using hte)).1
  rw [hs] at this
  exact absurd this (by decide)

/-- `ipcbuf_lock_read` takes a slot at the beginning of its next transfer. -/
theorem ensures_lockSlot (h : ipc.buf.state = .viewer) (hplain : ipc.buf.Plain)
    {Q : ℤ → Ipcbuf → Ghost (sessionContract g) → Prop} (hfail : Q (-1) ipc.buf .idle)
    (hQ : ∀ i γ v d, Gap i v.rXfer γ v d [] → d.state = .reader → Between (γ.toks.take v.acq) →
      (readerSessions i v.notes).length = v.rXfer → Q 0 d (.reader i γ v)) :
    (sessionContract g).outline.Ensures p (ipcbufLockRead g) ipc.buf .idle Q := by
  refine ensures_lockRead h hplain.iread hfail fun i γ v hi _ hidle hrest => ?_
  have hbet := hidle.between_of_discon hrest.state
  rw [if_pos hrest.state]
  exact hQ i γ v _ ⟨⟨hi, rfl, hplain.soclock⟩, hidle, .inl ⟨rfl, hbet⟩, rfl,
    hidle.streamOf_eq_nil hbet⟩ rfl hbet hrest.sessions

/-- A new session on a slot is noted. -/
theorem AtStart.ensures_openNote (h : AtStart i γ v ipc)
    {Q : Unit → Ipcio → Ghost (sessionContract g) → Prop}
    (hQ : ∀ γ', Gap i v.rXfer γ' (v.note (.ropen i)) ipc.buf [] →
      Reported i v.rXfer (v.note (.ropen i)) [] →
      Q () ipc (.reader i γ' (v.note (.ropen i)))) :
    (sessionContract g).outline.Ensures p (note (.ropen i)) ipc (.reader i γ v) Q := by
  have hsess : readerSessions i (v.notes ++ [.ropen i]) =
      readerSessions i v.notes ++ [([], false)] := by
    rw [readerSessions_concat, readerSessionsStep, if_pos rfl]
  refine ensures_rnote (by simp [Event.isReaders]) (fun _ _ _ _ _ _ _ => trivial)
    fun γ' hle hri => ⟨?_, hQ γ' ((h.gap.mono hle).note _) ⟨?_, ?_⟩⟩
  · change Delivered γ'.toks (readerSessions i (v.notes ++ [.ropen i]))
    rw [hsess]
    intro k s hk
    rcases Nat.lt_or_ge k (readerSessions i v.notes).length with hlt | hge
    · rw [List.getElem?_append_left hlt] at hk
      exact hri.note k s hk
    · rw [List.getElem?_append_right hge] at hk
      obtain rfl : ([], false) = s := by
        cases hkl : k - (readerSessions i v.notes).length with
        | zero => simpa [hkl] using hk
        | succ => simp [hkl] at hk
      exact ⟨List.nil_prefix, by simp⟩
  · rw [RView.note, hsess, List.length_append, h.sessions]
    rfl
  · rw [RView.note, hsess, ← h.sessions]
    simp

/-- `ipcbuf_unlock_read` gives a slot back between two transfers. -/
theorem ensures_unlockSlot {d : Ipcbuf} (hslot : InSlot (g := g) i d)
    (hidle : RIdle (sessionContract g) γ v) (hbet : Between (γ.toks.take v.acq))
    (hsess : (readerSessions i v.notes).length = v.rXfer) (hreader : d.isReader = true)
    {Q : ℤ → Ipcbuf → Ghost (sessionContract g) → Prop}
    (hQ : ∀ d' : Ipcbuf, d'.state = .viewer → d'.Plain → Q 0 d' .idle) :
    (sessionContract g).outline.Ensures p (ipcbufUnlockRead g) d (.reader i γ v) Q :=
  ensures_unlockRead hreader hslot.iread hslot.lt fun _ =>
    ⟨hidle, ⟨(hidle.between hbet).1, hsess⟩, hQ _ rfl ⟨hslot.soclock, rfl⟩⟩

/-- A session in mode `'R'` leaves the ring and its `ipcio_t` ready for the next. -/
theorem ensures_readSession {body : ℕ → IpcioM Unit} (h : ipc.Ready)
    (hbody : ∀ i x γ v ipc, Gap i x γ v ipc.buf [] → Reported i x v [] → ipc.rdwrt = .R →
      ipc.Quiescent → ipc.curbuf = none → ipc.bytes = 0 →
      (sessionContract g).outline.Ensures p (body i) ipc (.reader i γ v) fun _ ipc' l =>
        ∃ γ' v', l = .reader i γ' v' ∧ Completed i x γ' v' ipc' ∧ ipc'.rdwrt = .R)
    {Q : Unit → Ipcio → Ghost (sessionContract g) → Prop}
    (hQ : ∀ ipc' : Ipcio, ipc'.Ready → Q () ipc' .idle) :
    (sessionContract g).outline.Ensures p (readSession g body) ipc .idle Q := by
  rw [readSession, ensures_bind, ipcioOpen, if_neg (by decide)]
  simp only [ensures_bind, ensures_modify]
  rw [if_neg (by decide)]
  simp only [if_true, ensures_bind]
  rw [onBuf, ensures_focus]
  refine ensures_lockSlot h.state h.plain ?_ fun i γ v d hgap hst hbet hsess => ?_
  · rw [if_pos (by decide), ensures_pure, if_pos (by decide), ensures_pure]
    exact hQ _ ⟨h.state, h.plain, h.pending, h.single⟩
  rw [if_neg (by decide)]
  simp only [ensures_bind, ensures_modify, ipcioAlloc, ensures_pure]
  rw [if_neg (by decide), ensures_bind, ensures_get]
  simp only [hgap.slot.iread, Option.getD_some]
  rw [ensures_bind]
  have hstart : AtStart i γ v { ipc with
      buf := d, rdwrt := .R, bytes := 0, curbuf := none, bufsOpenedMax := g.nbufs - 1
      bufPtrs := fun _ => none } := ⟨hgap, hst, hbet, hsess, h.pending, h.single⟩
  refine hstart.ensures_openNote fun γ' hgap' hrep => ?_
  rw [ensures_bind]
  refine ensures_mono (hbody i _ γ' _ _ hgap' hrep rfl ⟨h.pending, h.single⟩ rfl rfl) ?_
  rintro _ ipc₂ _ ⟨γ₂, v₂, rfl, hdone, hmode⟩
  obtain ⟨got, hat⟩ := hdone.at_end
  rw [ensures_bind, ipcioClose, ipcioStopClose, ensures_bind, ensures_get,
    if_neg (by simp [hmode]), if_neg (by simp [hmode]), if_pos hmode, ensures_bind, onBuf,
    ensures_focus]
  refine ensures_unlockSlot hat.slot hat.idle hat.between (by rw [hdone.sessions, hat.xfer])
    (by simp [Ipcbuf.isReader, hat.state]) fun d' hd' hplain => ?_
  rw [if_neg (by decide)]
  simp only [ensures_bind, ensures_modify, ensures_pure]
  exact hQ _ ⟨hd', hplain, hdone.quiescent.1, hdone.quiescent.2⟩

/-- `ipcbuf_reset` of a reader that has been told of the end of data. -/
theorem ensures_resetReader {d : Ipcbuf} {C : Contract g} {l : Ghost C}
    (hst : d.state = .rstop) {Q : ℤ → Ipcbuf → Ghost C → Prop}
    (hQ : Q 0 { d with state := .reader } l) :
    C.outline.Ensures p (ipcbufReset g) d l Q := by
  rw [ipcbufReset, ensures_bind, ensures_get, if_pos hst]
  simp only [ensures_bind, ensures_modify, ensures_pure]
  exact hQ

/-- A session of `ipcbuf.c` leaves the ring and its `ipcio_t` ready for the next. -/
theorem ensures_bufSession {transfers : ℕ} (h : ipc.Ready)
    {Q : Unit → Ipcio → Ghost (sessionContract g) → Prop}
    (hQ : ∀ ipc' : Ipcio, ipc'.Ready → Q () ipc' .idle) :
    (sessionContract g).outline.Ensures p (bufSession g transfers) ipc .idle Q := by
  rw [bufSession, ensures_bind, onBuf, ensures_focus]
  refine ensures_lockSlot h.state h.plain ?_ fun i γ v d hgap hst hbet hsess => ?_
  · rw [if_pos (by decide), ensures_pure]
    exact hQ _ ⟨h.state, h.plain, h.pending, h.single⟩
  rw [if_neg (by decide), ensures_bind, ensures_get]
  simp only [hgap.slot.iread, Option.getD_some]
  rw [ensures_bind]
  refine ensures_mono (ensures_countUp (fun _ ipc l => ∃ γ v, l = .reader i γ v ∧
    AtStart i γ v ipc) ⟨γ, v, rfl, hgap, hst, hbet, hsess, h.pending, h.single⟩ ?_) ?_
  · rintro _ _ ipc _ ⟨γ, v, rfl, hstart⟩
    simp only [ensures_bind]
    refine hstart.ensures_openNote fun γ₁ hgap₁ hrep₁ => ?_
    refine ensures_readBufs hgap₁ hrep₁ hstart.quiescent fun γ₂ v₂ ipc₂ hdone => ?_
    obtain ⟨got, hat⟩ := hdone.at_end
    rw [onBuf, ensures_focus]
    refine ensures_resetReader hat.state ⟨γ₂, v₂, rfl, ⟨⟨hat.slot.1, hat.slot.2, hat.slot.3⟩,
      hat.idle, .inl ⟨rfl, hat.between⟩, rfl, hat.idle.streamOf_eq_nil hat.between⟩, rfl,
      hat.between, ?_, hdone.quiescent.1, hdone.quiescent.2⟩
    rw [hdone.sessions, hat.xfer]
  · rintro _ ipc₂ _ ⟨γ₂, v₂, rfl, hstart⟩
    rw [ensures_bind, onBuf, ensures_focus]
    refine ensures_unlockSlot hstart.gap.slot hstart.gap.idle hstart.between hstart.sessions
      (by simp [Ipcbuf.isReader, hstart.reader]) fun d' hd' hplain => ?_
    rw [ensures_pure]
    exact hQ _ ⟨hd', hplain, hstart.quiescent.1, hstart.quiescent.2⟩

end Psrdada
