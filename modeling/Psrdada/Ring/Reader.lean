import Psrdada.Ring.Rules

/-! # The readers' routines

`RIdle` is what a slot looks like while its reader holds no sub-block, `RHeld` what it looks like while
it holds one.  A reader is at a position of the log; `nextRead` takes the sub-block there and
`ipcbufMarkCleared` goes on to the next. -/

namespace Psrdada

open Concurrency Outline

variable {g : Geometry} {C : Contract g}

variable (C) in
/-- A slot whose reader holds a sub-block. -/
structure RHeld (γ : C.Log) (v : RView) (t : Tok) : Prop where
  acq : v.acq = v.cleared + 1
  tok : γ.toks[v.cleared]? = some t
  rBuf : v.rBuf = t.blk
  rState : v.rState = ProcState.reading.code
  xfer : v.rXfer = t.xfer
  sod : v.sodPosted = t.xfer + 1
  eod : v.eodPosted = t.xfer

theorem RHeld.mono {γ γ' : C.Log} {v : RView} {t : Tok} (h : RHeld C γ v t) (hle : γ ≤ γ') :
    RHeld C γ' v t :=
  ⟨h.acq, getElem?_of_prefix hle.1 h.tok, h.rBuf, h.rState, h.xfer, h.sod, h.eod⟩

theorem RHeld.note {γ : C.Log} {v : RView} {t : Tok} (h : RHeld C γ v t) (e : Event) :
    RHeld C γ (v.note e) t :=
  ⟨h.acq, h.tok, h.rBuf, h.rState, h.xfer, h.sod, h.eod⟩

theorem RIdle.note {γ : C.Log} {v : RView} (h : RIdle C γ v) (e : Event) :
    RIdle C γ (v.note e) :=
  ⟨h.acq, h.acq_le, h.xfer, h.eod, h.between, h.mid⟩

section Reader

variable {p i : ℕ} {γ : C.Log} {v : RView} {t : Tok} {d : Ipcbuf}

/-- What the arrays say of the end of a sub-block, until its reader has acknowledged the end of the
transfer. -/
theorem WInv.endAt {γ' : C.Log} {w : WView} (hw : WInv C γ' w) (hb : Inv.Bounds i w v)
    (hi : i < g.nReaders) (ht : t ∈ γ'.toks) (heod : v.eodPosted = t.xfer) :
    t.EndAt γ'.settled w.sync :=
  hw.stop i hi t ht (heod ▸ hb.eod)

/-- What the arrays say of the beginning of a sub-block, until its reader has acknowledged the
beginning of the transfer. -/
theorem WInv.startAt {γ' : C.Log} {w : WView} (hw : WInv C γ' w) (hb : Inv.Bounds i w v)
    (hi : i < g.nReaders) (ht : t ∈ γ'.toks) (hsod : v.sodPosted = t.xfer) :
    t.StartAt w.sync :=
  hw.start i hi t ht (hsod ▸ hb.sod)

/-- A reader sees whether the sub-block it is at is the last of its transfer. -/
theorem ensures_atLastBuffer {Q : Bool → Ipcbuf → Ghost C → Prop}
    (hd : d.xfer = t.xfer % ipcbufXfers) (ht : t ∈ γ.toks) (heod : v.eodPosted = t.xfer)
    (hbuf : v.rBuf = t.blk)
    (h : ∀ γ', γ ≤ γ' → C.Noted t → Q t.eod d (.reader i γ' v)) :
    C.outline.Ensures p (atLastBuffer i) d (.reader i γ v) Q := by
  simp only [atLastBuffer, ensures_bind, ensures_get]
  rw [hd]
  refine ensures_rloadw rfl fun γ₁ w₁ h₁ hi hw₁ hb₁ => ?_
  have hend₁ := hw₁.endAt hb₁ hi (h₁.1.subset ht) heod
  have hnoted : C.Noted t := ⟨_, _, h₁.1.subset ht, hw₁.note⟩
  by_cases hzero : w₁.sync.eod (t.xfer % ipcbufXfers) = 0
  · have hne : t.eod = false := by
      by_contra hte
      rw [Tok.EndAt, if_pos (by simpa using hte)] at hend₁
      exact hend₁.1 hzero
    rw [if_neg (by simpa [Ipcsync.load] using hzero), ensures_pure, ← hne]
    exact h γ₁ h₁ hnoted
  · rw [if_pos (by simpa [Ipcsync.load] using hzero), ensures_bind]
    refine ensures_rload (by simp [Var.isReaders]) fun γ₂ h₂ => ?_
    refine ensures_rtestw rfl fun γ₃ w₃ h₃ _ hw₃ hb₃ => ?_
    have hle : γ ≤ γ₃ := h₁.trans (h₂.trans h₃)
    have hend₃ := hw₃.endAt hb₃ hi (hle.1.subset ht) heod
    have hlast : (w₃.sync.load (.eBuf (t.xfer % ipcbufXfers)) == v.load (.rBufs i)) = t.eod := by
      have hload : v.load (.rBufs i) = t.blk := hbuf
      rw [hload]
      cases hte : t.eod with
      | true =>
        rw [Tok.EndAt, if_pos hte] at hend₃
        simpa [Ipcsync.load] using hend₃.2.1
      | false =>
        -- the flag was set, so the log was settled then, and is now
        have hset : γ₁.settled = true := by
          by_contra hne
          rw [Tok.EndAt, hte, if_neg (by simp), if_neg hne] at hend₁
          exact hzero hend₁
        rw [Tok.EndAt, hte, if_neg (by simp), if_pos ((h₂.trans h₃).2 hset)] at hend₃
        simpa [Ipcsync.load] using hend₃
    rw [hlast]
    exact h γ₃ hle hnoted

/-- A reader sees how many bytes of the sub-block it is at are valid. -/
theorem ensures_validBytes {Q : ℕ → Ipcbuf → Ghost C → Prop}
    (hd : d.xfer = t.xfer % ipcbufXfers) (ht : t ∈ γ.toks) (heod : v.eodPosted = t.xfer)
    (hbuf : v.rBuf = t.blk) {start : ℕ}
    (h : ∀ γ', γ ≤ γ' → C.Noted t → Q (usub t.stop start) d (.reader i γ' v)) :
    C.outline.Ensures p (validBytes g i start) d (.reader i γ v) Q := by
  rw [validBytes, ensures_bind]
  refine ensures_atLastBuffer hd ht heod hbuf fun γ₁ h₁ hnoted => ?_
  cases hte : t.eod with
  | true =>
    rw [if_pos rfl, ensures_bind, ensures_get, ensures_bind, hd]
    refine ensures_rloadw rfl fun γ₂ w₂ h₂ hi hw₂ hb₂ => ?_
    have hle := h₁.trans h₂
    have hend := hw₂.endAt hb₂ hi (hle.1.subset ht) heod
    rw [Tok.EndAt, if_pos hte] at hend
    rw [ensures_pure, show w₂.sync.load (.eByte (t.xfer % ipcbufXfers)) = t.stop from hend.2.2]
    exact h γ₂ hle hnoted
  | false =>
    rw [if_neg (by simp), ensures_pure, ← (γ.wellFormed t ht).stop hte]
    exact h γ₁ h₁ hnoted

/-- A reader begins the transfer of the sub-block it has just taken. -/
theorem ensures_beginTransfer {undo : Bool} {Q : ℕ → Ipcbuf → Ghost C → Prop}
    (hacq : v.acq = v.cleared + 1) (ht : γ.toks[v.cleared]? = some t) (hsod : t.sod = true)
    (hxfer : v.rXfer = t.xfer) (hsodP : v.sodPosted = v.rXfer) (heodP : v.eodPosted = v.rXfer)
    (h : ∀ γ' v', γ ≤ γ' → RHeld C γ' v' t → v'.notes = v.notes → v'.cleared = v.cleared →
      v'.rXfer = v.rXfer → Q t.start { d with xfer := t.xfer % ipcbufXfers, state := .reading } (.reader i γ' v')) :
    C.outline.Ensures p (beginTransfer i undo) d (.reader i γ v) Q := by
  have hmem : t ∈ γ.toks := List.mem_of_getElem? ht
  simp only [beginTransfer, ensures_bind, ensures_modify]
  refine ensures_rload (by simp [Var.isReaders]) fun γ₁ h₁ => ?_
  rw [show v.load (.rXfers i) = t.xfer from hxfer]
  refine ensures_rstore (by simp [Var.isReaders]) fun γ₂ h₂ => ?_
  refine ensures_rloadw rfl fun γ₃ w₃ h₃ hi hw₃ hb₃ => ?_
  have hle₃ := h₁.trans (h₂.trans h₃)
  have hst₃ := hw₃.startAt hb₃ hi (hle₃.1.subset hmem) (hsodP.trans hxfer) hsod
  refine ensures_rstore (by simp [Var.isReaders]) fun γ₄ h₄ => ?_
  refine ensures_rloadw rfl fun γ₅ w₅ h₅ _ hw₅ hb₅ => ?_
  have hle₅ := hle₃.trans (h₄.trans h₅)
  have hst₅ := hw₅.startAt hb₅ hi (hle₅.1.subset hmem) (hsodP.trans hxfer) hsod
  refine ensures_postSod (by simp only [RView.store]; omega) fun γ₆ h₆ => ?_
  rw [ensures_pure, show w₅.sync.load (.sByte (t.xfer % ipcbufXfers)) = t.start from hst₅.2]
  have hle₆ := hle₅.trans h₆
  refine h γ₆ _ hle₆ ⟨hacq, getElem?_of_prefix hle₆.1 ht, hst₃.1, rfl, hxfer, ?_,
    heodP.trans hxfer⟩ rfl rfl rfl
  simp only [RView.postSod, RView.store]
  omega

/-- `nextRead` waits for the next sub-block of the log and takes it. -/
theorem ensures_nextRead {undo : Bool} {Q : Ptr × ℕ → Ipcbuf → Ghost C → Prop}
    (hidle : RIdle C γ v) (hi : d.iread = some i)
    (hd : (d.state = .reader ∧ Between (γ.toks.take v.acq)) ∨
      (d.state = .reading ∧ d.xfer = v.rXfer % ipcbufXfers ∧ ¬ Between (γ.toks.take v.acq)))
    (h : ∀ γ' v' t, γ ≤ γ' → RHeld C γ' v' t → C.Noted t → v'.notes = v.notes →
      v'.cleared = v.cleared → v'.rXfer = v.rXfer →
      Q (⟨t.blk % g.nbufs, t.start⟩, usub t.stop t.start)
        { d with xfer := t.xfer % ipcbufXfers, state := .reading } (.reader i γ' v')) :
    C.outline.Ensures p (nextRead g undo) d (.reader i γ v) Q := by
  simp only [nextRead, ensures_bind, ensures_get]
  rw [hi, Option.getD_some]
  refine ensures_takeFull hidle.acq fun γ₁ h₁ hlt => ?_
  obtain ⟨t, ht⟩ : ∃ t, γ₁.toks[v.acq]? = some t :=
    ⟨_, List.getElem?_eq_some_iff.mpr ⟨hlt, rfl⟩⟩
  have hidle₁ := hidle.mono h₁
  have htake := take_of_prefix h₁.1 hidle.acq_le
  -- the last two steps are the same in both states
  have hrest : ∀ γ₂ v₂ (d₂ : Ipcbuf), γ₁ ≤ γ₂ → RHeld C γ₂ v₂ t → v₂.notes = v.notes →
      v₂.cleared = v.cleared → v₂.rXfer = v.rXfer → d₂ = { d with xfer := t.xfer % ipcbufXfers, state := .reading } →
      C.outline.Ensures p (load (.rBufs i)) d₂ (.reader i γ₂ v₂) fun b d' l =>
        C.outline.Ensures p (validBytes g i t.start) d' l fun n d' l =>
          C.outline.Ensures p (pure (⟨b % g.nbufs, t.start⟩, n)) d' l Q := by
    rintro γ₂ v₂ d₂ h₂ hheld hnotes hcl hrx rfl
    refine ensures_rload (by simp [Var.isReaders]) fun γ₃ h₃ => ?_
    have hheld₃ := hheld.mono h₃
    refine ensures_validBytes rfl (List.mem_of_getElem? hheld₃.tok) hheld.eod hheld.rBuf
      fun γ₄ h₄ hnoted => ?_
    rw [ensures_pure, show v₂.load (.rBufs i) = t.blk from hheld.rBuf]
    exact h γ₄ v₂ t (h₁.trans (h₂.trans (h₃.trans h₄))) (hheld₃.mono h₄) hnoted hnotes
      hcl hrx
  have hcl : v.cleared = v.acq := hidle.acq.symm
  rcases hd with ⟨hst, hbet⟩ | ⟨hst, hdx, hbet⟩
  · rw [if_pos hst, ensures_bind]
    rw [← htake] at hbet
    obtain ⟨hsod, hx⟩ := PubLog.next_of_between hbet ht
    refine ensures_beginTransfer (v := v.takeFull) (congrArg (· + 1) hidle.acq)
      (by simpa [RView.takeFull, hcl] using ht) hsod (hidle₁.xfer.trans hx.symm)
      (hidle₁.between hbet).2 hidle₁.eod fun γ₂ v₂ h₂ hheld hnotes hcleared hrx => ?_
    simp only [ensures_bind]
    exact hrest γ₂ v₂ _ h₂ hheld hnotes hcleared hrx rfl
  · rw [if_neg (by simp [hst]), ensures_bind, ensures_pure]
    rw [← htake] at hbet
    obtain ⟨a, ha, hae⟩ : ∃ a, (γ₁.toks.take v.acq).getLast? = some a ∧ a.eod = false := by
      simp only [Between, Option.mem_def, not_forall] at hbet
      obtain ⟨a, ha, hae⟩ := hbet
      exact ⟨a, ha, by simpa using hae⟩
    obtain ⟨hsod, hx, hblk⟩ := PubLog.next_of_mid ha hae ht
    obtain ⟨hrs, hrb, hsp⟩ := hidle₁.mid a ha hae
    have hxa : v.rXfer = t.xfer := by
      rw [hidle₁.xfer, hx, nextXfer, ha]
      simp [hae]
    simp only [ensures_bind, ← (γ₁.wellFormed t (List.mem_of_getElem? ht)).start hsod]
    refine hrest γ₁ v.takeFull _ le_rfl ⟨?_, by simpa [RView.takeFull, hcl] using ht, ?_, hrs, hxa,
      ?_, hidle₁.eod.trans hxa⟩ rfl rfl rfl ?_
    · exact congrArg (· + 1) hidle.acq
    · exact hrb.trans hblk.symm
    · exact hsp.trans (by rw [hxa])
    · rw [← hxa, ← hdx, ← hst]

/-- `ipcbuf_mark_cleared` gives the sub-block back and goes on to the next. -/
theorem ensures_markCleared {Q : ℤ → Ipcbuf → Ghost C → Prop}
    (hheld : RHeld C γ v t) (hi : d.iread = some i) (hd : d.state = .reading)
    (hdx : d.xfer = t.xfer % ipcbufXfers)
    (h : ∀ γ' v', γ ≤ γ' → RIdle C γ' v' → v'.notes = v.notes → v'.cleared = v.cleared + 1 →
      v'.rXfer = (if t.eod then t.xfer + 1 else t.xfer) →
      Q 0 { d with
          xfer := v'.rXfer % ipcbufXfers
          state := if t.eod then .rstop else .reading } (.reader i γ' v')) :
    C.outline.Ensures p ipcbufMarkCleared d (.reader i γ v) Q := by
  rw [ipcbufMarkCleared, ensures_bind, ensures_get, if_neg (by simp [hd])]
  simp only [hi, Option.getD_some]
  rw [ensures_bind]
  refine ensures_postClr hheld.acq fun γ₁ h₁ => ?_
  rw [ensures_bind]
  have hmem : t ∈ γ₁.toks := List.mem_of_getElem? (hheld.mono h₁).tok
  refine ensures_atLastBuffer hdx hmem hheld.eod hheld.rBuf fun γ₂ h₂ _ => ?_
  -- the position behind the sub-block
  have hlast : ∀ γ', γ ≤ γ' → (γ'.toks.take (v.cleared + 1)).getLast? = some t := fun γ' hle => by
    rw [List.take_add_one, (hheld.mono hle).tok]
    simp
  have hle : ∀ γ', γ ≤ γ' → v.cleared + 1 ≤ γ'.toks.length := fun γ' hle =>
    (List.getElem?_eq_some_iff.mp (hheld.mono hle).tok).1
  have hbet : ∀ γ', γ ≤ γ' → (Between (γ'.toks.take (v.cleared + 1)) ↔ t.eod = true) :=
    fun γ' hγ => by simp [Between, hlast γ' hγ]
  have hxfer : ∀ γ', γ ≤ γ' → nextXfer (γ'.toks.take (v.cleared + 1)) =
      if t.eod then t.xfer + 1 else t.xfer := fun γ' hγ => by simp [nextXfer, hlast γ' hγ]
  cases hte : t.eod with
  | true =>
    simp only [if_true, ensures_bind, ensures_modify]
    refine ensures_rstore (by simp [Var.isReaders]) fun γ₃ h₃ => ?_
    refine ensures_rload (by simp [Var.isReaders]) fun γ₄ h₄ => ?_
    rw [show (v.postClr.store (.rStates i) ProcState.discon.code).load (.rXfers i) = t.xfer from
      hheld.xfer]
    refine ensures_rstore (by simp [Var.isReaders]) fun γ₅ h₅ => ?_
    refine ensures_rload (by simp [Var.isReaders]) fun γ₆ h₆ => ?_
    refine ensures_postEod ?_ fun γ₇ h₇ => ?_
    · have := hheld.acq
      simp only [RView.store, RView.postClr]
      omega
    have hγ : γ ≤ γ₇ := h₁.trans (h₂.trans (h₃.trans (h₄.trans (h₅.trans (h₆.trans h₇)))))
    rw [ensures_pure]
    have hfinal := h γ₇ (((v.postClr.store (.rStates i) ProcState.discon.code).store (.rXfers i)
      (t.xfer + 1)).postEod) hγ ⟨hheld.acq, by rw [← hheld.acq] at hle; exact hle γ₇ hγ, ?_, ?_,
        fun _ => ⟨rfl, hheld.sod⟩, fun u hu hue => ?_⟩ rfl rfl (by simp [hte]; rfl)
    · rw [hte] at hfinal
      exact hfinal
    · have := hxfer γ₇ hγ
      rw [← hheld.acq, hte, if_pos rfl] at this
      exact this.symm
    · have := hheld.eod
      simp only [RView.postEod, RView.store, RView.postClr]
      omega
    · have hl := hlast γ₇ hγ
      rw [← hheld.acq] at hl
      have hut : some t = some u := hl.symm.trans hu
      rw [← Option.some.inj hut, hte] at hue
      cases hue
  | false =>
    rw [if_neg (by simp), ensures_bind]
    refine ensures_rload (by simp [Var.isReaders]) fun γ₃ h₃ => ?_
    rw [ensures_bind, show v.postClr.load (.rBufs i) = t.blk from hheld.rBuf]
    refine ensures_rstore (by simp [Var.isReaders]) fun γ₄ h₄ => ?_
    have hγ : γ ≤ γ₄ := h₁.trans (h₂.trans (h₃.trans h₄))
    rw [ensures_pure]
    have hd' : ({ d with xfer := v.rXfer % ipcbufXfers, state := .reading } : Ipcbuf) = d := by
      rw [hheld.xfer, ← hdx, ← hd]
    have hfinal := h γ₄ (v.postClr.store (.rBufs i) (t.blk + 1)) hγ
      ⟨hheld.acq, by rw [← hheld.acq] at hle; exact hle γ₄ hγ, ?_, hheld.eod.trans hheld.xfer.symm,
        fun hb => ?_, fun u hu hue => ?_⟩ rfl rfl (by rw [hte]; exact hheld.xfer)
    · rw [hte] at hfinal
      exact hd' ▸ hfinal
    · have := hxfer γ₄ hγ
      rw [← hheld.acq, hte, if_neg (by simp)] at this
      exact hheld.xfer.trans this.symm
    · have := hbet γ₄ hγ
      rw [← hheld.acq] at this
      exact absurd (this.mp hb) (by simp [hte])
    · have hl := hlast γ₄ hγ
      rw [← hheld.acq] at hl
      have hut : some t = some u := hl.symm.trans hu
      rw [← Option.some.inj hut]
      exact ⟨hheld.rState, rfl, hheld.sod.trans (by rw [← hheld.xfer]; rfl)⟩

/-- `memcpy` out of the sub-block that a reader holds. -/
theorem ensures_memcpyFrom {τ : Type} {u : τ} {n off : ℕ} {Q : List UInt8 → τ → Ghost C → Prop}
    (hheld : RHeld C γ v t) (hoff : t.start ≤ off) (hstop : off + n ≤ t.stop)
    (h : ∀ γ', γ ≤ γ' → Q ((t.bytes.drop (off - t.start)).take n) u (.reader i γ' v)) :
    C.outline.Ensures p (memcpyFrom (t.blk % g.nbufs) off n) u (.reader i γ v) Q := by
  induction n generalizing off γ Q with
  | zero =>
    rw [memcpyFrom, ensures_pure]
    simpa using h γ le_rfl
  | succ n ih =>
    rw [memcpyFrom, ensures_bind]
    refine ensures_readByte fun γ₁ w₁ h₁ hi hw₁ hb₁ => ?_
    have htok := (hheld.mono h₁).tok
    -- the writer has not reclaimed it
    have hmem : t ∈ γ₁.toks.drop (w₁.clrTaken i) := by
      refine List.mem_of_getElem? (i := v.cleared - w₁.clrTaken i) ?_
      rw [List.getElem?_drop, Nat.add_sub_cancel' hb₁.clr]
      exact htok
    have hbyte : t.bytes[off - t.start]? = some (w₁.buffer (t.blk % g.nbufs) off) := by
      rw [hw₁.bytes i hi t hmem]
      exact slice_getElem? _ hoff (by omega)
    have hcons : (t.bytes.drop (off - t.start)).take (n + 1) =
        w₁.buffer (t.blk % g.nbufs) off :: (t.bytes.drop (off + 1 - t.start)).take n := by
      obtain ⟨hlt, hget⟩ := List.getElem?_eq_some_iff.mp hbyte
      rw [List.drop_eq_getElem_cons hlt, hget, Nat.sub_add_comm hoff]
      rfl
    rw [ensures_bind]
    refine ih (hheld.mono h₁) (by omega) (by omega) fun γ₂ h₂ => ?_
    rw [ensures_pure, ← hcons]
    exact h γ₂ (h₁.trans h₂)

/-- The first reader that no list of readers has yet is a reader. -/
theorem ensures_leastReader {chosen : List ℕ} {k : ℕ} {Q : ℕ × ℕ → Ipcbuf → Ghost C → Prop}
    (hk : k ≤ g.nReaders) (h : ∀ val pos, pos < g.nReaders → Q (val, pos) d .idle) :
    C.outline.Ensures p (leastReader chosen k) d .idle Q := by
  induction k generalizing Q with
  | zero =>
    rw [leastReader, ensures_pure]
    exact h _ _ g.nReaders_pos
  | succ k ih =>
    rw [leastReader, ensures_bind]
    refine ih (by omega) fun val pos hpos => ?_
    rw [ensures_bind]
    refine ensures_idle_load fun a => ?_
    by_cases hlt : a < val ∧ k ∉ chosen
    · rw [if_pos hlt, ensures_bind]
      exact ensures_idle_load fun a => h a k (by omega)
    · rw [if_neg hlt, ensures_pure]
      exact h val pos hpos

/-- The order in which `ipcbuf_lock_read` tries the slots is one of slots. -/
theorem ensures_readerOrder {k : ℕ} {Q : List ℕ → Ipcbuf → Ghost C → Prop}
    (h : ∀ order, (∀ i ∈ order, i < g.nReaders) → Q order d .idle) :
    C.outline.Ensures p (readerOrder g k) d .idle Q := by
  induction k generalizing Q with
  | zero =>
    rw [readerOrder, ensures_pure]
    exact h [] (by simp)
  | succ k ih =>
    rw [readerOrder, ensures_bind]
    refine ih fun order horder => ?_
    rw [ensures_bind]
    refine ensures_leastReader le_rfl fun val pos hpos => ?_
    rw [ensures_pure]
    refine h _ fun i hi => ?_
    rcases List.mem_append.mp hi with hi | hi
    · exact horder i hi
    · rwa [List.mem_singleton.mp hi]

/-- `claimSlot` takes at most one slot. -/
theorem ensures_claimSlot {order : List ℕ} {Q : Option ℕ → Ipcbuf → Ghost C → Prop}
    (horder : ∀ i ∈ order, i < g.nReaders) (hnone : Q none d .idle)
    (h : ∀ i γ v, i < g.nReaders → RInv C γ i v → RIdle C γ v → C.rrest i v →
      Q (some i) d (.reader i γ v)) :
    C.outline.Ensures p (claimSlot order) d .idle Q := by
  induction order with
  | nil =>
    rw [claimSlot, ensures_pure]
    exact hnone
  | cons i rest ih =>
    rw [claimSlot, ensures_bind]
    refine ensures_claim (horder i (by simp)) (fun γ v hinv hidle hrest => ?_) ?_
    · rw [if_pos rfl, ensures_pure]
      exact h i γ v (horder i (by simp)) hinv hidle hrest
    · rw [if_neg (by simp)]
      exact ih fun j hj => horder j (by simp [hj])

/-- `ipcbuf_lock_read` either takes a slot or fails and leaves the process as it was. -/
theorem ensures_lockRead {Q : ℤ → Ipcbuf → Ghost C → Prop} (hd : d.state = .viewer)
    (hi : d.iread = none) (hfail : Q (-1) d .idle)
    (h : ∀ i γ v, i < g.nReaders → RInv C γ i v → RIdle C γ v → C.rrest i v →
      Q 0 { d with
          iread := some i
          state := if v.rState = ProcState.discon.code then .reader else .reading
          xfer := v.rXfer % ipcbufXfers } (.reader i γ v)) :
    C.outline.Ensures p (ipcbufLockRead g) d .idle Q := by
  rw [ipcbufLockRead, ensures_bind, ensures_get, if_neg (by simp [hd]), if_neg (by simp [hi]),
    ensures_bind]
  refine ensures_takeRead ?_
  rw [ensures_bind]
  refine ensures_readerOrder fun order horder => ?_
  rw [ensures_bind]
  refine ensures_claimSlot horder ?_ fun i γ v hi hinv hidle hrest => ?_
  · rw [ensures_pure]
    exact hfail
  · simp only [ensures_bind, ensures_modify]
    refine ensures_rtest (by simp [Var.isReaders]) fun γ₁ h₁ => ?_
    refine ensures_rload (by simp [Var.isReaders]) fun γ₂ h₂ => ?_
    rw [ensures_pure]
    have hle := h₁.trans h₂
    have := h i γ₂ v hi (hinv.mono hle) (hidle.mono hle) hrest
    simpa [RView.load] using this

/-- `ipcbuf_unlock_read` gives the slot back. -/
theorem ensures_unlockRead {Q : ℤ → Ipcbuf → Ghost C → Prop} (hd : d.isReader = true)
    (hi : d.iread = some i) (hlt : i < g.nReaders)
    (h : (∃ s : Ring, s.rview i = v ∧ C.ok p (.semop (.readerConn i) 1 true) s) →
      RIdle C γ v ∧ C.rrest i v ∧ Q 0 { d with state := .viewer, iread := none } .idle) :
    C.outline.Ensures p (ipcbufUnlockRead g) d (.reader i γ v) Q := by
  rw [ipcbufUnlockRead, ensures_bind, ensures_get, if_neg (by simp [hd])]
  simp only [hi]
  rw [if_neg (by simpa using hlt), ensures_bind]
  refine ensures_unclaim fun hex => ?_
  obtain ⟨hidle, hrest, hQ⟩ := h hex
  refine ⟨hidle, hrest, ?_⟩
  rw [ensures_bind]
  refine ensures_postRead ?_
  rw [ensures_bind, ensures_modify, ensures_pure]
  exact hQ

end Reader

end Psrdada
