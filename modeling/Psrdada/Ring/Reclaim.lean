import Psrdada.Ring.Rules
import Mathlib.Algebra.BigOperators.Group.Finset.Piecewise
import Mathlib.Data.Nat.ModEq

/-! # Reclaiming a sub-block

Before the writer takes the next sub-block it waits, once for each transfer pending in it, until
every reader has cleared one more.  The tokens of `CLEAR` are anonymous: they count the sub-blocks a
reader has cleared, in the order of the log.  `Reclaim` says why this is enough: in a strict log the
sub-blocks that have not been reclaimed are the latest ones, no two of them fall on the same part of
the ring unless they have the same number, and the pending counts are theirs. -/

namespace Psrdada

open Concurrency Outline

section UpTo

variable {α : Type}

/-- `f` with the first `k` values replaced by those of `f'`. -/
def upTo (k : ℕ) (f' f : ℕ → α) (j : ℕ) : α := if j < k then f' j else f j

@[simp] theorem upTo_zero (f' f : ℕ → α) : upTo 0 f' f = f := by
  funext j
  simp [upTo]

theorem upTo_of_lt {k j : ℕ} (f' f : ℕ → α) (h : j < k) : upTo k f' f j = f' j := if_pos h

@[simp] theorem upTo_self (k : ℕ) (f' f : ℕ → α) : upTo k f' f k = f k := by simp [upTo]

/-- Replacing the next value. -/
theorem update_upTo (k : ℕ) (f' f : ℕ → α) :
    Function.update (upTo k f' f) k (f' k) = upTo (k + 1) f' f := by
  funext j
  by_cases hj : j = k
  · subst hj
    simp [upTo]
  · have : (j < k + 1) ↔ j < k := by omega
    simp [upTo, hj, this]

end UpTo

/-- `f` with the first `k` values higher by `a`. -/
def bump (a : ℕ) (f : ℕ → ℕ) (k : ℕ) : ℕ → ℕ := upTo k (fun j => f j + a) f

@[simp] theorem bump_zero (a : ℕ) (f : ℕ → ℕ) : bump a f 0 = f := upTo_zero _ _

@[simp] theorem bump_self (a : ℕ) (f : ℕ → ℕ) (k : ℕ) : bump a f k k = f k := upTo_self _ _ _

theorem bump_of_lt {a : ℕ} {f : ℕ → ℕ} {k j : ℕ} (h : j < k) : bump a f k j = f j + a :=
  upTo_of_lt _ _ h

theorem le_bump (a : ℕ) (f : ℕ → ℕ) (k j : ℕ) : f j ≤ bump a f k j := by
  simp only [bump, upTo]
  split <;> omega

theorem bump_le (a : ℕ) (f : ℕ → ℕ) (k j : ℕ) : bump a f k j ≤ f j + a := by
  simp only [bump, upTo]
  split <;> omega

/-- Raising the next value. -/
theorem update_bump (a : ℕ) (f : ℕ → ℕ) (k : ℕ) :
    Function.update (bump a f k) k (f k + a) = bump a f (k + 1) :=
  update_upTo k (fun j => f j + a) f

/-- Two numbers less than `n` apart and congruent modulo `n` are equal. -/
theorem eq_of_mod_eq_of_lt {a b n : ℕ} (h : a % n = b % n) (hab : a ≤ b) (hba : b < a + n) :
    a = b := by
  have hd : n ∣ b - a := (Nat.modEq_iff_dvd' hab).mp h
  have := Nat.eq_zero_of_dvd_of_lt hd (by omega)
  omega

variable {g : Geometry} {C : Contract g}

/-! ## The writer's invariant under single accesses -/

/-- The variables that say nothing of published sub-blocks. -/
def Var.isCursor : Var → Bool
  | .wBufNext | .wBufCurr | .wState | .wXfer => true
  | _ => false

/-- The variables that say where transfers begin and end. -/
def Var.isArray : Var → Bool
  | .sBuf _ | .sByte _ | .eod _ | .eBuf _ | .eByte _ => true
  | _ => false

namespace WInv

variable {γ : C.Log} {v : WView}

/-- A change of the arrays has to leave what a reader may still look at. -/
theorem store_array (h : WInv C γ v) {x : Var} (hx : x.isArray = true) {a : ℕ} {b : Bool}
    (hstart : ∀ i < g.nReaders, ∀ t ∈ γ.toks, v.sodTaken i ≤ t.xfer + ipcbufXfers →
      t.StartAt (v.sync.store x a))
    (hstop : ∀ i < g.nReaders, ∀ t ∈ γ.toks, v.eodTaken i ≤ t.xfer + ipcbufXfers →
      t.EndAt (γ.settled || b) (v.sync.store x a)) :
    WInv C (γ.settle b) (v.store x a) := by
  cases x <;> first
    | exact ⟨hstart, hstop, h.bytes, h.posted, h.full, fun ht i hi =>
        ⟨(h.accounted ht i hi).1, (h.accounted ht i hi).2, (h.accounted ht i hi).3⟩, h.xfer,
        h.note⟩
    | simp [Var.isArray] at hx

theorem store_cursor (h : WInv C γ v) {x : Var} (hx : x.isCursor = true)
    (hbusy : C.tight → ¬ Quiet v.notes) {a : ℕ} (hup : x = .wXfer → v.sync.wXfer ≤ a) :
    WInv C γ (v.store x a) := by
  have hacc : C.tight → ∀ i < g.nReaders, (v.store x a).Accounted g i := fun ht i hi => by
    have := h.accounted ht i hi
    cases x <;> first
      | exact ⟨this.1, this.2, fun hq => absurd hq (hbusy ht)⟩
      | simp [Var.isCursor] at hx
  have hxfer : nextXfer γ.toks ≤ (v.store x a).sync.wXfer := by
    cases x <;> first
      | exact h.xfer
      | exact h.xfer.trans (hup rfl)
  cases x <;> first
    | exact ⟨h.start, h.stop, h.bytes, h.posted, h.full, hacc, hxfer, h.note⟩
    | simp [Var.isCursor] at hx

/-- A change of the pending counts has to be accounted for. -/
theorem store_count (h : WInv C γ v) {b a : ℕ}
    (hacc : C.tight → ∀ i < g.nReaders, (v.store (.count b) a).Accounted g i) :
    WInv C γ (v.store (.count b) a) :=
  ⟨h.start, h.stop, h.bytes, h.posted, h.full, hacc, h.xfer, h.note⟩

theorem takeSod (h : WInv C γ v) (hbusy : C.tight → ¬ Quiet v.notes) (i : ℕ) :
    WInv C γ (v.takeSod i) where
  start j hj t ht hle := by
    refine h.start j hj t ht (le_trans ?_ hle)
    by_cases hji : j = i
    · subst hji; simp [WView.takeSod]
    · simp [WView.takeSod, hji]
  stop := h.stop
  bytes := h.bytes
  posted := h.posted
  full := h.full
  accounted ht j hj :=
    ⟨(h.accounted ht j hj).1, (h.accounted ht j hj).2, fun hq => absurd hq (hbusy ht)⟩
  xfer := h.xfer
  note := h.note

theorem takeEod (h : WInv C γ v) (hbusy : C.tight → ¬ Quiet v.notes) (i : ℕ) :
    WInv C γ (v.takeEod i) where
  start := h.start
  stop j hj t ht hle := by
    refine h.stop j hj t ht (le_trans ?_ hle)
    by_cases hji : j = i
    · subst hji; simp [WView.takeEod]
    · simp [WView.takeEod, hji]
  bytes := h.bytes
  posted := h.posted
  full := h.full
  accounted ht j hj :=
    ⟨(h.accounted ht j hj).1, (h.accounted ht j hj).2, fun hq => absurd hq (hbusy ht)⟩
  xfer := h.xfer
  note := h.note

theorem takeClr (h : WInv C γ v) (i : ℕ)
    (hacc : C.tight → ∀ j < g.nReaders, (v.takeClr i).Accounted g j) :
    WInv C γ (v.takeClr i) where
  start := h.start
  stop := h.stop
  bytes j hj t ht := by
    refine h.bytes j hj t (List.mem_of_mem_drop (i := (v.takeClr i).clrTaken j - v.clrTaken j) ?_)
    have hle : v.clrTaken j ≤ (v.takeClr i).clrTaken j := by
      by_cases hji : j = i
      · subst hji; simp [WView.takeClr]
      · simp [WView.takeClr, hji]
    rwa [List.drop_drop, Nat.add_sub_cancel' hle]
  posted := h.posted
  full := h.full
  accounted := hacc
  xfer := h.xfer
  note := h.note

end WInv

/-! ## Reclaiming -/

namespace Reclaim

variable {γ : C.Log} {v : WView} {rec hi : ℕ}

theorem blk_lt (h : Reclaim C γ v rec hi) {t : Tok} (ht : t ∈ γ.toks.drop rec) :
    t.blk < v.sync.wBufNext :=
  h.blk t (List.mem_of_mem_drop ht)

/-- Two sub-blocks that have not been reclaimed are on the same part of the ring only if they have
the same number. -/
theorem blk_eq (h : Reclaim C γ v rec hi) {t u : Tok} (ht : t ∈ γ.toks.drop rec)
    (hu : u ∈ γ.toks.drop rec) (hmod : t.blk % g.nbufs = u.blk % g.nbufs) : t.blk = u.blk := by
  have h₁ := h.blk_lt ht
  have h₂ := h.blk_lt hu
  have h₃ := h.window t ht
  have h₄ := h.window u hu
  have h₅ := h.next_le
  rcases Nat.le_total t.blk u.blk with hle | hle
  · exact eq_of_mod_eq_of_lt hmod hle (by omega)
  · exact (eq_of_mod_eq_of_lt hmod.symm hle (by omega)).symm

/-- At most two transfers are pending in a sub-block. -/
theorem countP_le_two (hs : C.strict) (h : Reclaim C γ v rec hi) (j : ℕ) :
    ((γ.toks.drop rec).countP fun t => t.blk % g.nbufs = j) ≤ 2 := by
  rcases Nat.eq_zero_or_pos ((γ.toks.drop rec).countP fun t => t.blk % g.nbufs = j) with h0 | h0
  · omega
  · obtain ⟨t, ht, hj⟩ := List.countP_pos_iff.mp h0
    rw [decide_eq_true_eq] at hj
    refine le_trans ?_ (PubLog.length_filter_blk_le hs (List.drop_sublist rec γ.toks) t.blk)
    rw [← List.countP_eq_length_filter]
    refine List.countP_mono_left fun u hu huj => ?_
    rw [decide_eq_true_eq] at huj ⊢
    exact h.blk_eq hu ht (huj.trans hj.symm)

/-- What has not been reclaimed is on other parts of the ring than what the writer has taken. -/
theorem blk_mod_ne (h : Reclaim C γ v rec hi) {t : Tok} (ht : t ∈ γ.toks.drop rec) {b : ℕ}
    (hb : b < hi) (htb : t.blk < b) : t.blk % g.nbufs ≠ b % g.nbufs := by
  intro hmod
  have hw := h.window t ht
  have := eq_of_mod_eq_of_lt hmod htb.le (by omega)
  omega

/-- When transfers are pending in the sub-block that the writer is about to take, the first
sub-block that has not been reclaimed is one of them. -/
theorem first_pending (hs : C.strict) (h : Reclaim C γ v rec hi)
    (hc : v.sync.count (v.sync.wBufNext % g.nbufs) ≠ 0) :
    hi = v.sync.wBufNext ∧ ∃ t, γ.toks[rec]? = some t ∧ t.blk + g.nbufs = v.sync.wBufNext := by
  rw [h.count _ (Nat.mod_lt _ g.nbufs_pos)] at hc
  obtain ⟨t, ht, hmod⟩ := List.countP_pos_iff.mp (Nat.pos_of_ne_zero hc)
  rw [decide_eq_true_eq] at hmod
  have hlt := h.blk_lt ht
  have hw := h.window t ht
  have hnext := h.next_le
  have heq : t.blk + g.nbufs = v.sync.wBufNext := by
    by_contra hne
    exact absurd (eq_of_mod_eq_of_lt hmod hlt.le (by omega)) (by omega)
  obtain ⟨u, l, hul⟩ : ∃ u l, γ.toks.drop rec = u :: l := by
    cases hl : γ.toks.drop rec with
    | nil => simp [hl] at ht
    | cons u l => exact ⟨u, l, rfl⟩
  have hu : u ∈ γ.toks.drop rec := by simp [hul]
  have hle : u.blk ≤ t.blk := by
    rw [hul] at ht
    rcases List.mem_cons.mp ht with rfl | ht
    · exact le_rfl
    · have hp := γ.pairwise.drop (i := rec)
      rw [hul] at hp
      rcases ((List.pairwise_cons.mp hp).1 t ht).blk hs with hb | ⟨hb, -⟩ <;> omega
  have huw := h.window u hu
  refine ⟨by omega, u, ?_, by omega⟩
  have := congrArg List.head? hul
  simpa [List.head?_drop] using this

/-- Reclaiming the first sub-block that has not been reclaimed. -/
theorem step (hs : C.strict) (h : Reclaim C γ v rec hi)
    (hc : v.sync.count (v.sync.wBufNext % g.nbufs) ≠ 0) :
    Reclaim C γ
      { v with
        sync := v.sync.store (.count (v.sync.wBufNext % g.nbufs))
          ((v.sync.count (v.sync.wBufNext % g.nbufs) + 255) % 256)
        clrTaken := bump 1 v.clrTaken g.nReaders } (rec + 1) hi where
  rec_le := by
    obtain ⟨-, t, ht, -⟩ := h.first_pending hs hc
    exact (List.getElem?_eq_some_iff.mp ht).1
  taken i hi := by
    have := h.taken i hi
    simp only [bump_of_lt hi]
    omega
  next_le := h.next_le
  le_curr := h.le_curr
  high := h.high
  blk := h.blk
  window t ht := h.window t (List.mem_of_mem_drop (i := 1) (by rwa [List.drop_drop]))
  count j hj := by
    obtain ⟨-, t, ht, hblk⟩ := h.first_pending hs hc
    have hcons : γ.toks.drop rec = t :: γ.toks.drop (rec + 1) := by
      obtain ⟨hlt, rfl⟩ := List.getElem?_eq_some_iff.mp ht
      exact List.drop_eq_getElem_cons hlt
    have hmod : t.blk % g.nbufs = v.sync.wBufNext % g.nbufs := by
      rw [← hblk, Nat.add_mod_right]
    have hcount := h.count j hj
    have htwo := h.countP_le_two hs j
    rw [hcons, List.countP_cons] at hcount htwo
    by_cases hjb : j = v.sync.wBufNext % g.nbufs
    · subst hjb
      simp only [hmod, decide_true, if_true] at hcount htwo
      simp only [Ipcsync.store, Function.update_self]
      omega
    · simp only [hmod, Ne.symm hjb, decide_false, Bool.false_eq_true, if_false,
        Nat.add_zero] at hcount
      simpa [Ipcsync.store, hjb] using hcount

/-- Taking the next sub-block once nothing is pending in it. -/
theorem take (h : Reclaim C γ v rec hi)
    (hc : v.sync.count (v.sync.wBufNext % g.nbufs) = 0)
    (hroom : v.sync.wBufNext < v.sync.wBufCurr + g.nbufs) :
    Reclaim C γ (v.store .wBufNext (v.sync.wBufNext + 1)) rec
      (max hi (v.sync.wBufNext + 1)) where
  rec_le := h.rec_le
  taken := h.taken
  next_le := le_max_right _ _
  le_curr := max_le h.le_curr hroom
  high hr := by
    rw [h.high hr]
    simp [WView.store, Ipcsync.store]
  blk t ht := (h.blk t ht).trans (Nat.lt_succ_self _)
  window t ht := by
    have hw := h.window t ht
    have hlt := h.blk_lt ht
    have hnext := h.next_le
    have hmod : t.blk % g.nbufs ≠ v.sync.wBufNext % g.nbufs := fun hmod => by
      rw [h.count _ (Nat.mod_lt _ g.nbufs_pos), List.countP_eq_zero] at hc
      exact hc t ht (by simpa using hmod)
    have hne : t.blk + g.nbufs ≠ v.sync.wBufNext := fun heq => hmod (by
      rw [← heq, Nat.add_mod_right])
    omega
  count := h.count

/-- The pending counts add up to the sub-blocks that have not been reclaimed. -/
theorem pending_eq (h : Reclaim C γ v rec hi) :
    v.sync.pending g = (γ.toks.drop rec).length := by
  have hsum : ∀ l : List Tok,
      ∑ j ∈ Finset.range g.nbufs, l.countP (fun t => t.blk % g.nbufs = j) = l.length := by
    intro l
    induction l with
    | nil => simp
    | cons t l ih =>
      have hj : t.blk % g.nbufs ∈ Finset.range g.nbufs :=
        Finset.mem_range.mpr (Nat.mod_lt _ g.nbufs_pos)
      simp only [List.countP_cons, decide_eq_true_eq, Finset.sum_add_distrib, ih,
        Finset.sum_ite_eq, hj, if_true, List.length_cons]
  rw [Ipcsync.pending, ← hsum]
  exact Finset.sum_congr rfl fun j hj => h.count j (Finset.mem_range.mp hj)

/-- The sum of the pending counts, and what has been reclaimed from a reader, add up to the log. -/
theorem pending_add (h : Reclaim C γ v rec hi) {i : ℕ} (hi : i < g.nReaders) :
    v.sync.pending g + v.clrTaken i = γ.toks.length := by
  rw [h.pending_eq, h.taken i hi, List.length_drop, Nat.sub_add_cancel h.rec_le]

end Reclaim

/-! ## The routines -/

/-- The writer's view with other pending counts and more reclaimed. -/
def WView.reclaimed (v : WView) (c k : ℕ → ℕ) : WView :=
  { v with sync := { v.sync with count := c }, clrTaken := k }

variable (C) in
/-- A call of the writer is in progress, and all that has been published has been posted. -/
def InCall (γ : C.Log) (v : WView) : Prop :=
  C.tight → (∀ i < g.nReaders, v.fullPosted i = γ.toks.length) ∧ ¬ Quiet v.notes

variable {p : ℕ} {γ : C.Log} {v : WView} {d : Ipcbuf}

/-- While the writer reclaims a sub-block, every reader's account is at most one ahead. -/
theorem InCall.accounted (hcall : InCall C γ v) (hre : Reclaims C γ v) (ht : C.tight) (m : ℕ) :
    ∀ i < g.nReaders, ({ v with clrTaken := bump 1 v.clrTaken m } : WView).Accounted g i := by
  intro i hi
  obtain ⟨hposted, hbusy⟩ := hcall ht
  obtain ⟨rec, hi', h⟩ := hre (C.strict_of_tight ht)
  have hadd := h.pending_add hi
  have hp := hposted i hi
  have hle : bump 1 v.clrTaken m i ≤ v.clrTaken i + 1 := bump_le 1 v.clrTaken m i
  have hge := le_bump 1 v.clrTaken m i
  exact ⟨by simp only; omega, by simp only; omega, fun hq => absurd hq hbusy⟩

/-- `reclaim` leaves nothing pending in the sub-block that the writer is about to take. -/
theorem ensures_reclaim {Q : Unit → Ipcbuf → Ghost C → Prop} (hre : Reclaims C γ v)
    (hcall : InCall C γ v)
    (h : ∀ c k, Reclaims C γ (v.reclaimed c k) → c (v.sync.wBufNext % g.nbufs) = 0 →
      Q () d (.writer γ (v.reclaimed c k))) :
    C.outline.Ensures p (reclaim g (v.sync.wBufNext % g.nbufs)) d (.writer γ v) Q := by
  refine ensures_iterate (fun _ t l => t = d ∧ ∃ c k, l = .writer γ (v.reclaimed c k) ∧
    Reclaims C γ (v.reclaimed c k)) ⟨rfl, v.sync.count, v.clrTaken, rfl, hre⟩ ?_
  rintro _ d _ ⟨rfl, c, k, rfl, hre'⟩
  have hcall' : InCall C γ (v.reclaimed c k) := hcall
  rw [ensures_bind]
  refine ensures_load rfl rfl fun _ => ?_
  by_cases hc : c (v.sync.wBufNext % g.nbufs) = 0
  · rw [if_neg (by simpa [WView.reclaimed, Ipcsync.load] using hc)]
    exact h c k hre' hc
  rw [if_pos (by simpa [WView.reclaimed, Ipcsync.load] using hc), ensures_bind]
  -- one token of every reader: the account of those that gave theirs is one ahead
  refine ensures_mono (ensures_countUp (fun m t l => t = d ∧
    l = Ghost.writer γ (v.reclaimed c (bump 1 k m))) ⟨rfl, by rw [bump_zero]⟩ ?_) ?_
  · rintro i hi d _ ⟨rfl, rfl⟩
    have hview : (v.reclaimed c (bump 1 k i)).takeClr i = v.reclaimed c (bump 1 k (i + 1)) := by
      simp only [WView.takeClr, WView.reclaimed, bump_self, update_bump]
    refine ensures_takeClr (fun hw => hw.takeClr i fun ht => ?_) fun _ => ⟨rfl, by rw [hview]⟩
    rw [hview]
    exact hcall'.accounted hre' ht (i + 1)
  rintro _ d _ ⟨rfl, rfl⟩
  rw [ensures_bind]
  refine ensures_load rfl rfl fun _ => ?_
  rw [ensures_bind]
  have hre'' : Reclaims C γ ((v.reclaimed c (bump 1 k g.nReaders)).store
      (.count (v.sync.wBufNext % g.nbufs)) ((c (v.sync.wBufNext % g.nbufs) + 255) % 256)) := by
    intro hs
    obtain ⟨rec, hi, hr⟩ := hre' hs
    exact ⟨rec + 1, hi, hr.step hs hc⟩
  refine ensures_store rfl (fun hw _ => hw.store_count fun ht i hi => ?_) fun _ _ =>
    ⟨rfl, _, _, rfl, hre''⟩
  obtain ⟨hposted, hbusy⟩ := hcall ht
  obtain ⟨rec, hi', hr⟩ := hre'' (C.strict_of_tight ht)
  have hadd := hr.pending_add hi
  have hp := hposted i hi
  exact ⟨hp.trans_le hadd.ge, hadd.trans_le (by rw [← hp]; exact Nat.le_succ _),
    fun hq => absurd hq hbusy⟩

/-- There is room for the next sub-block, whenever a step that takes it is assumed of. -/
def HasRoom (C : Contract g) (p : ℕ) (v : WView) : Prop :=
  C.strict → ∀ w : WView, C.Allowed p (.store .wBufNext (v.sync.wBufNext + 1)) w →
    w.sync.wBufCurr = v.sync.wBufCurr → v.sync.wBufNext < v.sync.wBufCurr + g.nbufs

/-- `takeNextWrite` takes the next sub-block. -/
theorem ensures_takeNextWrite {Q : Option ℕ → Ipcbuf → Ghost C → Prop} (hre : Reclaims C γ v)
    (hcall : InCall C γ v) (hroom : HasRoom C p v)
    (h : ∀ c k, Reclaims C γ ((v.reclaimed c k).store .wBufNext (v.sync.wBufNext + 1)) →
      Q (some (v.sync.wBufNext % g.nbufs)) d
        (.writer γ ((v.reclaimed c k).store .wBufNext (v.sync.wBufNext + 1)))) :
    C.outline.Ensures p (takeNextWrite g) d (.writer γ v) Q := by
  rw [takeNextWrite, ensures_bind]
  refine ensures_load rfl rfl fun _ => ?_
  rw [ensures_bind]
  refine ensures_reclaim hre hcall fun c k hre' hc => ?_
  rw [ensures_bind]
  refine ensures_load rfl rfl fun _ => ?_
  rw [ensures_bind]
  refine ensures_store rfl (fun hw _ => hw.store_cursor rfl (fun ht => (hcall ht).2) (by simp)) fun _ hok => ?_
  refine h c k fun hs => ?_
  obtain ⟨rec, hi, hr⟩ := hre' hs
  exact ⟨rec, _, hr.take hc (hroom hs _ hok rfl)⟩

end Psrdada
