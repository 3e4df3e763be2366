import Psrdada.Ring.Invariant
import Psrdada.Ring.Ipcbuf

/-! # Rules for the accesses of a role

One rule for each access that the writer or a reader makes, in the form of a precondition: what must
hold of its own view for the access to keep the invariant.  Loads of the writer are exact.  A reader
that loads a variable of the writer learns what the invariant says of it at that moment. -/

namespace Psrdada

open Concurrency Outline

variable {g : Geometry} {C : Contract g} {p : ℕ} {τ : Type} {t : τ} {γ : C.Log}

@[simp] theorem toShort_one : toShort 1 = 1 := by decide

@[simp] theorem toShort_neg_one : toShort (-1) = -1 := by decide

theorem toShort_of_lt {n : ℕ} (h : n < 2 ^ 15) : toShort n = n := by
  simp only [toShort]
  rw [Int.bmod_eq_of_le] <;> omega

theorem semop_of_exec {s s' : Ring} {x : Sem} {op : ℤ} {undo : Bool} {r : Unit}
    (h : ringExec g p (.semop x op undo) s = some (r, s')) :
    s.semop g p x op undo = some s' := by
  obtain ⟨_, ha, hpair⟩ := Option.map_eq_some_iff.mp h
  cases hpair
  exact ha

theorem nowait_of_exec {s s' : Ring} {x : Sem} {op : ℤ} {undo : Bool} {r : Bool}
    (h : ringExec g p (.semopNowait x op undo) s = some (r, s')) :
    (r = true ∧ s.semop g p x op undo = some s') ∨
      (r = false ∧ s' = s ∧ s.semop g p x op undo = none) := by
  unfold ringExec at h
  dsimp only at h
  cases hop : s.semop g p x op undo with
  | none =>
    rw [hop] at h
    cases h
    exact .inr ⟨rfl, rfl, rfl⟩
  | some s'' =>
    rw [hop] at h
    cases h
    exact .inl ⟨rfl, rfl⟩

theorem Sem.sodack_injective : Function.Injective Sem.sodack := fun _ _ => Sem.sodack.inj

theorem Sem.eodack_injective : Function.Injective Sem.eodack := fun _ _ => Sem.eodack.inj

theorem Sem.clear_injective : Function.Injective Sem.clear := fun _ _ => Sem.clear.inj

theorem Sem.full_injective : Function.Injective Sem.full := fun _ _ => Sem.full.inj

/-- A semaphore operation keeps a semaphore what it was at first plus what moved. -/
theorem Ring.Coherent.dec {s s' : Ring} {x : Sem} (h : s.Coherent g) (hpos : 1 ≤ s.sem x)
    (hsem : s'.sem = Function.update s.sem x (s.sem x - 1)) (hposts : s'.posts = s.posts)
    (htakes : s'.takes = Function.update s.takes x (s.takes x + 1)) : s'.Coherent g := by
  intro y
  have hy := h y
  rw [hsem, hposts, htakes]
  by_cases hyx : y = x
  · subst hyx
    simp only [Function.update_self]
    omega
  · simpa [hyx] using hy

theorem Ring.Coherent.inc {s s' : Ring} {x : Sem} {k : ℕ} (h : s.Coherent g)
    (hsem : s'.sem = Function.update s.sem x (s.sem x + k))
    (hposts : s'.posts = Function.update s.posts x (s.posts x + k))
    (htakes : s'.takes = s.takes) : s'.Coherent g := by
  intro y
  have hy := h y
  rw [hsem, hposts, htakes]
  by_cases hyx : y = x
  · subst hyx
    simp only [Function.update_self]
    omega
  · simpa [hyx] using hy

/-! ## The writer -/

section Writer

variable {v : WView}

/-- A step is assumed of this access in some state with the writer's view `v`. -/
def Contract.Allowed (C : Contract g) (p : ℕ) (o : Op) (v : WView) : Prop :=
  ∃ s : Ring, s.wview = v ∧ C.ok p o s

/-- The rule that all rules of the writer come from. -/
theorem ensures_writer {o : Op} {Q : ringSig.Res o → τ → Ghost C → Prop}
    (h : ∀ s : Ring, s.wview = v → s.Coherent g → WInv C γ v → C.ok p o s →
      C.outline.obs p o s ∧ ∀ r s', ringExec g p o s = some (r, s') →
        s'.Coherent g ∧ s'.sem .write = s.sem .write ∧
        (∀ i, s'.sem (.readerConn i) = s.sem (.readerConn i)) ∧
        (∀ i, s'.rview i = s.rview i) ∧
        ∃ γ', γ ≤ γ' ∧ WInv C γ' s'.wview ∧ Q r t (.writer γ' s'.wview)) :
    C.outline.Ensures p (Routine.perform (S := ringSig) o) t (.writer γ v) Q := by
  rw [ensures_perform]
  intro γ₁ G s hinv hp hok
  obtain ⟨rfl, rfl⟩ : γ = γ₁ ∧ v = s.wview := by
    have := hinv.agrees p
    rwa [hp] at this
  obtain ⟨hobs, hnext⟩ := h s rfl hinv.coherent hinv.winv hok
  refine ⟨hobs, fun r s' he => ?_⟩
  obtain ⟨hcoh, hwrite, hconn, hr, γ', hle, hw, hQ⟩ := hnext r s' he
  exact ⟨γ', _, hinv.writer_step hp hcoh hwrite hconn hr hle hw, hQ⟩

/-- The writer loads one of its variables. -/
theorem ensures_load {x : Var} {a : ℕ} {Q : ℕ → τ → Ghost C → Prop}
    (hx : x.isWriters = true) (ha : v.sync.load x = a) (h : WInv C γ v → Q a t (.writer γ v)) :
    C.outline.Ensures p (load x) t (.writer γ v) Q := by
  subst ha
  refine ensures_writer fun s hs hcoh hw _ => ⟨trivial, fun r s' he => ?_⟩
  cases he
  refine ⟨hcoh, rfl, fun _ => rfl, fun _ => rfl, γ, le_rfl, hs ▸ hw, ?_⟩
  have hload : v.sync.load x = s.sync.load x := by rw [← hs]; exact Ipcsync.load_writers hx
  rw [hs, ← hload]
  exact h hw

/-- The writer compares one of its variables. -/
theorem ensures_test {x : Var} {a : ℕ} {Q : Bool → τ → Ghost C → Prop}
    (hx : x.isWriters = true) (h : WInv C γ v → Q (v.sync.load x == a) t (.writer γ v)) :
    C.outline.Ensures p (test x a) t (.writer γ v) Q := by
  refine ensures_writer fun s hs hcoh hw _ => ⟨trivial, fun r s' he => ?_⟩
  cases he
  refine ⟨hcoh, rfl, fun _ => rfl, fun _ => rfl, γ, le_rfl, hs ▸ hw, ?_⟩
  have hload : v.sync.load x = s.sync.load x := by rw [← hs]; exact Ipcsync.load_writers hx
  rw [hs, ← hload]
  exact h hw

/-- The writer stores into one of its variables, and may publish with it. -/
theorem ensures_store_publish {x : Var} {a : ℕ} {Q : Unit → τ → Ghost C → Prop}
    (hx : x.isWriters = true)
    (h : WInv C γ v → C.Allowed p (.store x a) v →
      ∃ γ', γ ≤ γ' ∧ WInv C γ' (v.store x a) ∧ Q () t (.writer γ' (v.store x a))) :
    C.outline.Ensures p (store x a) t (.writer γ v) Q := by
  refine ensures_writer fun s hs hcoh hw hok => ⟨trivial, fun r s' he => ?_⟩
  cases he
  have hview : Ring.wview { s with sync := s.sync.store x a } = v.store x a := by
    subst hs
    simp [Ring.wview, WView.store, Ipcsync.writers_store hx]
  refine ⟨hcoh, rfl, fun _ => rfl, fun i => ?_, ?_⟩
  · cases x <;> first | rfl | simp [Var.isWriters] at hx
  · rw [hview]
    exact h hw ⟨s, hs, hok⟩

/-- The writer stores into one of its variables. -/
theorem ensures_store {x : Var} {a : ℕ} {Q : Unit → τ → Ghost C → Prop}
    (hx : x.isWriters = true)
    (hinv : WInv C γ v → C.Allowed p (.store x a) v → WInv C γ (v.store x a))
    (h : WInv C γ (v.store x a) → C.Allowed p (.store x a) v →
      Q () t (.writer γ (v.store x a))) :
    C.outline.Ensures p (store x a) t (.writer γ v) Q :=
  ensures_store_publish hx fun hw hok => ⟨γ, le_rfl, hinv hw hok, h (hinv hw hok) hok⟩

/-- The writer writes a byte of a sub-block. -/
theorem ensures_writeByte {b off : ℕ} {d : UInt8} {Q : Unit → τ → Ghost C → Prop}
    (hinv : WInv C γ v → WInv C γ (v.writeByte b off d))
    (h : Q () t (.writer γ (v.writeByte b off d))) :
    C.outline.Ensures p (Routine.perform (S := ringSig) (.writeByte b off d)) t
      (.writer γ v) Q := by
  refine ensures_writer fun s hs hcoh hw _ => ⟨trivial, fun r s' he => ?_⟩
  cases he
  subst hs
  exact ⟨hcoh, rfl, fun _ => rfl, fun _ => rfl, γ, le_rfl, hinv hw, h⟩

/-- The writer makes a note. -/
theorem ensures_wnote {e : Event} {Q : Unit → τ → Ghost C → Prop}
    (he : e.isWriters = true)
    (hobs : ∀ s : Ring, s.wview = v → s.Coherent g → WInv C γ v → C.observe e s)
    (h : WInv C γ v → WInv C γ (v.note e) ∧ Q () t (.writer γ (v.note e))) :
    C.outline.Ensures p (note e) t (.writer γ v) Q := by
  refine ensures_writer fun s hs hcoh hw _ => ⟨hobs s hs hcoh hw, fun r s' hex => ?_⟩
  cases hex
  have hr : ∀ i, e.isReaders i = false := fun i => by
    cases e <;> first | rfl | simp [Event.isWriters] at he
  have hview : Ring.wview { s with notes := s.notes ++ [e] } = v.note e := by
    subst hs
    simp [Ring.wview, WView.note, he]
  refine ⟨hcoh, rfl, fun _ => rfl, fun i => ?_, γ, le_rfl, ?_⟩
  · simp [Ring.rview, hr]
  · rw [hview]
    exact h hw

/-- The writer takes from a semaphore. -/
theorem ensures_take {x : Sem} {undo : Bool} {v' : WView} {Q : Unit → τ → Ghost C → Prop}
    (hwrite : x ≠ .write) (hconn : ∀ i, x ≠ .readerConn i) (hfull : ∀ i, x ≠ .full i)
    (hview : ∀ s s' : Ring, s.wview = v → s'.sync = s.sync → s'.buffer = s.buffer →
      s'.notes = s.notes → s'.full = s.full → s'.posts = s.posts →
      s'.takes = Function.update s.takes x (s.takes x + 1) → s'.wview = v')
    (hinv : WInv C γ v → WInv C γ v') (h : WInv C γ v' → Q () t (.writer γ v')) :
    C.outline.Ensures p (ipcSemop x (-1) undo) t (.writer γ v) Q := by
  rw [ipcSemop, toShort_neg_one]
  refine ensures_writer fun s hs hcoh hw _ => ⟨trivial, fun r s' he => ?_⟩
  have hop := semop_of_exec he
  obtain ⟨hpos, hsync, hbuf, hnotes, hfull', hsem, hposts, htakes⟩ := Ring.semop_neg_one hop
  refine ⟨hcoh.dec hpos hsem hposts htakes, ?_, fun i => ?_, fun i => ?_, γ, le_rfl, ?_⟩
  · rw [hsem, Function.update_of_ne (Ne.symm hwrite)]
  · rw [hsem, Function.update_of_ne (Ne.symm (hconn i))]
  · simp [Ring.rview, hsync, hposts, hnotes, htakes, Function.update_of_ne (Ne.symm (hfull i))]
  · rw [hview s s' hs hsync hbuf hnotes hfull' hposts htakes]
    exact ⟨hinv hw, h (hinv hw)⟩

theorem ensures_takeSod {i : ℕ} {undo : Bool} {Q : Unit → τ → Ghost C → Prop}
    (hinv : WInv C γ v → WInv C γ (v.takeSod i))
    (h : WInv C γ (v.takeSod i) → Q () t (.writer γ (v.takeSod i))) :
    C.outline.Ensures p (ipcSemop (.sodack i) (-1) undo) t (.writer γ v) Q := by
  refine ensures_take (by simp) (by simp) (by simp) ?_ hinv h
  rintro s s' rfl hsync hbuf hnotes hfull hposts htakes
  have hsod := Function.update_comp_eq_of_injective' s.takes Sem.sodack_injective i
    (s.takes (.sodack i) + 1)
  simp [Ring.wview, WView.takeSod, hsync, hbuf, hnotes, hfull, hposts, hsod, htakes]

theorem ensures_takeEod {i : ℕ} {undo : Bool} {Q : Unit → τ → Ghost C → Prop}
    (hinv : WInv C γ v → WInv C γ (v.takeEod i))
    (h : WInv C γ (v.takeEod i) → Q () t (.writer γ (v.takeEod i))) :
    C.outline.Ensures p (ipcSemop (.eodack i) (-1) undo) t (.writer γ v) Q := by
  refine ensures_take (by simp) (by simp) (by simp) ?_ hinv h
  rintro s s' rfl hsync hbuf hnotes hfull hposts htakes
  have heod := Function.update_comp_eq_of_injective' s.takes Sem.eodack_injective i
    (s.takes (.eodack i) + 1)
  simp [Ring.wview, WView.takeEod, hsync, hbuf, hnotes, hfull, hposts, heod, htakes]

theorem ensures_takeClr {i : ℕ} {undo : Bool} {Q : Unit → τ → Ghost C → Prop}
    (hinv : WInv C γ v → WInv C γ (v.takeClr i))
    (h : WInv C γ (v.takeClr i) → Q () t (.writer γ (v.takeClr i))) :
    C.outline.Ensures p (ipcSemop (.clear i) (-1) undo) t (.writer γ v) Q := by
  refine ensures_take (by simp) (by simp) (by simp) ?_ hinv h
  rintro s s' rfl hsync hbuf hnotes hfull hposts htakes
  have hclr := Function.update_comp_eq_of_injective' s.takes Sem.clear_injective i
    (s.takes (.clear i) + 1)
  simp [Ring.wview, WView.takeClr, hsync, hbuf, hnotes, hfull, hposts, hclr, htakes]

/-- The writer posts to `FULL` of a reader. -/
theorem ensures_postFull {i k : ℕ} {undo : Bool} {Q : Unit → τ → Ghost C → Prop}
    (hk : 0 < k) (hshort : k < 2 ^ 15) (hinv : WInv C γ v → WInv C γ (v.postFull g i k))
    (h : Q () t (.writer γ (v.postFull g i k))) :
    C.outline.Ensures p (ipcSemop (.full i) k undo) t (.writer γ v) Q := by
  rw [ipcSemop, toShort_of_lt hshort]
  refine ensures_writer fun s hs hcoh hw _ => ⟨trivial, fun r s' he => ?_⟩
  have hop := semop_of_exec he
  obtain ⟨hsync, hbuf, hnotes, hfull, hsem, hposts, htakes⟩ := Ring.semop_pos hk hop
  have hposted := Function.update_comp_eq_of_injective' s.posts Sem.full_injective i
    (s.posts (.full i) + k)
  have hview : s'.wview = v.postFull g i k := by
    subst hs
    simp [Ring.wview, WView.postFull, hsync, hbuf, hnotes, hfull, Ring.announce, htakes,
      hposts, hposted, Ipcsync.announced_writers]
  refine ⟨hcoh.inc hsem hposts htakes, ?_, fun j => ?_, fun j => ?_, γ, le_rfl, ?_⟩
  · simp [hsem]
  · simp [hsem]
  · simp [Ring.rview, hsync, hposts, hnotes, htakes]
  · rw [hview]
    exact ⟨hinv hw, h⟩

theorem ensures_postFull_one {i : ℕ} {undo : Bool} {Q : Unit → τ → Ghost C → Prop}
    (hinv : WInv C γ v → WInv C γ (v.postFull g i 1))
    (h : Q () t (.writer γ (v.postFull g i 1))) :
    C.outline.Ensures p (ipcSemop (.full i) 1 undo) t (.writer γ v) Q :=
  ensures_postFull Nat.one_pos (by decide) hinv h

/-- A process takes the writer's lock. -/
theorem ensures_lockWrite {undo : Bool} {Q : Unit → τ → Ghost C → Prop}
    (h : ∀ γ v, WInv C γ v → WOk C γ v → C.wrest v → Q () t (.writer γ v)) :
    C.outline.Ensures p (ipcSemop .write (-1) undo) t .idle Q := by
  rw [ipcSemop, toShort_neg_one, ensures_perform]
  intro γ G s hinv hp _
  refine ⟨trivial, fun r s' he => ?_⟩
  have hop := semop_of_exec he
  obtain ⟨hpos, hsync, hbuf, hnotes, hfull, hsem, hposts, htakes⟩ := Ring.semop_neg_one hop
  obtain ⟨hrest, hinv'⟩ := hinv.writer_acquire (u := s') hp
    (hinv.coherent.dec hpos hsem hposts htakes) (by omega) (by simp [hsem]) (by simp [hsem])
    (by simp [Ring.wview, hsync, hbuf, hnotes, hfull, hposts, htakes])
    (by simp [Ring.rview, hsync, hnotes, hposts, htakes])
  exact ⟨γ, _, hinv', h γ _ hinv.winv hrest.1 hrest.2⟩

/-- A process gives the writer's lock back. -/
theorem ensures_unlockWrite {undo : Bool} {Q : Unit → τ → Ghost C → Prop}
    (hok : WOk C γ v) (hrest : C.wrest v) (h : Q () t .idle) :
    C.outline.Ensures p (ipcSemop .write 1 undo) t (.writer γ v) Q := by
  rw [ipcSemop, toShort_one, ensures_perform]
  intro γ₁ G s hinv hp _
  refine ⟨trivial, fun r s' he => ?_⟩
  have hop : s.semop g p .write 1 undo = some s' := semop_of_exec he
  obtain ⟨hsync, hbuf, hnotes, hfull, hsem, hposts, htakes⟩ := Ring.semop_one hop
  obtain ⟨rfl, rfl⟩ : γ = γ₁ ∧ v = s.wview := by
    have := hinv.agrees p
    rwa [hp] at this
  exact ⟨γ, .idle, hinv.writer_release (u := s') hp (hinv.coherent.inc hsem hposts htakes)
    (by simp [hsem]) (by simp [hsem])
    (by simp [Ring.wview, hsync, hbuf, hnotes, hfull, Ring.announce, hposts, htakes])
    (by simp [Ring.rview, hsync, hnotes, hposts, htakes]) ⟨hok, hrest⟩, h⟩

end Writer

/-! ## A reader -/

section Reader

variable {i : ℕ} {v : RView}

/-- The rule that all rules of a reader come from. -/
theorem ensures_reader {o : Op} {Q : ringSig.Res o → τ → Ghost C → Prop}
    (h : ∀ (s : Ring) (γ' : C.Log), s.rview i = v → γ ≤ γ' → i < g.nReaders → s.Coherent g →
      WInv C γ' s.wview → Inv.Bounds i s.wview v → RInv C γ' i v → C.ok p o s →
      C.outline.obs p o s ∧ ∀ r s', ringExec g p o s = some (r, s') →
        s'.Coherent g ∧ s'.sem .write = s.sem .write ∧
        (∀ j, s'.sem (.readerConn j) = s.sem (.readerConn j)) ∧ s'.wview = s.wview ∧
        (∀ j, j ≠ i → s'.rview j = s.rview j) ∧
        RInv C γ' i (s'.rview i) ∧ Q r t (.reader i γ' (s'.rview i))) :
    C.outline.Ensures p (Routine.perform (S := ringSig) o) t (.reader i γ v) Q := by
  rw [ensures_perform]
  intro γ' G s hinv hp hok
  obtain ⟨hi, hle, rfl⟩ : i < g.nReaders ∧ γ ≤ γ' ∧ v = s.rview i := by
    have := hinv.agrees p
    rwa [hp] at this
  obtain ⟨hobs, hnext⟩ := h s γ' rfl hle hi hinv.coherent hinv.winv (Inv.bounds hinv.coherent hi)
    (hinv.rinv i hi) hok
  refine ⟨hobs, fun r s' he => ?_⟩
  obtain ⟨hcoh, hwrite, hconn, hw, hr, hri, hQ⟩ := hnext r s' he
  exact ⟨γ', _, hinv.reader_step hp hcoh hwrite hconn hw hr hri, hQ⟩

theorem RView.load_rview {s : Ring} {x : Var} (hx : x.isReaders i = true) :
    (s.rview i).load x = s.sync.load x := by
  cases x <;> simp only [Var.isReaders, decide_eq_true_eq, Bool.false_eq_true] at hx <;>
    subst hx <;> rfl

/-- A reader loads a variable of its slot. -/
theorem ensures_rload {x : Var} {Q : ℕ → τ → Ghost C → Prop} (hx : x.isReaders i = true)
    (h : ∀ γ', γ ≤ γ' → Q (v.load x) t (.reader i γ' v)) :
    C.outline.Ensures p (load x) t (.reader i γ v) Q := by
  refine ensures_reader fun s γ' hs hle _ hcoh _ _ hri _ => ⟨trivial, fun r s' he => ?_⟩
  cases he
  refine ⟨hcoh, rfl, fun _ => rfl, rfl, fun _ _ => rfl, hs ▸ hri, ?_⟩
  rw [hs, ← RView.load_rview hx, hs]
  exact h γ' hle

/-- A reader compares a variable of its slot. -/
theorem ensures_rtest {x : Var} {a : ℕ} {Q : Bool → τ → Ghost C → Prop}
    (hx : x.isReaders i = true) (h : ∀ γ', γ ≤ γ' → Q (v.load x == a) t (.reader i γ' v)) :
    C.outline.Ensures p (test x a) t (.reader i γ v) Q := by
  refine ensures_reader fun s γ' hs hle _ hcoh _ _ hri _ => ⟨trivial, fun r s' he => ?_⟩
  cases he
  refine ⟨hcoh, rfl, fun _ => rfl, rfl, fun _ _ => rfl, hs ▸ hri, ?_⟩
  rw [hs, ← RView.load_rview hx, hs]
  exact h γ' hle

/-- A reader loads a variable of the writer. -/
theorem ensures_rloadw {x : Var} {Q : ℕ → τ → Ghost C → Prop} (hx : x.isWriters = true)
    (h : ∀ γ' w, γ ≤ γ' → i < g.nReaders → WInv C γ' w → Inv.Bounds i w v →
      Q (w.sync.load x) t (.reader i γ' v)) :
    C.outline.Ensures p (load x) t (.reader i γ v) Q := by
  refine ensures_reader fun s γ' hs hle hi hcoh hw hb hri _ => ⟨trivial, fun r s' he => ?_⟩
  cases he
  refine ⟨hcoh, rfl, fun _ => rfl, rfl, fun _ _ => rfl, hs ▸ hri, ?_⟩
  rw [hs, ← Ipcsync.load_writers hx]
  exact h γ' _ hle hi hw hb

/-- A reader compares a variable of the writer. -/
theorem ensures_rtestw {x : Var} {a : ℕ} {Q : Bool → τ → Ghost C → Prop}
    (hx : x.isWriters = true)
    (h : ∀ γ' w, γ ≤ γ' → i < g.nReaders → WInv C γ' w → Inv.Bounds i w v →
      Q (w.sync.load x == a) t (.reader i γ' v)) :
    C.outline.Ensures p (test x a) t (.reader i γ v) Q := by
  refine ensures_reader fun s γ' hs hle hi hcoh hw hb hri _ => ⟨trivial, fun r s' he => ?_⟩
  cases he
  refine ⟨hcoh, rfl, fun _ => rfl, rfl, fun _ _ => rfl, hs ▸ hri, ?_⟩
  rw [hs, ← Ipcsync.load_writers hx]
  exact h γ' _ hle hi hw hb

/-- A reader reads a byte of a sub-block. -/
theorem ensures_readByte {b off : ℕ} {Q : UInt8 → τ → Ghost C → Prop}
    (h : ∀ γ' w, γ ≤ γ' → i < g.nReaders → WInv C γ' w → Inv.Bounds i w v →
      Q (w.buffer b off) t (.reader i γ' v)) :
    C.outline.Ensures p (Routine.perform (S := ringSig) (.readByte b off)) t
      (.reader i γ v) Q := by
  refine ensures_reader fun s γ' hs hle hi hcoh hw hb hri _ => ⟨trivial, fun r s' he => ?_⟩
  cases he
  refine ⟨hcoh, rfl, fun _ => rfl, rfl, fun _ _ => rfl, hs ▸ hri, ?_⟩
  rw [hs]
  exact h γ' s.wview hle hi hw hb

/-- A reader stores into a variable of its slot. -/
theorem ensures_rstore {x : Var} {a : ℕ} {Q : Unit → τ → Ghost C → Prop}
    (hx : x.isReaders i = true) (h : ∀ γ', γ ≤ γ' → Q () t (.reader i γ' (v.store x a))) :
    C.outline.Ensures p (store x a) t (.reader i γ v) Q := by
  refine ensures_reader fun s γ' hs hle _ hcoh _ _ hri _ => ⟨trivial, fun r s' he => ?_⟩
  cases he
  subst hs
  have hview : Ring.rview { s with sync := s.sync.store x a } i = (s.rview i).store x a := by
    cases x <;> simp only [Var.isReaders, decide_eq_true_eq, Bool.false_eq_true] at hx <;>
      subst hx <;> simp [Ring.rview, RView.store, Ipcsync.store]
  refine ⟨hcoh, rfl, fun _ => rfl, ?_, fun j hj => ?_, ?_, ?_⟩
  · simp [Ring.wview, Ipcsync.writers_store_of_reader hx]
  · cases x <;> simp only [Var.isReaders, decide_eq_true_eq, Bool.false_eq_true] at hx <;>
      subst hx <;> simp [Ring.rview, Ipcsync.store, hj]
  · rw [hview]
    refine ⟨?_, ?_, ?_⟩
    · cases x <;> exact hri.cleared_le
    · cases x <;> exact hri.acq_le
    · cases x <;> exact hri.note
  · rw [hview]
    exact h γ' hle

/-- A reader makes a note. -/
theorem ensures_rnote {e : Event} {Q : Unit → τ → Ghost C → Prop}
    (he : e.isReaders i = true)
    (hobs : ∀ (s : Ring) γ', γ ≤ γ' → s.rview i = v → WInv C γ' s.wview → RInv C γ' i v →
      Inv.Bounds i s.wview v → C.observe e s)
    (h : ∀ γ', γ ≤ γ' → RInv C γ' i v →
      C.rnote γ' i (v.notes ++ [e]) ∧ Q () t (.reader i γ' (v.note e))) :
    C.outline.Ensures p (note e) t (.reader i γ v) Q := by
  refine ensures_reader fun s γ' hs hle _ hcoh hw hb hri _ =>
    ⟨hobs s γ' hle hs hw hri hb, fun r s' hex => ?_⟩
  cases hex
  have hw : e.isWriters = false := by
    cases e <;> first | rfl | simp [Event.isReaders] at he
  have hother : ∀ j, j ≠ i → e.isReaders j = false := fun j hj => by
    cases e <;> simp only [Event.isReaders, decide_eq_true_eq, Bool.false_eq_true] at he <;>
      subst he <;> simp [Event.isReaders, hj.symm]
  have hview : Ring.rview { s with notes := s.notes ++ [e] } i = v.note e := by
    subst hs
    simp [Ring.rview, RView.note, he]
  obtain ⟨hnote, hQ⟩ := h γ' hle hri
  refine ⟨hcoh, rfl, fun _ => rfl, ?_, fun j hj => ?_, ?_, ?_⟩
  · simp [Ring.wview, hw]
  · simp [Ring.rview, hother j hj]
  · rw [hview]
    exact ⟨hri.cleared_le, hri.acq_le, hnote⟩
  · rw [hview]
    exact hQ

/-- A reader takes a sub-block from `FULL`. -/
theorem ensures_takeFull {undo : Bool} {Q : Unit → τ → Ghost C → Prop}
    (hacq : v.acq = v.cleared)
    (h : ∀ γ', γ ≤ γ' → v.acq < γ'.toks.length → Q () t (.reader i γ' v.takeFull)) :
    C.outline.Ensures p (ipcSemop (.full i) (-1) undo) t (.reader i γ v) Q := by
  rw [ipcSemop, toShort_neg_one]
  refine ensures_reader fun s γ' hs hle hi hcoh hw _ hri _ => ⟨trivial, fun r s' he => ?_⟩
  have hop := semop_of_exec he
  obtain ⟨hpos, hsync, hbuf, hnotes, hfull, hsem, hposts, htakes⟩ := Ring.semop_neg_one hop
  have hcoh' := hcoh.dec hpos hsem hposts htakes
  subst hs
  have hview : s'.rview i = (s.rview i).takeFull := by
    simp [Ring.rview, RView.takeFull, hsync, hnotes, hposts, htakes]
  have hbound : s'.wview = s.wview := by
    simp [Ring.wview, hsync, hbuf, hnotes, hfull, hposts, htakes]
  have hlt : (s.rview i).acq < γ'.toks.length := by
    have h₁ := (Inv.bounds hcoh' hi).full
    have h₂ := hw.posted i hi
    rw [hview, hbound] at h₁
    simp only [RView.takeFull] at h₁
    omega
  refine ⟨hcoh', by simp [hsem], by simp [hsem], hbound, fun j hj => ?_, ?_, ?_⟩
  · simp [Ring.rview, hsync, hnotes, hposts, htakes, hj]
  · rw [hview]
    exact ⟨by simp only [RView.takeFull]; omega, by simp only [RView.takeFull]; omega, hri.note⟩
  · rw [hview]
    exact h γ' hle hlt

/-- A reader posts to one of its semaphores. -/
theorem ensures_post {x : Sem} {undo : Bool} {w : RView} {Q : Unit → τ → Ghost C → Prop}
    (hwrite : x ≠ .write) (hconn : ∀ j, x ≠ .readerConn j) (hfull : ∀ j, x ≠ .full j)
    (hother : ∀ j, j ≠ i → x ≠ .clear j ∧ x ≠ .sodack j ∧ x ≠ .eodack j)
    (hview : ∀ s s' : Ring, s.rview i = v → s'.sync = s.sync → s'.notes = s.notes →
      s'.posts = Function.update s.posts x (s.posts x + 1) → s'.takes = s.takes →
      s'.rview i = w)
    (hcl : w.cleared ≤ w.acq ∧ w.acq ≤ w.cleared + 1 ∧ w.notes = v.notes)
    (h : ∀ γ', γ ≤ γ' → Q () t (.reader i γ' w)) :
    C.outline.Ensures p (ipcSemop x 1 undo) t (.reader i γ v) Q := by
  rw [ipcSemop, toShort_one]
  refine ensures_reader fun s γ' hs hle hi hcoh _ _ hri _ => ⟨trivial, fun r s' he => ?_⟩
  have hop : s.semop g p x 1 undo = some s' := semop_of_exec he
  obtain ⟨hsync, hbuf, hnotes, hfull', hsem, hposts, htakes⟩ := Ring.semop_one hop
  have hann : s'.full = s.full := by
    rw [hfull']
    cases x <;> first | rfl | exact absurd rfl (hfull _)
  rw [hview s s' hs hsync hnotes hposts htakes]
  refine ⟨hcoh.inc hsem hposts htakes, ?_, fun j => ?_, ?_, fun j hj => ?_,
    ⟨hcl.1, hcl.2.1, hcl.2.2 ▸ hri.note⟩, h γ' hle⟩
  · simp [hsem, Ne.symm hwrite]
  · simp [hsem, Ne.symm (hconn j)]
  · simp [Ring.wview, hsync, hbuf, hnotes, hann, hposts, htakes, Ne.symm (hfull _)]
  · obtain ⟨h₁, h₂, h₃⟩ := hother j hj
    simp [Ring.rview, hsync, hnotes, hposts, htakes, h₁.symm, h₂.symm, h₃.symm]

theorem ensures_postClr {undo : Bool} {Q : Unit → τ → Ghost C → Prop}
    (hacq : v.acq = v.cleared + 1) (h : ∀ γ', γ ≤ γ' → Q () t (.reader i γ' v.postClr)) :
    C.outline.Ensures p (ipcSemop (.clear i) 1 undo) t (.reader i γ v) Q := by
  refine ensures_post (w := v.postClr) (by simp) (by simp) (by simp)
    (fun j hj => ⟨by simp [hj.symm], by simp, by simp⟩) ?_
    ⟨by simp only [RView.postClr]; omega, by simp only [RView.postClr]; omega, rfl⟩ h
  rintro s s' rfl hsync hnotes hposts htakes
  simp [Ring.rview, RView.postClr, hsync, hnotes, hposts, htakes]

theorem ensures_postSod {undo : Bool} {Q : Unit → τ → Ghost C → Prop}
    (hacq : v.cleared ≤ v.acq ∧ v.acq ≤ v.cleared + 1)
    (h : ∀ γ', γ ≤ γ' → Q () t (.reader i γ' v.postSod)) :
    C.outline.Ensures p (ipcSemop (.sodack i) 1 undo) t (.reader i γ v) Q := by
  refine ensures_post (w := v.postSod) (by simp) (by simp) (by simp)
    (fun j hj => ⟨by simp, by simp [hj.symm], by simp⟩) ?_ ⟨hacq.1, hacq.2, rfl⟩ h
  rintro s s' rfl hsync hnotes hposts htakes
  simp [Ring.rview, RView.postSod, hsync, hnotes, hposts, htakes]

theorem ensures_postEod {undo : Bool} {Q : Unit → τ → Ghost C → Prop}
    (hacq : v.cleared ≤ v.acq ∧ v.acq ≤ v.cleared + 1)
    (h : ∀ γ', γ ≤ γ' → Q () t (.reader i γ' v.postEod)) :
    C.outline.Ensures p (ipcSemop (.eodack i) 1 undo) t (.reader i γ v) Q := by
  refine ensures_post (w := v.postEod) (by simp) (by simp) (by simp)
    (fun j hj => ⟨by simp, by simp, by simp [hj.symm]⟩) ?_ ⟨hacq.1, hacq.2, rfl⟩ h
  rintro s s' rfl hsync hnotes hposts htakes
  simp [Ring.rview, RView.postEod, hsync, hnotes, hposts, htakes]

/-- A process tries to take a reader slot. -/
theorem ensures_claim {undo : Bool} {Q : Bool → τ → Ghost C → Prop} (hi : i < g.nReaders)
    (htrue : ∀ γ v, RInv C γ i v → RIdle C γ v → C.rrest i v → Q true t (.reader i γ v))
    (hfalse : Q false t .idle) :
    C.outline.Ensures p (ipcSemopNowait (.readerConn i) (-1) undo) t .idle Q := by
  rw [ipcSemopNowait, toShort_neg_one, ensures_perform]
  intro γ G s hinv hp _
  refine ⟨trivial, fun r s' he => ?_⟩
  rcases nowait_of_exec he with ⟨rfl, hop⟩ | ⟨rfl, rfl, -⟩
  · obtain ⟨hpos, hsync, hbuf, hnotes, hfull, hsem, hposts, htakes⟩ := Ring.semop_neg_one hop
    obtain ⟨hrest, hinv'⟩ := hinv.reader_acquire (u := s') hp hi
      (hinv.coherent.dec hpos hsem hposts htakes) (by omega) (by simp [hsem])
      (fun j => by by_cases hj : j = i <;> simp [hsem, hj])
      (by simp [Ring.wview, hsync, hbuf, hnotes, hfull, hposts, htakes])
      (by simp [Ring.rview, hsync, hnotes, hposts, htakes])
    exact ⟨γ, _, hinv', htrue γ _ (hinv.rinv i hi) hrest.1 hrest.2⟩
  · exact ⟨γ, .idle, hinv.idle_step hp hinv.coherent rfl (fun _ => rfl) rfl fun _ => rfl, hfalse⟩

/-- A process gives a reader slot back. -/
theorem ensures_unclaim {undo : Bool} {Q : Unit → τ → Ghost C → Prop}
    (h : (∃ s : Ring, s.rview i = v ∧ C.ok p (.semop (.readerConn i) 1 undo) s) →
      RIdle C γ v ∧ C.rrest i v ∧ Q () t .idle) :
    C.outline.Ensures p (ipcSemop (.readerConn i) 1 undo) t (.reader i γ v) Q := by
  rw [ipcSemop, toShort_one, ensures_perform]
  intro γ' G s hinv hp hok
  refine ⟨trivial, fun r s' he => ?_⟩
  have hop : s.semop g p (.readerConn i) 1 undo = some s' := semop_of_exec he
  obtain ⟨hsync, hbuf, hnotes, hfull, hsem, hposts, htakes⟩ := Ring.semop_one hop
  obtain ⟨hi, hle, rfl⟩ : i < g.nReaders ∧ γ ≤ γ' ∧ v = s.rview i := by
    have := hinv.agrees p
    rwa [hp] at this
  obtain ⟨hidle, hrest, hQ⟩ := h ⟨s, rfl, hok⟩
  exact ⟨γ', .idle, hinv.reader_release (u := s') hp (hinv.coherent.inc hsem hposts htakes)
    (by simp [hsem]) (fun j => by by_cases hj : j = i <;> simp [hsem, hj])
    (by simp [Ring.wview, hsync, hbuf, hnotes, hfull, Ring.announce, hposts, htakes])
    (by simp [Ring.rview, hsync, hnotes, hposts, htakes]) ⟨hidle.mono hle, hrest⟩, hQ⟩

/-! ## Processes without a role -/

/-- A process without a role loads a variable. -/
theorem ensures_idle_load {x : Var} {Q : ℕ → τ → Ghost C → Prop} (h : ∀ a, Q a t .idle) :
    C.outline.Ensures p (load x) t .idle Q := by
  refine ensures_perform.mpr fun γ G s hinv hp _ => ⟨trivial, fun r s' he => ?_⟩
  cases he
  exact ⟨γ, .idle, hinv.idle_step hp hinv.coherent rfl (fun _ => rfl) rfl fun _ => rfl, h _⟩

/-- A process without a role takes from `READ`. -/
theorem ensures_takeRead {undo : Bool} {Q : Unit → τ → Ghost C → Prop} (h : Q () t .idle) :
    C.outline.Ensures p (ipcSemop .read (-1) undo) t .idle Q := by
  rw [ipcSemop, toShort_neg_one, ensures_perform]
  intro γ G s hinv hp _
  refine ⟨trivial, fun r s' he => ?_⟩
  have hop : s.semop g p .read (-1) undo = some s' := semop_of_exec he
  obtain ⟨hpos, hsync, hbuf, hnotes, hfull, hsem, hposts, htakes⟩ := Ring.semop_neg_one hop
  exact ⟨γ, .idle, hinv.idle_step (u := s') hp (hinv.coherent.dec hpos hsem hposts htakes)
    (by simp [hsem]) (by simp [hsem])
    (by simp [Ring.wview, hsync, hbuf, hnotes, hfull, hposts, htakes])
    (by simp [Ring.rview, hsync, hnotes, hposts, htakes]), h⟩

/-- A process without a role posts to `READ`. -/
theorem ensures_postRead {undo : Bool} {Q : Unit → τ → Ghost C → Prop} (h : Q () t .idle) :
    C.outline.Ensures p (ipcSemop .read 1 undo) t .idle Q := by
  rw [ipcSemop, toShort_one, ensures_perform]
  intro γ G s hinv hp _
  refine ⟨trivial, fun r s' he => ?_⟩
  have hop : s.semop g p .read 1 undo = some s' := semop_of_exec he
  obtain ⟨hsync, hbuf, hnotes, hfull, hsem, hposts, htakes⟩ := Ring.semop_one hop
  exact ⟨γ, .idle, hinv.idle_step (u := s') hp (hinv.coherent.inc hsem hposts htakes)
    (by simp [hsem]) (by simp [hsem])
    (by simp [Ring.wview, hsync, hbuf, hnotes, hfull, Ring.announce, hposts, htakes])
    (by simp [Ring.rview, hsync, hnotes, hposts, htakes]), h⟩

end Reader

end Psrdada
