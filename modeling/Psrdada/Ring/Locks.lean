import Psrdada.Concurrency.Clients
import Psrdada.Ring.Views
import Psrdada.Ring.Rules

/-! # Who may change a ring

`WRITE` and the `READER_CONN` of each slot are semaphores with one unit, which a process takes with
`SEM_UNDO`.  What the kernel would give back when a process exits (`Ring.Holds`) says who has them.

The outline of this module says that at most one process has each of them, and that a process without
`WRITE` leaves the writer's part of the ring as it is, and one without a slot the part of that slot.  It
is shown for one routine of `ipcbuf.c` after the other, whatever the arguments, the state of the process
and the values it loads. -/

namespace Psrdada

open Concurrency Outline

variable {g : Geometry}

/-! ## Holding a lock -/

/-- The kernel would change the semaphore if the process exited now. -/
def Ring.Holds (s : Ring) (p : ℕ) (x : Sem) : Prop := s.undo p x ≠ 0

instance (s : Ring) (p : ℕ) (x : Sem) : Decidable (s.Holds p x) :=
  inferInstanceAs (Decidable (_ ≠ _))

/-- The kernel gives a semaphore back for a process that has exited; a value below zero becomes zero. -/
def Ring.giveBack (p : ℕ) (x : Sem) (s : Ring) : Ring :=
  { s with
    sem := Function.update s.sem x (s.sem x + s.undo p x).toNat
    undo := Function.update s.undo p (Function.update (s.undo p) x 0) }

/-- The semaphores that a process takes before it changes a ring. -/
def Sem.isLock : Sem → Bool
  | .write | .readerConn _ => true
  | _ => false

/-- Each lock is free or one process has it, and the kernel knows who.  `G` gives the lock that a process
has. -/
structure Locked (g : Geometry) (G : ℕ → Option Sem) (s : Ring) : Prop where
  sole : ∀ x, x.isLock = true → Sem.created g x = 1 → Exclusive (· = some x) G (s.sem x) True
  absent : ∀ x, x.isLock = true → Sem.created g x = 0 → s.sem x = 0
  isLock : ∀ p x, G p = some x → x.isLock = true ∧ Sem.created g x = 1
  undo : ∀ p x, x.isLock = true → s.undo p x = if G p = some x then 1 else 0

/-- A lock has one unit, or none when the ring has no such slot. -/
theorem Sem.created_of_isLock {x : Sem} (hx : x.isLock = true) :
    Sem.created g x = 1 ∨ Sem.created g x = 0 := by
  cases x with
  | write => exact .inl rfl
  | readerConn i => simp only [Sem.created]; split <;> simp
  | _ => simp [Sem.isLock] at hx

namespace Locked

variable {G : ℕ → Option Sem} {s s' : Ring} {p : ℕ} {x : Sem}

theorem holds_iff (h : Locked g G s) (hx : x.isLock = true) : s.Holds p x ↔ G p = some x := by
  rw [Ring.Holds, h.undo p x hx]
  split <;> simp_all

/-- The values of the locks and what the kernel knows of them are all that matters. -/
theorem congr (h : Locked g G s) (hsem : ∀ y, y.isLock = true → s'.sem y = s.sem y)
    (hundo : ∀ q y, y.isLock = true → s'.undo q y = s.undo q y) : Locked g G s' where
  sole y hy h1 := by rw [hsem y hy]; exact h.sole y hy h1
  absent y hy h0 := by rw [hsem y hy]; exact h.absent y hy h0
  isLock := h.isLock
  undo q y hy := by rw [hundo q y hy]; exact h.undo q y hy

/-- A ring that has just been created. -/
theorem created (g : Geometry) : Locked g (fun _ => none) (.created g) where
  sole x _ h1 := .inl ⟨h1, trivial, by simp⟩
  absent x _ h0 := h0
  isLock p x hx := by cases hx
  undo p x _ := by simp [Ring.created]

/-- A change of one lock and of one process. -/
theorem update (h : Locked g G s) {l : Option Sem} (hx : x.isLock = true) (h1 : Sem.created g x = 1)
    (hp : ∀ y, y ≠ x → (G p = some y ↔ l = some y))
    (hsem : ∀ y, y ≠ x → s'.sem y = s.sem y)
    (hsole : Exclusive (· = some x) (Function.update G p l) (s'.sem x) True)
    (hundo : ∀ q y, ¬ (q = p ∧ y = x) → s'.undo q y = s.undo q y)
    (hundo' : s'.undo p x = if l = some x then 1 else 0) : Locked g (Function.update G p l) s' where
  sole y hy hy1 := by
    by_cases hyx : y = x
    · exact hyx ▸ hsole
    · rw [hsem y hyx]
      exact (h.sole y hy hy1).keep (hp y hyx) fun _ => id
  absent y hy h0 := by
    have hyx : y ≠ x := fun he => by rw [he, h1] at h0; cases h0
    rw [hsem y hyx]
    exact h.absent y hy h0
  isLock q y hq := by
    by_cases hqp : q = p
    · subst hqp
      rw [Function.update_self] at hq
      by_cases hyx : y = x
      · exact hyx ▸ ⟨hx, h1⟩
      · exact h.isLock q y ((hp y hyx).mpr hq)
    · exact h.isLock q y (by simpa [hqp] using hq)
  undo q y hy := by
    by_cases hqp : q = p
    · subst hqp
      rw [Function.update_self]
      by_cases hyx : y = x
      · subst hyx; exact hundo'
      · rw [hundo q y fun he => hyx he.2, h.undo q y hy]
        simp only [hp y hyx]
    · rw [hundo q y fun he => hqp he.1, Function.update_of_ne hqp]
      exact h.undo q y hy

/-- A process that has neither lock takes one. -/
theorem take (h : Locked g G s) (hx : x.isLock = true) (hp : G p = none) (hpos : 1 ≤ s.sem x)
    (hsem : s'.sem = Function.update s.sem x (s.sem x - 1))
    (hundo : s'.undo =
      Function.update s.undo p (Function.update (s.undo p) x (s.undo p x + 1))) :
    Sem.created g x = 1 ∧ Locked g (Function.update G p (some x)) s' := by
  have h1 : Sem.created g x = 1 := by
    rcases Sem.created_of_isLock hx with h1 | h0
    · exact h1
    · have := h.absent x hx h0
      omega
  have hone := ((h.sole x hx h1).rest_of_free (by omega)).1
  refine ⟨h1, h.update hx h1 (fun y hy => ?_) (fun y hy => ?_) ?_ (fun q y hqy => ?_) ?_⟩
  · simp [hp, Ne.symm hy]
  · rw [hsem, Function.update_of_ne hy]
  · rw [hsem, Function.update_self, hone]
    exact (h.sole x hx h1).acquire (by omega) rfl
  · rw [hundo]
    by_cases hqp : q = p
    · subst hqp
      rw [Function.update_self, Function.update_of_ne fun hy => hqy ⟨rfl, hy⟩]
    · rw [Function.update_of_ne hqp]
  · simp [hundo, h.undo p x hx, hp]

/-- A lock is given back, by the process that has it or for it. -/
theorem leave (h : Locked g G s) (hp : G p = some x)
    (hsem : s'.sem = Function.update s.sem x (s.sem x + 1))
    (hundo : s'.undo = Function.update s.undo p (Function.update (s.undo p) x 0)) :
    Locked g (Function.update G p none) s' := by
  obtain ⟨hx, h1⟩ := h.isLock p x hp
  have hzero := (h.sole x hx h1).free_eq_zero hp
  refine h.update hx h1 (fun y hy => ?_) (fun y hy => ?_) ?_ (fun q y hqy => ?_) ?_
  · simp [hp, Ne.symm hy]
  · rw [hsem, Function.update_of_ne hy]
  · rw [hsem, Function.update_self, hzero]
    exact (h.sole x hx h1).release hp (by simp) trivial
  · rw [hundo]
    by_cases hqp : q = p
    · subst hqp
      rw [Function.update_self, Function.update_of_ne fun hy => hqy ⟨rfl, hy⟩]
    · rw [Function.update_of_ne hqp]
  · simp [hundo]

/-- What the kernel gives back for a process leaves each lock free or with one process. -/
theorem giveBack (h : Locked g G s) (p : ℕ) (x : Sem) :
    ∃ l, Locked g (Function.update G p l) (s.giveBack p x) := by
  by_cases hp : G p = some x
  · have hx := (h.isLock p x hp).1
    refine ⟨none, h.leave hp ?_ rfl⟩
    have hnat : ((s.sem x : ℤ) + 1).toNat = s.sem x + 1 := by omega
    simp only [Ring.giveBack, h.undo p x hx, hp, if_true, hnat]
  · -- the process has no unit of `x`, or `x` is not a lock
    refine ⟨G p, ?_⟩
    rw [Function.update_eq_self]
    refine h.congr (fun y hy => ?_) fun q y hy => ?_
    · by_cases hyx : y = x
      · subst hyx; simp [Ring.giveBack, h.undo p y hy, hp]
      · simp [Ring.giveBack, hyx]
    · by_cases hqp : q = p
      · subst hqp
        by_cases hyx : y = x
        · subst hyx; simp [Ring.giveBack, h.undo q y hy, hp]
        · simp [Ring.giveBack, hyx]
      · simp [Ring.giveBack, hqp]

end Locked

/-! ## The outline -/

/-- What the process leaves as it is when it goes from one state of the ring to another: without `WRITE`
the writer's part, and without `WRITE` and a slot the part of that slot. -/
structure Ring.LeavesAlone (p : ℕ) (s s' : Ring) : Prop where
  writers : ¬ s.Holds p .write → s'.wview = s.wview
  readers : ¬ s.Holds p .write → ∀ i, ¬ s.Holds p (.readerConn i) → s'.rview i = s.rview i

/-- The outline of the locks: every process has the locks that `Locked` says and leaves alone what it
has no lock of. -/
def lockOutline (g : Geometry) : Outline (ringMachine g) Unit (Option Sem) where
  ok _ _ _ := True
  inv _ := Locked g
  obs p o s := ∀ r s', ringExec g p o s = some (r, s') → s.LeavesAlone p s'

/-- The accesses that a process makes by virtue of the lock it has. -/
def Op.Covered : Op → Option Sem → Prop
  | .load _, _ | .test _ _, _ | .readByte _ _, _ | .semop .read _ _, _ => True
  | .store _ _, some .write | .writeByte _ _ _, some .write => True
  | .semop x _ _, some .write => x.isLock = false
  | .store x _, some (.readerConn i) => x.isReaders i = true
  | .semop x op _, some (.readerConn i) =>
    x = .full i ∧ op = -1 ∨ (x = .sodack i ∨ x = .eodack i ∨ x = .clear i) ∧ op = 1
  | _, _ => False

section Covered

variable {G : ℕ → Option Sem} {s s' : Ring} {p : ℕ}

/-- An operation on another semaphore leaves the locks as they are. -/
theorem Locked.semop (h : Locked g G s) {x : Sem} {op : ℤ} {undo : Bool} (hx : x.isLock = false)
    (hs : s.semop g p x op undo = some s') : Locked g G s' := by
  obtain ⟨v, -, rfl⟩ := Option.map_eq_some_iff.mp hs
  have hne : ∀ y : Sem, y.isLock = true → y ≠ x := fun y hy he => by rw [he, hx] at hy; cases hy
  refine h.congr (fun y hy => by simp [hne y hy]) fun q y hy => ?_
  by_cases hqp : q = p
  · subst hqp
    cases undo <;> simp [hne y hy]
  · cases undo <;> simp [hqp]

/-- `READ` is in nobody's part. -/
theorem Ring.semop_read_views {op : ℤ} {undo : Bool} (hs : s.semop g p .read op undo = some s') :
    s'.wview = s.wview ∧ ∀ i, s'.rview i = s.rview i := by
  obtain ⟨v, -, rfl⟩ := Option.map_eq_some_iff.mp hs
  exact ⟨by simp [Ring.wview, Ring.announce], fun i => by simp [Ring.rview]⟩

/-- A store into a variable of a slot. -/
theorem Ring.store_views {x : Var} {a i : ℕ} (hx : x.isReaders i = true) :
    Ring.wview { s with sync := s.sync.store x a } = s.wview ∧
      ∀ j, j ≠ i → Ring.rview { s with sync := s.sync.store x a } j = s.rview j := by
  refine ⟨by simp [Ring.wview, Ipcsync.writers_store_of_reader hx], fun j hj => ?_⟩
  cases x <;> simp [Var.isReaders] at hx <;> subst hx <;> simp [Ring.rview, Ipcsync.store, hj]

/-- A unit taken from `FULL` of a slot. -/
theorem Ring.semop_full_views {i : ℕ} {undo : Bool}
    (hs : s.semop g p (.full i) (-1) undo = some s') :
    s'.wview = s.wview ∧ ∀ j, j ≠ i → s'.rview j = s.rview j := by
  obtain ⟨-, hsync, hbuf, hnotes, hfull, -, hposts, htakes⟩ := Ring.semop_neg_one hs
  refine ⟨?_, fun j hj => ?_⟩
  · simp [Ring.wview, hsync, hbuf, hnotes, hfull, hposts, htakes]
  · simp [Ring.rview, hsync, hnotes, hposts, htakes, hj]

/-- A unit posted to a semaphore of a slot. -/
theorem Ring.semop_post_views {i : ℕ} {x : Sem} {undo : Bool}
    (hx : x = .sodack i ∨ x = .eodack i ∨ x = .clear i) (hs : s.semop g p x 1 undo = some s') :
    s'.wview = s.wview ∧ ∀ j, j ≠ i → s'.rview j = s.rview j := by
  obtain ⟨hsync, hbuf, hnotes, hfull, -, hposts, htakes⟩ := Ring.semop_one hs
  rcases hx with rfl | rfl | rfl
  all_goals
    refine ⟨?_, fun j hj => ?_⟩
    · simp [Ring.wview, hsync, hbuf, hnotes, hfull, hposts, htakes, Ring.announce]
    · simp [Ring.rview, hsync, hnotes, hposts, htakes, hj]

/-- A process leaves alone what it is not said to change. -/
theorem Ring.LeavesAlone.of_slot (h : Locked g G s) {i : ℕ} (hp : G p = some (.readerConn i))
    (hw : s'.wview = s.wview) (hr : ∀ j, j ≠ i → s'.rview j = s.rview j) : s.LeavesAlone p s' := by
  refine ⟨fun _ => hw, fun _ j hj => hr j fun hji => hj ?_⟩
  subst hji
  exact (h.holds_iff rfl).mpr hp

/-- An access that the lock of a process covers leaves the locks as they are and alone what the process
has no lock of. -/
theorem Locked.covered (h : Locked g G s) {o : Op} (ho : o.Covered (G p)) {r : ringSig.Res o}
    (he : ringExec g p o s = some (r, s')) : s.LeavesAlone p s' ∧ Locked g G s' := by
  have hwrite : G p = some .write → s.LeavesAlone p s' := fun hp =>
    ⟨fun hn => absurd ((h.holds_iff rfl).mpr hp) hn, fun hn => absurd ((h.holds_iff rfl).mpr hp) hn⟩
  cases o with
  | load x => cases he; exact ⟨⟨fun _ => rfl, fun _ _ _ => rfl⟩, h⟩
  | test x v => cases he; exact ⟨⟨fun _ => rfl, fun _ _ _ => rfl⟩, h⟩
  | readByte b off => cases he; exact ⟨⟨fun _ => rfl, fun _ _ _ => rfl⟩, h⟩
  | store x a =>
    cases he
    refine ⟨?_, h.congr (fun _ _ => rfl) fun _ _ _ => rfl⟩
    cases hp : G p with
    | none => rw [hp] at ho; exact ho.elim
    | some l =>
      rw [hp] at ho
      cases l with
      | write => exact hwrite hp
      | readerConn i =>
        obtain ⟨hw, hr⟩ := Ring.store_views (s := s) (a := a) ho
        exact .of_slot h hp hw hr
      | _ => exact ho.elim
  | writeByte b off d =>
    cases he
    refine ⟨?_, h.congr (fun _ _ => rfl) fun _ _ _ => rfl⟩
    cases hp : G p with
    | none => rw [hp] at ho; exact ho.elim
    | some l =>
      rw [hp] at ho
      cases l with
      | write => exact hwrite hp
      | _ => exact ho.elim
  | semop x op undo =>
    have hs := semop_of_exec he
    by_cases hx : x = .read
    · subst hx
      obtain ⟨hw, hr⟩ := Ring.semop_read_views hs
      exact ⟨⟨fun _ => hw, fun _ i _ => hr i⟩, h.semop rfl hs⟩
    · cases hp : G p with
      | none => rw [hp] at ho; cases x <;> first | exact absurd rfl hx | exact ho.elim
      | some l =>
        rw [hp] at ho
        cases l with
        | write =>
          have hlock : x.isLock = false := by cases x <;> first | exact absurd rfl hx | exact ho
          exact ⟨hwrite hp, h.semop hlock hs⟩
        | readerConn i =>
          have hcases : x = .full i ∧ op = -1 ∨
              (x = .sodack i ∨ x = .eodack i ∨ x = .clear i) ∧ op = 1 := by
            cases x <;> first | exact absurd rfl hx | exact ho
          rcases hcases with ⟨rfl, rfl⟩ | ⟨hpost, rfl⟩
          · obtain ⟨hw, hr⟩ := Ring.semop_full_views hs
            exact ⟨.of_slot h hp hw hr, h.semop rfl hs⟩
          · obtain ⟨hw, hr⟩ := Ring.semop_post_views hpost hs
            refine ⟨.of_slot h hp hw hr, h.semop ?_ hs⟩
            rcases hpost with rfl | rfl | rfl <;> rfl
        | _ => cases x <;> first | exact absurd rfl hx | exact ho.elim
  | semopNowait x op undo => cases hp : G p <;> rw [hp] at ho <;> exact ho.elim
  | setval x v => cases hp : G p <;> rw [hp] at ho <;> exact ho.elim
  | note e => cases hp : G p <;> rw [hp] at ho <;> exact ho.elim

end Covered

end Psrdada
