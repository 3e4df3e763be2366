import Psrdada.Ring.SharedMemory

/-! # What each role owns

The writer alone changes most variables, the sub-blocks and its own side of the semaphores; the
reader in a slot alone changes the variables of that slot and its side of the slot's semaphores.
`Ring.wview` and `Ring.rview` are these parts of a ring.  An access of one role leaves the views of
the others as they are. -/

namespace Psrdada

open Concurrency

/-- The variables that only the writer changes. -/
def Var.isWriters : Var → Bool
  | .rBufs _ | .rStates _ | .rXfers _ => false
  | _ => true

/-- The variables that only the reader in a slot changes. -/
def Var.isReaders (iread : ℕ) : Var → Bool
  | .rBufs i | .rStates i | .rXfers i => i = iread
  | _ => false

/-- The notes that only a writer makes. -/
def Event.isWriters : Event → Bool
  | .wopen | .wcall | .wdata _ | .wret _ => true
  | _ => false

/-- The notes that only the reader in a slot makes. -/
def Event.isReaders (iread : ℕ) : Event → Bool
  | .ropen i | .rdata i _ | .reod i | .acquired i _ _ _ _ _ | .cleared i | .stopped i _ => i = iread
  | _ => false

/-- The variables with those of the readers blanked out. -/
def Ipcsync.writers (m : Ipcsync) : Ipcsync :=
  { m with rBufs := fun _ => 0, rStates := fun _ => 0, rXfers := fun _ => 0 }

/-- What the writer owns. -/
structure WView where
  /-- The variables, with those of the readers blanked out. -/
  sync : Ipcsync
  /-- The bytes of the sub-blocks. -/
  buffer : ℕ → ℕ → UInt8
  /-- How many transfers the writer has begun, as `SODACK` of each reader knows. -/
  sodTaken : ℕ → ℕ
  /-- How many transfers the writer has ended, as `EODACK` of each reader knows. -/
  eodTaken : ℕ → ℕ
  /-- How many sub-blocks the writer has reclaimed through `CLEAR` of each reader. -/
  clrTaken : ℕ → ℕ
  /-- How many sub-blocks the writer has posted to `FULL` of each reader. -/
  fullPosted : ℕ → ℕ
  /-- What these posts announced. -/
  full : ℕ → List Desc
  /-- The notes of the writers. -/
  notes : List Event

/-- What the reader in a slot owns. -/
structure RView where
  /-- `r_bufs` of the slot. -/
  rBuf : ℕ
  /-- `r_states` of the slot. -/
  rState : ℕ
  /-- `r_xfers` of the slot. -/
  rXfer : ℕ
  /-- How many sub-blocks have been taken from `FULL`. -/
  acq : ℕ
  /-- How many sub-blocks have been posted to `CLEAR`. -/
  cleared : ℕ
  /-- How many transfers have been posted to `SODACK`. -/
  sodPosted : ℕ
  /-- How many transfers have been posted to `EODACK`. -/
  eodPosted : ℕ
  /-- The notes of the readers in the slot. -/
  notes : List Event

namespace Ring

/-- The writer's part of a ring. -/
def wview (s : Ring) : WView where
  sync := s.sync.writers
  buffer := s.buffer
  sodTaken i := s.takes (.sodack i)
  eodTaken i := s.takes (.eodack i)
  clrTaken i := s.takes (.clear i)
  fullPosted i := s.posts (.full i)
  full := s.full
  notes := s.notes.filter Event.isWriters

/-- The part of a ring that belongs to the reader in a slot. -/
def rview (s : Ring) (iread : ℕ) : RView where
  rBuf := s.sync.rBufs iread
  rState := s.sync.rStates iread
  rXfer := s.sync.rXfers iread
  acq := s.takes (.full iread)
  cleared := s.posts (.clear iread)
  sodPosted := s.posts (.sodack iread)
  eodPosted := s.posts (.eodack iread)
  notes := s.notes.filter (Event.isReaders iread)

/-- A semaphore is what it was at first, plus what was added, less what was taken. -/
def Coherent (g : Geometry) (s : Ring) : Prop :=
  ∀ x, s.sem x + s.takes x = Sem.created g x + s.posts x

end Ring

/-! ## Loads and stores -/

theorem Ipcsync.load_writers {m : Ipcsync} {x : Var} (hx : x.isWriters = true) :
    m.writers.load x = m.load x := by
  cases x <;> first | rfl | simp [Var.isWriters] at hx

theorem Ipcsync.writers_store {m : Ipcsync} {x : Var} {a : ℕ} (hx : x.isWriters = true) :
    (m.store x a).writers = m.writers.store x a := by
  cases x <;> first | rfl | simp [Var.isWriters] at hx

theorem Ipcsync.writers_store_of_reader {m : Ipcsync} {x : Var} {a i : ℕ}
    (hx : x.isReaders i = true) : (m.store x a).writers = m.writers := by
  cases x <;> first | rfl | simp [Var.isReaders] at hx

namespace WView

/-- The writer's view after a store. -/
def store (v : WView) (x : Var) (a : ℕ) : WView := { v with sync := v.sync.store x a }

/-- The writer's view after a byte has been written. -/
def writeByte (v : WView) (b off : ℕ) (d : UInt8) : WView :=
  { v with buffer := Function.update v.buffer b (Function.update (v.buffer b) off d) }

/-- The writer's view after a note. -/
def note (v : WView) (e : Event) : WView := { v with notes := v.notes ++ [e] }

/-- The writer's view once it has taken one from `SODACK` of a reader. -/
def takeSod (v : WView) (i : ℕ) : WView :=
  { v with sodTaken := Function.update v.sodTaken i (v.sodTaken i + 1) }

/-- The writer's view once it has taken one from `EODACK` of a reader. -/
def takeEod (v : WView) (i : ℕ) : WView :=
  { v with eodTaken := Function.update v.eodTaken i (v.eodTaken i + 1) }

/-- The writer's view once it has taken one from `CLEAR` of a reader. -/
def takeClr (v : WView) (i : ℕ) : WView :=
  { v with clrTaken := Function.update v.clrTaken i (v.clrTaken i + 1) }

/-- The writer's view once it has posted `k` to `FULL` of a reader. -/
def postFull (g : Geometry) (v : WView) (i k : ℕ) : WView :=
  { v with
    fullPosted := Function.update v.fullPosted i (v.fullPosted i + k)
    full := Function.update v.full i (v.full i ++ v.sync.announced g k) }

end WView

namespace RView

/-- A reader's view after a store into a variable of its slot. -/
def store (v : RView) : Var → ℕ → RView
  | .rBufs _, a => { v with rBuf := a }
  | .rStates _, a => { v with rState := a }
  | .rXfers _, a => { v with rXfer := a }
  | _, _ => v

/-- What a reader loads from a variable of its slot. -/
def load (v : RView) : Var → ℕ
  | .rBufs _ => v.rBuf
  | .rStates _ => v.rState
  | .rXfers _ => v.rXfer
  | _ => 0

/-- A reader's view after a note. -/
def note (v : RView) (e : Event) : RView := { v with notes := v.notes ++ [e] }

/-- A reader's view once it has taken one from `FULL`. -/
def takeFull (v : RView) : RView := { v with acq := v.acq + 1 }

/-- A reader's view once it has posted to `CLEAR`. -/
def postClr (v : RView) : RView := { v with cleared := v.cleared + 1 }

/-- A reader's view once it has posted to `SODACK`. -/
def postSod (v : RView) : RView := { v with sodPosted := v.sodPosted + 1 }

/-- A reader's view once it has posted to `EODACK`. -/
def postEod (v : RView) : RView := { v with eodPosted := v.eodPosted + 1 }

end RView

/-! ## Semaphore operations -/

theorem semStep_neg_one (v : ℕ) : semStep v (-1) = if 1 ≤ v then some (v - 1) else none := rfl

theorem semStep_succ (v n : ℕ) : semStep v (n + 1 : ℕ) = some (v + (n + 1)) := rfl

/-- A post of nothing announces nothing. -/
@[simp] theorem Ring.announce_zero (g : Geometry) (s : Ring) (x : Sem) :
    s.announce g x 0 = s.full := by
  cases x <;> simp [Ring.announce, Ipcsync.announced]

/-- A decrement that does not block. -/
theorem Ring.semop_neg_one {g : Geometry} {p : ℕ} {s s' : Ring} {x : Sem} {undo : Bool}
    (h : s.semop g p x (-1) undo = some s') :
    1 ≤ s.sem x ∧ s'.sync = s.sync ∧ s'.buffer = s.buffer ∧ s'.notes = s.notes ∧
      s'.full = s.full ∧ s'.sem = Function.update s.sem x (s.sem x - 1) ∧ s'.posts = s.posts ∧
      s'.takes = Function.update s.takes x (s.takes x + 1) := by
  obtain ⟨a, ha, rfl⟩ := Option.map_eq_some_iff.mp h
  rw [semStep_neg_one] at ha
  split at ha
  case isFalse => simp at ha
  case isTrue hpos =>
    obtain rfl := Option.some.inj ha
    exact ⟨hpos, rfl, rfl, rfl, s.announce_zero .., rfl, by simp, by simp⟩

/-- An increment. -/
theorem Ring.semop_pos {g : Geometry} {p k : ℕ} {s s' : Ring} {x : Sem} {undo : Bool}
    (hk : 0 < k) (h : s.semop g p x k undo = some s') :
    s'.sync = s.sync ∧ s'.buffer = s.buffer ∧ s'.notes = s.notes ∧
      s'.full = s.announce g x k ∧ s'.sem = Function.update s.sem x (s.sem x + k) ∧
      s'.posts = Function.update s.posts x (s.posts x + k) ∧ s'.takes = s.takes := by
  obtain ⟨n, rfl⟩ : ∃ n, k = n + 1 := ⟨k - 1, by omega⟩
  obtain ⟨a, ha, rfl⟩ := Option.map_eq_some_iff.mp h
  rw [semStep_succ] at ha
  obtain rfl := Option.some.inj ha
  refine ⟨rfl, rfl, rfl, rfl, rfl, rfl, ?_⟩
  have hzero : (-((n + 1 : ℕ) : ℤ)).toNat = 0 := by omega
  change Function.update s.takes x (s.takes x + (-((n + 1 : ℕ) : ℤ)).toNat) = s.takes
  rw [hzero, Nat.add_zero, Function.update_eq_self]

/-- An increment by one. -/
theorem Ring.semop_one {g : Geometry} {p : ℕ} {s s' : Ring} {x : Sem} {undo : Bool}
    (h : s.semop g p x 1 undo = some s') :
    s'.sync = s.sync ∧ s'.buffer = s.buffer ∧ s'.notes = s.notes ∧
      s'.full = s.announce g x 1 ∧ s'.sem = Function.update s.sem x (s.sem x + 1) ∧
      s'.posts = Function.update s.posts x (s.posts x + 1) ∧ s'.takes = s.takes :=
  Ring.semop_pos Nat.one_pos h

/-- What a post announces depends on variables of the writer only. -/
theorem Ipcsync.announced_writers (g : Geometry) (m : Ipcsync) (k : ℕ) :
    m.writers.announced g k = m.announced g k := rfl

end Psrdada
