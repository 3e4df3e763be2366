import Psrdada.Ring.Locks
import Psrdada.Ring.Ipcio

/-! # The calls keep the locks

Each routine of `ipcbuf.c` and of `ipcio.c` keeps the outline of the locks: what the private data of a
process says it is (`Ipcbuf.Fits`, `Ipcio.Fits`) agrees with the lock that it has. -/

namespace Psrdada

open Concurrency Outline

variable {g : Geometry} {p : ℕ} {τ : Type} {F : τ → Prop} {l : Option Sem}

/-! ## Rules -/

/-- The rule of an access that the lock of the process covers. -/
theorem keeps_covered {o : Op} (ho : o.Covered l) :
    (lockOutline g).Keeps p F l (Routine.perform (S := ringSig) o : Routine ringSig τ _) := by
  refine keeps_perform fun γ G s hinv hl _ => ?_
  subst hl
  refine ⟨fun r s' he => (hinv.covered ho he).1, fun r s' he => ⟨(), ?_⟩⟩
  rw [Function.update_eq_self]
  exact (hinv.covered ho he).2

theorem keeps_load (x : Var) : (lockOutline g).Keeps p F l (load x) := keeps_covered (by trivial)

theorem keeps_test (x : Var) (v : ℕ) : (lockOutline g).Keeps p F l (test x v) :=
  keeps_covered (by trivial)

/-- The writer may store into any variable. -/
theorem keeps_store (x : Var) (v : ℕ) : (lockOutline g).Keeps p F (some .write) (store x v) :=
  keeps_covered (by trivial)

/-- The reader in a slot may store into the variables of the slot. -/
theorem keeps_rstore {i : ℕ} {x : Var} (hx : x.isReaders i = true) (v : ℕ) :
    (lockOutline g).Keeps p F (some (.readerConn i)) (store x v) :=
  keeps_covered hx

/-- The writer may change any semaphore but the locks. -/
theorem keeps_semop {x : Sem} (hx : x.isLock = false) (op : ℤ) (undo : Bool) :
    (lockOutline g).Keeps p F (some .write) (ipcSemop x op undo) :=
  keeps_covered (by cases x <;> trivial)

/-- Anyone may change `READ`. -/
theorem keeps_read (op : ℤ) (undo : Bool) : (lockOutline g).Keeps p F l (ipcSemop .read op undo) :=
  keeps_covered (by trivial)

/-- The reader in a slot takes from `FULL`. -/
theorem keeps_takeFull (i : ℕ) (undo : Bool) :
    (lockOutline g).Keeps p F (some (.readerConn i)) (ipcSemop (.full i) (-1) undo) :=
  keeps_covered (.inl ⟨rfl, toShort_neg_one⟩)

/-- The reader in a slot posts to the other semaphores of the slot. -/
theorem keeps_post {i : ℕ} {x : Sem} (hx : x = .sodack i ∨ x = .eodack i ∨ x = .clear i)
    (undo : Bool) : (lockOutline g).Keeps p F (some (.readerConn i)) (ipcSemop x 1 undo) := by
  refine keeps_covered ?_
  rcases hx with rfl | rfl | rfl
  · exact .inr ⟨.inl rfl, toShort_one⟩
  · exact .inr ⟨.inr (.inl rfl), toShort_one⟩
  · exact .inr ⟨.inr (.inr rfl), toShort_one⟩

/-- A lock is not in anybody's part. -/
theorem Ring.semop_lock_views {s s' : Ring} {x : Sem} (hx : x.isLock = true) {op : ℤ} {undo : Bool}
    (hs : s.semop g p x op undo = some s') : s.LeavesAlone p s' := by
  obtain ⟨v, -, rfl⟩ := Option.map_eq_some_iff.mp hs
  cases x <;> simp [Sem.isLock] at hx
  all_goals
    exact ⟨fun _ => by simp [Ring.wview, Ring.announce], fun _ i _ => by simp [Ring.rview]⟩

/-- What taking a lock with `SEM_UNDO` does. -/
theorem Ring.semop_take {s s' : Ring} {x : Sem} (hs : s.semop g p x (-1) true = some s') :
    1 ≤ s.sem x ∧ s'.sem = Function.update s.sem x (s.sem x - 1) ∧
      s'.undo = Function.update s.undo p (Function.update (s.undo p) x (s.undo p x + 1)) := by
  obtain ⟨hpos, -, -, -, -, hsem, -, -⟩ := Ring.semop_neg_one hs
  obtain ⟨v, -, rfl⟩ := Option.map_eq_some_iff.mp hs
  exact ⟨hpos, hsem, rfl⟩

/-- What giving a lock back with `SEM_UNDO` does. -/
theorem Ring.semop_leave {s s' : Ring} {x : Sem} (hs : s.semop g p x 1 true = some s')
    (hundo : s.undo p x = 1) :
    s'.sem = Function.update s.sem x (s.sem x + 1) ∧
      s'.undo = Function.update s.undo p (Function.update (s.undo p) x 0) := by
  obtain ⟨-, -, -, -, hsem, -, -⟩ := Ring.semop_one hs
  obtain ⟨v, -, rfl⟩ := Option.map_eq_some_iff.mp hs
  refine ⟨hsem, ?_⟩
  simp only [if_true, hundo, Int.sub_self]

/-- A process without a lock waits for one. -/
theorem ensures_takeLock {x : Sem} (hx : x.isLock = true) {t : τ} {Q : Unit → τ → Option Sem → Prop}
    (h : Q () t (some x)) :
    (lockOutline g).Ensures p (ipcSemop x (-1) true) t none Q := by
  rw [ipcSemop, toShort_neg_one, ensures_perform]
  intro _ G s hinv hl _
  refine ⟨fun r s' he => Ring.semop_lock_views hx (semop_of_exec he), fun r s' he => ?_⟩
  obtain ⟨hpos, hsem, hundo⟩ := Ring.semop_take (semop_of_exec he)
  exact ⟨(), _, (Locked.take hinv hx hl hpos hsem hundo).2, h⟩

/-- A process without a lock tries to take one. -/
theorem ensures_tryLock {x : Sem} (hx : x.isLock = true) {t : τ} {Q : Bool → τ → Option Sem → Prop}
    (htaken : Q true t (some x)) (hbusy : Q false t none) :
    (lockOutline g).Ensures p (ipcSemopNowait x (-1) true) t none Q := by
  rw [ipcSemopNowait, toShort_neg_one, ensures_perform]
  intro _ G s hinv hl _
  refine ⟨fun r s' he => ?_, fun r s' he => ?_⟩
  · rcases nowait_of_exec he with ⟨-, hs⟩ | ⟨-, rfl, -⟩
    · exact Ring.semop_lock_views hx hs
    · exact ⟨fun _ => rfl, fun _ _ _ => rfl⟩
  · rcases nowait_of_exec he with ⟨rfl, hs⟩ | ⟨rfl, rfl, -⟩
    · obtain ⟨hpos, hsem, hundo⟩ := Ring.semop_take hs
      exact ⟨(), _, (Locked.take hinv hx hl hpos hsem hundo).2, htaken⟩
    · refine ⟨(), none, ?_, hbusy⟩
      rw [← hl, Function.update_eq_self]
      exact hinv

/-- A process gives its lock back. -/
theorem ensures_leaveLock {x : Sem} {t : τ} {Q : Unit → τ → Option Sem → Prop} (h : Q () t none) :
    (lockOutline g).Ensures p (ipcSemop x 1 true) t (some x) Q := by
  rw [ipcSemop, toShort_one, ensures_perform]
  intro _ G s hinv hl _
  have hx := (Locked.isLock hinv p x hl).1
  refine ⟨fun r s' he => Ring.semop_lock_views hx (semop_of_exec he), fun r s' he => ?_⟩
  have hone : s.undo p x = 1 := by simp [Locked.undo hinv p x hx, hl]
  obtain ⟨hsem, hundo⟩ := Ring.semop_leave (semop_of_exec he) hone
  exact ⟨(), _, Locked.leave hinv hl hsem hundo, h⟩

theorem keeps_memcpyTo (buf : ℕ) (bytes : List UInt8) (off : ℕ) :
    (lockOutline g).Keeps p F (some .write) (memcpyTo buf off bytes) := by
  induction bytes generalizing off with
  | nil => exact keeps_pure _
  | cons b bytes ih => exact keeps_bind (keeps_covered (by trivial)) fun _ => ih (off + 1)

theorem keeps_memcpyFrom (buf n off : ℕ) :
    (lockOutline g).Keeps p F l (memcpyFrom buf off n) := by
  induction n generalizing off with
  | zero => exact keeps_pure _
  | succ n ih =>
    rw [memcpyFrom]
    exact keeps_bind (keeps_covered (by trivial)) fun _ => keeps_bind (ih (off + 1)) fun _ => keeps_pure _

/-! ## The calls of `ipcbuf.c` -/

/-- The private data of a process agrees with the lock that it has: a writer has `WRITE`, a reader has
the slot that it says, and a process that may take a lock has none.  A viewer at the end of the data may
have either; it cannot give it back. -/
structure Ipcbuf.Fits (id : Ipcbuf) (l : Option Sem) : Prop where
  viewer : id.state = .viewer → l = none
  writer : id.isWriter = true → l = some .write
  reader : id.isReader = true → ∃ i, id.iread = some i ∧ l = some (.readerConn i)

/-- A reader in slot `i`. -/
def Ipcbuf.Reads (i : ℕ) (id : Ipcbuf) : Prop := id.isReader = true ∧ id.iread = some i

namespace Ipcbuf.Fits

variable {id : Ipcbuf}

theorem connected : Ipcbuf.Fits .connected none where
  viewer _ := rfl
  writer h := by cases h
  reader h := by cases h

/-- The state and the slot of the process are all that matters. -/
theorem congr (h : id.Fits l) {id' : Ipcbuf} (hs : id'.state = id.state) (hi : id'.iread = id.iread) :
    id'.Fits l where
  viewer hv := h.viewer (hs ▸ hv)
  writer hw := h.writer (by rw [Ipcbuf.isWriter, hs] at hw; exact hw)
  reader hr := by
    rw [hi]
    exact h.reader (by rw [Ipcbuf.isReader, hs] at hr; exact hr)

/-- A writer has `WRITE`. -/
theorem of_writer (hw : id.isWriter = true) : id.Fits (some .write) where
  viewer hv := by rw [Ipcbuf.isWriter, hv] at hw; cases hw
  writer _ := rfl
  reader hr := by
    rw [Ipcbuf.isWriter] at hw
    rw [Ipcbuf.isReader] at hr
    cases hs : id.state <;> simp [hs] at hw hr

/-- A reader has its slot. -/
theorem of_reads {i : ℕ} (h : id.Reads i) : id.Fits (some (.readerConn i)) where
  viewer hv := by
    have hr := h.1
    rw [Ipcbuf.isReader, hv] at hr
    cases hr
  writer hw := by
    have hr := h.1
    rw [Ipcbuf.isReader] at hr
    rw [Ipcbuf.isWriter] at hw
    cases hs : id.state <;> simp [hs] at hw hr
  reader _ := ⟨i, h.2, rfl⟩

/-- A process that is no more than a viewer of a transfer. -/
theorem of_viewing (h : id.state = .viewing ∨ id.state = .vstop) : id.Fits l where
  viewer hv := by rcases h with h | h <;> rw [h] at hv <;> cases hv
  writer hw := by rcases h with h | h <;> rw [Ipcbuf.isWriter, h] at hw <;> cases hw
  reader hr := by rcases h with h | h <;> rw [Ipcbuf.isReader, h] at hr <;> cases hr

/-- A process with no lock that may take one. -/
theorem of_viewer (h : id.state = .viewer) : id.Fits none where
  viewer _ := rfl
  writer hw := by rw [Ipcbuf.isWriter, h] at hw; cases hw
  reader hr := by rw [Ipcbuf.isReader, h] at hr; cases hr

end Ipcbuf.Fits

section Calls

/-- A routine of a process that has a certain lock. -/
abbrev KeepsBuf (g : Geometry) (p : ℕ) (l : Option Sem) {α : Type} (m : IpcbufM α) : Prop :=
  (lockOutline g).Keeps p (Ipcbuf.Fits · l) l m

theorem keeps_ipcbufGetSodMinbuf : KeepsBuf g p l (ipcbufGetSodMinbuf g) := by
  refine keeps_get fun id _ => keeps_bind (keeps_load _) fun next => ?_
  dsimp only
  split
  · exact keeps_pure _
  · exact keeps_bind (keeps_load _) fun _ => keeps_pure _

theorem keeps_ipcbufSetSoclockBuf : KeepsBuf g p l ipcbufSetSoclockBuf := by
  refine keeps_bind (keeps_load _) fun wXfer => ?_
  split
  · refine keeps_bind (keeps_load _) fun _ => keeps_bind (keeps_load _) fun _ => ?_
    exact keeps_bind (keeps_modify fun id h => h.congr rfl rfl) fun _ => keeps_pure _
  · exact keeps_bind (keeps_modify fun id h => h.congr rfl rfl) fun _ => keeps_pure _

theorem keeps_countWritten (first : ℕ) : KeepsBuf g p (some .write) (countWritten g first) := by
  refine keeps_iterate (fun newBufs => keeps_bind (keeps_load _) fun curr => ?_) first
  split
  · refine keeps_bind (keeps_load _) fun count => ?_
    exact keeps_bind (keeps_store _ _) fun _ => keeps_pure _
  · exact keeps_pure _

theorem keeps_markSod (startBuf startByte : ℕ) :
    KeepsBuf g p (some .write) (markSod startBuf startByte) := by
  refine keeps_bind (keeps_load _) fun wXfer => ?_
  refine keeps_bind (keeps_modify fun id h => h.congr rfl rfl) fun _ => ?_
  refine keeps_bind (keeps_store _ _) fun _ => keeps_bind (keeps_store _ _) fun _ => ?_
  refine keeps_bind (keeps_load _) fun curr => ?_
  split
  · exact keeps_bind (keeps_store _ _) fun _ => keeps_pure _
  · exact keeps_pure _

theorem keeps_catchUp (xfer : ℕ) : KeepsBuf g p (some .write) (catchUp g xfer) := by
  refine keeps_bind (keeps_load _) fun first => keeps_bind (keeps_countWritten first) fun _ => ?_
  refine keeps_bind (keeps_load _) fun curr => keeps_bind (keeps_load _) fun first => ?_
  refine keeps_bind (keeps_modify fun id _ => .of_writer rfl) fun _ => ?_
  refine keeps_bind (keeps_store _ _) fun _ => keeps_countUp fun iread _ => ?_
  split
  · exact keeps_semop rfl _ _
  · exact keeps_pure _

theorem keeps_raiseSod (startBuf startByte : ℕ) :
    KeepsBuf g p (some .write) (raiseSod g startBuf startByte) := by
  refine keeps_bind (keeps_countUp fun iread _ => keeps_semop rfl _ _) fun _ => ?_
  refine keeps_bind (keeps_markSod startBuf startByte) fun xfer => ?_
  exact keeps_bind (keeps_catchUp xfer) fun _ => keeps_pure _

/-- `ipcbuf_enable_sod` refuses a process that is no writer. -/
theorem keeps_ipcbufEnableSod (startBuf startByte : ℕ) :
    KeepsBuf g p l (ipcbufEnableSod g startBuf startByte) := by
  refine keeps_get fun id hid => ?_
  split
  · exact keeps_pure _
  case isFalse hstate =>
    have hw : id.isWriter = true := by
      rw [Ipcbuf.isWriter]
      cases hs : id.state <;> simp [hs] at hstate ⊢
    obtain rfl := hid.writer hw
    refine keeps_bind (keeps_load _) fun next => ?_
    split
    · exact keeps_pure _
    · refine keeps_bind keeps_ipcbufGetSodMinbuf fun minbuf => ?_
      split
      · exact keeps_pure _
      · split
        · exact keeps_pure _
        · exact keeps_raiseSod startBuf startByte

theorem keeps_reclaim (bufnum : ℕ) : KeepsBuf g p (some .write) (reclaim g bufnum) := by
  refine keeps_iterate (fun _ => keeps_bind (keeps_load _) fun count => ?_) ()
  split
  · refine keeps_bind (keeps_countUp fun iread _ => keeps_semop rfl _ _) fun _ => ?_
    refine keeps_bind (keeps_load _) fun count => ?_
    exact keeps_bind (keeps_store _ _) fun _ => keeps_pure _
  · exact keeps_pure _

theorem keeps_takeNextWrite : KeepsBuf g p (some .write) (takeNextWrite g) := by
  refine keeps_bind (keeps_load _) fun next => keeps_bind (keeps_reclaim _) fun _ => ?_
  refine keeps_bind (keeps_load _) fun next => ?_
  exact keeps_bind (keeps_store _ _) fun _ => keeps_pure _

/-- `ipcbuf_get_next_write` refuses a process that is no writer. -/
theorem keeps_ipcbufGetNextWrite : KeepsBuf g p l (ipcbufGetNextWrite g) := by
  refine keeps_get fun id hid => ?_
  split
  · exact keeps_pure _
  case isFalse hw =>
    obtain rfl := hid.writer (by simpa using hw)
    split
    · refine keeps_bind (keeps_load _) fun curr => ?_
      refine keeps_bind (keeps_ipcbufEnableSod curr 0) fun rc => ?_
      split
      · exact keeps_pure _
      · exact keeps_takeNextWrite
    · exact keeps_takeNextWrite

theorem keeps_markEod (nbytes : ℕ) : KeepsBuf g p (some .write) (markEod g nbytes) := by
  refine keeps_bind (keeps_countUp fun iread _ => keeps_semop rfl _ _) fun _ => ?_
  refine keeps_get fun id _ => keeps_bind (keeps_load _) fun curr => ?_
  refine keeps_bind (keeps_store _ _) fun _ => keeps_bind (keeps_store _ _) fun _ => ?_
  refine keeps_bind (keeps_store _ _) fun _ => keeps_bind (keeps_load _) fun wXfer => ?_
  refine keeps_bind (keeps_store _ _) fun _ => keeps_bind (keeps_load _) fun wXfer => ?_
  refine keeps_bind (keeps_modify fun id _ => .of_writer rfl) fun _ => ?_
  refine keeps_bind (keeps_store _ _) fun _ => ?_
  split
  · exact keeps_bind keeps_ipcbufGetNextWrite fun _ => keeps_pure _
  · exact keeps_pure _

theorem keeps_publish : KeepsBuf g p (some .write) (publish g) := by
  refine keeps_bind (keeps_load _) fun curr => keeps_bind (keeps_load _) fun count => ?_
  refine keeps_bind (keeps_store _ _) fun _ => keeps_bind (keeps_load _) fun curr => ?_
  refine keeps_bind (keeps_store _ _) fun _ => ?_
  exact keeps_bind (keeps_countUp fun iread _ => keeps_semop rfl _ _) fun _ => keeps_pure _

/-- `ipcbuf_mark_filled` refuses a process that is no writer. -/
theorem keeps_ipcbufMarkFilled (nbytes : ℕ) : KeepsBuf g p l (ipcbufMarkFilled g nbytes) := by
  refine keeps_get fun id hid => ?_
  split
  · exact keeps_pure _
  case isFalse hw =>
    obtain rfl := hid.writer (by simpa using hw)
    split
    · refine keeps_bind (keeps_load _) fun curr => ?_
      exact keeps_bind (keeps_store _ _) fun _ => keeps_pure _
    · split
      · exact keeps_bind (keeps_markEod nbytes) fun _ => keeps_publish
      · exact keeps_publish

/-- `ipcbuf_enable_eod` goes from one state of a writer to another. -/
theorem keeps_ipcbufEnableEod : KeepsBuf g p l ipcbufEnableEod := by
  refine keeps_get fun id hid => ?_
  split
  · exact keeps_pure _
  case isFalse hstate =>
    have hw : id.isWriter = true := by simp [Ipcbuf.isWriter, not_not.mp hstate]
    obtain rfl := hid.writer hw
    exact keeps_bind (keeps_modify fun id _ => .of_writer rfl) fun _ => keeps_pure _

theorem keeps_ipcbufDisableSod : KeepsBuf g p l ipcbufDisableSod := by
  refine keeps_get fun id hid => ?_
  split
  · exact keeps_pure _
  case isFalse hstate =>
    have hw : id.isWriter = true := by simp [Ipcbuf.isWriter, not_not.mp hstate]
    obtain rfl := hid.writer hw
    exact keeps_bind (keeps_modify fun id _ => .of_writer rfl) fun _ => keeps_pure _

theorem keeps_atLastBuffer {F : Ipcbuf → Prop} (iread : ℕ) :
    (lockOutline g).Keeps p F l (atLastBuffer iread) := by
  refine keeps_get fun id _ => keeps_bind (keeps_load _) fun eod => ?_
  split
  · exact keeps_bind (keeps_load _) fun rBuf => keeps_test _ _
  · exact keeps_pure _

theorem keeps_validBytes {F : Ipcbuf → Prop} (iread startByte : ℕ) :
    (lockOutline g).Keeps p F l (validBytes g iread startByte) := by
  refine keeps_bind (keeps_atLastBuffer iread) fun last => ?_
  split
  · refine keeps_get fun id _ => ?_
    exact keeps_bind (keeps_load _) fun eByte => keeps_pure _
  · exact keeps_pure _

theorem keeps_beginTransfer (i : ℕ) (undo : Bool) :
    (lockOutline g).Keeps p (Ipcbuf.Reads i) (some (.readerConn i)) (beginTransfer i undo) := by
  refine keeps_bind (keeps_load _) fun rXfer => ?_
  refine keeps_bind (keeps_modify fun id h => ⟨rfl, h.2⟩) fun _ => ?_
  refine keeps_bind (keeps_rstore (by simp [Var.isReaders]) _) fun _ => ?_
  refine keeps_bind (keeps_load _) fun sBuf => ?_
  refine keeps_bind (keeps_rstore (by simp [Var.isReaders]) _) fun _ => ?_
  refine keeps_bind (keeps_load _) fun startByte => ?_
  exact keeps_bind (keeps_post (.inl rfl) undo) fun _ => keeps_pure _

theorem keeps_nextRead (i : ℕ) (undo : Bool) :
    (lockOutline g).Keeps p (Ipcbuf.Reads i) (some (.readerConn i)) (nextRead g undo) := by
  refine keeps_get fun id hid => ?_
  have hi : id.iread.getD 0 = i := by rw [hid.2]; rfl
  dsimp only
  rw [hi]
  refine keeps_bind (keeps_takeFull i undo) fun _ => ?_
  have hrest : ∀ startByte, (lockOutline g).Keeps p (Ipcbuf.Reads i) (some (.readerConn i)) (do
      let bufnum ← load (.rBufs i)
      let bytes ← validBytes g i startByte
      return ((⟨bufnum % g.nbufs, startByte⟩ : Ptr), bytes)) := fun startByte =>
    keeps_bind (keeps_load _) fun bufnum => keeps_bind (keeps_validBytes i startByte) fun _ => keeps_pure _
  split
  · exact keeps_bind (keeps_beginTransfer i undo) hrest
  · exact hrest 0

theorem keeps_beginView : KeepsBuf g p l beginView := by
  refine keeps_bind (keeps_load _) fun rXfer => ?_
  refine keeps_bind (keeps_modify fun id _ => .of_viewing (.inl rfl)) fun _ => ?_
  refine keeps_bind (keeps_load _) fun sBuf => ?_
  refine keeps_bind (keeps_modify fun id h => h.congr rfl rfl) fun _ => ?_
  refine keeps_bind (keeps_load _) fun startByte => keeps_bind (keeps_load _) fun curr => ?_
  split
  · refine keeps_bind (keeps_load _) fun curr => ?_
    exact keeps_bind (keeps_modify fun id h => h.congr rfl rfl) fun _ => keeps_pure _
  · exact keeps_pure _

theorem keeps_awaitWritten : KeepsBuf g p l awaitWritten := by
  refine keeps_iterate (fun _ => keeps_get fun id _ => keeps_bind (keeps_load _) fun curr => ?_) ()
  split
  · refine keeps_bind (keeps_load _) fun eod => ?_
    split
    · refine keeps_bind (keeps_load _) fun read => ?_
      split
      · refine keeps_bind (keeps_load _) fun read => keeps_bind (keeps_test _ _) fun last => ?_
        split
        · exact keeps_bind (keeps_modify fun id _ => .of_viewing (.inr rfl)) fun _ => keeps_pure _
        · exact keeps_pure _
      · exact keeps_pure _
    · exact keeps_pure _
  · exact keeps_pure _

theorem keeps_nextView : KeepsBuf g p l (nextView g) := by
  refine keeps_get fun id _ => ?_
  have hlast : ∀ startByte, KeepsBuf g p l (do
      let id ← get
      modify fun id => { id with viewbuf := id.viewbuf + 1 }
      let bytes ← validBytes g 0 startByte
      return ((⟨id.viewbuf % g.nbufs, startByte⟩ : Ptr), bytes)) := fun startByte =>
    keeps_get fun id _ => keeps_bind (keeps_modify fun id h => h.congr rfl rfl) fun _ =>
      keeps_bind (keeps_validBytes 0 startByte) fun bytes => keeps_pure _
  have hrest : ∀ startByte, KeepsBuf g p l (do
      awaitWritten
      let id ← get
      let curr ← load .wBufCurr
      if id.viewbuf + g.nbufs < curr then
        let curr ← load .wBufCurr
        modify fun id => { id with viewbuf := usub (curr + 1) g.nbufs }
      let id ← get
      modify fun id => { id with viewbuf := id.viewbuf + 1 }
      let bytes ← validBytes g 0 startByte
      return ((⟨id.viewbuf % g.nbufs, startByte⟩ : Ptr), bytes)) := fun startByte => by
    refine keeps_bind keeps_awaitWritten fun _ => keeps_get fun id _ => ?_
    refine keeps_bind (keeps_load _) fun curr => ?_
    dsimp only
    split
    · refine keeps_bind (keeps_load _) fun curr => ?_
      exact keeps_bind (keeps_modify fun id h => h.congr rfl rfl) fun _ => hlast startByte
    · exact hlast startByte
  dsimp only
  split
  · exact keeps_bind keeps_beginView hrest
  · exact hrest 0

/-- A reader takes a sub-block of its slot, anybody else views. -/
theorem keeps_ipcbufGetNextReadWork (undo : Bool) :
    KeepsBuf g p l (ipcbufGetNextReadWork g undo) := by
  intro id hid
  rw [ipcbufGetNextReadWork, ensures_bind, ensures_get]
  split
  · exact keeps_pure _ id hid
  · split
    case isTrue hr =>
      obtain ⟨i, hi, rfl⟩ := hid.reader hr
      refine ensures_mono (keeps_bind (keeps_nextRead i undo) (fun _ => keeps_pure _) id ⟨hr, hi⟩) ?_
      exact fun _ _ _ h => ⟨.of_reads h.1, h.2⟩
    case isFalse hr => exact keeps_bind keeps_nextView (fun _ => keeps_pure _) id hid

theorem keeps_ipcbufTell (bufnum : ℕ) : KeepsBuf g p l (ipcbufTell g bufnum) := by
  refine keeps_get fun id _ => keeps_bind (keeps_load _) fun sBuf => ?_
  split
  · exact keeps_pure _
  · refine keeps_bind (keeps_load _) fun sBuf => ?_
    exact keeps_bind (keeps_load _) fun sByte => keeps_pure _

theorem keeps_ipcbufTellWrite : KeepsBuf g p l (ipcbufTellWrite g) := by
  refine keeps_get fun id _ => ?_
  split
  · exact keeps_pure _
  · split
    · exact keeps_pure _
    · exact keeps_bind (keeps_load _) fun curr => keeps_bind (keeps_ipcbufTell curr) fun _ => keeps_pure _

theorem keeps_ipcbufTellRead : KeepsBuf g p l (ipcbufTellRead g) := by
  refine keeps_get fun id _ => ?_
  split
  · exact keeps_pure _
  · split
    · exact keeps_bind (keeps_load _) fun rBuf => keeps_bind (keeps_ipcbufTell rBuf) fun _ => keeps_pure _
    · split
      · exact keeps_bind (keeps_ipcbufTell id.viewbuf) fun _ => keeps_pure _
      · exact keeps_pure _

/-- `ipcbuf_mark_cleared` refuses a process that is not reading. -/
theorem keeps_ipcbufMarkCleared : KeepsBuf g p l ipcbufMarkCleared := by
  intro id hid
  rw [ipcbufMarkCleared, ensures_bind, ensures_get]
  split
  · exact keeps_pure _ id hid
  case isFalse hstate =>
    have hr : id.isReader = true := by simp [Ipcbuf.isReader, not_not.mp hstate]
    obtain ⟨i, hi, rfl⟩ := hid.reader hr
    simp only [hi, Option.getD_some]
    suffices h : (lockOutline g).Keeps p (Ipcbuf.Reads i) (some (.readerConn i)) _ from
      ensures_mono (h id ⟨hr, hi⟩) fun _ _ _ h => ⟨.of_reads h.1, h.2⟩
    refine keeps_bind (keeps_post (.inr (.inr rfl)) false) fun _ => ?_
    refine keeps_bind (keeps_atLastBuffer i) fun last => ?_
    split
    · refine keeps_bind (keeps_modify fun id h => ⟨rfl, h.2⟩) fun _ => ?_
      refine keeps_bind (keeps_rstore (by simp [Var.isReaders]) _) fun _ => ?_
      refine keeps_bind (keeps_load _) fun rXfer => ?_
      refine keeps_bind (keeps_rstore (by simp [Var.isReaders]) _) fun _ => ?_
      refine keeps_bind (keeps_load _) fun rXfer => ?_
      refine keeps_bind (keeps_modify fun id h => ⟨h.1, h.2⟩) fun _ => ?_
      exact keeps_bind (keeps_post (.inr (.inl rfl)) false) fun _ => keeps_pure _
    · refine keeps_bind (keeps_load _) fun rBuf => ?_
      exact keeps_bind (keeps_rstore (by simp [Var.isReaders]) _) fun _ => keeps_pure _

theorem keeps_resetReader (i : ℕ) : KeepsBuf g p (some .write) (resetReader i) := by
  refine keeps_bind (keeps_semop rfl _ _) fun _ => keeps_bind (keeps_semop rfl _ _) fun _ => ?_
  refine keeps_bind (keeps_semop rfl _ _) fun _ => keeps_bind (keeps_semop rfl _ _) fun _ => ?_
  exact keeps_bind (keeps_store _ _) fun _ => keeps_store _ _

theorem keeps_resetRing : KeepsBuf g p (some .write) (resetRing g) := by
  refine keeps_bind (keeps_countUp fun ibuf _ => keeps_reclaim ibuf) fun _ => ?_
  refine keeps_bind (keeps_countUp fun iread _ => keeps_resetReader iread) fun _ => ?_
  refine keeps_bind (keeps_store _ _) fun _ => keeps_bind (keeps_store _ _) fun _ => ?_
  refine keeps_bind (keeps_store _ _) fun _ => ?_
  exact keeps_bind (keeps_countUp fun ix _ => keeps_store _ _) fun _ => keeps_pure _

/-- `ipcbuf_reset` of a reader changes its own state only, and of a writer the ring. -/
theorem keeps_ipcbufReset : KeepsBuf g p l (ipcbufReset g) := by
  intro id hid
  rw [ipcbufReset, ensures_bind, ensures_get]
  split
  case isTrue hstate =>
    obtain ⟨i, hi, rfl⟩ := hid.reader (by simp [Ipcbuf.isReader, hstate])
    exact ⟨.of_reads ⟨rfl, hi⟩, rfl⟩
  · split
    · exact keeps_pure _ id hid
    case isFalse hw =>
      obtain rfl := hid.writer (by simpa using hw)
      suffices h : KeepsBuf g p (some .write) _ from h id hid
      refine keeps_bind (keeps_test _ _) fun unmoved => ?_
      split
      · refine keeps_bind (keeps_test _ _) fun unused => ?_
        split
        · exact keeps_pure _
        · exact keeps_resetRing
      · exact keeps_resetRing

/-! ## Taking and giving back a lock -/

/-- A call of a process whose private data agrees with its lock leaves it so. -/
def FitsKept (g : Geometry) (p : ℕ) {α : Type} (m : IpcbufM α) : Prop :=
  ∀ (id : Ipcbuf) (l : Option Sem), id.Fits l →
    (lockOutline g).Ensures p m id l fun _ id' l' => id'.Fits l'

theorem FitsKept.of_keeps {α : Type} {m : IpcbufM α} (h : ∀ l, KeepsBuf g p l m) : FitsKept g p m :=
  fun id l hid => ensures_mono (h l id hid) fun _ _ _ h' => h'.2 ▸ h'.1

/-- When `ipcbuf_lock_write` succeeds, the process has `WRITE`. -/
theorem ensures_ipcbufLockWrite {id : Ipcbuf} (hid : id.Fits l) :
    (lockOutline g).Ensures p ipcbufLockWrite id l fun rc id' l' =>
      id'.Fits l' ∧ (0 ≤ rc → l' = some .write) := by
  rw [ipcbufLockWrite, ensures_bind, ensures_get]
  split
  · exact ⟨hid, fun (h : (0 : ℤ) ≤ -1) => absurd h (by decide)⟩
  case isFalse hstate =>
    obtain rfl := hid.viewer (not_not.mp hstate)
    rw [ensures_bind]
    refine ensures_takeLock rfl ?_
    -- from here on the process has `WRITE`, and it says so once it has looked at `w_state`
    rw [ensures_bind]
    refine ensures_of_keeps (F := fun _ => True) (keeps_test _ _) trivial fun idle id' _ => ?_
    rw [ensures_bind, ensures_modify, ensures_bind]
    refine ensures_of_keeps (F := (Ipcbuf.Fits · (some .write))) (keeps_load _)
      (.of_writer (by cases idle <;> rfl)) fun wXfer id'' h => ?_
    rw [ensures_bind, ensures_modify]
    exact ⟨h.congr rfl rfl, fun _ => rfl⟩

/-- When `ipcbuf_unlock_write` fails, the process has what it had. -/
theorem ensures_ipcbufUnlockWrite {id : Ipcbuf} (hid : id.Fits l) :
    (lockOutline g).Ensures p ipcbufUnlockWrite id l fun rc id' l' =>
      id'.Fits l' ∧ (rc < 0 → l' = l) := by
  rw [ipcbufUnlockWrite, ensures_bind, ensures_get]
  split
  · exact ⟨hid, fun _ => rfl⟩
  case isFalse hw =>
    obtain rfl := hid.writer (by simpa using hw)
    rw [ensures_bind]
    exact ensures_leaveLock ⟨.of_viewer rfl, fun (h : (0 : ℤ) < 0) => absurd h (lt_irrefl _)⟩

/-- The scan leaves the process with the slot that it returns. -/
theorem ensures_scanSlots {id : Ipcbuf} (slots : List ℕ) :
    (lockOutline g).Ensures p (claimSlot slots) id none fun slot id' l' =>
      id' = id ∧ l' = slot.map Sem.readerConn := by
  induction slots with
  | nil => exact ⟨rfl, rfl⟩
  | cons iread rest ih =>
    rw [claimSlot, ensures_bind]
    refine ensures_tryLock rfl ?_ ?_
    · exact ⟨rfl, rfl⟩
    · exact ih

theorem keeps_leastReader {F : Ipcbuf → Prop} (chosen : List ℕ) (n : ℕ) :
    (lockOutline g).Keeps p F l (leastReader chosen n) := by
  induction n with
  | zero => exact keeps_pure _
  | succ iread ih =>
    rw [leastReader]
    refine keeps_bind ih fun least => keeps_bind (keeps_load _) fun rBufs => ?_
    split
    · exact keeps_bind (keeps_load _) fun rBufs => keeps_pure _
    · exact keeps_pure _

theorem keeps_readerOrder {F : Ipcbuf → Prop} (n : ℕ) :
    (lockOutline g).Keeps p F l (readerOrder g n) := by
  induction n with
  | zero => exact keeps_pure _
  | succ ipos ih =>
    rw [readerOrder]
    exact keeps_bind ih fun chosen => keeps_bind (keeps_leastReader chosen g.nReaders) fun _ =>
      keeps_pure _

theorem fitsKept_ipcbufLockRead : FitsKept g p (ipcbufLockRead g) := by
  intro id l hid
  rw [ipcbufLockRead, ensures_bind, ensures_get]
  split
  · exact hid
  case isFalse hstate =>
    split
    · exact hid
    · obtain rfl := hid.viewer (not_not.mp hstate)
      rw [ensures_bind]
      refine ensures_of_keeps (F := (Ipcbuf.Fits · none)) (keeps_read _ _) hid fun _ id₁ h₁ => ?_
      rw [ensures_bind]
      refine ensures_of_keeps (F := (Ipcbuf.Fits · none)) (keeps_readerOrder g.nReaders) h₁
        fun order id₂ h₂ => ?_
      rw [ensures_bind]
      refine ensures_mono (ensures_scanSlots order) ?_
      rintro slot id₃ _ ⟨rfl, rfl⟩
      cases slot with
      | none => exact h₂
      | some i =>
        -- from here on the process has the slot, and it says so once it has looked at `r_states`
        dsimp only [Option.map_some]
        rw [ensures_bind, ensures_modify, ensures_bind]
        refine ensures_of_keeps (F := fun id => id.iread = some i) (keeps_test _ _) rfl
          fun fresh id₄ h₄ => ?_
        rw [ensures_bind, ensures_modify, ensures_bind]
        refine ensures_of_keeps (F := Ipcbuf.Reads i) (keeps_load _) ?_ fun rXfer id₅ h₅ => ?_
        · cases fresh <;> exact ⟨rfl, h₄⟩
        · rw [ensures_bind, ensures_modify]
          exact .of_reads ⟨h₅.1, h₅.2⟩

theorem fitsKept_ipcbufUnlockRead : FitsKept g p (ipcbufUnlockRead g) := by
  intro id l hid
  rw [ipcbufUnlockRead, ensures_bind, ensures_get]
  split
  · exact hid
  case isFalse hr =>
    obtain ⟨i, hi, rfl⟩ := hid.reader (by simpa using hr)
    rw [hi]
    dsimp only
    split
    · exact hid
    · rw [ensures_bind]
      refine ensures_leaveLock ?_
      rw [ensures_bind]
      refine ensures_of_keeps (F := fun _ => True) (keeps_read _ _) trivial fun _ id' _ => ?_
      rw [ensures_bind, ensures_modify]
      exact .of_viewer rfl

end Calls

/-! ## The calls of `ipcio.c` -/

/-- The private data of a process that uses the byte interface agrees with the lock that it has: in mode
`'W'` or `'w'` it has `WRITE`. -/
structure Ipcio.Fits (ipc : Ipcio) (l : Option Sem) : Prop where
  buf : ipc.buf.Fits l
  writing : ipc.rdwrt = .W ∨ ipc.rdwrt = .w → l = some .write

namespace Ipcio.Fits

variable {ipc : Ipcio}

theorem connected : Ipcio.Fits .connected none where
  buf := .connected
  writing h := by rcases h with h | h <;> cases h

/-- The `ipcbuf_t` and the mode are all that matters. -/
theorem congr (h : ipc.Fits l) {ipc' : Ipcio} (hb : ipc'.buf = ipc.buf) (hm : ipc'.rdwrt = ipc.rdwrt) :
    ipc'.Fits l :=
  ⟨hb ▸ h.buf, hm ▸ h.writing⟩

/-- Any mode agrees with the writer's lock, and a mode that is not one of writing with any. -/
theorem mode (h : ipc.Fits l) {ipc' : Ipcio} (hb : ipc'.buf = ipc.buf)
    (hm : l = some .write ∨ ipc'.rdwrt ≠ .W ∧ ipc'.rdwrt ≠ .w) : ipc'.Fits l := by
  refine ⟨hb ▸ h.buf, fun hw => ?_⟩
  rcases hm with hl | ⟨h₁, h₂⟩
  · exact hl
  · exact (hw.elim h₁ h₂).elim

end Ipcio.Fits

section IoCalls

/-- A routine of a process that uses the byte interface and has a certain lock. -/
abbrev KeepsIo (g : Geometry) (p : ℕ) (l : Option Sem) {α : Type} (m : IpcioM α) : Prop :=
  (lockOutline g).Keeps p (Ipcio.Fits · l) l m

theorem keeps_onBuf {α : Type} {m : IpcbufM α} (h : KeepsBuf g p l m) : KeepsIo g p l (onBuf m) :=
  keeps_focus h (fun _ hu => hu.buf) fun _ _ hu ht => ⟨ht, hu.writing⟩

theorem keeps_ipcioAlloc : KeepsIo g p l (ipcioAlloc g) :=
  keeps_modify fun _ h => h.congr rfl rfl

theorem keeps_ipcioCheckPendingSod : KeepsIo g p l (ipcioCheckPendingSod g) := by
  refine keeps_get fun ipc _ => ?_
  split
  · exact keeps_pure _
  · refine keeps_bind (keeps_load _) fun count => ?_
    split
    · exact keeps_pure _
    · refine keeps_bind (keeps_onBuf (keeps_ipcbufEnableSod _ _)) fun rc => ?_
      split
      · exact keeps_pure _
      · exact keeps_bind (keeps_modify fun _ h => h.congr rfl rfl) fun _ => keeps_pure _

theorem keeps_ipcioStart (byte : ℕ) : KeepsIo g p l (ipcioStart g byte) := by
  refine keeps_get fun ipc hipc => ?_
  split
  · exact keeps_pure _
  case isFalse hmode =>
    obtain rfl := hipc.writing (.inr (not_not.mp hmode))
    exact keeps_bind (keeps_modify fun _ h => h.mode rfl (.inl rfl)) fun _ => keeps_ipcioCheckPendingSod

theorem keeps_ipcioUpdateBlockWrite (bytes : ℕ) : KeepsIo g p l (ipcioUpdateBlockWrite g bytes) := by
  refine keeps_get fun ipc _ => ?_
  iterate 4
    split
    · exact keeps_pure _
  exact keeps_bind (keeps_modify fun _ h => h.congr rfl rfl) fun _ => keeps_pure _

/-- Dropping an open buffer is a matter of the process alone. -/
theorem Ipcio.shiftOpened_fits {ipc : Ipcio} (h : ipc.Fits l) : ipc.shiftOpened.Fits l := by
  unfold Ipcio.shiftOpened
  dsimp only
  split <;> exact h.congr rfl rfl

theorem keeps_ipcioCloseBlockWrite (bytes : ℕ) : KeepsIo g p l (ipcioCloseBlockWrite g bytes) := by
  refine keeps_bind (keeps_ipcioUpdateBlockWrite bytes) fun rc => ?_
  split
  · exact keeps_pure _
  · refine keeps_get fun ipc _ => ?_
    split
    · exact keeps_pure _
    · refine keeps_bind (keeps_onBuf (keeps_ipcbufMarkFilled _)) fun rc => ?_
      split
      · exact keeps_pure _
      · refine keeps_bind keeps_ipcioCheckPendingSod fun rc => ?_
        split
        · exact keeps_pure _
        · exact keeps_bind (keeps_modify fun _ h => Ipcio.shiftOpened_fits h) fun _ => keeps_pure _

theorem keeps_endTransfer : KeepsIo g p l (endTransfer g) := by
  refine keeps_bind (keeps_iterate (fun _ => keeps_get fun ipc _ => ?_) ()) fun _ => ?_
  · split
    · exact keeps_bind (keeps_ipcioCloseBlockWrite g.bufsz) fun _ => keeps_pure _
    · exact keeps_pure _
  refine keeps_bind (keeps_onBuf keeps_ipcbufEnableEod) fun rc => ?_
  split
  · exact keeps_pure _
  refine keeps_get fun ipc _ => keeps_bind (keeps_onBuf (keeps_ipcbufMarkFilled _)) fun rc => ?_
  split
  · exact keeps_pure _
  refine keeps_bind keeps_ipcioCheckPendingSod fun rc => ?_
  split
  · exact keeps_pure _
  refine keeps_bind (keeps_modify fun _ h => h.congr rfl rfl) fun _ => keeps_get fun ipc _ => ?_
  dsimp only
  split
  · exact keeps_bind (keeps_modify fun _ h => h.congr rfl rfl) fun _ => keeps_pure _
  · exact keeps_pure _

theorem keeps_flushFull : KeepsIo g p l (flushFull g) := by
  have hrest : ∀ rc : ℤ, KeepsIo g p l (if rc < 0 then pure (-1 : ℤ) else do
      modify fun ipc => { ipc with curbuf := none, bytes := 0, markedFilled := true }
      return 0) := fun rc => by
    split
    · exact keeps_pure _
    · exact keeps_bind (keeps_modify fun _ h => h.congr rfl rfl) fun _ => keeps_pure _
  refine keeps_get fun ipc _ => ?_
  split
  · dsimp only
    split
    · refine keeps_bind (keeps_onBuf (keeps_ipcbufMarkFilled _)) fun rc => ?_
      split
      · exact hrest rc
      · exact keeps_bind keeps_ipcioCheckPendingSod hrest
    · exact hrest 0
  · exact keeps_pure _

theorem keeps_currentWrite : KeepsIo g p l (currentWrite g) := by
  refine keeps_get fun ipc _ => ?_
  cases ipc.curbuf with
  | some ptr => exact keeps_pure _
  | none =>
    refine keeps_bind (keeps_onBuf keeps_ipcbufGetNextWrite) fun next => ?_
    cases next with
    | none => exact keeps_pure _
    | some bufnum => exact keeps_bind (keeps_modify fun _ h => h.congr rfl rfl) fun _ => keeps_pure _

/-- `ipcio_write` refuses a process that is not in a mode of writing. -/
theorem keeps_ipcioWrite (ptr : List UInt8) : KeepsIo g p l (ipcioWrite g ptr) := by
  refine keeps_get fun ipc hipc => ?_
  split
  · exact keeps_pure _
  case isFalse hmode =>
    obtain rfl : l = some .write := hipc.writing (by
      by_contra h
      rw [not_or] at h
      exact hmode h)
    refine keeps_iterate (fun rest => ?_) ptr
    split
    · exact keeps_pure _
    · refine keeps_bind keeps_flushFull fun rc => ?_
      split
      · exact keeps_pure _
      · refine keeps_bind keeps_currentWrite fun cur => ?_
        cases cur with
        | none => exact keeps_pure _
        | some cur =>
          refine keeps_get fun ipc _ => keeps_bind (keeps_memcpyTo _ _ _) fun _ => ?_
          exact keeps_bind (keeps_modify fun _ h => h.congr rfl rfl) fun _ => keeps_pure _

theorem keeps_ipcbufGetNextRead : KeepsBuf g p l (ipcbufGetNextRead g) :=
  keeps_ipcbufGetNextReadWork false

theorem keeps_currentRead : KeepsIo g p l (currentRead g) := by
  refine keeps_get fun ipc _ => ?_
  cases ipc.curbuf with
  | some ptr => exact keeps_pure _
  | none =>
    refine keeps_bind (keeps_onBuf keeps_ipcbufGetNextRead) fun next => ?_
    cases next with
    | none => exact keeps_pure _
    | some next => exact keeps_bind (keeps_modify fun _ h => h.congr rfl rfl) fun _ => keeps_pure _

theorem keeps_copyOut (cur : Ptr) (bytes : ℕ) : KeepsIo g p l (copyOut cur bytes) := by
  refine keeps_get fun ipc _ => keeps_bind (keeps_memcpyFrom _ _ _) fun data => ?_
  exact keeps_bind (keeps_modify fun _ h => h.congr rfl rfl) fun _ => keeps_pure _

theorem keeps_finishBuffer : KeepsIo g p l finishBuffer := by
  have hrest : ∀ rc : ℤ, KeepsIo g p l (if rc < 0 then pure none else do
      modify fun ipc => { ipc with curbuf := none, bytes := 0 }
      return some true) := fun rc => by
    split
    · exact keeps_pure _
    · exact keeps_bind (keeps_modify fun _ h => h.congr rfl rfl) fun _ => keeps_pure _
  refine keeps_get fun ipc _ => ?_
  split
  · dsimp only
    split
    · exact keeps_bind (keeps_onBuf keeps_ipcbufMarkCleared) hrest
    · exact hrest 0
  · exact keeps_pure _

theorem keeps_ipcioRead (bytes : ℕ) : KeepsIo g p l (ipcioRead g bytes) := by
  refine keeps_get fun ipc _ => ?_
  split
  · exact keeps_pure _
  refine keeps_iterate (fun got => keeps_get fun ipc _ => ?_) []
  split
  · exact keeps_pure _
  refine keeps_bind keeps_currentRead fun cur => ?_
  cases cur with
  | none => exact keeps_pure _
  | some cur =>
    refine keeps_bind (keeps_copyOut _ _) fun data => keeps_bind keeps_finishBuffer fun left => ?_
    rcases left with _ | left
    · exact keeps_pure _
    · cases left with
      | true => exact keeps_pure _
      | false =>
        dsimp only
        split <;> exact keeps_pure _

theorem keeps_ipcioOpenBlockRead : KeepsIo g p l (ipcioOpenBlockRead g) := by
  refine keeps_get fun ipc _ => ?_
  iterate 4
    split
    · exact keeps_pure _
  refine keeps_bind (keeps_onBuf keeps_ipcbufGetNextRead) fun next => ?_
  cases next with
  | none => exact keeps_pure _
  | some next => exact keeps_bind (keeps_modify fun _ h => h.congr rfl rfl) fun _ => keeps_pure _

theorem keeps_ipcioCloseBlockRead (bytes : ℕ) : KeepsIo g p l (ipcioCloseBlockRead bytes) := by
  refine keeps_get fun ipc _ => ?_
  iterate 3
    split
    · exact keeps_pure _
  refine keeps_bind (keeps_modify fun _ h => h.congr rfl rfl) fun _ => keeps_get fun ipc _ => ?_
  split
  · refine keeps_bind (keeps_onBuf keeps_ipcbufMarkCleared) fun rc => ?_
    split
    · exact keeps_pure _
    · exact keeps_bind (keeps_modify fun _ h => h.congr rfl rfl) fun _ => keeps_pure _
  · exact keeps_pure _

theorem keeps_ipcioOpenBlockWrite : KeepsIo g p l (ipcioOpenBlockWrite g) := by
  refine keeps_get fun ipc _ => ?_
  iterate 4
    split
    · exact keeps_pure _
  refine keeps_bind (keeps_onBuf keeps_ipcbufGetNextWrite) fun next => ?_
  cases next with
  | none => exact keeps_pure _
  | some bufnum =>
    refine keeps_bind (keeps_modify fun ipc h => ?_) fun _ => keeps_pure _
    dsimp only
    split <;> exact h.congr rfl rfl

/-! ## Opening and closing -/

/-- A call of a process that uses the byte interface leaves its private data and its lock agreeing. -/
def FitsKeptIo (g : Geometry) (p : ℕ) {α : Type} (m : IpcioM α) : Prop :=
  ∀ (ipc : Ipcio) (l : Option Sem), ipc.Fits l →
    (lockOutline g).Ensures p m ipc l fun _ ipc' l' => ipc'.Fits l'

theorem FitsKeptIo.of_keeps {α : Type} {m : IpcioM α} (h : ∀ l, KeepsIo g p l m) :
    FitsKeptIo g p m :=
  fun ipc l hipc => ensures_mono (h l ipc hipc) fun _ _ _ h' => h'.2 ▸ h'.1

/-- A call on the `ipcbuf_t` part, in no mode of writing. -/
theorem ensures_onBuf {α : Type} {m : IpcbufM α} {ipc : Ipcio} {Q : α → Ipcbuf → Option Sem → Prop}
    (h : (lockOutline g).Ensures p m ipc.buf l Q) :
    (lockOutline g).Ensures p (onBuf m) ipc l fun a ipc' l' =>
      Q a ipc'.buf l' ∧ ipc' = { ipc with buf := ipc'.buf } := by
  rw [onBuf, ensures_focus]
  exact ensures_mono h fun a id' l' hQ => ⟨hQ, rfl⟩

/-- `ipcio_open` is in a mode of writing only once it has `WRITE`. -/
theorem fitsKept_ipcioOpen (rdwrt : Rdwrt) : FitsKeptIo g p (ipcioOpen g rdwrt) := by
  intro ipc l hipc
  rw [ipcioOpen]
  split
  · exact hipc
  rw [ensures_bind, ensures_modify]
  split
  case isTrue hmode =>
    rw [ensures_bind]
    refine ensures_mono (ensures_onBuf (ensures_ipcbufLockWrite hipc.buf)) ?_
    rintro rc ipc₁ l₁ ⟨⟨hbuf, hlock⟩, heq⟩
    have hclosed : ipc₁.rdwrt = .closed := by rw [heq]
    have hfits : ipc₁.Fits l₁ := ⟨hbuf, fun h => by rw [hclosed] at h; rcases h with h | h <;> cases h⟩
    split
    · exact hfits
    case isFalse hrc =>
      obtain rfl := hlock (by omega)
      -- the process has `WRITE`, so that any mode will do
      have hrest : ∀ rc : ℤ, KeepsIo g p (some .write) (if rc < 0 then pure (-1 : ℤ) else do
          modify fun ipc => { ipc with rdwrt := rdwrt }
          ipcioAlloc g
          return 0) := fun rc => by
        split
        · exact keeps_pure _
        · refine keeps_bind (keeps_modify fun _ h => h.mode rfl (.inl rfl)) fun _ => ?_
          exact keeps_bind keeps_ipcioAlloc fun _ => keeps_pure _
      refine ensures_of_keeps (F := (Ipcio.Fits · (some .write))) ?_ hfits fun _ _ h => h
      dsimp only
      split
      · exact keeps_bind (keeps_onBuf keeps_ipcbufDisableSod) hrest
      · exact hrest 0
  case isFalse hmode =>
    have hne : rdwrt ≠ .W ∧ rdwrt ≠ .w := ⟨fun h => hmode (.inr h), fun h => hmode (.inl h)⟩
    have hrest : ∀ (rc : ℤ) (l : Option Sem), KeepsIo g p l (if rc < 0 then pure (-1 : ℤ) else do
        modify fun ipc => { ipc with rdwrt := rdwrt }
        ipcioAlloc g
        return 0) := fun rc l => by
      split
      · exact keeps_pure _
      · refine keeps_bind (keeps_modify fun _ h => h.mode rfl (.inr hne)) fun _ => ?_
        exact keeps_bind keeps_ipcioAlloc fun _ => keeps_pure _
    have hclosed : ∀ (id : Ipcbuf) (l : Option Sem), id.Fits l →
        Ipcio.Fits { ipc with buf := id, rdwrt := .closed, bytes := 0, curbuf := none } l :=
      fun id l h => ⟨h, fun h => by rcases h with h | h <;> cases h⟩
    dsimp only
    split
    · rw [ensures_bind]
      refine ensures_mono (ensures_onBuf (fitsKept_ipcbufLockRead _ _ hipc.buf)) ?_
      rintro rc ipc₁ l₁ ⟨hbuf, heq⟩
      have hfits : ipc₁.Fits l₁ := by rw [heq]; exact hclosed _ _ hbuf
      exact ensures_of_keeps (hrest rc l₁) hfits fun _ _ h => h
    · exact ensures_of_keeps (hrest 0 l) (hclosed _ _ hipc.buf) fun _ _ h => h

/-- What closes a mode of writing points the writer behind the most recent end of data while it still has
`WRITE`, and leaves the mode only when it gives it back. -/
theorem fits_releaseWriter {ipc : Ipcio} (hipc : ipc.Fits (some .write)) :
    (lockOutline g).Ensures p releaseWriter ipc (some .write) fun _ ipc' l' => ipc'.Fits l' := by
  have hunlock : ∀ ipc : Ipcio, ipc.Fits (some .write) →
      (lockOutline g).Ensures p (do
        let rc ← onBuf ipcbufUnlockWrite
        if rc < 0 then
          return (-1 : ℤ)
        else
          modify fun ipc : Ipcio => { ipc with rdwrt := .closed }
          return 0) ipc (some .write) fun _ ipc' l' => ipc'.Fits l' := fun ipc hipc => by
    rw [ensures_bind]
    refine ensures_mono (ensures_onBuf (ensures_ipcbufUnlockWrite hipc.buf)) ?_
    rintro rc ipc₁ l₁ ⟨⟨hbuf, hsame⟩, heq⟩
    split
    case isTrue hrc =>
      exact ⟨hbuf, fun _ => hsame hrc⟩
    case isFalse hrc =>
      rw [ensures_bind, ensures_modify]
      exact ⟨hbuf, fun h => by rcases h with h | h <;> cases h⟩
  rw [releaseWriter, ensures_bind]
  refine ensures_of_keeps (F := (Ipcio.Fits · (some .write))) (keeps_load _) hipc fun wXfer ipc₁ h₁ => ?_
  dsimp only
  split
  · simp only [ensures_bind]
    refine ensures_of_keeps (F := (Ipcio.Fits · (some .write))) (keeps_load _) h₁ fun wXfer ipc₂ h₂ => ?_
    refine ensures_of_keeps (F := (Ipcio.Fits · (some .write))) (keeps_load _) h₂ fun last ipc₃ h₃ => ?_
    refine ensures_of_keeps (F := (Ipcio.Fits · (some .write))) (keeps_store _ _) h₃ fun _ ipc₄ h₄ => ?_
    refine ensures_of_keeps (F := (Ipcio.Fits · (some .write))) (keeps_load _) h₄ fun curr ipc₅ h₅ => ?_
    refine ensures_of_keeps (F := (Ipcio.Fits · (some .write))) (keeps_store _ _) h₅ fun _ ipc₆ h₆ => ?_
    rw [← ensures_bind]
    exact hunlock ipc₆ h₆
  · exact hunlock ipc₁ h₁

theorem fitsKept_ipcioStopClose (unlock : Bool) : FitsKeptIo g p (ipcioStopClose g unlock) := by
  intro ipc l hipc
  rw [ipcioStopClose, ensures_bind, ensures_get]
  split
  case isTrue hmode =>
    obtain rfl := hipc.writing (.inl hmode)
    have hrest : ∀ (rc : ℤ) (ipc : Ipcio), ipc.Fits (some .write) →
        (lockOutline g).Ensures p (if rc < 0 then pure (-1 : ℤ) else do
          modify fun ipc : Ipcio => { ipc with rdwrt := .w }
          if !unlock then return 0 else releaseWriter) ipc (some .write)
          fun _ ipc' l' => ipc'.Fits l' := fun rc ipc hipc => by
      split
      · exact hipc
      · rw [ensures_bind, ensures_modify]
        have hfits : Ipcio.Fits { ipc with rdwrt := .w } (some .write) := hipc.mode rfl (.inl rfl)
        split
        · exact hfits
        · exact fits_releaseWriter hfits
    dsimp only
    split
    · rw [ensures_bind]
      exact ensures_of_keeps (F := (Ipcio.Fits · (some .write))) keeps_endTransfer hipc hrest
    · exact hrest 0 ipc hipc
  · split
    case isTrue hmode =>
      obtain rfl := hipc.writing (.inr hmode)
      exact fits_releaseWriter hipc
    · split
      case isTrue hmode =>
        rw [ensures_bind]
        refine ensures_mono (ensures_onBuf (fitsKept_ipcbufUnlockRead _ _ hipc.buf)) ?_
        rintro rc ipc₁ l₁ ⟨hbuf, heq⟩
        split
        · refine ⟨hbuf, fun h => ?_⟩
          rw [heq] at h
          rcases h with h | h <;> rw [hmode] at h <;> cases h
        · rw [ensures_bind, ensures_modify]
          exact ⟨hbuf, fun h => by rcases h with h | h <;> cases h⟩
      · exact hipc

theorem fitsKept_ipcioStop : FitsKeptIo g p (ipcioStop g) := by
  intro ipc l hipc
  rw [ipcioStop, ensures_bind, ensures_get]
  split
  · exact hipc
  · exact fitsKept_ipcioStopClose false ipc l hipc

end IoCalls

end Psrdada
