import Psrdada.Hdu.DadaHdu

/-! # The life cycle of a header plus data unit

`dada_hdu_unlock_read` frees the buffer of the header but leaves `header_size` as it is, so
`dada_hdu_open` allocates a new one only for a header that is larger than all before it; and an open that
fails leaves the sub-block uncleared, since unlocking clears it only where there is a buffer to free.  A run
whose calls avoid both keeps the unit consistent. -/

namespace Psrdada

open CString

/-! ## What is to hold -/

/-- The process holds a sub-block of the header block exactly while it has the header, and has locked both
blocks or neither. -/
structure Hdu.Consistent (h : Hdu) : Prop where
  /-- A sub-block that has been taken is the one whose header the process has. -/
  token : h.headerBlock.full + (if h.header.isSome ∧ h.headerBlock.isReader then 1 else 0) =
    h.headerBlock.posted.length
  /-- It can be cleared. -/
  reading : h.header.isSome → h.headerBlock.isReader → h.headerBlock.state = .reading
  /-- A viewer that has the header has begun to view. -/
  fetched : h.header.isSome → h.headerBlock.state ≠ .viewer
  /-- The blocks are locked together. -/
  locks : h.headerBlock.isReader = h.dataLocked
  /-- The mode of the data block says so. -/
  mode : h.rdwrt = .R ↔ h.dataLocked = true

/-- Whether the unit is to have no header when the call has failed, so that the next open can proceed. -/
def HduCall.releases : HduCall → Bool
  | .lockRead _ _ | .openView => false
  | .unlockRead | .closeView | .read _ => true

/-- What a call is to do: copy only into a buffer with the space for it, so that the buffer holds what the
sub-block of the header block holds; and when it fails, leave both blocks so that the next open can
proceed. -/
def Hdu.Behaves (h : Hdu) (c : HduCall) : Prop :=
  let (outcome, h') := h.perform c
  match outcome with
  | .ok | .waits => True
  | .opened block size => h'.header = some (block.take size) ∧
      (h'.headerBlock.isReader → h'.headerBlock.posted.head?.map HeaderSub.memory = some block)
  | .failed => h'.Consistent ∧ (c.releases → h'.header = none)
  | .aborted | .overrun => False

/-! ## When it holds -/

/-- The header that the wait of `dada_hdu_open` ends with, if it does not fail: the first sub-block that is
not empty, with nothing before it but ends of transfers. -/
def firstHeader : List HeaderSub → Option HeaderSub
  | [] => none
  | sub :: posted =>
    if sub.bytes ≠ 0 then some sub else if sub.last then firstHeader posted else none

/-- How much is copied of a header, or is said to be. -/
def HeaderSub.size (s : HeaderSub) (bufsz : ℕ) : ℕ := s.hdrSize.getD bufsz

/-- The condition on a call in the state before it.  A lock succeeds for both blocks or fails for the header
block.  The data block is not opened for viewing while it is locked, nor closed after that.  The unit is
closed as it was opened, or has no header.  It has no header when it is opened, and the next one is no larger
than a sub-block and larger than all before it. -/
def HduCall.Admissible (h : Hdu) : HduCall → Prop
  | .lockRead headerSlot dataSlot =>
    h.headerBlock.state = .viewer → headerSlot = true → h.dataLocked = false ∧ dataSlot = true
  | .openView => h.rdwrt ≠ .R
  | .unlockRead => h.rdwrt = .R ∨ h.header = none
  | .closeView => h.rdwrt ≠ .R ∧ h.header = none
  | .read viewed => h.header = none ∧
      if h.headerBlock.isReader then
        ∀ s, firstHeader h.headerBlock.posted = some s →
          h.headerSize < s.size h.headerBlock.bufsz ∧ s.size h.headerBlock.bufsz ≤ h.headerBlock.bufsz
      else
        viewed.sub.bytes ≠ 0 → h.headerSize < viewed.sub.size h.headerBlock.bufsz

/-- What happens to a unit: a call, or the writer posts a header. -/
inductive HduEvent
  | call (c : HduCall)
  | post (sub : HeaderSub)

/-- What is assumed of each step of a run. -/
def HduEvent.Admissible (h : Hdu) : HduEvent → Prop
  | .call c => c.Admissible h
  | .post _ => True

/-- The unit afterwards. -/
def Hdu.after (h : Hdu) : HduEvent → Hdu
  | .call c => (h.perform c).2
  | .post sub => { h with headerBlock := h.headerBlock.post sub }

/-- The unit after a run. -/
def Hdu.run (h : Hdu) (events : List HduEvent) : Hdu := events.foldl Hdu.after h

/-- A unit that has just been connected, to header blocks of a size with some headers in them. -/
def Hdu.connected (bufsz : ℕ) (midway : Bool) (posted : List HeaderSub) : Hdu where
  header := none
  headerSize := 0
  headerBlock := ⟨bufsz, .viewer, midway, posted, posted.length⟩
  dataLocked := false
  rdwrt := .closed

/-- The units of the runs whose steps all meet the condition. -/
inductive Hdu.Reached : Hdu → Prop
  | connected (bufsz : ℕ) (midway : Bool) (posted : List HeaderSub) :
      Reached (connected bufsz midway posted)
  | step {h : Hdu} (before : Reached h) (e : HduEvent) (admissible : e.Admissible h) : Reached (h.after e)

/-! ## Waiting for a header -/

namespace HeaderBlock

variable {b b' : HeaderBlock} {viewed : Viewed}

/-- The reader holds nothing. -/
def Released (b : HeaderBlock) : Prop := b.isReader = true ∧ b.full = b.posted.length

/-- The reader holds the first of the sub-blocks. -/
structure Holds (b : HeaderBlock) (sub : HeaderSub) : Prop where
  state : b.state = .reading
  full : b.full + 1 = b.posted.length
  head : b.posted.head? = some sub

theorem Holds.isReader {sub : HeaderSub} (h : b.Holds sub) : b.isReader = true := by
  rw [HeaderBlock.isReader, h.state]
  rfl

variable (viewed) in
/-- A sub-block is taken from `FULL`, unless the call waits or the data has ended. -/
theorem getNextRead_reader (h : b.Released) :
    b.getNextRead viewed = none ∨ b.getNextRead viewed = some (none, b) ∨
      ∃ sub b', b.getNextRead viewed = some (some sub, b') ∧ b'.Holds sub ∧ b'.bufsz = b.bufsz ∧
        b'.posted = b.posted := by
  obtain ⟨hreader, hfull⟩ := h
  by_cases heod : b.eod = true
  · exact .inr (.inl (if_pos heod))
  rw [getNextRead, if_neg heod, if_pos hreader]
  cases hposted : b.posted with
  | nil =>
    rw [hposted, List.length_nil] at hfull
    rw [hfull]
    exact .inl rfl
  | cons sub posted =>
    rw [hposted, List.length_cons] at hfull
    rw [hfull]
    refine .inr (.inr ⟨sub, _, rfl, ⟨rfl, ?_, rfl⟩, rfl, rfl⟩)
    rw [List.length_cons]

/-- Clearing the sub-block releases it. -/
theorem Holds.markCleared {sub : HeaderSub} (h : b.Holds sub) :
    b.markCleared.Released ∧ b.markCleared.bufsz = b.bufsz ∧ b.markCleared.posted = b.posted.tail ∧
      b.markCleared.eod = sub.last := by
  obtain ⟨hstate, hfull, hhead⟩ := h
  rw [HeaderBlock.markCleared, if_neg (not_not_intro hstate)]
  cases hposted : b.posted with
  | nil => simp [hposted] at hhead
  | cons sub' posted =>
    obtain rfl : sub' = sub := by simpa [hposted] using hhead
    rw [hposted, List.length_cons] at hfull
    refine ⟨⟨?_, by simpa using hfull⟩, rfl, rfl, ?_⟩
    · cases hlast : sub'.last
      · simp [HeaderBlock.isReader, hlast]
      · simp [HeaderBlock.isReader, hlast]
    · cases hlast : sub'.last
      · simp [HeaderBlock.eod, hlast]
      · simp [HeaderBlock.eod, hlast]

theorem Released.reset (h : b.Released) : b.reset.Released ∧ b.reset.bufsz = b.bufsz ∧
    b.reset.posted = b.posted := by
  rw [HeaderBlock.reset]
  split
  case isTrue => exact ⟨⟨rfl, h.2⟩, rfl, rfl⟩
  case isFalse => exact ⟨h, rfl, rfl⟩

theorem fetchHeader_waits (h : b.getNextRead viewed = none) (posted : List HeaderSub) :
    b.fetchHeader viewed posted = .waits b := by
  rw [fetchHeader.eq_def]
  simp only [h]

theorem fetchHeader_null (h : b.getNextRead viewed = some (none, b')) (posted : List HeaderSub) :
    b.fetchHeader viewed posted = .failed b' := by
  rw [fetchHeader.eq_def]
  simp only [h]

theorem fetchHeader_sub {sub : HeaderSub} (h : b.getNextRead viewed = some (some sub, b'))
    (hbytes : sub.bytes ≠ 0) (posted : List HeaderSub) :
    b.fetchHeader viewed posted = .sub sub b' := by
  rw [fetchHeader.eq_def]
  simp only [h, if_pos hbytes]

/-- An empty sub-block is cleared, and passed over where it ends a transfer. -/
theorem fetchHeader_empty {sub : HeaderSub} (h : b.getNextRead viewed = some (some sub, b'))
    (hbytes : sub.bytes = 0) (hreader : b'.isReader = true) (first : HeaderSub) (posted : List HeaderSub) :
    b.fetchHeader viewed (first :: posted) =
      if b'.markCleared.eod then
        (if b'.markCleared.isReader then b'.markCleared.reset else b'.markCleared).fetchHeader viewed posted
      else .failed b'.markCleared := by
  rw [fetchHeader.eq_def]
  simp only [h, hbytes, ne_eq, not_true_eq_false, if_false, if_pos hreader]

variable (viewed) in
/-- A reader waits for the first header, and holds nothing where it does not get one. -/
theorem fetchHeader_reader (h : b.Released) :
    match b.fetchHeader viewed b.posted with
    | .sub sub b' => firstHeader b.posted = some sub ∧ b'.Holds sub ∧ b'.bufsz = b.bufsz
    | .failed b' | .waits b' => b'.Released := by
  generalize hposted : b.posted = posted
  induction posted generalizing b with
  | nil =>
    obtain hnext | hnext | ⟨sub, b', -, hholds, -, hsame⟩ := getNextRead_reader viewed h
    · rw [fetchHeader_waits hnext]
      exact h
    · rw [fetchHeader_null hnext]
      exact h
    · have hhead := hholds.head
      rw [hsame, hposted] at hhead
      exact nomatch hhead
  | cons first posted ih =>
    obtain hnext | hnext | ⟨sub, b', hnext, hholds, hbufsz, hsame⟩ := getNextRead_reader viewed h
    · rw [fetchHeader_waits hnext]
      exact h
    · rw [fetchHeader_null hnext]
      exact h
    · have hhead := hholds.head
      rw [hsame, hposted] at hhead
      obtain rfl : first = sub := Option.some.inj hhead
      rw [firstHeader]
      by_cases hbytes : first.bytes = 0
      · obtain ⟨hreleased, hbufsz', hposted', heod⟩ := hholds.markCleared
        rw [fetchHeader_empty hnext hbytes hholds.isReader, if_neg (not_not_intro hbytes), heod]
        cases hlast : first.last with
        | false => exact hreleased
        | true =>
          obtain ⟨hreset, hbufsz'', hposted''⟩ := hreleased.reset
          have hrest := ih hreset (by rw [hposted'', hposted', hsame, hposted, List.tail_cons])
          rw [hbufsz'', hbufsz', hbufsz] at hrest
          rw [if_pos rfl, if_pos rfl, if_pos hreleased.1]
          exact hrest
      · rw [fetchHeader_sub hnext hbytes, if_pos hbytes]
        exact ⟨rfl, hholds, hbufsz⟩

variable (viewed) in
/-- A viewer is given what the ring has for it, and holds nothing. -/
theorem fetchHeader_viewer (h : b.isReader = false) (posted : List HeaderSub) :
    match b.fetchHeader viewed posted with
    | .sub sub b' => sub = viewed.sub ∧ sub.bytes ≠ 0 ∧ b'.isReader = false ∧ b'.state ≠ .viewer ∧
        b'.full = b.full ∧ b'.posted = b.posted ∧ b'.bufsz = b.bufsz
    | .failed b' | .waits b' => b'.isReader = false ∧ b'.full = b.full ∧ b'.posted = b.posted := by
  by_cases heod : b.eod = true
  · rw [fetchHeader_null (if_pos heod : _ = some (none, b))]
    exact ⟨h, rfl, rfl⟩
  obtain ⟨state, hstate, hviewer, hbegun, hstops⟩ : ∃ state : ProcState,
      b.getNextRead viewed = some (some viewed.sub, { b with state := state }) ∧
        isReader { b with state := state } = false ∧ state ≠ .viewer ∧
          ∀ v, getNextRead { b with state := state } v = some (none, { b with state := state }) ∨
            eod { b with state := state } = false := by
    have hnext : b.getNextRead viewed =
        some (some viewed.sub, { b with state := if viewed.stopped then .vstop else .viewing }) := by
      rw [getNextRead, if_neg heod, if_neg (Bool.eq_false_iff.mp h)]
    refine ⟨_, hnext, ?_, ?_, fun v => ?_⟩
    · cases viewed.stopped
      · rfl
      · rfl
    · cases viewed.stopped
      · exact ProcState.noConfusion
      · exact ProcState.noConfusion
    · cases viewed.stopped
      · exact .inr rfl
      · exact .inl rfl
  by_cases hbytes : viewed.sub.bytes = 0
  · have hfailed : b.fetchHeader viewed posted = .failed { b with state := state } := by
      rw [fetchHeader.eq_def]
      simp only [hstate, hbytes, hviewer, ne_eq, not_true_eq_false, if_false, Bool.false_eq_true]
      rcases hstops viewed with hnull | hgoes
      · cases posted with
        | nil => exact ite_self _
        | cons first posted =>
          simp only [fetchHeader_null hnull posted, ite_self]
      · simp only [hgoes, Bool.false_eq_true, if_false]
    rw [hfailed]
    exact ⟨hviewer, rfl, rfl⟩
  · rw [fetchHeader_sub hstate hbytes]
    exact ⟨rfl, hbytes, hviewer, hbegun, rfl, rfl, rfl⟩

end HeaderBlock

/-! ## One call -/

namespace Hdu

variable {h : Hdu}

/-- Nothing is held where there is no header. -/
theorem Consistent.full (hh : h.Consistent) (hheader : h.header = none) :
    h.headerBlock.full = h.headerBlock.posted.length := by
  have := hh.token
  rwa [hheader, if_neg (fun hboth => Bool.noConfusion hboth.1), Nat.add_zero] at this

/-- A unit without a header. -/
theorem consistent_of_none (hheader : h.header = none)
    (hfull : h.headerBlock.full = h.headerBlock.posted.length) (hlocks : h.headerBlock.isReader = h.dataLocked)
    (hmode : h.rdwrt = .R ↔ h.dataLocked = true) : h.Consistent where
  token := by rwa [hheader, if_neg (fun hboth => Bool.noConfusion hboth.1), Nat.add_zero]
  reading hsome := by simp [hheader] at hsome
  fetched hsome := by simp [hheader] at hsome
  locks := hlocks
  mode := hmode

/-- A header is duplicated where it is larger than all before it. -/
theorem duplicate_of_lt {block : Text} {size : ℕ} (hsize : h.headerSize < size) :
    h.duplicate block size = (.opened block size,
      { h with header := some (block.take size), headerSize := size }) := by
  have hlen : (List.replicate size '\x00').length = size := List.length_replicate
  rw [duplicate, if_pos hsize]
  simp only [hlen, Nat.le_refl, if_true]
  rw [List.drop_eq_nil_of_le hlen.le, List.append_nil]

/-- Locking. -/
theorem Consistent.lockRead (hh : h.Consistent) {headerSlot dataSlot : Bool}
    (hadm : (HduCall.lockRead headerSlot dataSlot).Admissible h) :
    h.Behaves (.lockRead headerSlot dataSlot) ∧ (h.perform (.lockRead headerSlot dataSlot)).2.Consistent := by
  rw [Behaves, Hdu.perform, dadaHduLockRead]
  by_cases hslot : h.headerBlock.state = .viewer ∧ headerSlot = true
  · obtain ⟨hunlocked, rfl⟩ := hadm hslot.1 hslot.2
    have hnone : h.header = none := by
      by_contra hsome
      exact hh.fetched (Option.isSome_iff_ne_none.mpr hsome) hslot.1
    have hfull := hh.full hnone
    rw [HeaderBlock.lockRead, if_pos hslot]
    simp only [ipcioOpenR, hunlocked, true_and, if_true]
    refine consistent_of_none hnone hfull ?_ (iff_of_true rfl rfl)
    cases h.headerBlock.midway
    · rfl
    · rfl
  · rw [HeaderBlock.lockRead, if_neg hslot]
    exact ⟨⟨hh, fun hreleases => Bool.noConfusion hreleases⟩, hh⟩

/-- Freeing the header clears the sub-block that is held. -/
theorem Consistent.freeHeader (hh : h.Consistent) (hreader : h.headerBlock.isReader = true) :
    h.freeHeader.header = none ∧ h.freeHeader.headerBlock.Released := by
  rw [Hdu.freeHeader]
  cases hheader : h.header with
  | none => exact ⟨hheader, hreader, hh.full hheader⟩
  | some text =>
    have hfull := hh.token
    have hstate := hh.reading (by rw [hheader]; rfl) hreader
    rw [hheader, if_pos ⟨rfl, hreader⟩] at hfull
    obtain ⟨sub, hsub⟩ : ∃ sub, h.headerBlock.posted.head? = some sub := by
      cases hposted : h.headerBlock.posted with
      | nil => rw [hposted] at hfull; exact nomatch hfull
      | cons sub posted => exact ⟨sub, rfl⟩
    have hholds : h.headerBlock.Holds sub := ⟨hstate, hfull, hsub⟩
    simp only [if_pos hreader]
    exact ⟨trivial, hholds.markCleared.1⟩

/-- It does not look at the data block. -/
theorem freeHeader_set (locked : Bool) (rdwrt : Rdwrt) :
    freeHeader { h with dataLocked := locked, rdwrt := rdwrt } =
      { h.freeHeader with dataLocked := locked, rdwrt := rdwrt } := by
  obtain ⟨header, headerSize, b, wasLocked, wasRdwrt⟩ := h
  cases header
  · rfl
  · rfl

/-- Unlocking. -/
theorem Consistent.unlockRead (hh : h.Consistent) (hadm : HduCall.unlockRead.Admissible h) :
    h.Behaves .unlockRead ∧ (h.perform .unlockRead).2.Consistent := by
  rw [Behaves, Hdu.perform, dadaHduUnlockRead]
  by_cases hmode : h.rdwrt = .R
  · have hlocked := hh.mode.mp hmode
    have hreader := hh.locks.trans hlocked
    obtain ⟨hnone, hreleased⟩ := hh.freeHeader hreader
    rw [ipcioClose, if_pos ⟨hmode, hlocked⟩]
    simp only [freeHeader_set, HeaderBlock.unlockRead, if_pos hreleased.1]
    exact ⟨trivial, consistent_of_none hnone hreleased.2 rfl (iff_of_false Rdwrt.noConfusion Bool.noConfusion)⟩
  · rw [ipcioClose, if_neg fun hopen => hmode hopen.1]
    exact ⟨⟨hh, fun _ => hadm.resolve_left hmode⟩, hh⟩

/-- What is done with a header that has been fetched, where it is larger than all before it. -/
theorem dadaHduOpen_sub {viewed : Viewed} {sub : HeaderSub} {b : HeaderBlock} (hnone : h.header = none)
    (hfetch : h.headerBlock.fetchHeader viewed h.headerBlock.posted = .sub sub b)
    (hsize : h.headerSize < sub.size b.bufsz) :
    h.dadaHduOpen viewed =
      if sub.size b.bufsz ≤ b.bufsz then
        (.opened (sub.sized b.bufsz).memory (sub.size b.bufsz),
          { h with
            header := some ((sub.sized b.bufsz).memory.take (sub.size b.bufsz))
            headerSize := sub.size b.bufsz
            headerBlock := b.rewrite (sub.sized b.bufsz) })
      else (.failed, { h with headerBlock := b.rewrite (sub.sized b.bufsz) }) := by
  rw [HeaderSub.size] at hsize ⊢
  rw [dadaHduOpen, if_neg (by simp [hnone]), hfetch]
  simp only []
  rcases Nat.lt_trichotomy (sub.hdrSize.getD b.bufsz) b.bufsz with hlt | heq | hgt
  · rw [if_pos hlt, if_pos hlt.le]
    exact duplicate_of_lt (h := { h with headerBlock := b.rewrite (sub.sized b.bufsz) }) hsize
  · rw [heq] at hsize
    rw [heq, if_neg (Nat.lt_irrefl _), if_neg (Nat.lt_irrefl _), if_pos (Nat.le_refl _)]
    exact duplicate_of_lt (h := { h with headerBlock := b.rewrite (sub.sized b.bufsz) }) hsize
  · rw [if_neg hgt.le.not_gt, if_pos hgt, if_neg hgt.not_ge]

/-- A reader opens the unit. -/
theorem Consistent.read_reader (hh : h.Consistent) {viewed : Viewed} (hnone : h.header = none)
    (hreader : h.headerBlock.isReader = true)
    (hadm : ∀ s, firstHeader h.headerBlock.posted = some s →
      h.headerSize < s.size h.headerBlock.bufsz ∧ s.size h.headerBlock.bufsz ≤ h.headerBlock.bufsz) :
    h.Behaves (.read viewed) ∧ (h.perform (.read viewed)).2.Consistent := by
  have hreleased {b : HeaderBlock} (hb : b.Released) : Consistent { h with headerBlock := b } :=
    consistent_of_none hnone hb.2 (hb.1.trans (hreader.symm.trans hh.locks)) hh.mode
  have hfetched := HeaderBlock.fetchHeader_reader viewed ⟨hreader, hh.full hnone⟩
  rw [Behaves, Hdu.perform]
  cases hfetch : h.headerBlock.fetchHeader viewed h.headerBlock.posted with
  | waits b =>
    rw [hfetch] at hfetched
    rw [dadaHduOpen, if_neg (by simp [hnone]), hfetch]
    exact ⟨trivial, hreleased hfetched⟩
  | failed b =>
    rw [hfetch] at hfetched
    rw [dadaHduOpen, if_neg (by simp [hnone]), hfetch]
    exact ⟨⟨hreleased hfetched, fun _ => hnone⟩, hreleased hfetched⟩
  | sub sub b =>
    rw [hfetch] at hfetched
    obtain ⟨hfirst, hholds, hbufsz⟩ := hfetched
    obtain ⟨hlarger, hfits⟩ := hadm sub hfirst
    rw [← hbufsz] at hlarger hfits
    rw [dadaHduOpen_sub hnone hfetch hlarger, if_pos hfits, HeaderBlock.rewrite, if_pos hholds.isReader]
    have hlength : b.posted.tail.length + 1 = b.posted.length := by
      have := hholds.full
      rw [List.length_tail]
      omega
    refine ⟨⟨rfl, fun _ => rfl⟩, ?_, fun _ _ => hholds.state, fun _ hviewer => ?_, ?_, hh.mode⟩
    · rw [if_pos ⟨rfl, hholds.isReader⟩]
      exact hholds.full.trans hlength.symm
    · exact ProcState.noConfusion (hholds.state.symm.trans hviewer)
    · exact hholds.isReader.trans (hreader.symm.trans hh.locks)

/-- A viewer opens the unit. -/
theorem Consistent.read_viewer (hh : h.Consistent) {viewed : Viewed} (hnone : h.header = none)
    (hviewer : h.headerBlock.isReader = false)
    (hadm : viewed.sub.bytes ≠ 0 → h.headerSize < viewed.sub.size h.headerBlock.bufsz) :
    h.Behaves (.read viewed) ∧ (h.perform (.read viewed)).2.Consistent := by
  have hfull := hh.full hnone
  have hsame {b : HeaderBlock} (hb : b.isReader = false) (hbfull : b.full = h.headerBlock.full)
      (hposted : b.posted = h.headerBlock.posted) : Consistent { h with headerBlock := b } :=
    consistent_of_none hnone (by rw [hbfull, hposted, hfull]) (hb.trans (hviewer.symm.trans hh.locks)) hh.mode
  have hfetched := HeaderBlock.fetchHeader_viewer viewed hviewer h.headerBlock.posted
  rw [Behaves, Hdu.perform]
  cases hfetch : h.headerBlock.fetchHeader viewed h.headerBlock.posted with
  | waits b =>
    rw [hfetch] at hfetched
    rw [dadaHduOpen, if_neg (by simp [hnone]), hfetch]
    exact ⟨trivial, hsame hfetched.1 hfetched.2.1 hfetched.2.2⟩
  | failed b =>
    rw [hfetch] at hfetched
    rw [dadaHduOpen, if_neg (by simp [hnone]), hfetch]
    have hkept := hsame hfetched.1 hfetched.2.1 hfetched.2.2
    exact ⟨⟨hkept, fun _ => hnone⟩, hkept⟩
  | sub sub b =>
    rw [hfetch] at hfetched
    obtain ⟨rfl, hbytes, hb, hbegun, hbfull, hposted, hbufsz⟩ := hfetched
    have hlarger := hadm hbytes
    rw [← hbufsz] at hlarger
    have hrewrite : b.rewrite (viewed.sub.sized b.bufsz) = b := by
      rw [HeaderBlock.rewrite, if_neg (by simp [hb])]
    have hkept := hsame hb hbfull hposted
    rw [dadaHduOpen_sub hnone hfetch hlarger, hrewrite]
    by_cases hfits : viewed.sub.size b.bufsz ≤ b.bufsz
    · rw [if_pos hfits]
      refine ⟨⟨rfl, fun hreader => absurd hreader (by simp [hb])⟩, ?_, ?_, fun _ => hbegun, hkept.locks, hh.mode⟩
      · rw [if_neg (by simp [hb])]
        exact (hbfull.trans hfull).trans (congrArg List.length hposted.symm)
      · exact fun _ hreader => absurd hreader (by simp [hb])
    · rw [if_neg hfits]
      exact ⟨⟨hkept, fun _ => hnone⟩, hkept⟩

/-- **One call.** -/
theorem Consistent.perform (hh : h.Consistent) {c : HduCall} (hadm : c.Admissible h) :
    h.Behaves c ∧ (h.perform c).2.Consistent := by
  cases c with
  | lockRead headerSlot dataSlot => exact hh.lockRead hadm
  | unlockRead => exact hh.unlockRead hadm
  | openView =>
    refine ⟨trivial, hh.token, hh.reading, hh.fetched, hh.locks, ?_⟩
    exact iff_of_false Rdwrt.noConfusion fun hlocked => hadm (hh.mode.mpr hlocked)
  | closeView =>
    obtain ⟨hmode, hheader⟩ := hadm
    have hclose : h.dadaHduCloseView = (.failed, h) := by
      rw [dadaHduCloseView, ipcioClose, if_neg fun hopen => hmode hopen.1]
    rw [Behaves, Hdu.perform, hclose]
    exact ⟨⟨hh, fun _ => hheader⟩, hh⟩
  | read viewed =>
    obtain ⟨hnone, hadm⟩ := hadm
    split at hadm
    case isTrue hreader => exact hh.read_reader hnone hreader hadm
    case isFalse hviewer => exact hh.read_viewer hnone (by simpa using hviewer) hadm

/-! ## Every run -/

/-- Posting a header. -/
theorem Consistent.post (hh : h.Consistent) (sub : HeaderSub) : (h.after (.post sub)).Consistent where
  token := by
    show h.headerBlock.full + 1 + _ = (h.headerBlock.posted ++ [sub]).length
    have := hh.token
    rw [List.length_append, List.length_singleton, ← this, Nat.add_right_comm]
    rfl
  reading := hh.reading
  fetched := hh.fetched
  locks := hh.locks
  mode := hh.mode

theorem Reached.consistent (hr : h.Reached) : h.Consistent := by
  induction hr with
  | connected bufsz midway posted =>
    exact consistent_of_none rfl rfl rfl (iff_of_false Rdwrt.noConfusion Bool.noConfusion)
  | step before e admissible ih =>
    cases e with
    | call c => exact (ih.perform admissible).2
    | post sub => exact ih.post sub

/-- **The life cycle.** In a run whose steps all meet the condition, a call that meets it does what it is to
do. -/
theorem behaves_of_reached {h : Hdu} (hr : h.Reached) {c : HduCall} (hadm : c.Admissible h) : h.Behaves c :=
  (hr.consistent.perform hadm).1

/-! ### Two headers of one size -/

/-- A header that is not larger than one before it is copied to where there is no buffer. -/
theorem dadaHduOpen_overrun {viewed : Viewed} {sub : HeaderSub} {b : HeaderBlock} (hnone : h.header = none)
    (hfetch : h.headerBlock.fetchHeader viewed h.headerBlock.posted = .sub sub b)
    (hle : sub.size b.bufsz ≤ h.headerSize) (hfits : sub.size b.bufsz ≤ b.bufsz)
    (hpos : 0 < sub.size b.bufsz) : (h.dadaHduOpen viewed).1 = .overrun := by
  have hduplicate (g : Hdu) (hg : g.header = none) (block : Text) {size : ℕ} (hsize : size ≤ g.headerSize)
      (hpos : 0 < size) : (g.duplicate block size).1 = .overrun := by
    rw [duplicate, if_neg hsize.not_gt, hg]
    simp only [if_neg (Nat.ne_of_gt hpos)]
  rw [HeaderSub.size] at hle hfits hpos
  rw [dadaHduOpen, if_neg (by simp [hnone]), hfetch]
  simp only []
  rcases Nat.lt_or_eq_of_le hfits with hlt | heq
  · rw [if_pos hlt]
    exact hduplicate { h with headerBlock := b.rewrite (sub.sized b.bufsz) } hnone _ hle hpos
  · rw [heq] at hle hpos ⊢
    rw [if_neg (Nat.lt_irrefl _), if_neg (Nat.lt_irrefl _)]
    exact hduplicate { h with headerBlock := b.rewrite (sub.sized b.bufsz) } hnone _ hle hpos

/-- A header of eight characters in a sub-block of sixteen. -/
def shortHeader : HeaderSub := ⟨"HDR_SIZE 8\n".toList ++ List.replicate 5 '\x00', 16, false⟩

theorem shortHeader_hdrSize : shortHeader.hdrSize = some 8 := by
  rw [HeaderSub.hdrSize, asciiHeaderGetUnsigned, asciiHeaderFind_eq (by decide)]
  decide +kernel

theorem shortHeader_size : shortHeader.size 16 = 8 := by
  rw [HeaderSub.size, shortHeader_hdrSize, Option.getD_some]

theorem shortHeader_sized : shortHeader.sized 16 = shortHeader := by
  simp only [HeaderSub.sized, shortHeader_hdrSize]

/-- What no call of a reader looks at. -/
def unseen : Viewed := ⟨shortHeader, false⟩

/-- A unit that has been locked, with two such headers to come. -/
def lockedHdu : Hdu := (connected 16 false [shortHeader, shortHeader]).after (.call (.lockRead true true))

theorem lockedHdu_admissible : (HduCall.read unseen).Admissible lockedHdu := by
  refine ⟨rfl, fun s hs => ?_⟩
  obtain rfl : shortHeader = s := Option.some.inj hs
  have hsize : shortHeader.size lockedHdu.headerBlock.bufsz = 8 := shortHeader_size
  rw [hsize]
  decide

/-- The first header is copied. -/
theorem behaves_lockedHdu : lockedHdu.Behaves (.read unseen) := by
  refine behaves_of_reached ?_ lockedHdu_admissible
  exact .step (.connected 16 false [shortHeader, shortHeader]) (.call (.lockRead true true))
    fun _ _ => ⟨rfl, rfl⟩

/-- The unit once the first header has been opened. -/
def openedHdu : Hdu :=
  { lockedHdu with
    header := some (shortHeader.memory.take 8)
    headerSize := 8
    headerBlock := ⟨16, .reading, true, [shortHeader, shortHeader], 1⟩ }

theorem after_read_lockedHdu (viewed : Viewed) : lockedHdu.after (.call (.read viewed)) = openedHdu := by
  have hfetch : lockedHdu.headerBlock.fetchHeader viewed lockedHdu.headerBlock.posted =
      .sub shortHeader ⟨16, .reading, true, [shortHeader, shortHeader], 1⟩ := rfl
  have hopen := dadaHduOpen_sub rfl hfetch (by
    rw [shortHeader_size]
    decide)
  rw [shortHeader_size, if_pos (by decide), shortHeader_sized] at hopen
  exact congrArg Prod.snd hopen

/-- Once the unit has been unlocked and locked again, the second header is copied to where there is no
buffer. -/
theorem not_behaves_reopened : ¬ ((connected 16 false [shortHeader, shortHeader]).run
    [.call (.lockRead true true), .call (.read unseen), .call .unlockRead,
      .call (.lockRead true true)]).Behaves (.read unseen) := by
  show ¬ (((lockedHdu.after (.call (.read unseen))).after (.call .unlockRead)).after
    (.call (.lockRead true true))).Behaves (.read unseen)
  rw [after_read_lockedHdu]
  have hover : (((openedHdu.after (.call .unlockRead)).after
      (.call (.lockRead true true))).dadaHduOpen unseen).1 = .overrun := by
    have hfetch : ((openedHdu.after (.call .unlockRead)).after (.call (.lockRead true true))).headerBlock.fetchHeader
        unseen ((openedHdu.after (.call .unlockRead)).after (.call (.lockRead true true))).headerBlock.posted =
          .sub shortHeader ⟨16, .reading, true, [shortHeader], 0⟩ := rfl
    refine dadaHduOpen_overrun rfl hfetch ?_ ?_ ?_
    · rw [shortHeader_size]
      decide
    · rw [shortHeader_size]
      decide
    · rw [shortHeader_size]
      decide
  rw [Behaves, perform]
  split
  all_goals simp_all

end Hdu

end Psrdada
