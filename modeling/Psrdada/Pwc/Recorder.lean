import Psrdada.Pwc.Transfer

/-! # Byte-exact recording

What the transfer loop is for, as a machine of its own: a `Ledger` reads the log of the loop and stops
at the first entry that is not as it should be.  Every byte of every buffer is written once and in
order, nothing is written past the byte at which a change is due, and the change comes exactly there.

The loop keeps to it as long as its rounds are `Punctual`; the counterexamples say what the other
rounds do. -/

namespace Psrdada

/-! ## The ledger -/

/-- A change that has been commanded. -/
structure Due where
  /-- The command. -/
  code : CommandCode
  /-- The byte asked for; without one, as many bytes as had been written when the command was taken. -/
  asked : ℕ
  /-- The byte at which the change comes: the byte asked for, or at once when that is past. -/
  byte : ℕ
  deriving DecidableEq, Repr

/-- What the log of a loop amounts to for one data block. -/
structure Ledger where
  /-- How many bytes the buffers before the current one had. -/
  base : ℕ
  /-- The size of the current buffer. -/
  size : ℕ
  /-- How many buffers there have been. -/
  buffers : ℕ
  /-- How many bytes have been written. -/
  written : ℕ
  /-- The change that has been commanded. -/
  due : Option Due
  deriving DecidableEq, Repr

namespace Ledger

/-- Before anything is done. -/
def blank : Ledger := ⟨0, 0, 0, 0, none⟩

/-- The ledger once a command has been taken: the latest command counts, and one that does not change
the state leaves what is due. -/
def take (l : Ledger) (command : PwcCommand) : Ledger :=
  let asked := if command.byteCount = 0 then l.written else command.byteCount
  match command.code with
  | .recordStart | .recordStop | .stop =>
    { l with due := some ⟨command.code, asked, max asked l.written⟩ }
  | .start =>
    if command.byteCount = 0 then l
    else { l with due := some ⟨.start, asked, max asked l.written⟩ }
  | _ => l

/-- The ledger once a change has come, if it was due. -/
def change (l : Ledger) (codes : List CommandCode) (ok : Due → Bool) : Option Ledger :=
  match l.due with
  | some d => if d.code ∈ codes ∧ d.byte = l.written ∧ ok d then some { l with due := none } else none
  | none => none

/-- The entry of a log about data block `hdu` that comes next. -/
def step (hdu : ℕ) (l : Ledger) : PwcEvent → Option Ledger
  | .took command => some (l.take command)
  | .fetched size =>
    if l.written = l.base + l.size then
      some { l with base := l.base + l.size, size := size, buffers := l.buffers + 1 }
    else none
  | .write i buf off len =>
    if i ≠ hdu then some l
    else if buf + 1 = l.buffers ∧ l.base + off = l.written ∧ off + len ≤ l.size ∧
        ∀ d ∈ l.due, l.written + len ≤ d.byte then
      some { l with written := l.written + len }
    else none
  | .start i soclock minimum byte =>
    if i ≠ hdu then some l
    else l.change [.recordStart] fun d => byte = max (soclock + d.asked) minimum
  | .stop i => if i ≠ hdu then some l else l.change [.recordStop] fun _ => true
  | .left => l.change [.start, .stop] fun _ => true
  | .processXfer => none

/-- The ledger of a log; `none` when an entry is not as it should be. -/
def run (hdu : ℕ) (log : List PwcEvent) : Option Ledger := log.foldlM (step hdu) blank

/-- Nothing is owed between two iterations: all that has been got is written, and what is due comes
later. -/
structure Settled (l : Ledger) : Prop where
  written : l.written = l.base + l.size
  due : ∀ d ∈ l.due, l.written < d.byte

@[simp] theorem run_concat (hdu : ℕ) (log : List PwcEvent) (e : PwcEvent) :
    run hdu (log ++ [e]) = (run hdu log).bind fun l => l.step hdu e := by
  simp [run, List.foldlM_append, Option.bind_eq_bind]

end Ledger

/-- An iteration whose log is as it should be, and which ends in `P` when the loop goes on. -/
def Outcome.Sat (hdu : ℕ) (P : Transfer → Ledger → Prop) (o : Outcome) : Prop :=
  ∃ l, Ledger.run hdu o.transfer.log = some l ∧ ∀ t, o = .next t → P t l

/-- **Exact recording**: the log is as it should be, and nothing is owed while the loop goes on. -/
def Outcome.Exact (hdu : ℕ) (o : Outcome) : Prop := o.Sat hdu fun _ l => l.Settled

namespace Outcome

variable {hdu : ℕ} {P Q : Transfer → Ledger → Prop} {t : Transfer} {l : Ledger}

theorem sat_next (hl : Ledger.run hdu t.log = some l) (h : P t l) : (next t).Sat hdu P :=
  ⟨l, hl, fun _ ht => by cases ht; exact h⟩

theorem sat_ret {rval : ℤ} (hl : Ledger.run hdu t.log = some l) : (ret rval t).Sat hdu P :=
  ⟨l, hl, fun _ ht => by cases ht⟩

theorem sat_abort (hl : Ledger.run hdu t.log = some l) : (abort t).Sat hdu P :=
  ⟨l, hl, fun _ ht => by cases ht⟩

/-- Sequential composition; the second piece knows how the first has ended. -/
theorem Sat.andThen_next {o : Outcome} {f : Transfer → Outcome} (h : o.Sat hdu P)
    (hf : ∀ t l, Ledger.run hdu t.log = some l → P t l → o = .next t → (f t).Sat hdu Q) :
    (o.andThen f).Sat hdu Q := by
  obtain ⟨l, hl, hp⟩ := h
  cases o with
  | next t => exact hf t l hl (hp t rfl) rfl
  | ret rval t => exact sat_ret hl
  | abort t => exact sat_abort hl

/-- Sequential composition. -/
theorem Sat.andThen {o : Outcome} {f : Transfer → Outcome} (h : o.Sat hdu P)
    (hf : ∀ t l, Ledger.run hdu t.log = some l → P t l → (f t).Sat hdu Q) :
    (o.andThen f).Sat hdu Q :=
  h.andThen_next fun t l hl hp _ => hf t l hl hp

/-- The rule of a loop over the data blocks. -/
theorem sat_forHdus {body : ℕ → Transfer → Outcome} {n : ℕ} (I : ℕ → Transfer → Ledger → Prop)
    (hl : Ledger.run hdu t.log = some l) (start : I 0 t l)
    (round : ∀ i < n, ∀ t l, Ledger.run hdu t.log = some l → I i t l →
      (body i t).Sat hdu (I (i + 1))) : (forHdus body n t).Sat hdu (I n) := by
  induction n with
  | zero => exact sat_next hl start
  | succ n ih =>
    refine Sat.andThen (ih fun i hi => round i (Nat.lt_succ_of_lt hi)) fun t l hl h => ?_
    exact round n n.lt_succ_self t l hl h

theorem Sat.mono {o : Outcome} (h : o.Sat hdu P) (hPQ : ∀ t l, P t l → Q t l) :
    o.Sat hdu Q := by
  obtain ⟨l, hl, hp⟩ := h
  exact ⟨l, hl, fun t ht => hPQ t l (hp t ht)⟩

end Outcome

/-! ## Pieces that both loops have -/

section Pieces

open Outcome

variable {pwcm : PwcMain} {r : Round} {hdus i : ℕ} {t : Transfer} {l : Ledger}
  {P : Transfer → Ledger → Prop}

/-- Something that is done for one data block after the other, of which the ledger of one of them
knows. -/
theorem sat_forHdus_once {body : ℕ → Transfer → Outcome} (event : ℕ → PwcEvent) (l' : Ledger)
    (hi : i < hdus) (hl : Ledger.run i t.log = some l)
    (other : ∀ j, j ≠ i → ∀ m : Ledger, m.step i (event j) = some m) (own : l.step i (event i) = some l')
    (hbody : ∀ j u, u = { t with log := u.log } →
      body j u = .next (u.note (event j)) ∨ (∃ rval, body j u = .ret rval (u.note (event j))) ∨
      ∃ rval, body j u = .ret rval u) :
    (forHdus body hdus t).Sat i fun u m => u = { t with log := u.log } ∧ m = l' := by
  have hloop : (forHdus body hdus t).Sat i fun u m =>
      u = { t with log := u.log } ∧ m = if i < hdus then l' else l := by
    refine sat_forHdus (fun j u m => u = { t with log := u.log } ∧ m = if i < j then l' else l) hl
      ⟨rfl, by simp⟩ fun j hj u m hm hI => ?_
    obtain ⟨hu, hmeq⟩ := hI
    have hstep : Ledger.run i (u.note (event j)).log = some (if i < j + 1 then l' else l) := by
      rw [Transfer.note, Ledger.run_concat, hm, hmeq, Option.bind_some]
      by_cases hji : j = i
      · subst hji
        simpa using own
      · rw [other j hji]
        congr 1
        by_cases hlt : i < j
        · rw [if_pos hlt, if_pos (by omega)]
        · rw [if_neg hlt, if_neg (by omega)]
    rcases hbody j u hu with h | ⟨rval, h⟩ | ⟨rval, h⟩
    · rw [h]
      refine sat_next hstep ⟨?_, rfl⟩
      rw [Transfer.note, hu]
    · rw [h]
      exact sat_ret hstep
    · rw [h]
      exact sat_ret hm
  refine hloop.mono fun u m h => ⟨h.1, ?_⟩
  rw [h.2, if_pos hi]

/-- Between two iterations. -/
structure Kept (t : Transfer) (l : Ledger) : Prop where
  written : l.written = t.totalBytesWritten
  settled : l.written = l.base + l.size
  buffers : l.buffers = t.fetched
  early : t.transitByte = 0 → t.totalBytesWritten = 0 →
    t.command.code ∈ [.clock, .start, .setUtcStart]
  idle : t.transitByte = 0 → l.due = none
  busy : t.transitByte ≠ 0 → l.due = some ⟨t.command.code, t.transitByte, t.transitByte⟩ ∧
    t.totalBytesWritten < t.transitByte ∧
    t.bytesToWrite = t.transitByte - t.totalBytesWritten ∧
    t.command.byteCount = t.transitByte ∧
    t.command.code ∈ [.recordStart, .recordStop, .stop, .start]

/-- A command has been taken that takes effect at once. -/
structure Immediate (r : Round) (hdus : ℕ) (t : Transfer) (l : Ledger) : Prop where
  transit : t.transitByte = t.totalBytesWritten
  pos : t.totalBytesWritten ≠ 0
  bytes : t.bytesToWrite = 0
  due : ∃ d, l.due = some d ∧ d.code = t.command.code ∧ d.byte = l.written ∧
    (t.command.code = .recordStart →
      max (r.soclockByte (hdus - 1) + d.asked) (r.startMinimum (hdus - 1)) =
        max (r.soclockByte (hdus - 1) + t.command.byteCount) (r.startMinimum (hdus - 1)))
  code : t.command.code = .stop ∨
    (t.command.code = .recordStart ∨ t.command.code = .recordStop) ∧
      l.written = t.totalBytesWritten ∧ l.written = l.base + l.size ∧ l.buffers = t.fetched ∧
      t.bufferSize = t.bufBytes

/-- A buffer has been got and written up to the transit byte. -/
structure PartWritten (t : Transfer) (l : Ledger) : Prop where
  written : l.written = t.totalBytesWritten
  part : l.base + t.bufBytes = l.written
  le : t.bufBytes ≤ l.size
  size : t.bufferSize = l.size
  buffer : t.buffer = some (t.fetched - 1, 0)
  buffers : l.buffers = t.fetched
  fetched : 0 < t.fetched
  early : t.transitByte = 0 → t.totalBytesWritten = 0 →
    t.command.code ∈ [.clock, .start, .setUtcStart]
  idle : t.transitByte = 0 → l.due = none ∧ t.bufBytes = l.size
  busy : t.transitByte ≠ 0 → l.due = some ⟨t.command.code, t.transitByte, t.transitByte⟩ ∧
    t.totalBytesWritten ≤ t.transitByte ∧
    t.bytesToWrite = t.transitByte - t.totalBytesWritten ∧
    t.command.byteCount = t.transitByte ∧
    t.command.code ∈ [.recordStart, .recordStop, .stop, .start] ∧
    (t.totalBytesWritten < t.transitByte → t.bufBytes = l.size)

/-- What is assumed of a command: `set_utc_start` does not come while a change is due, and what takes
effect at once comes when something has been written and nothing remains of the last buffer. -/
structure InTime (r : Round) (hdus : ℕ) (immediate : ℕ → ℕ) (t : Transfer) (command : PwcCommand) :
    Prop where
  utc : command.code = .setUtcStart → t.transitByte = 0
  stop : command.code = .stop → command.byteCount ≤ t.totalBytesWritten →
    immediate t.totalBytesWritten ≠ 0
  change : command.code = .recordStart ∨ command.code = .recordStop →
    command.byteCount ≤ t.totalBytesWritten →
    t.totalBytesWritten ≠ 0 ∧ t.bufferSize = t.bufBytes
  start : command.code = .recordStart → command.byteCount ≤ t.totalBytesWritten →
    command.byteCount ≠ 0 ∨
      r.soclockByte (hdus - 1) + t.totalBytesWritten ≤ r.startMinimum (hdus - 1)

/-- A command that leaves what is due. -/
theorem Ledger.take_setUtcStart {command : PwcCommand} (h : command.code = .setUtcStart) :
    l.take command = l := by
  simp [Ledger.take, h]

/-- A command that changes the state. -/
theorem Ledger.take_of_mem {command : PwcCommand}
    (h : command.code = .recordStop ∨ command.code = .recordStart ∨ command.code = .stop) :
    l.take command = { l with due := some ⟨command.code,
      if command.byteCount = 0 then l.written else command.byteCount,
      max (if command.byteCount = 0 then l.written else command.byteCount) l.written⟩ } := by
  rcases h with h | h | h <;> simp [Ledger.take, h]

theorem sat_takeUtcStart {command : PwcCommand} (hl : Ledger.run i t.log = some l)
    (hk : Kept t l) :
    (takeUtcStart pwcm r t command).Sat i Kept := by
  have hkept : ∀ valid utc, Kept { t with headerValid := valid, utcStartSet := utc } l :=
    fun valid utc => ⟨hk.written, hk.settled, hk.buffers, hk.early, hk.idle, hk.busy⟩
  unfold takeUtcStart
  split
  · exact sat_abort hl
  · split
    · exact sat_next hl hk
    · split
      · exact sat_ret hl
      · split
        · dsimp only
          split
          · exact sat_ret hl
          · exact sat_next hl (hkept _ _)
        · exact sat_next hl (hkept t.headerValid true)

/-- A command that does not come, or one that comes in time. -/
theorem sat_takeCommand {immediate : ℕ → ℕ} (himm : ∀ n, n ≠ 0 → immediate n = n)
    (hl : Ledger.run i t.log = some l) (hk : Kept t l)
    (hin : ∀ command, r.command = some command → InTime r hdus immediate t command) :
    (takeCommand pwcm r immediate t).Sat i fun t l => Kept t l ∨ Immediate r hdus t l := by
  unfold takeCommand
  cases hc : r.command with
  | none => exact sat_next hl (.inl hk)
  | some command =>
    have h := hin command hc
    have htook : Ledger.run i (t.note (.took command)).log = some (l.take command) := by
      rw [Transfer.note, Ledger.run_concat, hl]
      rfl
    dsimp only
    by_cases hutc : command.code = .setUtcStart
    · rw [if_pos hutc]
      rw [Ledger.take_setUtcStart hutc] at htook
      have hidle := h.utc hutc
      refine (sat_takeUtcStart (by exact htook) ?_).mono fun t l => .inl
      refine ⟨hk.written, hk.settled, hk.buffers, fun _ _ => ?_, hk.idle,
        fun hbusy => absurd hidle hbusy⟩
      simp [hutc]
    · rw [if_neg hutc]
      split
      · exact sat_ret htook
      · rename_i hcode
        have hmem : command.code = .recordStop ∨ command.code = .recordStart ∨
            command.code = .stop := by
          by_contra hne
          simp only [not_or] at hne
          exact hcode hne
        rw [Ledger.take_of_mem hmem] at htook
        split
        · -- the command is dated
          rename_i hdated
          have hdated : t.totalBytesWritten < command.byteCount := hdated
          have hpos : command.byteCount ≠ 0 := by omega
          rw [if_neg hpos, hk.written, max_eq_left (Nat.le_of_lt hdated)] at htook
          refine sat_next htook (.inl ⟨rfl, ?_, hk.buffers, fun h0 => absurd h0 hpos,
            fun h0 => absurd h0 hpos, fun _ => ?_⟩)
          · exact hk.written.symm.trans hk.settled
          · refine ⟨rfl, hdated, rfl, rfl, ?_⟩
            rcases hmem with h' | h' | h' <;> simp [h']
        · -- the command is immediate
          rename_i hnow
          have hle : command.byteCount ≤ t.totalBytesWritten := Nat.not_lt.mp hnow
          have hmax : max (if command.byteCount = 0 then l.written else command.byteCount)
              l.written = l.written := by
            rw [max_eq_right]
            split
            · exact le_rfl
            · rw [hk.written]
              exact hle
          rw [hmax] at htook
          have hpos : immediate t.totalBytesWritten ≠ 0 := by
            rcases hmem with h' | h' | h'
            · rw [himm _ (h.change (.inr h') hle).1]
              exact (h.change (.inr h') hle).1
            · rw [himm _ (h.change (.inl h') hle).1]
              exact (h.change (.inl h') hle).1
            · exact h.stop h' hle
          refine sat_next htook (.inr ⟨rfl, hpos, rfl, ⟨_, rfl, rfl, rfl, fun hstart => ?_⟩, ?_⟩)
          · by_cases hzero : command.byteCount = 0
            · rcases h.start hstart hle with hne | hmin
              · exact absurd hzero hne
              · simp only [hzero, if_true, hk.written, Nat.add_zero]
                omega
            · simp only [hzero, if_false]
          · by_cases hstop : command.code = .stop
            · exact .inl hstop
            · have hchange : command.code = .recordStart ∨ command.code = .recordStop := by
                rcases hmem with h' | h' | h'
                · exact .inr h'
                · exact .inl h'
                · exact absurd h' hstop
              obtain ⟨hpos, hsize⟩ := h.change hchange hle
              exact .inr ⟨hchange, hk.written.trans (himm _ hpos).symm, hk.settled, hk.buffers, hsize⟩

/-- A buffer is written to every data block up to the transit byte. -/
theorem sat_writeBuffer (hi : i < hdus) (hl : Ledger.run i t.log = some l)
    (hbuffers : l.buffers = t.fetched) (hfetched : 0 < t.fetched) (hbase : l.base = l.written)
    (hle : t.bufBytes ≤ l.size) (hdue : ∀ d ∈ l.due, l.written + t.bufBytes ≤ d.byte) :
    (writeBuffer r hdus t).Sat i fun u m => u = { t with log := u.log } ∧
      m = { l with written := l.written + t.bufBytes } := by
  refine sat_forHdus_once (fun j => .write j (t.fetched - 1) 0 t.bufBytes) _ hi hl
    (fun j hj m => by simp [Ledger.step, hj]) ?_ fun j u hu => ?_
  · have hnum : t.fetched - 1 + 1 = l.buffers := by omega
    simp only [Ledger.step, ne_eq, not_true_eq_false, if_false, Nat.add_zero, Nat.zero_add]
    rw [if_pos ⟨hnum, hbase, hle, hdue⟩]
  · rw [hu]
    dsimp only
    split
    · exact .inr (.inr ⟨_, rfl⟩)
    · split
      · exact .inl rfl
      · exact .inr (.inl ⟨_, rfl⟩)

/-- A buffer has been got. -/
structure Got (t : Transfer) (l : Ledger) : Prop where
  written : l.written = t.totalBytesWritten
  base : l.base = l.written
  size : t.bufferSize = l.size
  buffer : t.buffer = none ∨ t.buffer = some (t.fetched - 1, 0)
  buffers : l.buffers = t.fetched
  fetched : 0 < t.fetched
  early : t.transitByte = 0 → t.totalBytesWritten = 0 →
    t.command.code ∈ [.clock, .start, .setUtcStart]
  idle : t.transitByte = 0 → l.due = none
  busy : t.transitByte ≠ 0 → l.due = some ⟨t.command.code, t.transitByte, t.transitByte⟩ ∧
    t.totalBytesWritten < t.transitByte ∧
    t.bytesToWrite = t.transitByte - t.totalBytesWritten ∧
    t.command.byteCount = t.transitByte ∧
    t.command.code ∈ [.recordStart, .recordStop, .stop, .start]

/-- The ledger once a buffer has been got. -/
theorem run_getBuffer (hl : Ledger.run i t.log = some l) (hk : Kept t l) :
    Ledger.run i (getBuffer r t).log =
      some { l with base := l.base + l.size, size := r.size.toNat, buffers := l.buffers + 1 } := by
  change Ledger.run i (t.log ++ [.fetched r.size.toNat]) = _
  rw [Ledger.run_concat, hl, Option.bind_some]
  exact if_pos hk.settled

theorem Kept.got (hk : Kept t l) (hsize : 0 ≤ r.size) :
    Got (getBuffer r t)
      { l with base := l.base + l.size, size := r.size.toNat, buffers := l.buffers + 1 } := by
  refine ⟨hk.written, hk.settled.symm, (Int.toNat_of_nonneg hsize).symm, ?_, ?_, Nat.succ_pos _,
    hk.early, hk.idle, hk.busy⟩
  · simp only [getBuffer, Nat.add_sub_cancel]
    by_cases h : r.null = true <;> simp [h]
  · exact congrArg (· + 1) hk.buffers

theorem sat_useBuffer (hi : i < hdus) (hl : Ledger.run i t.log = some l) (hg : Got t l) :
    (useBuffer r hdus t).Sat i PartWritten := by
  unfold useBuffer
  split
  · exact sat_ret hl
  · rename_i hbuf
    dsimp only
    split
    · exact sat_ret hl
    · have hnat : t.bufferSize.toNat = l.size := by rw [hg.size, Int.toNat_natCast]
      have hle : (if t.transitByte ≠ 0 ∧ t.bufferSize.toNat > t.bytesToWrite then t.bytesToWrite
          else t.bufferSize.toNat) ≤ l.size := by
        split <;> omega
      refine Sat.andThen (sat_writeBuffer hi hl hg.buffers hg.fetched hg.base hle ?_) ?_
      · intro d hd
        by_cases hbusy : t.transitByte = 0
        · rw [hg.idle hbusy] at hd
          cases hd
        · obtain ⟨hdue, hlt, hbytes, -, -⟩ := hg.busy hbusy
          rw [hdue] at hd
          cases hd
          have hwritten := hg.written
          dsimp only
          split <;> omega
      · rintro u m hu ⟨hlog, rfl⟩
        refine sat_next hu ?_
        rw [hlog]
        have hwritten := hg.written
        have hbase := hg.base
        refine ⟨?_, ?_, hle, hg.size, ?_, hg.buffers, hg.fetched, fun hidle htotal => ?_,
          fun hidle => ?_, fun hbusy => ?_⟩
        · exact congrArg (· + _) hg.written
        · exact congrArg (· + _) hg.base
        · exact hg.buffer.resolve_left hbuf
        · exact hg.early hidle (Nat.eq_zero_of_add_eq_zero_right htotal)
        · refine ⟨hg.idle hidle, ?_⟩
          have hidle : t.transitByte = 0 := hidle
          simp [hidle, hnat]
        · have hbusy : t.transitByte ≠ 0 := hbusy
          obtain ⟨hdue, hlt, hbytes, hcount, hcode⟩ := hg.busy hbusy
          have hpos : t.bytesToWrite ≠ 0 := by omega
          dsimp only
          rw [if_pos hpos]
          by_cases hclip : t.bufferSize.toNat > t.bytesToWrite
          · simp only [hbusy, hclip, ne_eq, not_false_eq_true, and_self, if_true, usub, le_refl]
            exact ⟨hdue, by omega, by omega, hcount, hcode, by omega⟩
          · simp only [hbusy, hclip, ne_eq, not_false_eq_true, and_false, if_false, usub]
            rw [if_pos (by omega)]
            exact ⟨hdue, by omega, by omega, hcount, hcode, by omega⟩

/-- The change that the current command asks for is due now. -/
def DueNow (r : Round) (hdus : ℕ) (t : Transfer) (l : Ledger) : Prop :=
  ∃ d, l.due = some d ∧ d.code = t.command.code ∧ d.byte = l.written ∧
    (t.command.code = .recordStart →
      max (r.soclockByte (hdus - 1) + d.asked) (r.startMinimum (hdus - 1)) =
        max (r.soclockByte (hdus - 1) + t.command.byteCount) (r.startMinimum (hdus - 1)))

/-- What a change of state leaves alone. -/
structure SameBuffer (t u : Transfer) : Prop where
  total : u.totalBytesWritten = t.totalBytesWritten
  transit : u.transitByte = t.transitByte
  bytes : u.bytesToWrite = t.bytesToWrite
  part : u.bufBytes = t.bufBytes
  buffer : u.buffer = t.buffer
  size : u.bufferSize = t.bufferSize
  fetched : u.fetched = t.fetched

/-- The loop is left when a command that ends the transfer is due. -/
theorem Ledger.run_left (hl : Ledger.run i t.log = some l) (hdue : DueNow r hdus t l)
    (hcode : t.command.code ∈ [CommandCode.start, .stop]) :
    Ledger.run i (t.note .left).log = some { l with due := none } := by
  obtain ⟨d, hd, hc, hb, -⟩ := hdue
  rw [Transfer.note, Ledger.run_concat, hl, Option.bind_some, Ledger.step, Ledger.change, hd]
  simp only [hc, hcode, hb, and_self, if_true]

theorem sat_recordStart (hi : i < hdus) (hl : Ledger.run i t.log = some l)
    (hdue : DueNow r hdus t l) (hcode : t.command.code = .recordStart) :
    (recordStart pwcm r hdus t).Sat i fun u m => SameBuffer t u ∧ m = { l with due := none } := by
  unfold recordStart
  obtain ⟨d, hd, hc, hb, hask⟩ := hdue
  have hask := hask hcode
  generalize r.soclockByte (hdus - 1) = soclock at hask ⊢
  generalize r.startMinimum (hdus - 1) = minimum at hask ⊢
  dsimp only
  -- the byte count may be put right first, which nothing looks at any more
  generalize hv : (if soclock + t.command.byteCount < minimum then
    { t with command := { t.command with byteCount := usub minimum soclock } } else t) = v
  have hsame : SameBuffer t v ∧ v.log = t.log := by
    subst hv
    split <;> exact ⟨⟨rfl, rfl, rfl, rfl, rfl, rfl, rfl⟩, rfl⟩
  split
  · refine sat_ret (l := l) ?_
    rw [hsame.2]
    exact hl
  · refine Sat.andThen (sat_forHdus_once
      (fun j => .start j soclock minimum (max (soclock + t.command.byteCount) minimum))
      { l with due := none } hi (by rw [hsame.2]; exact hl)
      (fun j hj m => by simp [Ledger.step, hj]) ?_ fun j u hu => ?_) ?_
    · simp only [Ledger.step, ne_eq, not_true_eq_false, if_false, Ledger.change, hd, hc, hcode, hb,
        hask]
      simp
    · split
      · exact .inl rfl
      · exact .inr (.inl ⟨_, rfl⟩)
    · rintro u m hu ⟨hlog, rfl⟩
      obtain ⟨⟨h₁, h₂, h₃, h₄, h₅, h₆, h₇⟩, -⟩ := hsame
      have hsame' : ∀ valid, SameBuffer t { u with headerValid := valid } := fun valid => by
        rw [hlog]
        exact ⟨h₁, h₂, h₃, h₄, h₅, h₆, h₇⟩
      split
      · exact sat_next hu ⟨hsame' u.headerValid, rfl⟩
      · split
        · exact sat_next hu ⟨hsame' _, rfl⟩
        · exact sat_ret hu

/-- The change that is due comes, for every data block. -/
theorem sat_changeState (hi : i < hdus) (hl : Ledger.run i t.log = some l)
    (hdue : DueNow r hdus t l) (hpos : t.totalBytesWritten ≠ 0)
    (hcode : t.command.code ∈ [CommandCode.recordStart, .recordStop, .start]) :
    (changeState pwcm r hdus t).Sat i fun u m => SameBuffer t u ∧ m = { l with due := none } := by
  unfold changeState
  simp only [List.mem_cons, List.not_mem_nil, or_false] at hcode
  rcases hcode with hcode | hcode | hcode
  · rw [hcode]
    refine Sat.andThen (sat_recordStart hi hl hdue hcode) ?_
    rintro u m hu ⟨⟨h₁, h₂, h₃, h₄, h₅, h₆, h₇⟩, rfl⟩
    exact sat_next hu ⟨⟨h₁, h₂, h₃, h₄, h₅, h₆, h₇⟩, rfl⟩
  · rw [hcode]
    obtain ⟨d, hd, hc, hb, -⟩ := hdue
    refine Sat.andThen (sat_forHdus_once .stop { l with due := none } hi hl
      (fun j hj m => by simp [Ledger.step, hj]) ?_ fun j u hu => ?_) ?_
    · simp [Ledger.step, Ledger.change, hd, hc, hcode, hb]
    · dsimp only
      split
      · exact .inl rfl
      · exact .inr (.inl ⟨_, rfl⟩)
    · rintro u m hu ⟨hlog, rfl⟩
      refine sat_next hu ⟨?_, rfl⟩
      rw [hlog]
      exact ⟨rfl, rfl, rfl, rfl, rfl, rfl, rfl⟩
  · rw [hcode]
    dsimp only
    rw [if_pos hpos]
    exact sat_ret (Ledger.run_left hl hdue (by simp [hcode]))

/-- Between two iterations a buffer is got next. -/
theorem Kept.gets (hk : Kept t l) : t.transitByte = 0 ∨ t.bytesToWrite ≠ 0 := by
  by_cases hbusy : t.transitByte = 0
  · exact .inl hbusy
  · obtain ⟨-, hlt, hbytes, -, -⟩ := hk.busy hbusy
    exact .inr (by omega)

/-- Between two iterations nothing is owed. -/
theorem Kept.settledLedger (hk : Kept t l) : l.Settled := by
  refine ⟨hk.settled, fun d hd => ?_⟩
  by_cases hbusy : t.transitByte = 0
  · rw [hk.idle hbusy] at hd
    cases hd
  · obtain ⟨hdue, hlt, -, -, -⟩ := hk.busy hbusy
    rw [hdue] at hd
    cases hd
    rw [hk.written]
    exact hlt

/-- What takes effect at once gets no buffer. -/
theorem Immediate.not_gets (him : Immediate r hdus t l) :
    ¬ (t.transitByte = 0 ∨ t.bytesToWrite ≠ 0) := by
  rw [him.transit, him.bytes]
  simpa using him.pos

/-- The transit byte has been reached: the change comes now. -/
theorem dueNow_of_reached (hk : PartWritten t l ∨ Immediate r hdus t l) (hbusy : t.transitByte ≠ 0)
    (hreach : t.transitByte ≤ t.totalBytesWritten) : DueNow r hdus t l := by
  rcases hk with hp | him
  · obtain ⟨hd, hle, -, hcount, -, -⟩ := hp.busy hbusy
    refine ⟨_, hd, rfl, ?_, fun _ => by rw [hcount]⟩
    show t.transitByte = l.written
    rw [hp.written]
    omega
  · exact him.due

/-- Only a command that changes the state is due. -/
theorem code_of_reached (hk : PartWritten t l ∨ Immediate r hdus t l) (hbusy : t.transitByte ≠ 0)
    (hstop : t.command.code ≠ .stop) :
    t.command.code ∈ [CommandCode.recordStart, .recordStop, .start] := by
  rcases hk with hp | him
  · obtain ⟨-, -, -, -, hcode, -⟩ := hp.busy hbusy
    simp only [List.mem_cons, List.not_mem_nil, or_false] at hcode ⊢
    rcases hcode with h | h | h | h
    · exact .inl h
    · exact .inr (.inl h)
    · exact absurd h hstop
    · exact .inr (.inr h)
  · rcases him.code with h | ⟨h | h, -⟩
    · exact absurd h hstop
    · simp [h]
    · simp [h]

/-- A buffer that does not reach the transit byte is written whole. -/
theorem PartWritten.kept (hp : PartWritten t l)
    (hnot : ¬ (t.transitByte ≠ 0 ∧ t.transitByte ≤ t.totalBytesWritten)) : Kept t l := by
  refine ⟨hp.written, ?_, hp.buffers, hp.early, fun hidle => (hp.idle hidle).1, fun hbusy => ?_⟩
  · have hwhole : t.bufBytes = l.size := by
      by_cases hbusy : t.transitByte = 0
      · exact (hp.idle hbusy).2
      · obtain ⟨-, hle, -, -, -, hlt⟩ := hp.busy hbusy
        exact hlt (by omega)
    rw [← hp.part, hwhole]
  · obtain ⟨hd, hle, hbytes, hcount, hcode, -⟩ := hp.busy hbusy
    exact ⟨hd, by omega, hbytes, hcount, hcode⟩

end Pieces

/-! ## One data block -/

/-- The rounds in which the loop for one data block keeps to the ledger: a command comes in time, and
an empty buffer does not make the loop give up. -/
structure Punctual (pwcm : PwcMain) (r : Round) (t : Transfer) : Prop where
  command : ∀ command, r.command = some command → InTime r 1 immediateTotal t command
  data : r.size = 0 → pwcm.errorFunction = true ∧ r.errorFunction ≠ 2

/-- The iterations that all meet a condition. -/
def EachRound (round : Round → Transfer → Outcome) (ok : Round → Transfer → Prop) :
    List Round → Transfer → Prop
  | [], _ => True
  | r :: rounds, t => ok r t ∧ ∀ u, round r t = .next u → EachRound round ok rounds u

/-- The rule of a loop whose iterations all meet a condition. -/
theorem sat_of_eachRound {hdu : ℕ} {round : Round → Transfer → Outcome}
    {loop : List Round → Transfer → Outcome} {ok : Round → Transfer → Prop}
    {P : Transfer → Ledger → Prop} (nil : ∀ t, loop [] t = .next t)
    (cons : ∀ r rounds t, loop (r :: rounds) t = (round r t).andThen (loop rounds))
    (hround : ∀ r t l, ok r t → Ledger.run hdu t.log = some l → P t l → (round r t).Sat hdu P)
    {rounds : List Round} {t : Transfer} {l : Ledger} (hok : EachRound round ok rounds t)
    (hl : Ledger.run hdu t.log = some l) (hp : P t l) : (loop rounds t).Sat hdu P := by
  induction rounds generalizing t l with
  | nil =>
    rw [nil]
    exact Outcome.sat_next hl hp
  | cons r rounds ih =>
    obtain ⟨hr, hrest⟩ := hok
    rw [cons]
    exact (hround r t l hr hl hp).andThen_next fun u m hm hu hnext => ih (hrest u hnext) hm hu

section Single

open Outcome

variable {pwcm : PwcMain} {r : Round} {t : Transfer} {l : Ledger}

theorem sat_transferBuffer (hxfer : pwcm.xferPendingFunction = false)
    (hdata : r.size = 0 → pwcm.errorFunction = true ∧ r.errorFunction ≠ 2)
    (hl : Ledger.run 0 t.log = some l) (hk : Kept t l ∨ Immediate r 1 t l) :
    (transferBuffer pwcm r t).Sat 0 fun t l => PartWritten t l ∨ Immediate r 1 t l := by
  unfold transferBuffer
  rcases hk with hk | him
  · rw [if_pos hk.gets]
    have hrun := run_getBuffer (r := r) hl hk
    dsimp only
    split
    · exact sat_ret hrun
    · rename_i hneg
      have hsize : 0 ≤ r.size := Int.not_lt.mp hneg
      refine Sat.andThen (P := Got) ?_ fun u m hu hm => (sat_useBuffer Nat.one_pos hu hm).mono
        fun _ _ => .inl
      have hgot := hk.got hsize
      split
      · rename_i hzero
        obtain ⟨herr, htwo⟩ := hdata hzero
        unfold emptyBuffer
        rw [hxfer, herr]
        simp only [Bool.false_eq_true, if_false, if_true, htwo]
        exact sat_next hrun ⟨hgot.written, hgot.base, hgot.size, hgot.buffer, hgot.buffers,
          hgot.fetched, hgot.early, hgot.idle, hgot.busy⟩
      · exact sat_next hrun hgot
  · rw [if_neg him.not_gets]
    exact sat_next hl (.inr him)

/-- What remains of a buffer is written behind what has been written of it. -/
theorem sat_writeRemainder (hl : Ledger.run 0 t.log = some l) (hdue : l.due = none)
    (hidle : t.transitByte = 0) (hpos : t.totalBytesWritten ≠ 0)
    (hwritten : l.written = t.totalBytesWritten) (hbuffers : l.buffers = t.fetched)
    (hrest : t.bufferSize = t.bufBytes ∧ l.written = l.base + l.size ∨
      t.bufferSize = l.size ∧ l.base + t.bufBytes = l.written ∧ t.bufBytes ≤ l.size ∧
        t.buffer = some (t.fetched - 1, 0) ∧ 0 < t.fetched) :
    (writeRemainder r t).Sat 0 Kept := by
  unfold writeRemainder
  dsimp only
  rcases hrest with ⟨hsize, hsettled⟩ | ⟨hsize, hpart, hle, hbuf, hfetched⟩
  · rw [hsize, Int.toNat_natCast, if_neg (by simp [usub])]
    exact sat_next hl ⟨hwritten, hsettled, hbuffers, fun _ htotal => absurd htotal hpos,
      fun _ => hdue, fun hbusy => absurd hidle hbusy⟩
  · rw [hsize, Int.toNat_natCast, usub, if_pos hle]
    split
    · rename_i hrest
      split
      · exact sat_ret hl
      · have hstep : Ledger.run 0 (t.log ++ [.write 0 (t.fetched - 1) t.bufBytes
            (l.size - t.bufBytes)]) = some { l with written := l.written + (l.size - t.bufBytes) } := by
          have hnum : t.fetched - 1 + 1 = l.buffers := by omega
          rw [Ledger.run_concat, hl, Option.bind_some]
          simp only [Ledger.step, ne_eq, not_true_eq_false, if_false, hdue]
          rw [if_pos ⟨hnum, hpart, by omega, by simp⟩]
        rw [hbuf]
        simp only [Option.map_some, Option.getD_some, Nat.zero_add]
        refine sat_next hstep ⟨?_, ?_, hbuffers, fun _ htotal => ?_, fun _ => hdue,
          fun hbusy => absurd hidle hbusy⟩
        · exact congrArg (· + _) hwritten
        · dsimp only
          omega
        · exact absurd (Nat.eq_zero_of_add_eq_zero_right htotal) hpos
    · rename_i hnone
      exact sat_next hl ⟨hwritten, by omega, hbuffers, fun _ htotal => absurd htotal hpos,
        fun _ => hdue, fun hbusy => absurd hidle hbusy⟩

theorem sat_transit (hxfer : pwcm.xferPendingFunction = false)
    (hl : Ledger.run 0 t.log = some l) (hk : PartWritten t l ∨ Immediate r 1 t l) :
    (transit pwcm r t).Sat 0 Kept := by
  unfold transit
  split
  · rename_i hreach
    obtain ⟨hbusy, hreach⟩ := hreach
    -- the change that is due comes now, with what remains of the buffer behind it
    have hdue := dueNow_of_reached hk hbusy hreach
    dsimp only
    rw [hxfer]
    split
    · rename_i hstop
      rw [if_neg (by simp)]
      exact sat_ret (Ledger.run_left (t := { t with transitByte := 0 }) hl hdue (by simp [hstop]))
    · rename_i hstop
      have hpos : t.totalBytesWritten ≠ 0 := by omega
      have hcode := code_of_reached hk hbusy hstop
      refine Sat.andThen (sat_changeState (t := { t with transitByte := 0 }) Nat.one_pos hl hdue hpos
        hcode) ?_
      rintro u m hu ⟨hsame, rfl⟩
      refine sat_writeRemainder hu rfl hsame.transit ?_ ?_ ?_ ?_
      · rw [hsame.total]
        exact hpos
      · rw [hsame.total]
        rcases hk with hp | him
        · exact hp.written
        · exact (him.code.resolve_left hstop).2.1
      · rw [hsame.fetched]
        rcases hk with hp | him
        · exact hp.buffers
        · exact (him.code.resolve_left hstop).2.2.2.1
      · rw [hsame.size, hsame.part, hsame.buffer, hsame.fetched]
        rcases hk with hp | him
        · exact .inr ⟨hp.size, hp.part, hp.le, hp.buffer, hp.fetched⟩
        · obtain ⟨-, -, hsettled, -, hsize⟩ := him.code.resolve_left hstop
          exact .inl ⟨hsize, hsettled⟩
  · rename_i hnot
    rcases hk with hp | him
    · exact sat_next hl (hp.kept hnot)
    · have hpos := him.pos
      have htransit := him.transit
      omega

/-- **One iteration** keeps to the ledger when its round is punctual. -/
theorem sat_dadaPwcMainRound (hxfer : pwcm.xferPendingFunction = false) (hp : Punctual pwcm r t)
    (hl : Ledger.run 0 t.log = some l) (hk : Kept t l) : (dadaPwcMainRound pwcm r t).Sat 0 Kept := by
  unfold dadaPwcMainRound
  split
  · exact sat_ret hl
  · have himm : ∀ n, n ≠ 0 → immediateTotal n = n := fun n hn => if_neg hn
    refine Sat.andThen (P := fun t l => PartWritten t l ∨ Immediate r 1 t l)
      (Sat.andThen (sat_takeCommand himm hl hk hp.command) ?_) ?_
    · exact fun u m hu hm => sat_transferBuffer hxfer hp.data hu hm
    · exact fun u m hu hm => sat_transit hxfer hu hm

/-- Any number of iterations. -/
theorem sat_dadaPwcMainTransferData (hxfer : pwcm.xferPendingFunction = false) {rounds : List Round}
    (hp : EachRound (dadaPwcMainRound pwcm) (Punctual pwcm) rounds t)
    (hl : Ledger.run 0 t.log = some l) (hk : Kept t l) :
    (dadaPwcMainTransferData pwcm rounds t).Sat 0 Kept :=
  sat_of_eachRound (fun _ => rfl) (fun _ _ _ => rfl)
    (fun _ _ _ hr hl hk => sat_dadaPwcMainRound hxfer hr hl hk) hp hl hk

/-- The loop is entered by a `clock` command or by a `start` command with a duration or without. -/
theorem kept_enter {i : ℕ} {command : PwcCommand} (state : PwcState) (valid utc : Bool)
    (hcommand : command.code = .start ∨ command.code = .clock ∧ command.byteCount = 0) :
    ∃ l, Ledger.run i (Transfer.enter state command valid utc 0).log = some l ∧
      Kept (Transfer.enter state command valid utc 0) l := by
  refine ⟨Ledger.blank.take command, rfl, ?_⟩
  rcases hcommand with hstart | ⟨hclock, hzero⟩
  · by_cases hzero : command.byteCount = 0
    · simp only [Ledger.take, hstart, hzero, if_true]
      refine ⟨rfl, rfl, rfl, fun _ _ => ?_, fun _ => rfl, fun hbusy => absurd hzero hbusy⟩
      simp [Transfer.enter, hstart]
    · simp only [Ledger.take, hstart, hzero, if_false]
      refine ⟨rfl, rfl, rfl, fun hidle => absurd hidle hzero, fun hidle => absurd hidle hzero,
        fun _ => ⟨?_, ?_, rfl, rfl, ?_⟩⟩
      · simp [Transfer.enter, hstart, Ledger.blank]
      · exact Nat.pos_of_ne_zero hzero
      · simp [Transfer.enter, hstart]
  · simp only [Ledger.take, hclock]
    refine ⟨rfl, rfl, rfl, fun _ _ => ?_, fun _ => rfl, fun hbusy => absurd hzero hbusy⟩
    simp [Transfer.enter, hclock]

/-- A dated command is in time. -/
theorem InTime.of_dated {immediate : ℕ → ℕ} {hdus : ℕ} {command : PwcCommand}
    (hcode : command.code ≠ .setUtcStart) (hdated : t.totalBytesWritten < command.byteCount) :
    InTime r hdus immediate t command := by
  constructor
  · intro h
    exact absurd h hcode
  · intro _ hle
    omega
  · intro _ hle
    omega
  · intro _ hle
    omega

/-- A round in which all that is called succeeds. -/
def Round.smooth (command : Option PwcCommand) (size : ℕ) : Round where
  quit := false
  command := command
  size := size
  null := false
  errorFunction := 0
  processXfer := 0
  headerValid := true
  headerSet := true
  markFilled := true
  spaceLeft := fun _ => 64
  writes := fun _ => true
  spaceRest := fun _ => 64
  writesRest := fun _ => true
  opens := true
  closes := true
  stops := fun _ => true
  starts := fun _ => true
  startMinimum := fun _ => 0
  soclockByte := fun _ => 0

/-- A client that sets an error function only. -/
def PwcMain.plain : PwcMain := ⟨true, false, false⟩

/-- A command and its byte. -/
def PwcCommand.at (code : CommandCode) (byteCount : ℕ) : PwcCommand :=
  { PwcCommand.init with code := code, byteCount := byteCount }

theorem punctual_smooth {command : Option PwcCommand} {n : ℕ} (hn : n ≠ 0)
    (hin : ∀ c, command = some c → InTime (.smooth command n) 1 immediateTotal t c) :
    Punctual .plain (.smooth command n) t :=
  ⟨hin, fun h => absurd (Int.ofNat.inj h) hn⟩

end Single

end Psrdada
