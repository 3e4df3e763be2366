import Mathlib.Data.List.Flatten
import Psrdada.Client.Source
import Psrdada.Pwc.Control
import Psrdada.Ring.Ipcbuf

/-! # Seeking in a transfer

`ipcio_seek` reads without a destination to go forward, and takes back some of the bytes of the open
sub-block to go back.  The position of a reader is what `ipcio_tell` reconstructs from its sub-block
counter and from the entry of the arrays `s_buf` and `s_byte` that belongs to its transfer, modulo eight. -/

namespace Psrdada

/-! ## A transfer and its reader -/

/-- A transfer as it comes to a reader. -/
structure Incoming where
  /-- The size of a sub-block. -/
  bufsz : ℕ
  /-- The number of the sub-block in which the transfer starts. -/
  startBuf : ℕ
  /-- The byte of that sub-block. -/
  startByte : ℕ
  /-- That byte is in the sub-block or right behind it. -/
  startByte_le : startByte ≤ bufsz
  /-- The valid data of each of the sub-blocks, the last of which carries end-of-data. -/
  blocks : List (List UInt8)
  /-- A sub-block before the last is full, the first one from the start byte on. -/
  full : ∀ i b, blocks[i]? = some b → i + 1 < blocks.length →
    b.length = bufsz - if i = 0 then startByte else 0
  /-- A position is an `int64_t`. -/
  length_lt : blocks.flatten.length < 2 ^ 63

/-- The length of a transfer. -/
def Incoming.length (x : Incoming) : ℕ := x.blocks.flatten.length

/-- Where a sub-block begins in a transfer. -/
theorem Incoming.length_take (x : Incoming) {i : ℕ} (hi : i < x.blocks.length) (hpos : 0 < i) :
    (x.blocks.take i).flatten.length = i * x.bufsz - x.startByte := by
  induction i with
  | zero => omega
  | succ i ih =>
    have hle := x.startByte_le
    have hget : x.blocks[i]? = some x.blocks[i] := List.getElem?_eq_getElem (by omega)
    have hfull := x.full i _ hget hi
    rw [List.take_add_one, hget, List.flatten_append, List.length_append]
    simp only [Option.toList_some, List.flatten_cons, List.flatten_nil, List.append_nil]
    rw [hfull, Nat.succ_mul]
    by_cases h0 : i = 0
    · subst h0
      simp
    · have hbuf : x.bufsz ≤ i * x.bufsz := Nat.le_mul_of_pos_left _ (by omega)
      rw [ih (by omega) (by omega), if_neg h0]
      omega

/-- The designated reader during a transfer. -/
structure TransferReader where
  /-- The transfer that is being read. -/
  transfer : Incoming
  /-- The sub-blocks that have not been cleared. -/
  source : Source
  /-- They are the last of the transfer. -/
  suffix : source.curbuf.toList ++ source.blocks <:+ transfer.blocks
  /-- A sub-block that has been read to its end is not left open. -/
  partly : ∀ b, source.curbuf = some b → source.bytes < b.length ∨ source.bytes = 0
  /-- `s_buf[xfer]`, as it is found. -/
  sBuf : ℕ
  /-- `s_byte[xfer]`, as it is found. -/
  sByte : ℕ
  /-- The entry is that of this transfer, or that of one that starts behind it. -/
  slot : (sBuf = transfer.startBuf ∧ sByte = transfer.startByte) ∨
    transfer.startBuf + transfer.blocks.length ≤ sBuf

namespace TransferReader

variable (r : TransferReader)

/-- How many sub-blocks have been cleared. -/
def cleared : ℕ :=
  r.transfer.blocks.length - (r.source.curbuf.toList ++ r.source.blocks).length

/-- `r_bufs[iread]`: it is set to the first sub-block when that is opened, and incremented with each
sub-block that is cleared. -/
def rBufs : ℕ := r.transfer.startBuf + r.cleared

/-- Whether the process is in the state `IPCBUF_READING`: it has opened the first sub-block. -/
def isReading : Bool := decide (r.source.blocks.length < r.transfer.blocks.length)

/-- The position: how many bytes of the transfer have been read. -/
def position : ℕ := r.transfer.length - r.source.left.length

/-- The entry of `s_buf` and `s_byte` is that of this transfer. -/
def Own : Prop := r.sBuf = r.transfer.startBuf ∧ r.sByte = r.transfer.startByte

/-! ## The functions -/

/-- `ipcbuf_tell`. -/
def ipcbufTell (bufnum : ℕ) : ℕ :=
  if bufnum ≤ r.sBuf then 0 else usub (usub bufnum r.sBuf * r.transfer.bufsz) r.sByte

/-- `ipcbuf_tell_read`. -/
def ipcbufTellRead : ℤ :=
  if r.source.eod then -1 else if r.isReading then r.ipcbufTell r.rBufs else 0

/-- `ipcio_tell`. -/
def ipcioTell : ℕ :=
  let current := r.ipcbufTellRead
  if current < 0 then 0 else current.toNat + r.source.bytes

end TransferReader

/-! ### Reading without a destination -/

theorem Source.readOn_suffix (blocks : List (List UInt8)) (curbuf : List UInt8) (bytes : ℕ)
    (h : bytes ≤ curbuf.length) (count : ℕ) :
    (readOn blocks curbuf bytes h count).2.curbuf.toList ++ (readOn blocks curbuf bytes h count).2.blocks
      <:+ curbuf :: blocks := by
  induction blocks generalizing curbuf bytes count with
  | nil =>
    rw [readOn]
    split
    · exact List.suffix_rfl
    · exact List.nil_suffix
  | cons next blocks ih =>
    rw [readOn]
    split
    · exact List.suffix_rfl
    · exact (ih next 0 _ _).trans (List.suffix_cons _ _)

/-- After a read, the sub-block that is open has bytes left. -/
theorem Source.readOn_partly (blocks : List (List UInt8)) (curbuf : List UInt8) (bytes : ℕ)
    (h : bytes ≤ curbuf.length) (count : ℕ) {b : List UInt8}
    (hb : (readOn blocks curbuf bytes h count).2.curbuf = some b) :
    (readOn blocks curbuf bytes h count).2.bytes < b.length := by
  induction blocks generalizing curbuf bytes count with
  | nil =>
    rw [readOn] at hb ⊢
    split at hb
    case isTrue hlt =>
      rw [dif_pos hlt]
      obtain rfl : curbuf = b := Option.some.inj hb
      exact hlt
    case isFalse => cases hb
  | cons next blocks ih =>
    rw [readOn] at hb ⊢
    split at hb
    case isTrue hlt =>
      rw [dif_pos hlt]
      obtain rfl : curbuf = b := Option.some.inj hb
      exact hlt
    case isFalse hge =>
      rw [dif_neg hge]
      exact ih next 0 _ _ hb

/-- A read leaves a sub-block open unless it has come to the end of the data. -/
theorem Source.readOn_open (blocks : List (List UInt8)) (curbuf : List UInt8) (bytes : ℕ)
    (h : bytes ≤ curbuf.length) (count : ℕ) (heod : (readOn blocks curbuf bytes h count).2.eod = false) :
    ∃ b, (readOn blocks curbuf bytes h count).2.curbuf = some b := by
  induction blocks generalizing curbuf bytes count with
  | nil =>
    rw [readOn] at heod ⊢
    split at heod
    case isTrue hlt => exact ⟨curbuf, by rw [dif_pos hlt]⟩
    case isFalse => cases heod
  | cons next blocks ih =>
    rw [readOn] at heod ⊢
    split at heod
    case isTrue hlt => exact ⟨curbuf, by rw [dif_pos hlt]⟩
    case isFalse hge =>
      rw [dif_neg hge]
      exact ih next 0 _ _ heod

theorem Source.ipcioRead_open (s : Source) (count : ℕ) (heod : (s.ipcioRead count).2.eod = false) :
    ∃ b, (s.ipcioRead count).2.curbuf = some b := by
  obtain ⟨blocks, _ | curbuf, bytes, h⟩ := s
  · cases blocks with
    | nil => exact nomatch heod
    | cons next blocks => exact readOn_open blocks next 0 _ count heod
  · exact readOn_open blocks curbuf bytes h count heod

theorem Source.ipcioRead_suffix (s : Source) (count : ℕ) :
    (s.ipcioRead count).2.curbuf.toList ++ (s.ipcioRead count).2.blocks
      <:+ s.curbuf.toList ++ s.blocks := by
  obtain ⟨blocks, _ | curbuf, bytes, h⟩ := s
  · cases blocks with
    | nil => exact List.suffix_rfl
    | cons next blocks => exact readOn_suffix blocks next 0 _ count
  · exact readOn_suffix blocks curbuf bytes h count

theorem Source.ipcioRead_partly (s : Source) (count : ℕ) {b : List UInt8}
    (hb : (s.ipcioRead count).2.curbuf = some b) : (s.ipcioRead count).2.bytes < b.length := by
  obtain ⟨blocks, _ | curbuf, bytes, h⟩ := s
  · cases blocks with
    | nil => exact nomatch hb
    | cons next blocks => exact readOn_partly blocks next 0 _ count hb
  · exact readOn_partly blocks curbuf bytes h count hb

namespace TransferReader

/-- `ipcio_read` with a `NULL` pointer. -/
def ipcioRead (r : TransferReader) (bytes : ℕ) : TransferReader :=
  { r with
    source := (r.source.ipcioRead bytes).2
    suffix := (r.source.ipcioRead_suffix bytes).trans r.suffix
    partly := fun _ hb => .inl (r.source.ipcioRead_partly bytes hb) }

theorem rewind_le {s : Source} (back : ℕ) : s.bytes - back ≤ (s.curbuf.getD []).length :=
  Nat.le_trans (Nat.sub_le _ _) s.bytes_le

theorem rewind_partly (r : TransferReader) (back : ℕ) (b : List UInt8) (hb : r.source.curbuf = some b) :
    r.source.bytes - back < b.length ∨ r.source.bytes - back = 0 := by
  have := r.partly b hb
  omega

/-- `ipc->bytes -= offset`. -/
def rewind (r : TransferReader) (back : ℕ) : TransferReader :=
  { r with
    source := ⟨r.source.blocks, r.source.curbuf, r.source.bytes - back, rewind_le back⟩
    partly := r.rewind_partly back }

end TransferReader

/-- Where the offset of a seek counts from. -/
inductive Whence
  /-- `SEEK_SET`: from the start of the transfer. -/
  | set
  /-- `SEEK_CUR`: from the position. -/
  | cur
  deriving DecidableEq, Repr

namespace TransferReader

variable (r : TransferReader)

/-- In `ipcio_seek`: the offset from the start of the transfer, as it is compared with `current`, which is
a `uint64_t`. -/
def seekOffset (offset : Int64) (whence : Whence) : ℕ :=
  toUInt64 (offset.toInt + if whence = .cur then r.ipcioTell else 0)

/-- `ipcio_seek`: what it returns, and the reader. -/
def ipcioSeek (offset : Int64) (whence : Whence) : ℤ × TransferReader :=
  let current := r.ipcioTell
  let offset := r.seekOffset offset whence
  if current < offset then
    let r := r.ipcioRead (offset - current)
    (r.ipcioTell, r)
  else if offset < current then
    let offset := current - offset
    if offset > r.source.bytes then (-1, r)
    else
      let r := r.rewind offset
      (r.ipcioTell, r)
  else (r.ipcioTell, r)

/-! ## Positions -/

/-- The sub-blocks that have been cleared come before the others. -/
theorem exists_cleared : ∃ l, r.transfer.blocks = l ++ (r.source.curbuf.toList ++ r.source.blocks) ∧
    r.cleared = l.length := by
  obtain ⟨l, hl⟩ := r.suffix
  refine ⟨l, hl.symm, ?_⟩
  rw [cleared, ← hl, show (l ++ _).length = _ from List.length_append, Nat.add_sub_cancel]

/-- Where the open sub-block, or the next one, begins in the transfer. -/
def base : ℕ := (r.transfer.blocks.take r.cleared).flatten.length

/-- The data is what has been cleared, what has been read of the open sub-block, and what is left. -/
theorem base_add_left : r.base + r.source.bytes + r.source.left.length = r.transfer.length := by
  obtain ⟨l, hl, hcleared⟩ := r.exists_cleared
  have hbytes := r.source.bytes_le
  rw [base, hcleared, Incoming.length, hl, List.take_left]
  cases hcur : r.source.curbuf with
  | none =>
    rw [hcur] at hbytes
    simp only [Source.left, hcur, Option.getD_none, Option.toList_none, List.drop_nil, List.nil_append,
      List.flatten_append, List.length_append, List.length_nil] at hbytes ⊢
    omega
  | some b =>
    rw [hcur] at hbytes
    simp only [Source.left, hcur, Option.getD_some, Option.toList_some, List.flatten_append,
      List.flatten_cons, List.length_append, List.length_drop, List.cons_append, List.nil_append]
      at hbytes ⊢
    omega

theorem position_eq : r.position = r.base + r.source.bytes := by
  have := r.base_add_left
  rw [position]
  omega

theorem left_length : r.source.left.length = r.transfer.length - r.position := by
  have := r.base_add_left
  rw [position_eq]
  omega

theorem position_le : r.position ≤ r.transfer.length := Nat.sub_le _ _

/-- Once the sub-block that carries end-of-data has been cleared, all has been read. -/
theorem position_of_eod (h : r.source.eod = true) : r.position = r.transfer.length := by
  rw [position, Source.left_of_eod h, List.length_nil, Nat.sub_zero]

/-- Before that there is a sub-block that has not been cleared. -/
theorem cleared_lt (h : r.source.eod = false) : r.cleared < r.transfer.blocks.length := by
  obtain ⟨l, hl, hcleared⟩ := r.exists_cleared
  rw [hcleared, hl, List.length_append]
  have hne : r.source.curbuf.toList ++ r.source.blocks ≠ [] := by
    intro hnil
    obtain ⟨hcur, hblocks⟩ := List.append_eq_nil_iff.mp hnil
    rw [Source.eod, hblocks, Option.toList_eq_nil_iff.mp hcur] at h
    exact absurd h (by decide)
  have := List.length_pos_iff.mpr hne
  omega

/-- A reader that has not opened a sub-block is at the start. -/
theorem eq_zero_of_not_isReading (h : r.isReading = false) : r.cleared = 0 ∧ r.source.bytes = 0 := by
  have hle : r.transfer.blocks.length ≤ r.source.blocks.length := by
    simpa [isReading] using h
  obtain ⟨l, hl, hcleared⟩ := r.exists_cleared
  have hlen := congrArg List.length hl
  rw [List.length_append, List.length_append] at hlen
  have hcur : r.source.curbuf = none := Option.toList_eq_nil_iff.mp (List.length_eq_zero_iff.mp (by omega))
  have hbytes := r.source.bytes_le
  rw [hcur] at hbytes
  exact ⟨by omega, Nat.le_zero.mp hbytes⟩

theorem base_of_cleared (h : r.cleared = 0) : r.base = 0 := by
  rw [base, h]
  rfl

/-! ## What `ipcio_tell` returns -/

variable {r}

/-- It fails once the end of the data has been read, and returns 0. -/
theorem ipcioTell_of_eod (h : r.source.eod = true) : r.ipcioTell = 0 := by
  rw [ipcioTell, ipcbufTellRead, if_pos h]
  rfl

/-- Before that it adds the place in the sub-block to where that is said to begin. -/
theorem ipcioTell_eq (h : r.source.eod = false) :
    r.ipcioTell = (if r.isReading then r.ipcbufTell r.rBufs else 0) + r.source.bytes := by
  have hread : r.ipcbufTellRead = ((if r.isReading then r.ipcbufTell r.rBufs else 0 : ℕ) : ℤ) := by
    rw [ipcbufTellRead, if_neg (by simp [h])]
    split
    · rfl
    · rfl
  rw [ipcioTell, hread, if_neg (Int.not_lt.mpr (Int.natCast_nonneg _)), Int.toNat_natCast]

/-- So it returns the position, -/
theorem ipcioTell_of_own (h : r.source.eod = false) (hown : r.Own) : r.ipcioTell = r.position := by
  obtain ⟨hbuf, hbyte⟩ := hown
  have hbase : (if r.isReading then r.ipcbufTell r.rBufs else 0) = r.base := by
    split
    case isFalse hreading =>
      exact (r.base_of_cleared (r.eq_zero_of_not_isReading (by simpa using hreading)).1).symm
    case isTrue hreading =>
      rw [ipcbufTell, rBufs, hbuf]
      by_cases hcleared : r.cleared = 0
      · rw [r.base_of_cleared hcleared, hcleared, Nat.add_zero, if_pos (Nat.le_refl _)]
      · have hpos : 0 < r.cleared := Nat.pos_of_ne_zero hcleared
        have hle : r.transfer.startByte ≤ r.cleared * r.transfer.bufsz :=
          Nat.le_trans r.transfer.startByte_le (Nat.le_mul_of_pos_left _ hpos)
        rw [if_neg (by omega), base, r.transfer.length_take (r.cleared_lt h) hpos, hbyte,
          usub, usub, if_pos (Nat.le_add_right _ _), Nat.add_sub_cancel_left, if_pos hle]
  rw [ipcioTell_eq h, position_eq, hbase]

/-- unless the entry is that of another transfer: then it returns the place in the sub-block. -/
theorem ipcioTell_of_not_own (h : r.source.eod = false) (hown : ¬ r.Own) :
    r.ipcioTell = r.source.bytes := by
  have hslot := r.slot.resolve_left hown
  have hlt := r.cleared_lt h
  have htell : r.ipcbufTell r.rBufs = 0 := if_pos (show r.transfer.startBuf + r.cleared ≤ r.sBuf by omega)
  rw [ipcioTell_eq h, htell, ite_self, Nat.zero_add]

/-- The position is known in the first sub-block, and behind it as long as the entry is not reused. -/
theorem ipcioTell_eq_position_iff (h : r.source.eod = false) :
    r.ipcioTell = r.position ↔ r.Own ∨ r.base = 0 := by
  by_cases hown : r.Own
  · simp [hown, ipcioTell_of_own h hown]
  · rw [ipcioTell_of_not_own h hown, position_eq]
    simp only [hown, false_or]
    omega

/-! ## Where a seek leads -/

theorem ipcioRead_of_eod (h : r.source.eod = true) (n : ℕ) : r.ipcioRead n = r := by
  obtain ⟨x, s, hsuffix, hpartly, b, y, hslot⟩ := r
  obtain ⟨blocks, curbuf, bytes, hle⟩ := s
  obtain ⟨rfl, rfl⟩ : blocks = [] ∧ curbuf = none := by simpa [Source.eod] using h
  rfl

/-- Reading goes forward as far as there is data, -/
theorem position_ipcioRead (h : r.source.eod = false) (n : ℕ) :
    (r.ipcioRead n).position = min (r.position + n) r.transfer.length := by
  have hleft : (r.ipcioRead n).source.left.length = r.source.left.length - n := by
    rw [← List.length_drop, ← (Source.ipcioRead_spec h n).2.1]
    rfl
  have := r.base_add_left
  show r.transfer.length - (r.ipcioRead n).source.left.length = _
  rw [hleft, position_eq]
  omega

/-- and to the end of the data when all of it has been read. -/
theorem eod_ipcioRead (h : r.source.eod = false) (n : ℕ) :
    (r.ipcioRead n).source.eod = true ↔ r.transfer.length ≤ r.position + n := by
  obtain ⟨-, hleft, hsettled⟩ := Source.ipcioRead_spec h n
  have hiff : (r.ipcioRead n).source.eod = true ↔ (r.source.ipcioRead n).2.left = [] := hsettled
  have hlen := r.left_length
  rw [hiff, hleft, List.drop_eq_nil_iff, hlen]
  omega

theorem position_rewind (back : ℕ) (h : back ≤ r.source.bytes) :
    (r.rewind back).position = r.position - back := by
  rw [position_eq, position_eq]
  show r.base + (r.source.bytes - back) = _
  omega

/-- Reading leaves what has been cleared behind it. -/
theorem base_le_ipcioRead (n : ℕ) : r.base ≤ (r.ipcioRead n).base := by
  have hle := (r.source.ipcioRead_suffix n).length_le
  have hcleared : r.cleared ≤ (r.ipcioRead n).cleared := Nat.sub_le_sub_left hle _
  have hprefix : r.transfer.blocks.take r.cleared <+: r.transfer.blocks.take (r.ipcioRead n).cleared :=
    List.take_prefix_take_left hcleared
  exact (List.Sublist.flatten hprefix.sublist).length_le

variable (r) in
/-- The length of the first sub-block that is not empty. -/
def lead : ℕ := ((r.transfer.blocks.find? fun b => !b.isEmpty).getD []).length

/-- A reader is in that sub-block exactly when its position is. -/
theorem base_eq_zero_iff {b : List UInt8} (hcur : r.source.curbuf = some b)
    (hlt : r.source.bytes < b.length) : r.base = 0 ↔ r.position < r.lead := by
  obtain ⟨l, hl, hcleared⟩ := r.exists_cleared
  have hbase : r.base = l.flatten.length := by rw [base, hcleared, hl, List.take_left]
  rw [hcur, Option.toList_some] at hl
  rw [position_eq, lead, hl, List.find?_append]
  cases hfind : l.find? fun b => !b.isEmpty with
  | none =>
    have hempty : l.flatten = [] := by
      rw [List.flatten_eq_nil_iff]
      intro c hc
      simpa using List.find?_eq_none.mp hfind c hc
    have hne : b ≠ [] := List.length_pos_iff.mp (by omega)
    simp [hbase, hempty, hne, hlt]
  | some c =>
    have hmem : c ∈ l := List.mem_of_find?_eq_some hfind
    have hne : c ≠ [] := by simpa using List.find?_some hfind
    have hpos : 0 < c.length := List.length_pos_iff.mpr hne
    have hle : c.length ≤ l.flatten.length := (List.sublist_flatten_of_mem hmem).length_le
    simp only [Option.some_or, Option.getD_some]
    omega

/-! ## The contract -/

variable (r) in
/-- The absolute position that a seek asks for. -/
def target (offset : Int64) (whence : Whence) : ℤ :=
  offset.toInt + if whence = .cur then r.position else 0

variable (r) in
/-- What a seek is to do: return the new position, which is the one asked for or the end of the transfer
where that is before it, with as many bytes read; or return an error and change nothing. -/
def Seeks (offset : Int64) (whence : Whence) : Prop :=
  let sought := r.ipcioSeek offset whence
  (sought.1 = -1 ∧ sought.2 = r) ∨
    (sought.1 = sought.2.position ∧
      sought.2.source.left = r.transfer.blocks.flatten.drop sought.2.position ∧
      (sought.2.position = r.target offset whence ∨
        sought.2.position = r.transfer.length ∧ r.transfer.length < r.target offset whence))

variable (r) in
/-- A position to which a reader can seek: it is not negative, and not at the end of the data or beyond it
but for the position that the reader has, and the end has not been reached.  Once the entry of `s_buf` is
another transfer's, neither the reader nor the position may be behind the first sub-block.  In a transfer
without data, any position that is not negative will do. -/
def CanSeek (target : ℤ) : Prop :=
  0 ≤ target ∧ (r.transfer.length = 0 ∨
    r.source.eod = false ∧ (r.position < target → target < r.transfer.length) ∧
      (r.Own ∨ r.position = r.source.bytes ∧ (r.position < target → target < r.lead)))

/-- What is left is what comes behind the position. -/
theorem left_eq_drop : r.source.left = r.transfer.blocks.flatten.drop r.position := by
  obtain ⟨l, hl, hcleared⟩ := r.exists_cleared
  have hbase : r.base = l.flatten.length := by rw [base, hcleared, hl, List.take_left]
  have hbytes := r.source.bytes_le
  rw [position_eq, hbase, hl, List.flatten_append, List.drop_append, List.drop_eq_nil_of_le (by omega),
    Nat.add_sub_cancel_left, List.nil_append, List.flatten_append, Source.left]
  cases hcur : r.source.curbuf with
  | none => rw [hcur] at hbytes; simp [Nat.le_zero.mp hbytes]
  | some b =>
    rw [hcur, Option.getD_some] at hbytes
    rw [Option.toList_some, List.flatten_singleton, Option.getD_some, List.drop_append_of_le_length hbytes]

/-- A position is never overstated. -/
theorem ipcioTell_le : r.ipcioTell ≤ r.position := by
  cases heod : r.source.eod with
  | true => exact Nat.le_trans (Nat.le_of_eq (ipcioTell_of_eod heod)) (Nat.zero_le _)
  | false =>
    by_cases hown : r.Own
    · exact Nat.le_of_eq (ipcioTell_of_own heod hown)
    · rw [ipcioTell_of_not_own heod hown, position_eq]
      exact Nat.le_add_left _ _

theorem toUInt64_of_nonneg {n : ℤ} (h : 0 ≤ n) (hlt : n < 2 ^ 64) : (toUInt64 n : ℤ) = n := by
  rw [toUInt64, Int.emod_eq_of_lt h hlt, Int.toNat_of_nonneg h]

/-- A negative offset is a large one. -/
theorem toUInt64_of_neg {n : ℤ} (h : n < 0) (hle : -2 ^ 63 ≤ n) : (toUInt64 n : ℤ) = 2 ^ 64 + n := by
  have hmod : n % 2 ^ 64 = 2 ^ 64 + n := by omega
  rw [toUInt64, hmod, Int.toNat_of_nonneg (by omega)]

variable {offset : Int64} {whence : Whence}

/-! ### The three cases of a seek -/

theorem ipcioSeek_forward (h : r.ipcioTell < r.seekOffset offset whence) :
    r.ipcioSeek offset whence =
      (((r.ipcioRead (r.seekOffset offset whence - r.ipcioTell)).ipcioTell : ℤ),
        r.ipcioRead (r.seekOffset offset whence - r.ipcioTell)) :=
  if_pos h

theorem ipcioSeek_here (h : r.seekOffset offset whence = r.ipcioTell) :
    r.ipcioSeek offset whence = ((r.ipcioTell : ℤ), r) := by
  rw [ipcioSeek, if_neg (by omega), if_neg (by omega)]

theorem ipcioSeek_back (back : ℕ) (hpos : 0 < back)
    (h : r.seekOffset offset whence + back = r.ipcioTell) :
    r.ipcioSeek offset whence =
      if back > r.source.bytes then (-1, r) else (((r.rewind back).ipcioTell : ℤ), r.rewind back) := by
  have hback : r.ipcioTell - r.seekOffset offset whence = back := by omega
  rw [ipcioSeek, if_neg (by omega), if_pos (by omega), hback]

/-- A seek that does not fail returns what `ipcio_tell` says then. -/
theorem seeks_iff_of_told {r' : TransferReader} (h : r.ipcioSeek offset whence = ((r'.ipcioTell : ℤ), r'))
    (hx : r'.transfer = r.transfer) : r.Seeks offset whence ↔ r'.ipcioTell = r'.position ∧
      (r'.position = r.target offset whence ∨
        r'.position = r.transfer.length ∧ r.transfer.length < r.target offset whence) := by
  have hleft : r'.source.left = r.transfer.blocks.flatten.drop r'.position := hx ▸ r'.left_eq_drop
  rw [Seeks, h]
  constructor
  · rintro (⟨hneg, -⟩ | ⟨htold, -, hpos⟩)
    · exact absurd hneg (by simp only []; omega)
    · exact ⟨Int.ofNat_inj.mp htold, hpos⟩
  · rintro ⟨htold, hpos⟩
    exact .inr ⟨congrArg Nat.cast htold, hleft, hpos⟩

/-- In a transfer without data the position is 0, and so is what a seek returns. -/
theorem seeks_of_empty (h : r.transfer.length = 0) : r.Seeks offset whence ↔ 0 ≤ r.target offset whence := by
  have hzero {r' : TransferReader} (hx : r'.transfer = r.transfer) : r'.position = 0 ∧ r'.ipcioTell = 0 := by
    have hle := r'.position_le
    have htell := r'.ipcioTell_le
    rw [hx, h] at hle
    omega
  have htold : ∃ r', r.ipcioSeek offset whence = ((r'.ipcioTell : ℤ), r') ∧ r'.transfer = r.transfer := by
    obtain ⟨-, htell⟩ := hzero (rfl : r.transfer = r.transfer)
    rcases Nat.eq_zero_or_pos (r.seekOffset offset whence) with hc | hc
    · exact ⟨r, ipcioSeek_here (by omega), rfl⟩
    · exact ⟨_, ipcioSeek_forward (by omega), rfl⟩
  obtain ⟨r', hseek, hx⟩ := htold
  obtain ⟨hpos, htell⟩ := hzero hx
  rw [seeks_iff_of_told hseek hx, hpos, htell, h]
  omega

/-- At the end of the data a seek returns 0. -/
theorem not_seeks_of_eod (hne : r.transfer.length ≠ 0) (h : r.source.eod = true) :
    ¬ r.Seeks offset whence := by
  have htell := ipcioTell_of_eod h
  have hseek : r.ipcioSeek offset whence = ((r.ipcioTell : ℤ), r) := by
    rcases Nat.eq_zero_or_pos (r.seekOffset offset whence) with hc | hc
    · exact ipcioSeek_here (by omega)
    · rw [ipcioSeek_forward (by omega), ipcioRead_of_eod h]
  rw [seeks_iff_of_told hseek rfl, htell, r.position_of_eod h]
  exact fun hsought => hne hsought.1.symm

/-- Once the entry of `s_buf` is another transfer's, a reader behind the first sub-block does not know where
it is. -/
theorem not_seeks_of_not_own (heod : r.source.eod = false) (hown : ¬ r.Own) (hbase : 0 < r.base) :
    ¬ r.Seeks offset whence := by
  have htell := ipcioTell_of_not_own heod hown
  -- wherever it goes, what is said of the position is too little
  have hlost {r' : TransferReader} (hseek : r.ipcioSeek offset whence = ((r'.ipcioTell : ℤ), r'))
      (hx : r'.transfer = r.transfer) (hown' : ¬ r'.Own) (hle : r.base ≤ r'.base) :
      ¬ r.Seeks offset whence := by
    rw [seeks_iff_of_told hseek hx]
    rintro ⟨htold, -⟩
    rw [position_eq] at htold
    cases heod' : r'.source.eod with
    | true =>
      rw [ipcioTell_of_eod heod'] at htold
      omega
    | false =>
      rw [ipcioTell_of_not_own heod' hown'] at htold
      omega
  rcases Nat.lt_trichotomy (r.seekOffset offset whence) r.ipcioTell with hc | hc | hc
  · obtain ⟨back, hback⟩ := Nat.exists_eq_add_of_lt hc
    have hseek := ipcioSeek_back (back + 1) (Nat.succ_pos _) hback.symm
    rw [if_neg (by omega)] at hseek
    exact hlost hseek rfl hown (Nat.le_refl _)
  · exact hlost (ipcioSeek_here hc) rfl hown (Nat.le_refl _)
  · exact hlost (ipcioSeek_forward hc) rfl hown (base_le_ipcioRead _)

/-- A reader that knows where it is goes forward to any position before the end of the data, and back
within the open sub-block. -/
theorem seeks_iff_of_ipcioTell (hne : r.transfer.length ≠ 0) (heod : r.source.eod = false)
    (htell : r.ipcioTell = r.position) (hknown : r.Own ∨ r.base = 0) :
    r.Seeks offset whence ↔ 0 ≤ r.target offset whence ∧
      (r.position < r.target offset whence → r.target offset whence < r.transfer.length ∧
        (r.Own ∨ r.target offset whence < r.lead)) := by
  have hlt : r.transfer.length < 2 ^ 63 := r.transfer.length_lt
  have hle := r.position_le
  have hmin := offset.le_toInt
  have hmax := offset.toInt_lt
  have hoffset : r.seekOffset offset whence = toUInt64 (r.target offset whence) := by
    rw [seekOffset, target, htell]
  have htarget : -2 ^ 63 ≤ r.target offset whence ∧ r.target offset whence < 2 ^ 64 := by
    rw [target]
    split
    · omega
    · omega
  rcases Int.lt_or_le (r.target offset whence) 0 with hneg | hnonneg
  · -- to a negative position: all of the data is read
    have hc := toUInt64_of_neg hneg htarget.1
    rw [← hoffset] at hc
    have hlater : r.ipcioTell < r.seekOffset offset whence := by omega
    have hseek := ipcioSeek_forward hlater
    have heod' := (eod_ipcioRead heod (r.seekOffset offset whence - r.ipcioTell)).mpr (by omega)
    rw [seeks_iff_of_told hseek rfl, ipcioTell_of_eod heod', position_of_eod _ heod']
    exact ⟨fun hsought => absurd hsought.1.symm hne, fun hnonneg => absurd hneg (Int.not_lt.mpr hnonneg.1)⟩
  have hc := toUInt64_of_nonneg hnonneg htarget.2
  rw [← hoffset] at hc
  rcases Nat.lt_trichotomy (r.seekOffset offset whence) r.ipcioTell with hlt' | heq | hgt
  · -- back, within the open sub-block or not at all
    obtain ⟨back, hback⟩ := Nat.exists_eq_add_of_lt hlt'
    have hseek := ipcioSeek_back (back + 1) (Nat.succ_pos _) hback.symm
    refine iff_of_true ?_ ⟨hnonneg, fun hbeyond => by omega⟩
    split at hseek
    case isTrue => exact .inl ⟨congrArg Prod.fst hseek, congrArg Prod.snd hseek⟩
    case isFalse hin =>
      have hpos := position_rewind (r := r) (back + 1) (by omega)
      rw [seeks_iff_of_told hseek rfl]
      exact ⟨(ipcioTell_eq_position_iff (r := r.rewind (back + 1)) heod).mpr hknown, .inl (by omega)⟩
  · rw [seeks_iff_of_told (ipcioSeek_here heq) rfl]
    exact iff_of_true ⟨htell, .inl (by omega)⟩ ⟨hnonneg, fun hbeyond => by omega⟩
  · -- forward
    have hseek := ipcioSeek_forward hgt
    have hpos := position_ipcioRead heod (r.seekOffset offset whence - r.ipcioTell)
    have heod' := eod_ipcioRead heod (r.seekOffset offset whence - r.ipcioTell)
    generalize hr : r.ipcioRead (r.seekOffset offset whence - r.ipcioTell) = r' at hseek hpos heod'
    have hx : r'.transfer = r.transfer := hr ▸ rfl
    rw [seeks_iff_of_told hseek hx]
    cases hend : r'.source.eod with
    | true =>
      rw [ipcioTell_of_eod hend, r'.position_of_eod hend, hx]
      refine ⟨fun hsought => absurd hsought.1.symm hne, fun hbefore => ?_⟩
      have hover := heod'.mp hend
      have hin := (hbefore.2 (by omega)).1
      omega
    | false =>
      have hin : ¬ r.transfer.length ≤ r.position + (r.seekOffset offset whence - r.ipcioTell) :=
        fun h => by simp [heod'.mpr h] at hend
      obtain ⟨b, hb⟩ : ∃ b, r'.source.curbuf = some b := by
        subst hr
        exact r.source.ipcioRead_open _ hend
      have hpartly : r'.source.bytes < b.length := by
        subst hr
        exact r.source.ipcioRead_partly _ hb
      have hlead : r'.lead = r.lead := by rw [lead, lead, hx]
      have hown : r'.Own ↔ r.Own := by
        subst hr
        exact Iff.rfl
      have htarget' : (r'.position : ℤ) = r.target offset whence := by omega
      rw [ipcioTell_eq_position_iff hend, base_eq_zero_iff hb hpartly, hlead, hown]
      constructor
      · rintro ⟨hknown', -⟩
        exact ⟨hnonneg, fun _ => ⟨by omega, hknown'.imp_right fun h => by omega⟩⟩
      · rintro ⟨-, hbefore⟩
        exact ⟨(hbefore (by omega)).2.imp_right fun h => by omega, .inl htarget'⟩

/-- **Seeking.** A seek does what it is to do exactly when it is to a position to which the reader can
seek. -/
theorem seeks_iff (r : TransferReader) (offset : Int64) (whence : Whence) :
    r.Seeks offset whence ↔ r.CanSeek (r.target offset whence) := by
  rw [CanSeek]
  by_cases hempty : r.transfer.length = 0
  · rw [seeks_of_empty hempty]
    exact ⟨fun h => ⟨h, .inl hempty⟩, fun h => h.1⟩
  cases heod : r.source.eod with
  | true =>
    have hnot : ¬ r.Seeks offset whence := not_seeks_of_eod hempty heod
    simp [hnot, hempty]
  | false =>
    by_cases hknown : r.Own ∨ r.base = 0
    · have htell : r.ipcioTell = r.position := by
        by_cases hown : r.Own
        · exact ipcioTell_of_own heod hown
        · rw [ipcioTell_of_not_own heod hown, position_eq, hknown.resolve_left hown, Nat.zero_add]
      rw [seeks_iff_of_ipcioTell hempty heod htell hknown]
      refine and_congr_right fun _ => ?_
      have hbase : r.position = r.source.bytes ↔ r.base = 0 := by
        rw [position_eq]
        omega
      rw [hbase]
      by_cases hown : r.Own
      · simp [hown, hempty]
      · simp [hown, hempty, hknown.resolve_left hown, forall_and]
    · rw [not_or] at hknown
      have hnot : ¬ r.Seeks offset whence :=
        not_seeks_of_not_own heod hknown.1 (Nat.pos_of_ne_zero hknown.2)
      have hbase : r.position ≠ r.source.bytes := by
        rw [position_eq]
        omega
      simp [hnot, hempty, hknown.1, hbase]

/-! ### A seek beyond the end -/

theorem twoBytes_startByte_le : 0 ≤ 2 := Nat.zero_le 2

theorem twoBytes_full (i : ℕ) (b : List UInt8) (_ : [[1, 2]][i]? = some b)
    (h : i + 1 < [([1, 2] : List UInt8)].length) : b.length = 2 - if i = 0 then 0 else 0 :=
  absurd h (by simp)

theorem twoBytes_length_lt : [([1, 2] : List UInt8)].flatten.length < 2 ^ 63 := by decide +kernel

theorem twoBytes_suffix : (none : Option (List UInt8)).toList ++ [[1, 2]] <:+ [[1, 2]] := List.suffix_rfl

theorem twoBytes_partly (b : List UInt8) (h : (none : Option (List UInt8)) = some b) :
    0 < b.length ∨ 0 = 0 :=
  nomatch h

theorem twoBytes_slot : (0 = 0 ∧ 0 = 0) ∨ 0 + 1 ≤ 0 := .inl ⟨rfl, rfl⟩

/-- A reader that has not read anything of a transfer of two bytes. -/
def twoBytes : TransferReader where
  transfer := ⟨2, 0, 0, twoBytes_startByte_le, [[1, 2]], twoBytes_full, twoBytes_length_lt⟩
  source := .between [[1, 2]]
  suffix := twoBytes_suffix
  partly := twoBytes_partly
  sBuf := 0
  sByte := 0
  slot := twoBytes_slot

/-- From its start, a seek to the third byte reads both bytes and returns 0. -/
theorem not_seeks_twoBytes : ¬ twoBytes.Seeks 3 .set := by
  have hseek : (twoBytes.ipcioSeek 3 .set).1 = 0 := by decide +kernel
  have hpos : (twoBytes.ipcioSeek 3 .set).2.position = 2 := by decide +kernel
  rintro (⟨herror, -⟩ | ⟨htold, -⟩)
  · exact absurd (hseek.symm.trans herror) (by decide)
  · exact absurd (hseek.symm.trans (htold.trans (congrArg Nat.cast hpos))) (by decide)

end TransferReader

end Psrdada
