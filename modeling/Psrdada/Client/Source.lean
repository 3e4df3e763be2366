import Mathlib.Data.Int.Notation
import Mathlib.Data.List.Basic
import Mathlib.Data.Nat.Notation

/-! # The reading end of a data block

A client that reads one transfer gets its sub-blocks from the ring in the order in which they were
filled, each once, up to the one that carries end-of-data.  `Source` is that sequence together with the
part of an `ipcio_t` that a reader uses; `ipcio_read`, `ipcio_open_block_read`, `ipcio_close_block_read`
and `ipcbuf_eod` act on it as the code does once the ring has delivered a sub-block. -/

namespace Psrdada

/-- The reading end of a data block, during one transfer. -/
structure Source where
  /-- The sub-blocks that have not been opened, the last of which carries end-of-data. -/
  blocks : List (List UInt8)
  /-- `curbuf`: the data in the sub-block that is open. -/
  curbuf : Option (List UInt8)
  /-- `bytes`: the number of bytes of the open sub-block that have been read. -/
  bytes : ℕ
  /-- No more bytes are read than there are. -/
  bytes_le : bytes ≤ (curbuf.getD []).length

namespace Source

/-- `ipcbuf_eod`: the sub-block that carries end-of-data has been cleared. -/
def eod (s : Source) : Bool := s.blocks.isEmpty && s.curbuf.isNone

/-- No sub-block is open. -/
def between (blocks : List (List UInt8)) : Source := ⟨blocks, none, 0, Nat.zero_le _⟩

/-- The loop of `ipcio_read` with the sub-block `curbuf` open at `bytes`: what is read of the `count`
bytes asked for.  A sub-block that has been read to its end is cleared and the next one is opened, also
when no more bytes are asked for. -/
def readOn : (blocks : List (List UInt8)) → (curbuf : List UInt8) → (bytes : ℕ) →
    bytes ≤ curbuf.length → ℕ → List UInt8 × Source
  | blocks, curbuf, bytes, _, count =>
    if hlt : bytes + count < curbuf.length then
      ((curbuf.drop bytes).take count, ⟨blocks, some curbuf, bytes + count, Nat.le_of_lt hlt⟩)
    else
      match blocks with
      | [] => (curbuf.drop bytes, between [])
      | next :: blocks =>
        let (data, s) := readOn blocks next 0 (Nat.zero_le _) (count - (curbuf.length - bytes))
        (curbuf.drop bytes ++ data, s)

/-- `ipcio_read`. -/
def ipcioRead (s : Source) (count : ℕ) : List UInt8 × Source :=
  match s with
  | ⟨blocks, some curbuf, bytes, h⟩ => readOn blocks curbuf bytes h count
  | ⟨[], none, bytes, h⟩ => ([], ⟨[], none, bytes, h⟩)
  | ⟨next :: blocks, none, _, _⟩ => readOn blocks next 0 (Nat.zero_le _) count

/-- `ipcio_open_block_read`: the data of the next sub-block, none where the call fails. -/
def ipcioOpenBlockRead (s : Source) : Option (List UInt8 × Source) :=
  if s.bytes ≠ 0 then none
  else
    match s.curbuf, s.blocks with
    | some _, _ => none
    | none, [] => none
    | none, next :: blocks => some (next, ⟨blocks, some next, 0, Nat.zero_le _⟩)

/-- `ipcio_close_block_read`: the sub-block is cleared when all of it has been used, and stays open
otherwise.  (No caller uses more than there is.) -/
def ipcioCloseBlockRead (s : Source) (bytes : ℕ) : ℤ × Source :=
  if s.bytes ≠ 0 then (-1, s)
  else
    match s.curbuf with
    | none => (-1, s)
    | some curbuf =>
      if bytes = curbuf.length then (0, between s.blocks)
      else (0, ⟨s.blocks, some curbuf, min bytes curbuf.length, Nat.min_le_right _ _⟩)

/-! ## What is left to read -/

/-- The data that has not been read. -/
def left (s : Source) : List UInt8 := (s.curbuf.getD []).drop s.bytes ++ s.blocks.flatten

@[simp] theorem left_between (blocks : List (List UInt8)) : (between blocks).left = blocks.flatten := by
  simp [between, left]

@[simp] theorem eod_between (blocks : List (List UInt8)) : (between blocks).eod = blocks.isEmpty := by
  simp [between, eod]

theorem left_of_eod {s : Source} (h : s.eod = true) : s.left = [] := by
  obtain ⟨blocks, curbuf, bytes, hle⟩ := s
  obtain ⟨rfl, rfl⟩ : blocks = [] ∧ curbuf = none := by simpa [eod] using h
  simp [left]

/-- A measure of what is left to do: the data and the end. -/
def size (s : Source) : ℕ := s.left.length + (if s.eod then 0 else 1)

/-- Between two reads either the transfer has ended or there is data left. -/
def Settled (s : Source) : Prop := s.eod = true ↔ s.left = []

/-- What the loop of `ipcio_read` reads, and what it leaves. -/
theorem readOn_spec (blocks : List (List UInt8)) (curbuf : List UInt8) (bytes : ℕ)
    (h : bytes ≤ curbuf.length) (count : ℕ) :
    (readOn blocks curbuf bytes h count).1 = (curbuf.drop bytes ++ blocks.flatten).take count ∧
    (readOn blocks curbuf bytes h count).2.left = (curbuf.drop bytes ++ blocks.flatten).drop count ∧
    (readOn blocks curbuf bytes h count).2.Settled := by
  induction blocks generalizing curbuf bytes count with
  | nil =>
    rw [readOn]
    split
    case isTrue hlt =>
      refine ⟨by simp, by simp [left, List.drop_drop], ?_⟩
      simp [Settled, eod, left]
      omega
    case isFalse hge =>
      have hlen : (curbuf.drop bytes).length ≤ count := by
        rw [List.length_drop]
        omega
      refine ⟨?_, ?_, by simp [Settled]⟩
      · simp [List.take_of_length_le hlen]
      · simp [List.drop_eq_nil_of_le hlen]
  | cons next blocks ih =>
    rw [readOn]
    split
    case isTrue hlt =>
      have hlen : count ≤ (curbuf.drop bytes).length := by
        rw [List.length_drop]
        omega
      refine ⟨?_, ?_, ?_⟩
      · rw [List.take_append_of_le_length hlen]
      · show ((curbuf.drop (bytes + count)) ++ _) = _
        rw [List.drop_append_of_le_length hlen, List.drop_drop]
      · have hne : curbuf.drop (bytes + count) ≠ [] := by
          intro hnil
          have := List.drop_eq_nil_iff.mp hnil
          omega
        simp [Settled, eod, left, hne]
    case isFalse hge =>
      have hlen : (curbuf.drop bytes).length ≤ count := by
        rw [List.length_drop]
        omega
      obtain ⟨h1, h2, h3⟩ := ih next 0 (Nat.zero_le _) (count - (curbuf.length - bytes))
      rw [List.drop_zero] at h1 h2
      refine ⟨?_, ?_, h3⟩
      · have htake (rest : List UInt8) : (curbuf.drop bytes ++ rest).take count =
            curbuf.drop bytes ++ rest.take (count - (curbuf.length - bytes)) := by
          rw [List.take_append, List.take_of_length_le hlen, List.length_drop]
        show curbuf.drop bytes ++ (readOn blocks next 0 _ _).1 = _
        rw [h1, htake, List.flatten_cons]
      · have hdrop (rest : List UInt8) : (curbuf.drop bytes ++ rest).drop count =
            rest.drop (count - (curbuf.length - bytes)) := by
          rw [List.drop_append, List.drop_eq_nil_of_le hlen, List.length_drop, List.nil_append]
        show (readOn blocks next 0 _ _).2.left = _
        rw [h2, hdrop, List.flatten_cons]

/-- What `ipcio_read` reads, and what it leaves. -/
theorem ipcioRead_spec {s : Source} (h : s.eod = false) (count : ℕ) :
    (s.ipcioRead count).1 = s.left.take count ∧ (s.ipcioRead count).2.left = s.left.drop count ∧
      (s.ipcioRead count).2.Settled := by
  obtain ⟨blocks, curbuf, bytes, hle⟩ := s
  cases curbuf with
  | some curbuf => exact readOn_spec blocks curbuf bytes hle count
  | none =>
    cases blocks with
    | nil => simp [eod] at h
    | cons next blocks =>
      have := readOn_spec blocks next 0 (Nat.zero_le _) count
      simpa [ipcioRead, left] using this

/-- Reading makes progress. -/
theorem size_ipcioRead {s : Source} (h : s.eod = false) {count : ℕ} (hcount : 0 < count) :
    (s.ipcioRead count).2.size < s.size := by
  obtain ⟨-, hleft, hsettled⟩ := ipcioRead_spec h count
  have hend : (s.ipcioRead count).2.eod = true ↔ s.left.drop count = [] := hleft ▸ hsettled
  have hlen : (s.left.drop count).length = s.left.length - count := List.length_drop
  rw [size, size, hleft, h]
  by_cases heod : (s.ipcioRead count).2.eod = true
  · have := hend.mp heod
    simp [heod, this]
  · have hpos : (s.left.drop count).length ≠ 0 := fun h0 =>
      heod (hend.mpr (List.length_eq_zero_iff.mp h0))
    simp only [heod]
    omega

/-- Opening the next sub-block. -/
theorem ipcioOpenBlockRead_between (next : List UInt8) (blocks : List (List UInt8)) :
    (between (next :: blocks)).ipcioOpenBlockRead =
      some (next, ⟨blocks, some next, 0, Nat.zero_le _⟩) := rfl

/-- Closing a sub-block of which all has been used. -/
theorem ipcioCloseBlockRead_whole (next : List UInt8) (blocks : List (List UInt8)) :
    ipcioCloseBlockRead ⟨blocks, some next, 0, Nat.zero_le _⟩ next.length = (0, between blocks) := by
  simp [ipcioCloseBlockRead]

/-- A sub-block that is opened and closed makes progress, when all of it has been used. -/
theorem size_between_lt (next : List UInt8) (blocks : List (List UInt8)) (h : next ≠ [] ∨ blocks = []) :
    (between blocks).size < (between (next :: blocks)).size := by
  have hpos : next ≠ [] → 0 < next.length := List.length_pos_iff.mpr
  rcases h with h | rfl
  · have := hpos h
    simp only [size, left_between, List.flatten_cons, List.length_append, eod_between,
      List.isEmpty_cons, Bool.false_eq_true, if_false]
    split
    all_goals omega
  · simp [size]

end Source

/-- A transfer in the ring: full sub-blocks, then the one that carries end-of-data, which may be full,
partly filled or empty. -/
structure DataStream where
  /-- The size of a sub-block. -/
  bufsz : ℕ
  /-- A sub-block holds at least one byte. -/
  bufsz_pos : 0 < bufsz
  /-- The full sub-blocks. -/
  full : List (List UInt8)
  /-- Each of them is full. -/
  full_length : ∀ b ∈ full, b.length = bufsz
  /-- The sub-block that carries end-of-data. -/
  last : List UInt8
  /-- The last sub-block is no longer than the others. -/
  last_length : last.length ≤ bufsz

/-- The data of a transfer. -/
def DataStream.data (d : DataStream) : List UInt8 := d.full.flatten ++ d.last

/-- A reader that has opened nothing yet. -/
def DataStream.source (d : DataStream) : Source := .between (d.full ++ [d.last])

@[simp] theorem DataStream.left_source (d : DataStream) : d.source.left = d.data := by
  simp [source, data]

@[simp] theorem DataStream.eod_source (d : DataStream) : d.source.eod = false := by
  simp [source]

end Psrdada
