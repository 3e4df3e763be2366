import Mathlib.Data.List.SplitBy
import Psrdada.Header.Numbers
import Psrdada.Client.Writing

/-! # Data files

A file of `dada_diskdb` is a header, filled up with zeros to `HDR_SIZE` bytes, and data.  Consecutive files
are contiguous when the second continues the observation of the first; the maximal runs of contiguous
files are what `dada_diskdb` is to pass to the ring. -/

namespace Psrdada

open CString

/-! ## Characters and bytes -/

/-- The bytes of a text. -/
def toBytes (t : Text) : List UInt8 := t.map fun c => UInt8.ofNat c.toNat

/-- The text in a buffer, up to the terminating zero. -/
def textOf (bytes : List UInt8) : Text :=
  (bytes.takeWhile fun b => b != 0).map fun b => Char.ofNat b.toNat

/-- A text that ends with its buffer, or with a zero, is read as it is. -/
theorem textOf_toBytes {t : Text} (h : ∀ c ∈ t, 0 < c.toNat ∧ c.toNat < 128) {rest : List UInt8}
    (hrest : ∀ b ∈ rest.head?, b = 0) : textOf (toBytes t ++ rest) = t := by
  have hne : ∀ b ∈ toBytes t, (b != 0) = true := by
    intro b hb
    obtain ⟨c, hc, rfl⟩ := List.mem_map.mp hb
    obtain ⟨hpos, hlt⟩ := h c hc
    have hval : (UInt8.ofNat c.toNat).toNat = c.toNat := by
      rw [UInt8.toNat_ofNat']
      omega
    rw [bne_iff_ne]
    intro heq
    rw [heq] at hval
    simp only [UInt8.toNat_zero] at hval
    omega
  have hstop : rest.takeWhile (fun b => b != 0) = [] := by
    cases rest with
    | nil => rfl
    | cons b rest =>
      obtain rfl := hrest b rfl
      exact List.takeWhile_cons_of_neg (by simp)
  rw [textOf, List.takeWhile_append_of_pos hne, hstop, List.append_nil, toBytes, List.map_map]
  refine (List.map_congr_left fun c hc => ?_).trans (List.map_id _)
  obtain ⟨-, hlt⟩ := h c hc
  have hval : (UInt8.ofNat c.toNat).toNat = c.toNat := by
    rw [UInt8.toNat_ofNat']
    omega
  rw [Function.comp_apply, hval]
  exact Char.ofNat_toNat c

/-- The characters of a given text are checked one by one. -/
theorem ascii_of_all {t : Text}
    (h : (t.all fun c => decide (0 < c.toNat) && decide (c.toNat < 128)) = true) :
    ∀ c ∈ t, 0 < c.toNat ∧ c.toNat < 128 := by
  intro c hc
  simpa using List.all_eq_true.mp h c hc

/-! ## Files -/

/-- `DADA_DEFAULT_HEADER_SIZE`. -/
def defaultHeaderSize : ℕ := 4096

/-- A keyword. -/
def fileSizeKey : Text := "FILE_SIZE".toList

/-- A data file with a header of `hdrSize` bytes. -/
structure DiskFile (hdrSize : ℕ) where
  /-- The text of the header. -/
  header : Text
  /-- The header is plain text. -/
  ascii : ∀ c ∈ header, 0 < c.toNat ∧ c.toNat < 128
  /-- It ends within its size. -/
  short : header.length < hdrSize
  /-- The data. -/
  data : List UInt8
  /-- There is some data. -/
  nonempty : data ≠ []
  /-- `UTC_START`. -/
  utcStart : Text
  /-- `OBS_OFFSET`. -/
  obsOffset : ℕ
  /-- The header gives its own size. -/
  hdrSize_eq : asciiHeaderGetUnsigned header "HDR_SIZE".toList = some hdrSize
  /-- It does so in the bytes in which the size is looked for. -/
  hdrSize_first : asciiHeaderGetUnsigned (header.take defaultHeaderSize) "HDR_SIZE".toList = some hdrSize
  /-- The header gives the length of the data. -/
  fileSize_eq : asciiHeaderGetUnsigned header fileSizeKey = some data.length
  /-- The header gives `UTC_START`. -/
  utcStart_eq : asciiHeaderGet header "UTC_START".toList = some utcStart
  /-- It fits in the 20 bytes that the program has for it. -/
  utcStart_length : utcStart.length ≤ 19
  /-- The header gives `OBS_OFFSET`. -/
  obsOffset_eq : asciiHeaderGetUnsigned header obsOffsetKey = some obsOffset

variable {hdrSize : ℕ}

namespace DiskFile

/-- The bytes of a file. -/
def content (f : DiskFile hdrSize) : List UInt8 :=
  toBytes f.header ++ List.replicate (hdrSize - f.header.length) 0 ++ f.data

theorem length_content (f : DiskFile hdrSize) : f.content.length = hdrSize + f.data.length := by
  have := f.short
  simp only [content, toBytes, List.length_append, List.length_map, List.length_replicate]
  omega

/-- The data follows the header. -/
theorem drop_content (f : DiskFile hdrSize) : f.content.drop hdrSize = f.data := by
  have := f.short
  refine List.drop_left' ?_
  simp only [toBytes, List.length_append, List.length_map, List.length_replicate]
  omega

/-- The text of the header in the first bytes of the file. -/
theorem textOf_take_content (f : DiskFile hdrSize) (n : ℕ) :
    textOf (f.content.take n) = f.header.take n := by
  have hlen : (toBytes f.header).length = f.header.length := List.length_map _
  have htake : (toBytes f.header).take n = toBytes (f.header.take n) := List.map_take.symm
  have hpos := f.short
  obtain ⟨m, hm⟩ : ∃ m, hdrSize - f.header.length = m + 1 := ⟨hdrSize - f.header.length - 1, by omega⟩
  rw [content, List.append_assoc, List.take_append, htake, hlen, hm, List.replicate_succ,
    List.cons_append]
  refine textOf_toBytes (fun c hc => f.ascii c (List.mem_of_mem_take hc)) ?_
  intro b hb
  cases hk : n - f.header.length with
  | zero => simp [hk] at hb
  | succ k =>
    rw [hk, List.take_succ_cons] at hb
    exact (Option.some.inj hb).symm

/-- The text of the header, read with bytes that follow. -/
theorem textOf_content (f : DiskFile hdrSize) {n : ℕ} (hn : f.header.length < n) :
    textOf (f.content.take n) = f.header := by
  rw [f.textOf_take_content, List.take_of_length_le (Nat.le_of_lt hn)]

/-- Whether a file continues the one before it. -/
def continuedBy (f g : DiskFile hdrSize) : Bool :=
  decide (f.utcStart = g.utcStart) && decide (g.obsOffset = f.obsOffset + f.data.length)

end DiskFile

/-- The maximal runs of contiguous files. -/
def contiguousRuns (files : List (DiskFile hdrSize)) : List (List (DiskFile hdrSize)) :=
  files.splitBy DiskFile.continuedBy

/-- The data of files, one after the other. -/
def dataOf (files : List (DiskFile hdrSize)) : List UInt8 := files.flatMap DiskFile.data

end Psrdada
