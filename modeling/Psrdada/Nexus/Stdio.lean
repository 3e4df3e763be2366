import Mathlib.Data.List.DropRight
import Mathlib.Data.Int.Init
import Psrdada.Header.CString

/-! # Reading a stream of characters by lines

What `fgets` and `fgetc` take from a stream whose other end is written by a peer: characters that have
arrived, and perhaps the end of the file behind them.  A call that needs a character which has not
arrived waits; one that needs a character after the end of the file says so. -/

namespace Stdio

open CString

/-- The character that ends a C string. -/
def nul : Char := '\x00'

/-- A stream as its reader finds it. -/
structure Stream where
  /-- The characters that have arrived and are not yet read. -/
  pending : Text
  /-- The peer is gone: the end of the file is behind the characters. -/
  closed : Bool
  deriving DecidableEq, Repr

/-- What a call on a stream comes to. -/
inductive Got (α : Type)
  | got (value : α) (stream : Stream)
  | eof
  | waits
  deriving DecidableEq, Repr

/-- The first line of a text with its newline, or the first `n` characters of it. -/
def takeLine : ℕ → Text → Text
  | 0, _ => []
  | _, [] => []
  | n + 1, c :: text => if c = '\n' then [c] else c :: takeLine n text
termination_by structural _ text => text

/-- `fgets (s, size, stream)`: what is stored before the terminating zero. -/
def fgets (size : ℤ) (stream : Stream) : Got Text :=
  if size ≤ 0 then .eof
  else
    let n := (size - 1).toNat
    let line := takeLine n stream.pending
    let rest := stream.pending.drop line.length
    if line.length = n ∨ '\n' ∈ line then .got line { stream with pending := rest }
    else if ¬stream.closed then .waits
    else if line = [] then .eof
    else .got line { stream with pending := rest }

/-- `fgetc (stream)` -/
def fgetc (stream : Stream) : Got Char :=
  match stream.pending with
  | c :: rest => .got c { stream with pending := rest }
  | [] => if stream.closed then .eof else .waits

/-- The text with its first `a` replaced, as `if ((found = strchr (s, a))) *found = b` does. -/
def replaceFirst (a b : Char) : Text → Text
  | [] => []
  | c :: text => if c = a then b :: text else c :: replaceFirst a b text

/-- The text before its last `a`, as `if ((found = strrchr (s, a))) *found = '\0'` leaves it. -/
def cutLast (a : Char) (text : Text) : Text :=
  if a ∈ text then (text.rdropWhile (· ≠ a)).dropLast else text

/-! ## Lines -/

@[simp] theorem takeLine_nil (n : ℕ) : takeLine n [] = [] := by cases n <;> rfl

/-- A line that fits is taken with its newline. -/
theorem takeLine_line {line : Text} (h : '\n' ∉ line) (rest : Text) :
    ∀ {n : ℕ}, line.length < n → takeLine n (line ++ '\n' :: rest) = line ++ ['\n'] := by
  induction line with
  | nil =>
    intro n hn
    obtain ⟨m, rfl⟩ : ∃ m, n = m + 1 := ⟨n - 1, by simp at hn; omega⟩
    simp [takeLine]
  | cons c line ih =>
    intro n hn
    obtain ⟨m, rfl⟩ : ∃ m, n = m + 1 := ⟨n - 1, by omega⟩
    have hc : c ≠ '\n' := fun hc => h (by simp [hc])
    have hline : '\n' ∉ line := fun hm => h (List.mem_cons_of_mem _ hm)
    simp [takeLine, hc, ih hline (by simpa using hn)]

/-- `fgets` returns a line that fits, whether or not the peer is still there. -/
theorem fgets_line {line rest : Text} {size : ℤ} (h : '\n' ∉ line)
    (hsize : (line.length : ℤ) + 1 < size) (closed : Bool) :
    fgets size ⟨line ++ '\n' :: rest, closed⟩ = .got (line ++ ['\n']) ⟨rest, closed⟩ := by
  have htake : takeLine (size - 1).toNat (line ++ '\n' :: rest) = line ++ ['\n'] :=
    takeLine_line h rest (by omega)
  have hdrop : (line ++ '\n' :: rest).drop (line ++ ['\n']).length = rest := by
    rw [List.append_cons line '\n' rest, List.drop_left]
  have hpos : ¬size ≤ 0 := by omega
  simp only [fgets, if_neg hpos, htake, hdrop]
  exact if_pos (.inr (by simp))

/-- With nothing to read and the peer still there, `fgets` waits. -/
theorem fgets_waits {size : ℤ} (hsize : 1 < size) : fgets size ⟨[], false⟩ = .waits := by
  have hpos : ¬size ≤ 0 := by omega
  have hn : ¬0 = (size - 1).toNat := by omega
  simp only [fgets, if_neg hpos, takeLine_nil, List.length_nil, List.not_mem_nil, or_false, if_neg hn]
  rfl

/-- With nothing to read and the peer gone, `fgets` reports the end of the file. -/
theorem fgets_eof {size : ℤ} (hsize : 1 < size) : fgets size ⟨[], true⟩ = .eof := by
  have hpos : ¬size ≤ 0 := by omega
  have hn : ¬0 = (size - 1).toNat := by omega
  simp only [fgets, if_neg hpos, takeLine_nil, List.length_nil, List.not_mem_nil, or_false, if_neg hn]
  rfl

/-! ## The last line of a text -/

/-- Dropping from the right stops at the last character that stays. -/
theorem rdropWhile_append_cons {α : Type*} {p : α → Bool} {a : α} (h : ¬p a) (l r : List α) :
    (l ++ a :: r).rdropWhile p = l ++ a :: r.rdropWhile p := by
  induction r using List.reverseRecOn with
  | nil => simp [List.rdropWhile_concat_neg p l a h]
  | append_singleton r b ih =>
    rw [← List.cons_append, ← List.append_assoc, List.rdropWhile_concat, List.rdropWhile_concat, ih]
    split <;> simp

/-- Taking from the right stops at the last character that does not belong. -/
theorem rtakeWhile_append_cons {α : Type*} {p : α → Bool} {a : α} (h : ¬p a) (l r : List α) :
    (l ++ a :: r).rtakeWhile p = r.rtakeWhile p := by
  induction r using List.reverseRecOn with
  | nil => simp [List.rtakeWhile_concat_neg p l a h]
  | append_singleton r b ih =>
    rw [← List.cons_append, ← List.append_assoc, List.rtakeWhile_concat, List.rtakeWhile_concat, ih]

/-- What is dropped anyway can follow. -/
theorem rdropWhile_append_of_pos {α : Type*} {p : α → Bool} {r : List α} (h : ∀ a ∈ r, p a)
    (l : List α) : (l ++ r).rdropWhile p = l.rdropWhile p := by
  induction r using List.reverseRecOn with
  | nil => rw [List.append_nil]
  | append_singleton r b ih =>
    rw [← List.append_assoc, List.rdropWhile_concat_pos p _ b (h b (by simp)),
      ih fun a ha => h a (by simp [ha])]

/-- What is taken anyway can follow. -/
theorem rtakeWhile_append_of_pos {α : Type*} {p : α → Bool} {r : List α} (h : ∀ a ∈ r, p a)
    (l : List α) : (l ++ r).rtakeWhile p = l.rtakeWhile p ++ r := by
  induction r using List.reverseRecOn with
  | nil => rw [List.append_nil, List.append_nil]
  | append_singleton r b ih =>
    rw [← List.append_assoc, List.rtakeWhile_concat_pos p _ b (h b (by simp)),
      ih fun a ha => h a (by simp [ha]), List.append_assoc]

/-- A text is cut at its last newline. -/
theorem cutLast_append_cons {a : Char} {s t : Text} (h : a ∉ t) : cutLast a (s ++ a :: t) = s := by
  have ht : t.rdropWhile (· ≠ a) = [] := by
    rw [List.rdropWhile_eq_nil_iff]
    intro c hc
    simpa using fun hca : c = a => h (hca ▸ hc)
  rw [cutLast, if_pos (by simp), rdropWhile_append_cons (by simp), ht, List.dropLast_concat]

/-- A text without the character is left as it is. -/
theorem cutLast_of_not_mem {a : Char} {s : Text} (h : a ∉ s) : cutLast a s = s := if_neg h

/-! ## Replacing a character -/

/-- A text without the character is left as it is. -/
theorem replaceFirst_of_not_mem {a b : Char} {s : Text} (h : a ∉ s) : replaceFirst a b s = s := by
  induction s with
  | nil => rfl
  | cons c s ih =>
    have hc : c ≠ a := fun hc => h (by simp [hc])
    simp [replaceFirst, hc, ih fun hm => h (List.mem_cons_of_mem _ hm)]

@[simp] theorem length_replaceFirst (a b : Char) (s : Text) :
    (replaceFirst a b s).length = s.length := by
  induction s with
  | nil => rfl
  | cons c s ih =>
    by_cases hc : c = a <;> simp [replaceFirst, hc, ih]

/-- The characters behind the last place where it can be found stay. -/
theorem replaceFirst_append {a b : Char} {s t : Text} (h : a ∉ t) :
    replaceFirst a b (s ++ t) = replaceFirst a b s ++ t := by
  induction s with
  | nil => simpa [replaceFirst] using replaceFirst_of_not_mem h
  | cons c s ih =>
    by_cases hc : c = a <;> simp [replaceFirst, hc, ih]

/-! ## Finding a line's end -/

/-- The characters before the first newline. -/
theorem takeWhile_line {line : Text} (h : '\n' ∉ line) (rest : Text) :
    (line ++ '\n' :: rest).takeWhile (· ≠ '\n') = line := by
  rw [List.takeWhile_append_of_pos fun c hc => by simpa using fun hn : c = '\n' => h (hn ▸ hc)]
  simp

/-- In one line, a text that ends in the newline is found where the line ends in it. -/
theorem strstr_line {t s : Text} (ht : '\n' ∉ t) (hs : '\n' ∉ s) :
    strstr (t ++ ['\n']) (s ++ ['\n']) =
      if t <:+ s then some (s.length - t.length) else none := by
  have halign : ∀ {s : Text}, '\n' ∉ s → (t ++ ['\n'] <+: s ++ ['\n'] ↔ t = s) := by
    intro s hs
    refine ⟨fun ⟨u, hu⟩ => ?_, fun h => h ▸ List.prefix_rfl⟩
    rw [List.append_assoc, List.singleton_append] at hu
    rw [← takeWhile_line ht u, hu, takeWhile_line hs []]
  induction s with
  | nil =>
    by_cases h : t = []
    · simp [strstr, h]
    · have hpre : ¬t ++ ['\n'] <+: ['\n'] := fun hp => h ((halign hs).mp hp)
      simp [strstr, h, hpre]
  | cons c s ih =>
    have htail : '\n' ∉ s := fun hm => hs (List.mem_cons_of_mem _ hm)
    rw [List.cons_append, strstr, ih htail]
    by_cases h : t = c :: s
    · have hpre : t ++ ['\n'] <+: c :: (s ++ ['\n']) := (halign hs).mpr h
      rw [if_pos hpre, if_pos (h ▸ List.suffix_rfl)]
      simp [h]
    · have hpre : ¬t ++ ['\n'] <+: c :: (s ++ ['\n']) := fun hp => h ((halign hs).mp hp)
      rw [if_neg hpre]
      by_cases hsuf : t <:+ s
      · have hle := hsuf.length_le
        rw [if_pos hsuf, if_pos (hsuf.trans (List.suffix_cons c s))]
        simp only [Option.map_some, List.length_cons, Option.some.injEq]
        omega
      · rw [if_neg hsuf, if_neg fun h' => (List.suffix_cons_iff.mp h').elim h hsuf]
        rfl

end Stdio
