import Mathlib.Data.List.Basic
import Mathlib.Data.List.Infix
import Mathlib.Data.List.TakeWhile
import Mathlib.Data.Nat.Notation

/-! # Texts of C

A C string is the list of its characters before the terminating zero.  This file gives the library
functions on such texts that header code is written with: searching (`strstr`, `strcspn`), reading a
word (`sscanf` with `%s`) and padding to a minimum width (`printf` with `%-ns`). -/

namespace CString

/-- The characters of a C string. -/
abbrev Text := List Char

-- a statement about the characters of a text is decided from these, not from all characters
instance (p : Char → Prop) [DecidablePred p] (s : Text) : Decidable (∀ c ∈ s, p c) :=
  List.decidableBAll p s

/-- The characters that `isspace` accepts in the C locale. -/
def isspace (c : Char) : Bool :=
  c = ' ' || c = '\t' || c = '\n' || c = '\x0b' || c = '\x0c' || c = '\r'

/-- Where `t` first occurs in a text. -/
def strstr (t : Text) : Text → Option ℕ
  | [] => if t = [] then some 0 else none
  | c :: s => if t <+: c :: s then some 0 else (strstr t s).map (· + 1)

/-- The number of characters before the first one in `reject`. -/
def strcspn (s reject : Text) : ℕ := (s.takeWhile fun c => c ∉ reject).length

/-- `sscanf (s, "%s", word)`: the first word of a text, none when the text ends before a word. -/
def scanWord (s : Text) : Option Text :=
  match s.dropWhile isspace with
  | [] => none
  | c :: rest => some ((c :: rest).takeWhile fun c => !isspace c)

/-- `"%-ns"`: a text padded with spaces on the right to at least `n` characters. -/
def padRight (n : ℕ) (s : Text) : Text := s ++ List.replicate (n - s.length) ' '

/-! ## Searching -/

/-- Where a text is found, it occurs. -/
theorem strstr_some {t s : Text} {n : ℕ} (h : strstr t s = some n) : t <+: s.drop n := by
  induction s generalizing n with
  | nil =>
    by_cases ht : t = []
    · subst ht
      exact List.nil_prefix
    · simp [strstr, ht] at h
  | cons c s ih =>
    by_cases hc : t <+: c :: s
    · obtain rfl : 0 = n := by simpa [strstr, hc] using h
      exact hc
    · obtain ⟨m, hm, rfl⟩ : ∃ m, strstr t s = some m ∧ m + 1 = n := by simpa [strstr, hc] using h
      exact ih hm

/-- A text is found within the text that is searched. -/
theorem strstr_le {t s : Text} {n : ℕ} (h : strstr t s = some n) : n ≤ s.length := by
  induction s generalizing n with
  | nil =>
    by_cases ht : t = []
    · simp [strstr, ht] at h
      omega
    · simp [strstr, ht] at h
  | cons c s ih =>
    by_cases hc : t <+: c :: s
    · obtain rfl : 0 = n := by simpa [strstr, hc] using h
      exact Nat.zero_le _
    · obtain ⟨m, hm, rfl⟩ : ∃ m, strstr t s = some m ∧ m + 1 = n := by simpa [strstr, hc] using h
      have := ih hm
      simp only [List.length_cons]
      omega

/-- A non-empty text is found before the end of the text that is searched. -/
theorem strstr_lt {t s : Text} {n : ℕ} (ht : t ≠ []) (h : strstr t s = some n) : n < s.length := by
  have hle := strstr_le h
  have hpre := strstr_some h
  rcases Nat.lt_or_ge n s.length with hlt | hge
  · exact hlt
  · rw [List.drop_eq_nil_of_le hge, List.prefix_nil] at hpre
    exact absurd hpre ht

/-- Where a text is not found, it does not occur. -/
theorem strstr_none {t s : Text} (h : strstr t s = none) (n : ℕ) : ¬ t <+: s.drop n := by
  induction s generalizing n with
  | nil =>
    have ht : t ≠ [] := by
      rintro rfl
      simp [strstr] at h
    simpa [List.prefix_nil] using ht
  | cons c s ih =>
    have hc : ¬ t <+: c :: s := by
      intro hc
      simp [strstr, hc] at h
    have hs : strstr t s = none := by simpa [strstr, hc] using h
    cases n with
    | zero => exact hc
    | succ n => exact ih hs n

/-- A text does not occur before the place where it is found. -/
theorem strstr_first {t s : Text} {n m : ℕ} (h : strstr t s = some n) (hm : m < n) :
    ¬ t <+: s.drop m := by
  induction s generalizing n m with
  | nil =>
    have := strstr_le h
    simp only [List.length_nil] at this
    omega
  | cons c s ih =>
    by_cases hc : t <+: c :: s
    · obtain rfl : 0 = n := by simpa [strstr, hc] using h
      omega
    · obtain ⟨k, hk, rfl⟩ : ∃ k, strstr t s = some k ∧ k + 1 = n := by simpa [strstr, hc] using h
      cases m with
      | zero => exact hc
      | succ m => exact ih hk (by omega)

@[simp] theorem strcspn_cons_of_mem {c : Char} {s reject : Text} (h : c ∈ reject) :
    strcspn (c :: s) reject = 0 := by
  simp [strcspn, h]

@[simp] theorem strcspn_cons_of_not_mem {c : Char} {s reject : Text} (h : c ∉ reject) :
    strcspn (c :: s) reject = strcspn s reject + 1 := by
  simp [strcspn, h]

/-! ## Words -/

/-- A text of spaces has no word. -/
theorem scanWord_of_spaces {s : Text} (h : ∀ c ∈ s, isspace c = true) : scanWord s = none := by
  have : s.dropWhile isspace = [] := List.dropWhile_eq_nil_iff.mpr h
  rw [scanWord, this]

/-- Spaces before a word are skipped. -/
theorem scanWord_spaces_append {s t : Text} (h : ∀ c ∈ s, isspace c = true) :
    scanWord (s ++ t) = scanWord t := by
  rw [scanWord, List.dropWhile_append_of_pos h, scanWord]

/-- A word that is followed by a space is read. -/
theorem scanWord_word {w s : Text} {c : Char} (hw : ∀ a ∈ w, isspace a = false) (hne : w ≠ [])
    (hc : isspace c = true) : scanWord (w ++ c :: s) = some w := by
  obtain ⟨a, w, rfl⟩ := List.exists_cons_of_ne_nil hne
  have ha : isspace a = false := hw a List.mem_cons_self
  have htake : (a :: w ++ c :: s).takeWhile (fun c => !isspace c) = a :: w := by
    rw [List.takeWhile_append_of_pos (by simpa using hw)]
    simp [hc]
  have hdrop : (a :: w ++ c :: s).dropWhile isspace = a :: w ++ c :: s := by
    simp [ha]
  rw [scanWord, hdrop]
  exact congrArg some htake

/-- What follows a text that ends in a space matters to the first word only if the text has none. -/
theorem scanWord_append {s t : Text} {c : Char} (hc : isspace c = true) :
    scanWord (s ++ c :: t) = (scanWord (s ++ [c])).or (scanWord t) := by
  induction s with
  | nil =>
    have h1 : scanWord [c] = none := scanWord_of_spaces (by simpa using hc)
    have h2 : scanWord ([c] ++ t) = scanWord t := scanWord_spaces_append (by simpa using hc)
    simpa [h1] using h2
  | cons a s ih =>
    by_cases ha : isspace a = true
    · have h (u : Text) : scanWord (a :: u) = scanWord u :=
        scanWord_spaces_append (s := [a]) (by simpa using ha)
      simpa [h] using ih
    · have hdrop (u : Text) : (a :: u).dropWhile isspace = a :: u := by
        simp [ha]
      have htake (u : Text) : (a :: s ++ c :: u).takeWhile (fun c => !isspace c) =
          (a :: s ++ [c]).takeWhile fun c => !isspace c := by
        rw [List.takeWhile_append, List.takeWhile_append]
        simp [hc]
      have h1 (u : Text) : scanWord (a :: s ++ c :: u) =
          some ((a :: s ++ [c]).takeWhile fun c => !isspace c) := by
        rw [scanWord, List.cons_append, hdrop]
        exact congrArg some (htake u)
      rw [h1 t, h1 []]
      rfl

end CString
