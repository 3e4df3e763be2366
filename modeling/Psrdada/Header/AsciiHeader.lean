import Psrdada.Header.CString

/-! # ASCII headers

A header is a text of lines, each of them an entry: a keyword, white space and a value, perhaps followed
by a comment.  `asciiHeaderFind`, `asciiHeaderSet` and `asciiHeaderGet` are `ascii_header_find`,
`ascii_header_set` and `ascii_header_get` of `ascii_header.c`, the last two for the format `"%s"`.

The loop of `ascii_header_find` jumps from one occurrence of the keyword to the next.  `firstEntry`
tries one position after the other instead, and `asciiHeaderFind_eq` says that both end at the same
place. -/

namespace Psrdada

open CString

/-! ## The code -/

/-- `whitespace`, which ends a keyword. -/
def whitespace : Text := " \t\n".toList

/-- `STRLEN`: the size of the buffer in which `ascii_header_set` formats a value. -/
def strlen : ℕ := 4096

/-- Whether an occurrence of `keyword` at `key` is preceded by the end of a line and followed by a
blank. -/
def isPreceded (header keyword : Text) (key : ℕ) : Prop :=
  (header[key - 1]? = some '\n' ∨ header[key - 1]? = some '\\') ∧
    (header[key + keyword.length]? = some '\t' ∨ header[key + keyword.length]? = some ' ')

instance (header keyword : Text) (key : ℕ) : Decidable (isPreceded header keyword key) :=
  inferInstanceAs (Decidable (_ ∧ _))

/-- The loop of `ascii_header_find`: from an occurrence to the next one, until one is preceded by the
end of a line or is the first word in the header. -/
def searchEntry (header keyword : Text) (hk : keyword ≠ []) (key : ℕ) : Option ℕ :=
  if key = 0 then
    some key
  else if isPreceded header keyword key then
    some key
  else
    match h : strstr keyword (header.drop (key + 1)) with
    | none => none
    | some next => searchEntry header keyword hk (key + 1 + next)
termination_by header.length - key
decreasing_by
  have := strstr_lt hk h
  rw [List.length_drop] at this
  omega

/-- `ascii_header_find`: where the entry of a keyword is. -/
def asciiHeaderFind (header keyword : Text) : Option ℕ :=
  match strstr keyword header with
  | none => none
  | some key => if hk : keyword = [] then some key else searchEntry header keyword hk key

/-- `"%-12s %-20s   "`: the text of an entry. -/
def entryText (keyword value : Text) : Text :=
  padRight 12 keyword ++ ' ' :: padRight 20 value ++ "   ".toList

/-- A header in which the text of the entry of `keyword` is `entry`: in place of the old one, up to a
comment, else before `DATA`, else at the end. -/
def placeEntry (header keyword entry : Text) : Text :=
  match asciiHeaderFind header keyword with
  | some key =>
    header.take key ++ entry ++
      (header.drop key).drop (strcspn (header.drop key) "#\n".toList)
  | none =>
    match strstr "DATA\n".toList header with
    | some eol => header.take eol ++ entry ++ header.drop eol
    | none => header ++ entry ++ ['\n']

/-- The entry of a keyword that is not found, in front of `DATA`. -/
theorem placeEntry_of_data {header keyword : Text} {eol : ℕ} (h : asciiHeaderFind header keyword = none)
    (hdata : strstr "DATA\n".toList header = some eol) (entry : Text) :
    placeEntry header keyword entry = header.take eol ++ entry ++ header.drop eol := by
  unfold placeEntry
  simp only [h, hdata]

/-- The entry of a keyword that is not found, at the end. -/
theorem placeEntry_of_end {header keyword : Text} (h : asciiHeaderFind header keyword = none)
    (hdata : strstr "DATA\n".toList header = none) (entry : Text) :
    placeEntry header keyword entry = header ++ entry ++ ['\n'] := by
  unfold placeEntry
  simp only [h, hdata]

/-- `ascii_header_set (header, keyword, "%s", value)`. -/
def asciiHeaderSet (header keyword value : Text) : Text :=
  placeEntry header keyword (entryText keyword (value.take (strlen - 1)))

/-- `ascii_header_get (header, keyword, "%s", value)`: the value where the call returns 1, none where it
returns `-1`. -/
def asciiHeaderGet (header keyword : Text) : Option Text :=
  match asciiHeaderFind header keyword with
  | none => none
  | some key => scanWord ((header.drop key).drop (strcspn (header.drop key) whitespace))

/-! ## Entries by position -/

/-- Whether a text that stands after the character `before` (none at the start of the header) begins
with an entry of `keyword`. -/
def IsEntry (keyword : Text) (before : Option Char) (s : Text) : Prop :=
  keyword <+: s ∧ (before = none ∨
    (before = some '\n' ∨ before = some '\\') ∧
      (s[keyword.length]? = some '\t' ∨ s[keyword.length]? = some ' '))

instance (keyword : Text) (before : Option Char) (s : Text) :
    Decidable (IsEntry keyword before s) :=
  inferInstanceAs (Decidable (_ ∧ _))

/-- Where the first entry of `keyword` is, in a text that stands after `before`. -/
def firstEntry (keyword : Text) : Option Char → Text → Option ℕ
  | _, [] => none
  | before, c :: s =>
    if IsEntry keyword before (c :: s) then some 0
    else (firstEntry keyword (some c) s).map (· + 1)

/-- The character before position `n` of a text that stands after `before`. -/
def charBefore (before : Option Char) (s : Text) : ℕ → Option Char
  | 0 => before
  | n + 1 => s[n]?

/-- The search skips positions where the keyword does not occur. -/
theorem firstEntry_skip {keyword s : Text} {before : Option Char} {n : ℕ} (hn : n < s.length)
    (h : ∀ m < n, ¬ keyword <+: s.drop m) :
    firstEntry keyword before s =
      (firstEntry keyword (charBefore before s n) (s.drop n)).map (· + n) := by
  induction n generalizing before s with
  | zero => simp [charBefore]
  | succ n ih =>
    cases s with
    | nil => simp at hn
    | cons c s =>
      have hc : ¬ IsEntry keyword before (c :: s) := fun hc => h 0 (by omega) hc.1
      have hs := @ih s (some c) (by simpa using hn) fun m hm => h (m + 1) (by omega)
      have hbefore : charBefore (some c) s n = charBefore before (c :: s) (n + 1) := by
        cases n <;> rfl
      rw [firstEntry, if_neg hc, hs, hbefore, List.drop_succ_cons, Option.map_map]
      rfl

/-- A text in which the keyword does not occur has no entry. -/
theorem firstEntry_eq_none {keyword s : Text} {before : Option Char}
    (h : ∀ m, ¬ keyword <+: s.drop m) : firstEntry keyword before s = none := by
  induction s generalizing before with
  | nil => rfl
  | cons c s ih =>
    have hc : ¬ IsEntry keyword before (c :: s) := fun hc => h 0 hc.1
    rw [firstEntry, if_neg hc, ih fun m => h (m + 1)]
    rfl

/-- From an occurrence in the middle of the header, the loop of the source finds the first entry. -/
theorem searchEntry_eq {header keyword : Text} (hk : keyword ≠ []) {key : ℕ}
    (hocc : keyword <+: header.drop (key + 1)) :
    searchEntry header keyword hk (key + 1) =
      (firstEntry keyword header[key]? (header.drop (key + 1))).map (· + (key + 1)) := by
  induction hm : header.length - key using Nat.strong_induction_on generalizing key with
  | _ m ih =>
    subst hm
    have hlt : key + 1 < header.length := by
      rcases Nat.lt_or_ge (key + 1) header.length with hlt | hge
      · exact hlt
      · rw [List.drop_eq_nil_of_le hge, List.prefix_nil] at hocc
        exact absurd hocc hk
    have hdrop : header.drop (key + 1) = header[key + 1] :: header.drop (key + 1 + 1) :=
      List.drop_eq_getElem_cons hlt
    have hkey : header[key]? = some header[key] := List.getElem?_eq_getElem (by omega)
    have hentry : IsEntry keyword header[key]? (header.drop (key + 1)) ↔
        isPreceded header keyword (key + 1) := by
      simp [IsEntry, isPreceded, hocc, hkey]
    rw [searchEntry, if_neg (Nat.succ_ne_zero key)]
    by_cases hpre : isPreceded header keyword (key + 1)
    · rw [if_pos hpre, hdrop, firstEntry, if_pos (hdrop ▸ hentry.mpr hpre)]
      simp
    · rw [if_neg hpre, hdrop, firstEntry, if_neg fun he => hpre (hentry.mp (hdrop ▸ he))]
      split
      case h_1 hnone =>
        rw [firstEntry_eq_none (strstr_none hnone)]
        rfl
      case h_2 next hsome =>
        have hnext := strstr_lt hk hsome
        rw [List.length_drop] at hnext
        have hocc' : keyword <+: header.drop (key + 1 + next + 1) := by
          have := strstr_some hsome
          rwa [List.drop_drop, show key + 1 + 1 + next = key + 1 + next + 1 by omega] at this
        have hrec := ih (header.length - (key + 1 + next)) (by omega) hocc' rfl
        rw [show key + 1 + 1 + next = key + 1 + next + 1 by omega, hrec,
          firstEntry_skip (by rw [List.length_drop]; omega) fun m hm => strstr_first hsome hm]
        have hbefore : charBefore (some header[key + 1]) (header.drop (key + 1 + 1)) next =
            header[key + 1 + next]? := by
          cases next with
          | zero => exact (List.getElem?_eq_getElem hlt).symm
          | succ next =>
            rw [charBefore, List.getElem?_drop]
            congr 1
            omega
        rw [hbefore, List.drop_drop, show key + 1 + 1 + next = key + 1 + next + 1 by omega]
        simp only [Option.map_map]
        congr 1
        funext i
        simp only [Function.comp_apply]
        omega

/-- `ascii_header_find` finds the first entry. -/
theorem asciiHeaderFind_eq {header keyword : Text} (hk : keyword ≠ []) :
    asciiHeaderFind header keyword = firstEntry keyword none header := by
  unfold asciiHeaderFind
  split
  case h_1 hnone => rw [firstEntry_eq_none (strstr_none hnone)]
  case h_2 key hsome =>
    rw [dif_neg hk]
    have hlt := strstr_lt hk hsome
    cases key with
    | zero =>
      have hocc : keyword <+: header := strstr_some hsome
      rw [searchEntry, if_pos rfl]
      cases header with
      | nil => simp at hlt
      | cons c s => rw [firstEntry, if_pos ⟨hocc, .inl rfl⟩]
    | succ key =>
      rw [searchEntry_eq hk (strstr_some hsome),
        firstEntry_skip hlt fun m hm => strstr_first hsome hm]
      rfl

end Psrdada
