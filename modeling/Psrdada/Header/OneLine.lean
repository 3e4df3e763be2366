import Psrdada.Header.Conversions
import Psrdada.Header.Entries
import Psrdada.Header.Search
import Psrdada.Header.Updates

/-! # Reading and deleting one line

`ascii_header_get` and `ascii_header_del` are meant to act on the keyword's own line.  `OneLine` says what
that is: a value comes from the text behind the keyword on its line, and none is read where that text has
no value; what is deleted is that line, without a look behind the end of the header, and afterwards the
keyword is gone if it had one entry.

The code meets this for the headers that are `Tidy`: the header does not begin with the keyword as a part
of a longer word, before or after the deletion; the entry has a value, or nothing follows it; and its line
is ended by a newline. -/

namespace Psrdada

open CString

/-! ## The code -/

/-- `ascii_header_get` with one conversion. -/
def asciiHeaderScan {α : Type} (scan : Text → Option α) (header keyword : Text) : Option α :=
  match asciiHeaderFind header keyword with
  | none => none
  | some key => scan ((header.drop key).drop (strcspn (header.drop key) whitespace))

theorem asciiHeaderGet_eq_scan (header keyword : Text) :
    asciiHeaderGet header keyword = asciiHeaderScan scanWord header keyword := rfl

/-- The C string that begins at `p` in memory. -/
def stringAt (memory : Text) (p : ℕ) : Text := (memory.drop p).takeWhile (· ≠ '\x00')

/-- `eol` in `ascii_header_del`: where the copy of what follows the line begins. -/
def delEol (header : Text) (key : ℕ) : ℕ := key + strcspn (header.drop key) ['\n'] + 1

/-- `ascii_header_del`: the header that is left, none where the call returns `-1`. -/
def asciiHeaderDel (memory keyword : Text) : Option Text :=
  match asciiHeaderFind (stringAt memory 0) keyword with
  | none => none
  | some key =>
    some ((stringAt memory 0).take key ++ stringAt memory (delEol (stringAt memory 0) key))

/-- The first character that `ascii_header_del` reads to copy what follows the line. -/
def delReads (memory keyword : Text) : Option ℕ :=
  (asciiHeaderFind (stringAt memory 0) keyword).map (delEol (stringAt memory 0))

/-! ## What is meant -/

/-- Where the entry of a keyword is. -/
def entryAt (header keyword : Text) : Option ℕ :=
  (List.range header.length).find? fun p => KeywordAt header keyword p

/-- The text behind the keyword on its line. -/
def ownText (header keyword : Text) (p : ℕ) : Text :=
  (header.drop (p + keyword.length)).takeWhile (· ≠ '\n')

/-- Whether the text behind a keyword has no value: nothing but white space, up to a comment. -/
def Valueless (s : Text) : Prop := Blank (s.takeWhile (· ≠ '#'))

/-- The lines behind the one that stands at `p`. -/
def afterLine (header : Text) (p : ℕ) : Text := ((header.drop p).dropWhile (· ≠ '\n')).tail

/-- Whether the entry at `p` is the only one of its keyword. -/
def Once (header keyword : Text) (p : ℕ) : Prop := ∀ q, KeywordAt header keyword q → q = p

/-- Whether a value is read from the keyword's own line, and none where there is none. -/
structure GetsOwn {α : Type} (conv : Conversion α) (header keyword : Text) : Prop where
  /-- The value is what the conversion reads from the keyword's line. -/
  own : asciiHeaderScan conv.scan header keyword =
    (entryAt header keyword).bind fun p => conv.scan (ownText header keyword p)
  /-- An empty value is not read. -/
  empty : ∀ p, entryAt header keyword = some p → Valueless (ownText header keyword p) →
    asciiHeaderScan conv.scan header keyword = none

/-- Whether exactly the keyword's line is deleted from the header in memory. -/
structure DeletesOwn (memory keyword : Text) : Prop where
  /-- The line is removed, with all others in place; without an entry the call fails. -/
  exact : asciiHeaderDel memory keyword = (entryAt (stringAt memory 0) keyword).map fun p =>
    (stringAt memory 0).take p ++ afterLine (stringAt memory 0) p
  /-- Nothing behind the terminating zero is read. -/
  within : ∀ n, delReads memory keyword = some n → n ≤ (stringAt memory 0).length
  /-- A keyword that had one entry is not found any more. -/
  gone : ∀ p, entryAt (stringAt memory 0) keyword = some p → Once (stringAt memory 0) keyword p →
    ∀ header, asciiHeaderDel memory keyword = some header →
      ∀ {α : Type} (conv : Conversion α), asciiHeaderScan conv.scan header keyword = none

/-- Whether reading and deleting act on the keyword's own line. -/
def OneLine (memory keyword : Text) : Prop :=
  (∀ {α : Type} (conv : Conversion α), GetsOwn conv (stringAt memory 0) keyword) ∧
    DeletesOwn memory keyword

/-- Whether the entry at `p` has a value, or nothing follows it. -/
def HasValue (header keyword : Text) (p : ℕ) : Prop :=
  ¬ Valueless (ownText header keyword p) ∨ Blank (header.drop (p + keyword.length))

/-- Whether a keyword whose only entry begins the header is not the beginning of the next line as well,
unless nothing follows there. -/
def StaysSeparated (header keyword : Text) (p : ℕ) : Prop :=
  p = 0 → Once header keyword p → keyword <+: afterLine header p →
    Blank ((afterLine header p).drop (strcspn (afterLine header p) whitespace))

/-- The headers on which the code acts on the keyword's own line. -/
structure Tidy (header keyword : Text) : Prop where
  /-- The header does not begin with the keyword as a part of a longer word. -/
  separated : Separated header keyword
  /-- The entry has a value. -/
  value : ∀ p, entryAt header keyword = some p → HasValue header keyword p
  /-- The line of the entry is ended. -/
  ended : ∀ p, entryAt header keyword = some p → '\n' ∈ header.drop p
  /-- Nor does the header begin with the keyword once its line is deleted. -/
  after : ∀ p, entryAt header keyword = some p → StaysSeparated header keyword p

variable {header : Text} {k : Word} {p : ℕ}

/-! ## Lines -/

/-- A text is one line, or a line that a newline ends and further ones. -/
theorem cut_newline (s : Text) :
    (s = s.takeWhile (· ≠ '\n') ∧ (s.dropWhile (· ≠ '\n')).tail = []) ∨
      ∃ t, s = s.takeWhile (· ≠ '\n') ++ '\n' :: t ∧ (s.dropWhile (· ≠ '\n')).tail = t := by
  induction s with
  | nil => exact .inl ⟨rfl, rfl⟩
  | cons c s ih =>
    by_cases hc : c = '\n'
    · subst hc
      exact .inr ⟨s, by simp, by simp⟩
    · have htake : (c :: s).takeWhile (· ≠ '\n') = c :: s.takeWhile (· ≠ '\n') := by simp [hc]
      have hdrop : (c :: s).dropWhile (· ≠ '\n') = s.dropWhile (· ≠ '\n') := by simp [hc]
      rw [htake, hdrop]
      rcases ih with ⟨heq, htail⟩ | ⟨t, heq, htail⟩
      · exact .inl ⟨congrArg (c :: ·) heq, htail⟩
      · exact .inr ⟨t, congrArg (c :: ·) heq, htail⟩

theorem not_mem_line (s : Text) : '\n' ∉ s.takeWhile (· ≠ '\n') := by
  intro h
  simpa using List.mem_takeWhile_imp h

theorem strcspn_newline (s : Text) : strcspn s ['\n'] = (s.takeWhile (· ≠ '\n')).length := by
  simp [strcspn]

/-! ## The entry -/

/-- An entry lies within the header. -/
theorem KeywordAt.lt {keyword : Text} (h : KeywordAt header keyword p) : p < header.length := by
  rcases h.2.2 with h | h
  all_goals
    obtain ⟨hlt, -⟩ := List.getElem?_eq_some_iff.mp h
    omega

/-- `entryAt` is the first position of an entry. -/
theorem entryAt_isFirst (header keyword : Text) :
    IsFirst (KeywordAt header keyword) (entryAt header keyword) := by
  rw [entryAt]
  cases h : (List.range header.length).find? fun p => KeywordAt header keyword p with
  | none =>
    intro q hq
    have := List.find?_eq_none.mp h q (List.mem_range.mpr hq.lt)
    exact this (decide_eq_true hq)
  | some p =>
    have hfound : decide (KeywordAt header keyword p) = true := by
      exact List.find?_some (p := fun p => decide (KeywordAt header keyword p)) h
    have hat : KeywordAt header keyword p := of_decide_eq_true hfound
    refine ⟨hat, fun q hq hkey => ?_⟩
    obtain ⟨-, i, hi, hip, hno⟩ := List.find?_eq_some_iff_getElem.mp h
    rw [List.getElem_range] at hip
    subst hip
    have := hno q hq
    simp [hkey] at this

theorem entryAt_some (h : entryAt header k.text = some p) : KeywordAt header k.text p := by
  have := entryAt_isFirst header k.text
  rw [h] at this
  exact this.1

/-- In a separated header the search finds the entry. -/
theorem asciiHeaderFind_eq_entryAt (hsep : Separated header k.text) :
    asciiHeaderFind header k.text = entryAt header k.text :=
  ((finds_iff header k.text k.nonempty).mpr hsep).unique (entryAt_isFirst header k.text)

/-! ## Reading -/

/-- The keyword ends at the first blank. -/
theorem drop_keyword_at (h : KeywordAt header k.text p) :
    (header.drop p).drop (strcspn (header.drop p) whitespace) = header.drop (p + k.text.length) := by
  obtain ⟨⟨rest, hrest⟩, -, hnext⟩ := h
  have hdrop : header.drop (p + k.text.length) = rest := by
    rw [← List.drop_drop, ← hrest, List.drop_left]
  have hget : (header.drop (p + k.text.length))[0]? = header[p + k.text.length]? := by
    rw [List.getElem?_drop, Nat.add_zero]
  rw [hdrop] at hget
  have hword : ∀ c ∈ k.text, c ∉ whitespace := by
    intro c hc hmem
    have hs : isspace c = true := by
      rcases (by simpa [whitespace] using hmem : c = ' ' ∨ c = '\t' ∨ c = '\n') with rfl | rfl | rfl
      all_goals rfl
    exact Word.not_mem_of_isspace hs hc
  cases rest with
  | nil => simp [← hget] at hnext
  | cons c t =>
    have hc : c ∈ whitespace := by
      rw [← hget] at hnext
      rcases hnext with hn | hn
      all_goals
        obtain rfl : c = _ := by simpa using hn
        decide
    rw [hdrop, ← hrest, strcspn, List.takeWhile_append_of_pos (by simpa using hword),
      List.takeWhile_cons_of_neg (by simp [hc]), List.append_nil, List.drop_left]

/-- What is read in a separated header is read behind the entry's keyword. -/
theorem asciiHeaderScan_eq {α : Type} (conv : Conversion α) (hsep : Separated header k.text) :
    asciiHeaderScan conv.scan header k.text =
      (entryAt header k.text).bind fun p => conv.scan (header.drop (p + k.text.length)) := by
  rw [asciiHeaderScan, asciiHeaderFind_eq_entryAt hsep]
  cases h : entryAt header k.text with
  | none => rfl
  | some p => exact congrArg conv.scan (drop_keyword_at (entryAt_some h))

/-- The text behind a keyword begins with what is on the keyword's line. -/
theorem ownText_append (header keyword : Text) (p : ℕ) :
    header.drop (p + keyword.length) = ownText header keyword p ∨
      ∃ t, header.drop (p + keyword.length) = ownText header keyword p ++ '\n' :: t := by
  rcases cut_newline (header.drop (p + keyword.length)) with ⟨heq, -⟩ | ⟨t, heq, -⟩
  · exact .inl heq
  · exact .inr ⟨t, heq⟩

/-- A line with a value is not blank. -/
theorem not_blank_of_value {s : Text} (h : ¬ Valueless s) : ¬ Blank s := fun hs =>
  h fun c hc => hs c (List.takeWhile_subset _ hc)

/-- A value that is there is read from the keyword's line. -/
theorem scan_ownText {α : Type} (conv : Conversion α) (h : HasValue header k.text p) :
    conv.scan (header.drop (p + k.text.length)) = conv.scan (ownText header k.text p) := by
  rcases h with hvalue | hblank
  · rcases ownText_append header k.text p with heq | ⟨t, heq⟩
    · rw [heq]
    · rw [heq]
      exact conv.scan_append (not_blank_of_value hvalue) rfl t
  · have hown : Blank (ownText header k.text p) := fun c hc => hblank c (List.takeWhile_subset _ hc)
    rw [conv.scan_blank hblank, conv.scan_blank hown]

/-- In a separated header every conversion reads the keyword's own value if and only if there is one, or
nothing follows. -/
theorem getsOwn_iff (hsep : Separated header k.text) :
    (∀ {α : Type} (conv : Conversion α), GetsOwn conv header k.text) ↔
      ∀ p, entryAt header k.text = some p → HasValue header k.text p := by
  constructor
  · intro h p hp
    by_contra hno
    rw [HasValue, not_or, not_not] at hno
    -- the word that follows is read in place of the value
    have hnone := (h Conversion.word).empty p hp hno.1
    rw [asciiHeaderScan_eq _ hsep, hp] at hnone
    have hsome := scanWord_isSome hno.2
    have hscan : scanWord (header.drop (p + k.text.length)) = none := hnone
    rw [hscan] at hsome
    exact absurd hsome (by simp)
  · intro h α conv
    refine ⟨?_, fun p hp hempty => ?_⟩
    · rw [asciiHeaderScan_eq conv hsep]
      cases hp : entryAt header k.text with
      | none => rfl
      | some p => exact scan_ownText conv (h p hp)
    · rw [asciiHeaderScan_eq conv hsep, hp]
      exact conv.scan_blank ((h p hp).resolve_left (not_not.mpr hempty))

/-! ## Deleting -/

/-- The C string behind a character of a C string is the rest of it. -/
theorem stringAt_eq_drop {memory : Text} {n : ℕ} (h : n ≤ (stringAt memory 0).length) :
    stringAt memory n = (stringAt memory 0).drop n := by
  rw [stringAt, List.drop_zero] at h
  rw [stringAt, stringAt, List.drop_zero]
  induction memory generalizing n with
  | nil => simp
  | cons c memory ih =>
    cases n with
    | zero => rfl
    | succ n =>
      by_cases hc : c = '\x00'
      · simp [hc] at h
      · have htake : (c :: memory).takeWhile (· ≠ '\x00') = c :: memory.takeWhile (· ≠ '\x00') := by
          simp [hc]
        rw [htake, List.length_cons] at h
        rw [htake, List.drop_succ_cons, List.drop_succ_cons]
        exact ih (Nat.le_of_succ_le_succ h)

/-- The copy begins with the line after the one that is deleted. -/
theorem drop_delEol (header : Text) (p : ℕ) : header.drop (delEol header p) = afterLine header p := by
  rw [delEol, strcspn_newline, Nat.add_assoc, ← List.drop_drop, afterLine]
  generalize header.drop p = s
  rcases cut_newline s with ⟨heq, htail⟩ | ⟨t, heq, htail⟩
  · rw [htail, ← heq]
    exact List.drop_eq_nil_of_le (Nat.le_succ _)
  · rw [htail]
    conv_lhs => arg 2; rw [heq]
    rw [← List.drop_drop, List.drop_left]
    rfl

/-- The copy begins within the header, or at its terminating zero, if the line is ended. -/
theorem delEol_le_iff (hp : p ≤ header.length) :
    delEol header p ≤ header.length ↔ '\n' ∈ header.drop p := by
  have hlen : (header.drop p).length = header.length - p := List.length_drop
  rw [delEol, strcspn_newline]
  revert hlen
  generalize header.drop p = s
  intro hlen
  have hnot := not_mem_line s
  rcases cut_newline s with ⟨heq, -⟩ | ⟨t, heq, -⟩
  · rw [← heq] at hnot ⊢
    exact ⟨fun h => absurd h (by omega), fun h => absurd h hnot⟩
  · have hlen' := congrArg List.length heq
    rw [List.length_append, List.length_cons] at hlen'
    refine ⟨fun _ => ?_, fun _ => by omega⟩
    rw [heq]
    simp

/-- What is deleted in a separated header is the entry. -/
theorem asciiHeaderDel_eq {memory : Text} (hsep : Separated (stringAt memory 0) k.text) :
    asciiHeaderDel memory k.text = (entryAt (stringAt memory 0) k.text).map fun p =>
      (stringAt memory 0).take p ++ stringAt memory (delEol (stringAt memory 0) p) := by
  rw [asciiHeaderDel, asciiHeaderFind_eq_entryAt hsep]
  cases entryAt (stringAt memory 0) k.text <;> rfl

/-- The line that is deleted, with its newline, is exactly the entry's where it is ended. -/
theorem asciiHeaderDel_exact {memory : Text} (hsep : Separated (stringAt memory 0) k.text)
    (hended : ∀ p, entryAt (stringAt memory 0) k.text = some p → '\n' ∈ (stringAt memory 0).drop p) :
    asciiHeaderDel memory k.text = (entryAt (stringAt memory 0) k.text).map fun p =>
      (stringAt memory 0).take p ++ afterLine (stringAt memory 0) p := by
  rw [asciiHeaderDel_eq hsep]
  cases hp : entryAt (stringAt memory 0) k.text with
  | none => rfl
  | some p =>
    have hle := (delEol_le_iff (entryAt_some hp).lt.le).mpr (hended p hp)
    simp only [Option.map_some, stringAt_eq_drop hle, drop_delEol]

/-- Whether a character ends a line, as the search sees it. -/
def EndsLine (c : Char) : Prop := c = '\n' ∨ c = '\\'

theorem EndsLine.not_mem {c : Char} (h : EndsLine c) : c ∉ k.text := by
  intro hc
  rcases h with rfl | rfl
  · exact Word.not_mem_of_isspace rfl hc
  · exact (k.plain '\\' hc).2.1 rfl

/-- An occurrence of the keyword before the end of a line does not depend on the lines that follow. -/
theorem prefix_before {s t : Text} {c : Char} {q : ℕ} (hc : EndsLine c) (hq : q ≤ s.length)
    (h : k.text <+: (s ++ c :: t).drop q) : q + k.text.length ≤ s.length ∧ k.text <+: s.drop q := by
  rw [List.drop_append_of_le_length hq] at h
  have hpre := (prefix_append_cons hc.not_mem).mp h
  have hlen := hpre.length_le
  rw [List.length_drop] at hlen
  exact ⟨by omega, hpre⟩

/-- Nor does an entry. -/
theorem keywordAt_before {s t : Text} (t' : Text) {c : Char} {q : ℕ} (hc : EndsLine c)
    (hq : q ≤ s.length) (h : KeywordAt (s ++ c :: t) k.text q) : KeywordAt (s ++ c :: t') k.text q := by
  obtain ⟨hpre, hbefore, hnext⟩ := h
  obtain ⟨hle, hpre'⟩ := prefix_before hc hq hpre
  have hget (u : Text) (i : ℕ) (hi : i ≤ s.length) : (s ++ c :: u)[i]? = (s ++ [c])[i]? := by
    rw [← List.singleton_append, ← List.append_assoc]
    apply List.getElem?_append_left
    rw [List.length_append, List.length_singleton]
    omega
  refine ⟨?_, ?_, ?_⟩
  · rw [List.drop_append_of_le_length hq]
    exact hpre'.trans (List.prefix_append _ _)
  · rw [hget t _ (by omega)] at hbefore
    rwa [hget t' _ (by omega)]
  · rw [hget t _ hle] at hnext
    rwa [hget t' _ hle]

/-- Behind the end of a line, an entry does not depend on the lines before. -/
theorem keywordAt_behind {s t : Text} {q : ℕ} (s' : Text) (hs' : ∃ r c, s' = r ++ [c] ∧ EndsLine c)
    (h : KeywordAt (s ++ t) k.text (s.length + q)) :
    KeywordAt (s' ++ t) k.text (s'.length + q) := by
  obtain ⟨hpre, hbefore, hnext⟩ := h
  have hget (u : Text) (i : ℕ) : (u ++ t)[u.length + i]? = t[i]? := by
    rw [List.getElem?_append_right (Nat.le_add_right _ _), Nat.add_sub_cancel_left]
  have hdrop (u : Text) : (u ++ t).drop (u.length + q) = t.drop q := by
    rw [← List.drop_drop, List.drop_left]
  refine ⟨?_, ?_, ?_⟩
  · rw [hdrop] at hpre ⊢
    exact hpre
  · cases q with
    | zero =>
      -- the line before is ended
      obtain ⟨r, c, rfl, hc⟩ := hs'
      refine .inr ?_
      have hlast : (r ++ [c] ++ t)[(r ++ [c]).length + 0 - 1]? = some c := by simp
      rw [hlast]
      rcases hc with rfl | rfl
      · exact .inl rfl
      · exact .inr rfl
    | succ q =>
      rw [← Nat.add_assoc, Nat.add_sub_cancel, hget] at hbefore ⊢
      exact .inr (hbefore.resolve_left (Nat.succ_ne_zero _))
  · rw [Nat.add_assoc, hget] at hnext ⊢
    exact hnext

/-- An entry begins the header, or it stands behind the end of a line. -/
theorem KeywordAt.line (h : KeywordAt header k.text p) :
    p = 0 ∨ ∃ r c, header.take p = r ++ [c] ∧ EndsLine c := by
  rcases h.2.1 with rfl | hbefore
  · exact .inl rfl
  · rcases Nat.eq_zero_or_pos p with rfl | hpos
    · exact .inl rfl
    · have hlt : p - 1 < header.length := by
        have := h.lt
        omega
      have htake : header.take p = header.take (p - 1) ++ [header[p - 1]] := by
        rw [← List.take_succ_eq_append_getElem hlt, Nat.sub_add_cancel hpos]
      refine .inr ⟨header.take (p - 1), header[p - 1], htake, ?_⟩
      rw [List.getElem?_eq_getElem hlt] at hbefore
      simpa [EndsLine] using hbefore

/-- The header around the line of an entry. -/
theorem split_line (hended : '\n' ∈ header.drop p) : ∃ l, '\n' ∉ l ∧
    delEol header p = p + l.length + 1 ∧
      header = header.take p ++ (l ++ '\n' :: afterLine header p) := by
  refine ⟨(header.drop p).takeWhile (· ≠ '\n'), not_mem_line _, ?_, ?_⟩
  · rw [delEol, strcspn_newline]
  · rcases cut_newline (header.drop p) with ⟨heq, -⟩ | ⟨t, heq, htail⟩
    · rw [heq] at hended
      exact absurd hended (not_mem_line _)
    · rw [afterLine, htail, ← heq, List.take_append_drop]

/-- Once the line of its only entry is deleted, a keyword has no entry. -/
theorem no_entry_left (hat : KeywordAt header k.text p) (honce : Once header k.text p)
    (hended : '\n' ∈ header.drop p) (q : ℕ) :
    ¬ KeywordAt (header.take p ++ afterLine header p) k.text q := by
  intro hq
  obtain ⟨l, -, -, hsplit⟩ := split_line hended
  have hlen : (header.take p).length = p := List.length_take_of_le hat.lt.le
  rcases Nat.lt_or_ge q p with hlt | hge
  · -- the lines before the entry are still there
    obtain ⟨r, c, htake, hc⟩ := hat.line.resolve_left (by omega)
    have hr : r.length + 1 = p := by
      rw [htake, List.length_append, List.length_singleton] at hlen
      exact hlen
    rw [htake, List.append_assoc] at hq hsplit
    have hbefore := keywordAt_before (l ++ '\n' :: afterLine header p) hc (by omega) hq
    have := honce q (hsplit ▸ hbefore)
    omega
  · -- the lines behind it were there before
    obtain ⟨j, rfl⟩ := Nat.exists_eq_add_of_le hge
    have hq' : KeywordAt (header.take p ++ afterLine header p) k.text
        ((header.take p).length + j) := by rwa [hlen]
    have hbehind := keywordAt_behind (header.take p ++ l ++ ['\n'])
      ⟨header.take p ++ l, '\n', rfl, .inl rfl⟩ hq'
    rw [List.append_assoc, List.append_assoc, List.singleton_append, ← hsplit] at hbehind
    have := honce _ hbehind
    simp only [List.length_append, List.length_singleton, hlen] at this
    omega

theorem asciiHeaderScan_of_absent {α : Type} (conv : Conversion α)
    (hsep : Separated header k.text) (hno : ∀ q, ¬ KeywordAt header k.text q) :
    asciiHeaderScan conv.scan header k.text = none := by
  rw [asciiHeaderScan_eq conv hsep]
  cases hp : entryAt header k.text with
  | none => rfl
  | some p => exact absurd (entryAt_some hp) (hno p)

/-- A header that keeps a line before the entry stays separated. -/
theorem Separated.cut (hsep : Separated header k.text) (hat : KeywordAt header k.text p) (hp : p ≠ 0) :
    Separated (header.take p ++ afterLine header p) k.text := by
  obtain ⟨r, c, htake, hc⟩ := hat.line.resolve_left hp
  intro hpre
  have hheader : header = r ++ c :: header.drop p := by
    conv_lhs => rw [← List.take_append_drop p header, htake]
    rw [List.append_assoc]
    rfl
  rw [htake, List.append_assoc] at hpre ⊢
  obtain ⟨hle, hr⟩ := prefix_before (q := 0) hc (Nat.zero_le _) hpre
  rw [Nat.zero_add] at hle
  have hget (u : Text) : (r ++ c :: u)[k.text.length]? = (r ++ [c])[k.text.length]? := by
    rw [← List.singleton_append, ← List.append_assoc]
    apply List.getElem?_append_left
    rw [List.length_append, List.length_singleton]
    omega
  have hnext := hsep (by
    rw [hheader]
    exact hr.trans (List.prefix_append _ _))
  rw [hheader, hget] at hnext
  rw [List.singleton_append, hget]
  exact hnext

/-- The deletion of the only entry of a keyword makes a later call fail. -/
theorem Tidy.gone {α : Type} (h : Tidy header k.text) (hp : entryAt header k.text = some p)
    (honce : Once header k.text p) (conv : Conversion α) :
    asciiHeaderScan conv.scan (header.take p ++ afterLine header p) k.text = none := by
  have hat := entryAt_some hp
  have hno := no_entry_left hat honce (h.ended p hp)
  by_cases hsep : Separated (header.take p ++ afterLine header p) k.text
  · exact asciiHeaderScan_of_absent conv hsep hno
  · -- the keyword begins the line that is first now
    obtain rfl : p = 0 := by
      by_contra hne
      exact hsep (h.separated.cut hat hne)
    rw [List.take_zero, List.nil_append] at hsep ⊢
    have hpre : k.text <+: afterLine header 0 := by
      by_contra hpre
      exact hsep fun h => absurd h hpre
    rw [asciiHeaderScan, asciiHeaderFind_zero k.nonempty hpre]
    exact conv.scan_blank (h.after 0 hp rfl honce hpre)

/-- On a tidy header both functions act on the keyword's own line. -/
theorem Tidy.oneLine {memory : Text} (h : Tidy (stringAt memory 0) k.text) :
    OneLine memory k.text := by
  have hexact := asciiHeaderDel_exact h.separated h.ended
  refine ⟨(getsOwn_iff h.separated).mpr h.value, hexact, ?_, ?_⟩
  · intro n hn
    rw [delReads, asciiHeaderFind_eq_entryAt h.separated] at hn
    obtain ⟨p, hp, rfl⟩ := Option.map_eq_some_iff.mp hn
    exact (delEol_le_iff (entryAt_some hp).lt.le).mpr (h.ended p hp)
  · intro p hp honce header hdel α conv
    rw [hexact, hp] at hdel
    obtain rfl := Option.some.inj hdel
    exact h.gone hp honce conv

/-! ## Deleting the wrong line -/

/-- A text that is the same after its first `len` characters are removed as after others are, from `p`
on, repeats itself up to there. -/
theorem getElem?_mod {h t : Text} {p len : ℕ} (hlen : 0 < len) (hp : p ≤ h.length)
    (heq : h.drop len = h.take p ++ t) {i : ℕ} (hi : i < p + len) : h[i]? = h[i % len]? := by
  induction i using Nat.strong_induction_on with
  | _ i ih =>
    rcases Nat.lt_or_ge i len with hlt | hge
    · rw [Nat.mod_eq_of_lt hlt]
    · have hshift : h[i]? = h[i - len]? := by
        have := congrArg (fun s => s[i - len]?) heq
        simp only [List.getElem?_drop] at this
        have htake : (h.take p).length = p := List.length_take_of_le hp
        rw [Nat.add_sub_cancel' hge, List.getElem?_append_left (by omega),
          List.getElem?_take_of_lt (by omega)] at this
        exact this
      rw [hshift, ih (i - len) (by omega) (by omega), Nat.mod_eq_sub_mod hge]

/-- The line that begins with the entry of a keyword is not the first one, if that begins with the keyword
as a part of a longer word: removing one of them leaves another header than removing the other. -/
theorem separated_of_cut (hpre : k.text <+: header) (hnl : '\n' ∈ header)
    (hat : KeywordAt header k.text p)
    (heq : header.drop (delEol header 0) = header.take p ++ afterLine header p) :
    header[k.text.length]? = some '\t' ∨ header[k.text.length]? = some ' ' := by
  obtain ⟨l, -, hlen, hfirst⟩ := split_line (p := 0) (by rwa [List.drop_zero])
  rw [Nat.zero_add] at hlen
  rw [List.take_zero, List.nil_append] at hfirst
  have hp := hat.lt.le
  have hkey : k.text.length < l.length + 1 := by
    rw [hfirst] at hpre
    exact Nat.lt_succ_of_le ((prefix_append_cons (EndsLine.not_mem (.inl rfl))).mp hpre).length_le
  have hend : header[l.length]? = some '\n' := by
    rw [hfirst]
    simp
  rw [hlen] at heq
  have hmod {i : ℕ} (hi : i < p + (l.length + 1)) : header[i]? = header[i % (l.length + 1)]? :=
    getElem?_mod (Nat.succ_pos _) hp heq hi
  -- the newline of the first line comes back behind the entry
  have hrem : p % (l.length + 1) < l.length + 1 := Nat.mod_lt p (Nat.succ_pos _)
  have hdiv := Nat.div_add_mod p (l.length + 1)
  have hback : header[p + (l.length - p % (l.length + 1))]? = some '\n' := by
    rw [hmod (by omega)]
    have hi : p + (l.length - p % (l.length + 1)) =
        (l.length + 1) * (p / (l.length + 1)) + l.length := by omega
    rw [hi, Nat.mul_add_mod, Nat.mod_eq_of_lt (Nat.lt_succ_self _)]
    exact hend
  have hlength := congrArg List.length heq
  rw [List.length_drop, List.length_append, List.length_take_of_le hp] at hlength
  have hshort : l.length + 1 ≤ header.length := by
    rw [hfirst]
    simp only [List.length_append, List.length_cons]
    omega
  have hended : '\n' ∈ header.drop p := by
    rw [← List.getElem?_drop] at hback
    exact List.mem_of_getElem? hback
  obtain ⟨l', hl', -, hsplit⟩ := split_line hended
  have hlength' := congrArg List.length hsplit
  simp only [List.length_append, List.length_cons, List.length_take_of_le hp] at hlength'
  have hzero : p % (l.length + 1) = 0 := by
    by_contra hne
    rw [hsplit, List.getElem?_append_right (by rw [List.length_take_of_le hp]; omega),
      List.length_take_of_le hp, List.getElem?_append_left (by omega)] at hback
    exact hl' (List.mem_of_getElem? hback)
  -- so the blank behind the keyword was there in the first line
  have hnext := hat.2.2
  have hi : (p + k.text.length) % (l.length + 1) = k.text.length := by
    rw [Nat.add_mod, hzero, Nat.zero_add, Nat.mod_mod, Nat.mod_eq_of_lt hkey]
  rwa [hmod (by omega), hi] at hnext

/-- Where the entry's line is deleted, the header is separated from the keyword. -/
theorem separated_of_deletesOwn {memory : Text} (h : DeletesOwn memory k.text) :
    Separated (stringAt memory 0) k.text := by
  intro hpre
  have hfind := asciiHeaderFind_zero k.nonempty hpre
  have hle : delEol (stringAt memory 0) 0 ≤ (stringAt memory 0).length :=
    h.within _ (by rw [delReads, hfind]; rfl)
  have hnl := (delEol_le_iff (Nat.zero_le _)).mp hle
  rw [List.drop_zero] at hnl
  have hexact := h.exact
  rw [asciiHeaderDel, hfind] at hexact
  simp only [List.take_zero, List.nil_append, stringAt_eq_drop hle] at hexact
  cases hp : entryAt (stringAt memory 0) k.text with
  | none => simp [hp] at hexact
  | some p =>
    rw [hp] at hexact
    exact separated_of_cut hpre hnl (entryAt_some hp) (Option.some.inj hexact)

/-- Only on tidy headers do both functions act on the keyword's own line. -/
theorem OneLine.tidy {memory : Text} (h : OneLine memory k.text) :
    Tidy (stringAt memory 0) k.text := by
  obtain ⟨hget, hdel⟩ := h
  have hsep := separated_of_deletesOwn hdel
  have hended : ∀ p, entryAt (stringAt memory 0) k.text = some p →
      '\n' ∈ (stringAt memory 0).drop p := by
    intro p hp
    have hreads := hdel.within (delEol (stringAt memory 0) p) (by
      rw [delReads, asciiHeaderFind_eq_entryAt hsep, hp]
      rfl)
    exact (delEol_le_iff (entryAt_some hp).lt.le).mp hreads
  refine ⟨hsep, (getsOwn_iff hsep).mp hget, hended, ?_⟩
  rintro p hp rfl honce hpre
  by_contra hblank
  have hleft := asciiHeaderDel_exact hsep hended
  rw [hp, Option.map_some, List.take_zero, List.nil_append] at hleft
  have hnone := hdel.gone 0 hp honce _ hleft Conversion.word
  rw [asciiHeaderScan, asciiHeaderFind_zero k.nonempty hpre] at hnone
  have hsome := scanWord_isSome hblank
  have hscan : scanWord ((afterLine (stringAt memory 0) 0).drop
    (strcspn (afterLine (stringAt memory 0) 0) whitespace)) = none := hnone
  rw [hscan] at hsome
  exact absurd hsome (by simp)

/-- **Reading and deleting.** Both functions act on exactly the keyword's own line if and only if the
header is tidy. -/
theorem oneLine_iff (memory : Text) (k : Word) :
    OneLine memory k.text ↔ Tidy (stringAt memory 0) k.text :=
  ⟨OneLine.tidy, Tidy.oneLine⟩

/-- The value of the next line is read for an empty one. -/
theorem empty_value_read : ¬ ∀ (memory : Text) (k : Word), '\x00' ∈ memory → OneLine memory k.text := by
  intro h
  have hline := h "BW \nFREQ 1400\n\x00".toList .bw (by decide)
  have hnone := (hline.1 Conversion.word).empty 0 (by decide) (by unfold Valueless; decide)
  revert hnone
  decide +kernel

end Psrdada
