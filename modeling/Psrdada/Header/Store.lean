import Psrdada.Header.OneLine
import Psrdada.Header.SetGet
import Mathlib.Logic.Function.Basic

/-! # A header as a store

Programs take a header for a map from keywords to values.  `Store` is the class of headers for which
this is right: a first line, and further lines that each have at most one entry, with its value on the
same line, no two of them for the same keyword, and no line that ends in `DATA`.

`ascii_header_find` is followed line by line: `get_text`, `set_text` and `del_text` say what
`ascii_header_get`, `ascii_header_set` and `ascii_header_del` do to the list of lines.  Whatever is set
and deleted, in any order, the header stays in the class and has the contents that a map would have. -/

namespace Psrdada

open CString

instance : DecidableEq Word := fun a b =>
  decidable_of_iff (a.text = b.text) ⟨Word.ext, congrArg Word.text⟩

/-! ## Lines -/

/-- A text of lines. -/
def joinLines : List Text → Text
  | [] => []
  | l :: ls => l ++ '\n' :: joinLines ls

@[simp] theorem joinLines_append (ls ms : List Text) :
    joinLines (ls ++ ms) = joinLines ls ++ joinLines ms := by
  induction ls with
  | nil => rfl
  | cons l ls ih => simp [joinLines, ih]

/-- Whether a character may stand in a line: neither the end of one, nor of the header. -/
def LineChar (c : Char) : Prop := c ≠ '\n' ∧ c ≠ '\\' ∧ c ≠ '\x00'

instance (c : Char) : Decidable (LineChar c) := inferInstanceAs (Decidable (_ ∧ _))

/-- Whether a line, not the first one, has the entry of a keyword. -/
def HoldsKey (k : Word) (l : Text) : Prop := IsEntry k.text (some '\n') (l ++ ['\n'])

instance (k : Word) : DecidablePred (HoldsKey k) :=
  fun l => inferInstanceAs (Decidable (IsEntry k.text (some '\n') (l ++ ['\n'])))

/-- The value on a line. -/
def lineValue (l : Text) : Option Text := entryValue (l ++ ['\n'])

/-- The comment of a line. -/
def comment (l : Text) : Text := l.dropWhile (· ≠ '#')

section Line

variable {k k' : Word} {l : Text} {before : Option Char}

/-- A keyword begins a line if it begins the text from there. -/
theorem prefix_line (l rest : Text) : k.text <+: l ++ '\n' :: rest ↔ k.text <+: l :=
  prefix_append_cons (Word.not_mem_of_isspace rfl)

/-- At the start of the header an entry is a line that begins with the keyword. -/
theorem isEntry_none (l : Text) : IsEntry k.text none (l ++ ['\n']) ↔ k.text <+: l := by
  constructor
  · rintro ⟨hpre, -⟩
    exact (prefix_line l []).mp hpre
  · intro hpre
    exact ⟨(prefix_line l []).mpr hpre, .inl rfl⟩

/-- In one line there is at most the entry that it begins with. -/
theorem firstEntry_oneLine (hl : ∀ c ∈ l, LineChar c) :
    firstEntry k.text before (l ++ ['\n']) =
      if IsEntry k.text before (l ++ ['\n']) then some 0 else none := by
  have hnl (b : Option Char) : firstEntry k.text b ['\n'] = none := by
    rw [firstEntry, if_neg (not_isEntry_cons (Word.not_mem_of_isspace rfl))]
    rfl
  by_cases he : IsEntry k.text before (l ++ ['\n'])
  · rw [if_pos he]
    cases l with
    | nil => exact absurd he (not_isEntry_cons (Word.not_mem_of_isspace rfl))
    | cons c l =>
      rw [List.cons_append] at he ⊢
      rw [firstEntry, if_pos he]
  · rw [if_neg he]
    rcases List.eq_nil_or_concat l with rfl | ⟨_, _, hne⟩
    · exact hnl before
    · have hne : l ≠ [] := by
        rw [hne]
        simp
      rw [firstEntry_line hne (fun c hc => ⟨(hl c hc).1, (hl c hc).2.1⟩) he, hnl]
      rfl

/-- The entry of a keyword is the first line that has one. -/
theorem firstEntry_lines {ls : List Text} (hl : ∀ l ∈ ls, ∀ c ∈ l, LineChar c) :
    (firstEntry k.text (some '\n') (joinLines ls) = none ∧ ∀ l ∈ ls, ¬ HoldsKey k l) ∨
      ∃ as l bs, ls = as ++ l :: bs ∧ (∀ m ∈ as, ¬ HoldsKey k m) ∧ HoldsKey k l ∧
        firstEntry k.text (some '\n') (joinLines ls) = some (joinLines as).length := by
  induction ls with
  | nil => exact .inl ⟨rfl, by simp⟩
  | cons l ls ih =>
    have hfind : firstEntry k.text (some '\n') (joinLines (l :: ls)) =
        (if HoldsKey k l then some 0 else none).or
          ((firstEntry k.text (some '\n') (joinLines ls)).map (· + (l.length + 1))) := by
      rw [joinLines, firstEntry_append, firstEntry_oneLine (hl l List.mem_cons_self)]
      rfl
    by_cases he : HoldsKey k l
    · refine .inr ⟨[], l, ls, rfl, by simp, he, ?_⟩
      rw [hfind, if_pos he]
      rfl
    · rw [hfind, if_neg he, Option.none_or]
      rcases ih fun m hm => hl m (List.mem_cons_of_mem _ hm) with ⟨hnone, hall⟩ | ⟨as, m, bs, rfl, has,
        hm, hsome⟩
      · refine .inl ⟨by rw [hnone]; rfl, ?_⟩
        exact List.forall_mem_cons.mpr ⟨he, hall⟩
      · refine .inr ⟨l :: as, m, bs, rfl, List.forall_mem_cons.mpr ⟨he, has⟩, hm, ?_⟩
        rw [hsome, joinLines, Option.map_some, List.length_append, List.length_cons]
        congr 1
        omega

/-- A comment is a part of its line. -/
theorem comment_sublist (l : Text) : ∀ c ∈ comment l, c ∈ l := fun _ hc =>
  (List.dropWhile_sublist _).subset hc

/-- What `ascii_header_set` keeps of a line is its comment. -/
theorem drop_comment (l rest : Text) (hl : ∀ c ∈ l, LineChar c) :
    (l ++ '\n' :: rest).drop (strcspn (l ++ '\n' :: rest) "#\n".toList) =
      comment l ++ '\n' :: rest := by
  induction l with
  | nil => rfl
  | cons c l ih =>
    rw [List.forall_mem_cons] at hl
    by_cases hc : c = '#'
    · subst hc
      rfl
    · have hmem : c ∉ "#\n".toList := by simpa using ⟨hc, hl.1.1⟩
      rw [List.cons_append, strcspn_cons_of_not_mem hmem, List.drop_succ_cons, ih hl.2, comment,
        comment, List.dropWhile_cons_of_pos (by simpa using hc)]

/-- What `ascii_header_del` keeps begins behind the line. -/
theorem strcspn_line (l rest : Text) (hl : ∀ c ∈ l, LineChar c) :
    strcspn (l ++ '\n' :: rest) ['\n'] = l.length := by
  induction l with
  | nil => rfl
  | cons c l ih =>
    rw [List.forall_mem_cons] at hl
    rw [List.cons_append, strcspn_cons_of_not_mem (by simpa using hl.1.1), ih hl.2, List.length_cons]

/-- A line that was written for a keyword is the entry of that keyword and of no other. -/
theorem holdsKey_entry (v : Word) (l : Text) :
    HoldsKey k' (entryText k.text v.text ++ comment l) ↔ k' = k := by
  constructor
  · intro h
    have he : IsEntry k'.text (some '\n') (entryText k.text v.text ++ (comment l ++ ['\n'])) := by
      rw [← List.append_assoc]
      exact h
    exact isEntry_entryText he (by simp)
  · rintro rfl
    obtain ⟨gap, tail, heq, -⟩ := entryText_split k'.text v.text
    rw [HoldsKey, heq, List.append_assoc, List.append_assoc, List.cons_append]
    exact ⟨List.prefix_append _ _, .inr ⟨.inl rfl, .inr (by simp)⟩⟩

/-- An entry is the beginning of a line. -/
theorem lineChar_entry {v : Word} (hk : '\x00' ∉ k.text) (hv : '\x00' ∉ v.text) :
    ∀ c ∈ entryText k.text v.text, LineChar c := by
  intro c hc
  obtain ⟨hnl, hback⟩ := entryText_line k v c hc
  refine ⟨hnl, hback, ?_⟩
  rintro rfl
  obtain ⟨gap, tail, heq, hgap, htail⟩ := entryText_split k.text v.text
  rw [heq] at hc
  simp only [List.mem_append, List.mem_cons] at hc
  rcases hc with hc | hc | hc | hc | hc | hc
  · exact hk hc
  · revert hc
    decide
  · exact absurd (hgap _ hc) (by decide)
  · exact hv hc
  · revert hc
    decide
  · exact absurd (htail _ hc) (by decide)

/-- It has the value that was written. -/
theorem lineValue_entry (v : Word) (l : Text) :
    lineValue (entryText k.text v.text ++ comment l) = some v.text := by
  obtain ⟨gap, tail, heq, hgap, -⟩ := entryText_split k.text v.text
  rw [lineValue, heq]
  simpa using entryValue_word k v (tail ++ (comment l ++ ['\n'])) hgap

/-- It does not end in `DATA`, unless its comment does. -/
theorem not_data_entry (v : Word) (hl : ¬ dataWord <:+ l) :
    ¬ dataWord <:+ entryText k.text v.text ++ comment l := by
  intro h
  rcases hc : comment l with - | ⟨c, t⟩
  · -- an entry ends in spaces
    obtain ⟨s, hs⟩ := h
    have hlast : (s ++ dataWord).getLast? = (entryText k.text v.text).getLast? := by
      rw [hs, hc, List.append_nil]
    rw [entryText, ← List.singleton_append, ← List.append_assoc, List.getLast?_append,
      List.getLast?_append] at hlast
    simp [dataWord] at hlast
  · -- a comment begins with a mark that is not in `DATA`
    rcases List.suffix_or_suffix_of_suffix h (List.suffix_append _ (comment l)) with h | h
    · exact hl (h.trans (List.dropWhile_suffix _))
    · have hmark : c = '#' := by
        have := List.head?_dropWhile_not (fun c : Char => decide (c ≠ '#')) l
        rw [← comment, hc] at this
        simpa using this
      have hmem : c ∈ dataWord := h.subset (by rw [hc]; exact List.mem_cons_self)
      rw [hmark] at hmem
      revert hmem
      decide

end Line

/-! ## Stores -/

/-- The lines of a header after the entry of a keyword has been set. -/
def putLine (k : Word) (entry : Text) : List Text → List Text
  | [] => [entry]
  | l :: ls => if HoldsKey k l then (entry ++ comment l) :: ls else l :: putLine k entry ls

/-- The lines of a header after the entry of a keyword has been deleted. -/
def dropLine (k : Word) (ls : List Text) : List Text := ls.eraseP fun l => HoldsKey k l

/-- A header that holds its entries as a store does. -/
structure Store where
  /-- The first line. -/
  first : Text
  /-- The other lines. -/
  lines : List Text
  /-- The lines are lines of a C string. -/
  plain : ∀ l ∈ first :: lines, ∀ c ∈ l, LineChar c
  /-- No line ends in `DATA`. -/
  noData : ∀ l ∈ first :: lines, ¬ dataWord <:+ l
  /-- The first line has a value, whatever part of its first word is looked for. -/
  leads : ∀ k : Word, k.text <+: first → (lineValue first).isSome
  /-- Every entry has a value on its line. -/
  valued : ∀ l ∈ lines, ∀ k : Word, HoldsKey k l → (lineValue l).isSome
  /-- No keyword has two entries. -/
  single : lines.Pairwise fun l l' => ∀ k : Word, HoldsKey k l → ¬ HoldsKey k l'

namespace Store

/-- The characters of the header. -/
def text (s : Store) : Text := joinLines (s.first :: s.lines)

/-- Whether the entry of a keyword is not the first line, which `ascii_header_find` takes for an entry
of everything that it begins with. -/
def Free (s : Store) (k : Word) : Prop := ¬ k.text <+: s.first

instance (s : Store) (k : Word) : Decidable (s.Free k) := inferInstanceAs (Decidable (¬ _))

/-- What the header holds, as a map. -/
def contents (s : Store) (k : Word) : Option Text :=
  if k.text <+: s.first then lineValue s.first
  else (s.lines.find? fun l => HoldsKey k l).bind lineValue

variable {s : Store} {k : Word}

theorem plain_lines (s : Store) : ∀ l ∈ s.lines, ∀ c ∈ l, LineChar c := fun l hl =>
  s.plain l (List.mem_cons_of_mem _ hl)

/-- Where the entry of a keyword is that is not in the first line. -/
theorem find_text (h : s.Free k) :
    asciiHeaderFind s.text k.text =
      (firstEntry k.text (some '\n') (joinLines s.lines)).map (· + (s.first.length + 1)) := by
  have hfirst : firstEntry k.text none (s.first ++ ['\n']) = none := by
    rw [firstEntry_oneLine (s.plain _ List.mem_cons_self), if_neg]
    intro he
    exact h ((isEntry_none s.first).mp he)
  rw [asciiHeaderFind_eq k.nonempty, text, joinLines, firstEntry_append, hfirst, Option.none_or]

/-- The two cases of a search: no line has the entry, or there is a first one. -/
theorem find_cases (h : s.Free k) :
    (asciiHeaderFind s.text k.text = none ∧ ∀ l ∈ s.lines, ¬ HoldsKey k l) ∨
      ∃ as l bs, s.lines = as ++ l :: bs ∧ (∀ m ∈ as, ¬ HoldsKey k m) ∧ HoldsKey k l ∧
        asciiHeaderFind s.text k.text = some (joinLines (s.first :: as)).length := by
  rw [find_text h]
  rcases firstEntry_lines (k := k) s.plain_lines with ⟨hnone, hall⟩ | ⟨as, l, bs, hs, has, hl, hsome⟩
  · exact .inl ⟨by rw [hnone]; rfl, hall⟩
  · refine .inr ⟨as, l, bs, hs, has, hl, ?_⟩
    rw [hsome, joinLines, Option.map_some, List.length_append, List.length_cons]
    congr 1
    omega

theorem text_split {as bs : List Text} {l : Text} (hs : s.lines = as ++ l :: bs) :
    s.text = joinLines (s.first :: as) ++ (l ++ '\n' :: joinLines bs) := by
  rw [text, hs, ← List.cons_append, joinLines_append]
  rfl

/-- `ascii_header_get` reads what the header holds. -/
theorem get_text (s : Store) (k : Word) : asciiHeaderGet s.text k.text = s.contents k := by
  by_cases hpre : k.text <+: s.first
  · have hfind : firstEntry k.text none (s.first ++ ['\n']) = some 0 := by
      rw [firstEntry_oneLine (s.plain _ List.mem_cons_self), if_pos ((isEntry_none _).mpr hpre)]
    obtain ⟨v, hv⟩ := Option.isSome_iff_exists.mp (s.leads k hpre)
    rw [contents, if_pos hpre, asciiHeaderGet_eq, text, joinLines, firstEntry_append, hfind,
      Option.some_or, Option.bind_some, List.drop_zero, entryValue_append]
    rw [lineValue] at hv ⊢
    rw [hv]
    rfl
  · rw [contents, if_neg hpre, asciiHeaderGet_eq, ← asciiHeaderFind_eq k.nonempty]
    rcases find_cases hpre with ⟨hnone, hall⟩ | ⟨as, l, bs, hs, has, hl, hsome⟩
    · have hno : s.lines.find? (fun l => HoldsKey k l) = none := by
        simpa using hall
      rw [hnone, hno]
      rfl
    · have hmem : l ∈ s.lines := by
        rw [hs]
        simp
      have hfound : s.lines.find? (fun l => HoldsKey k l) = some l := by
        rw [hs, List.find?_append, List.find?_eq_none.mpr (by simpa using has), Option.none_or,
          List.find?_cons_of_pos (by simpa using hl)]
      obtain ⟨v, hv⟩ := Option.isSome_iff_exists.mp (s.valued l hmem k hl)
      rw [hsome, hfound, Option.bind_some, Option.bind_some, text_split hs, List.drop_left,
        entryValue_append]
      rw [lineValue] at hv ⊢
      rw [hv]
      rfl

theorem zero_joinLines {ls : List Text} (hplain : ∀ l ∈ ls, ∀ c ∈ l, LineChar c) :
    ∀ c ∈ joinLines ls, c ≠ '\x00' := by
  induction ls with
  | nil => simp [joinLines]
  | cons l ls ih =>
    rw [List.forall_mem_cons] at hplain
    intro c hc
    simp only [joinLines, List.mem_append, List.mem_cons] at hc
    rcases hc with hc | rfl | hc
    · exact (hplain.1 c hc).2.2
    · decide
    · exact ih hplain.2 c hc

/-- No line ends in `DATA`, so there is no `DATA` in front of which an entry would be placed. -/
theorem data_joinLines {ls : List Text} (hplain : ∀ l ∈ ls, ∀ c ∈ l, LineChar c)
    (hdata : ∀ l ∈ ls, ¬ dataWord <:+ l) (n : ℕ) : ¬ "DATA\n".toList <+: (joinLines ls).drop n := by
  induction ls generalizing n with
  | nil =>
    rw [joinLines, List.drop_nil]
    decide
  | cons l ls ih =>
    rw [List.forall_mem_cons] at hplain hdata
    intro h
    rcases Nat.lt_or_ge l.length n with hlt | hge
    · -- further down
      obtain ⟨m, rfl⟩ := Nat.exists_eq_add_of_lt hlt
      refine ih hplain.2 hdata.2 m ?_
      have hsplit : joinLines (l :: ls) = (l ++ ['\n']) ++ joinLines ls := by simp [joinLines]
      have hlen : l.length + m + 1 = (l ++ ['\n']).length + m := by
        simp only [List.length_append, List.length_singleton]
        omega
      rwa [hsplit, hlen, ← List.drop_drop, List.drop_left] at h
    · -- on this line: its end is the end of `DATA`
      rw [joinLines, List.drop_append_of_le_length hge] at h
      have hone : dataWord ++ ['\n'] <+: l.drop n ++ '\n' :: joinLines ls := h
      have hword : dataWord <+: l.drop n := by
        refine (prefix_append_cons (c := '\n') (by decide)).mp ((List.prefix_append _ _).trans hone)
      obtain ⟨t, ht⟩ := hword
      rw [← ht, List.append_assoc, List.prefix_append_right_inj] at hone
      cases t with
      | nil =>
        refine hdata.1 ((?_ : dataWord <:+ l.drop n).trans (List.drop_suffix _ _))
        rw [← ht, List.append_nil]
      | cons c t =>
        obtain ⟨u, hu⟩ := hone
        have hc : '\n' = c := by simpa using congrArg List.head? hu
        refine (hplain.1 c ?_).1 hc.symm
        refine List.mem_of_mem_drop (i := n) ?_
        rw [← ht]
        simp

theorem strstr_data (s : Store) : strstr "DATA\n".toList s.text = none := by
  cases h : strstr "DATA\n".toList s.text with
  | none => rfl
  | some n => exact absurd (strstr_some h) (data_joinLines s.plain s.noData n)

theorem putLine_of_absent {ls : List Text} (entry : Text) (h : ∀ l ∈ ls, ¬ HoldsKey k l) :
    putLine k entry ls = ls ++ [entry] := by
  induction ls with
  | nil => rfl
  | cons l ls ih =>
    rw [List.forall_mem_cons] at h
    rw [putLine, if_neg h.1, ih h.2, List.cons_append]

theorem putLine_of_found {as bs : List Text} {l : Text} (entry : Text) (has : ∀ m ∈ as, ¬ HoldsKey k m)
    (hl : HoldsKey k l) : putLine k entry (as ++ l :: bs) = as ++ (entry ++ comment l) :: bs := by
  induction as with
  | nil => rw [List.nil_append, putLine, if_pos hl, List.nil_append]
  | cons m as ih =>
    rw [List.forall_mem_cons] at has
    rw [List.cons_append, putLine, if_neg has.1, ih has.2, List.cons_append]

/-- `ascii_header_set` puts the entry in the lines. -/
theorem place_text (h : s.Free k) (entry : Text) :
    placeEntry s.text k.text entry = joinLines (s.first :: putLine k entry s.lines) := by
  rcases find_cases h with ⟨hnone, hall⟩ | ⟨as, l, bs, hs, has, hl, hsome⟩
  · rw [placeEntry_of_end hnone s.strstr_data, putLine_of_absent entry hall, text, ← List.cons_append,
      joinLines_append, List.append_assoc]
    rfl
  · have hplain : ∀ c ∈ l, LineChar c := s.plain_lines l (by rw [hs]; simp)
    unfold placeEntry
    simp only [hsome]
    rw [text_split hs, List.take_left, List.drop_left, drop_comment l _ hplain, hs,
      putLine_of_found entry has hl, ← List.cons_append, joinLines_append]
    simp [joinLines]

theorem dropLine_of_found {as bs : List Text} {l : Text} (has : ∀ m ∈ as, ¬ HoldsKey k m)
    (hl : HoldsKey k l) : dropLine k (as ++ l :: bs) = as ++ bs := by
  rw [dropLine, List.eraseP_append_right _ (by simpa using has), List.eraseP_cons_of_pos (by simpa using hl)]

theorem stringAt_text (s : Store) (beyond : Text) :
    stringAt (s.text ++ '\x00' :: beyond) 0 = s.text := by
  have hplain : ∀ c ∈ s.text, c ≠ '\x00' := zero_joinLines s.plain
  rw [stringAt, List.drop_zero, List.takeWhile_append_of_pos (by simpa using hplain)]
  simp

/-- `ascii_header_del` takes the line out, and says whether there was one. -/
theorem del_text (h : s.Free k) (beyond : Text) :
    asciiHeaderDel (s.text ++ '\x00' :: beyond) k.text =
      if ∃ l ∈ s.lines, HoldsKey k l then some (joinLines (s.first :: dropLine k s.lines))
      else none := by
  unfold asciiHeaderDel
  rw [s.stringAt_text beyond]
  rcases find_cases h with ⟨hnone, hall⟩ | ⟨as, l, bs, hs, has, hl, hsome⟩
  · rw [if_neg (by simpa using hall)]
    simp only [hnone]
  · have hmem : l ∈ s.lines := by
      rw [hs]
      simp
    have hplain := s.plain_lines l hmem
    have hsplit : s.text = (joinLines (s.first :: as) ++ (l ++ ['\n'])) ++ joinLines bs := by
      rw [text_split hs]
      simp
    have heol : delEol s.text (joinLines (s.first :: as)).length =
        (joinLines (s.first :: as) ++ (l ++ ['\n'])).length := by
      rw [delEol, text_split hs, List.drop_left, strcspn_line l _ hplain]
      simp only [List.length_append, List.length_singleton]
      omega
    have hle : delEol s.text (joinLines (s.first :: as)).length ≤ s.text.length := by
      rw [heol, hsplit]
      exact (List.prefix_append _ _).length_le
    rw [if_pos ⟨l, hmem, hl⟩]
    simp only [hsome]
    rw [stringAt_eq_drop (by rwa [s.stringAt_text beyond]), s.stringAt_text beyond, heol]
    conv_lhs => rw [hsplit]
    rw [List.drop_left, List.append_assoc, List.take_left, hs, dropLine_of_found has hl,
      ← List.cons_append, joinLines_append]

/-! ## What an edit makes of a store -/

/-- The lines that an edit leaves hold, for another keyword, what they held. -/
theorem find?_other (as ms bs : List Text) {l : Text} {k' : Word} (hl : ¬ HoldsKey k' l)
    (hms : ∀ m ∈ ms, ¬ HoldsKey k' m) :
    (as ++ ms ++ bs).find? (fun l => HoldsKey k' l) = (as ++ l :: bs).find? fun l => HoldsKey k' l := by
  have hnone : ms.find? (fun l => HoldsKey k' l) = none :=
    List.find?_eq_none.mpr (by simpa using hms)
  rw [List.append_assoc, List.find?_append, List.find?_append, List.find?_append, hnone,
    Option.none_or, List.find?_cons_of_neg (by simpa using hl)]

/-- Two keywords do not share a line. -/
theorem not_holdsKey {k' : Word} {l : Text} (hne : k' ≠ k) (hl : HoldsKey k l) : ¬ HoldsKey k' l :=
  fun hl' => hne (isEntry_unique hl hl')

/-- No line has the entry of a keyword, or there is a first one. -/
theorem lines_cases (k : Word) (ls : List Text) : (∀ l ∈ ls, ¬ HoldsKey k l) ∨
    ∃ as l bs, ls = as ++ l :: bs ∧ (∀ m ∈ as, ¬ HoldsKey k m) ∧ HoldsKey k l := by
  cases h : ls.find? (fun l => HoldsKey k l) with
  | none => exact .inl (by simpa using h)
  | some l =>
    obtain ⟨hl, as, bs, hs, has⟩ := List.find?_eq_some_iff_append.mp h
    exact .inr ⟨as, l, bs, hs, by simpa using has, by simpa using hl⟩

/-- The entry of a keyword is put on a new line, or in the place of the line that had it. -/
theorem putLine_cases (k : Word) (entry : Text) (ls : List Text) :
    ((∀ l ∈ ls, ¬ HoldsKey k l) ∧ putLine k entry ls = ls ++ [entry]) ∨
      ∃ as l bs, ls = as ++ l :: bs ∧ (∀ m ∈ as, ¬ HoldsKey k m) ∧ HoldsKey k l ∧
        putLine k entry ls = as ++ (entry ++ comment l) :: bs := by
  rcases lines_cases k ls with hall | ⟨as, l, bs, rfl, has, hl⟩
  · exact .inl ⟨hall, putLine_of_absent entry hall⟩
  · exact .inr ⟨as, l, bs, rfl, has, hl, putLine_of_found entry has hl⟩

/-- Every line after an entry has been put is an old one or the new one. -/
theorem mem_putLine {entry m : Text} {ls : List Text} (hm : m ∈ putLine k entry ls) :
    m ∈ ls ∨ m = entry ++ comment [] ∨ ∃ l ∈ ls, m = entry ++ comment l := by
  rcases putLine_cases k entry ls with ⟨-, hput⟩ | ⟨as, l, bs, rfl, -, -, hput⟩
  · rw [hput, List.mem_append, List.mem_singleton] at hm
    rcases hm with hm | rfl
    · exact .inl hm
    · exact .inr (.inl (by simp [comment]))
  · rw [hput] at hm
    simp only [List.mem_append, List.mem_cons] at hm ⊢
    rcases hm with hm | rfl | hm
    · exact .inl (.inl hm)
    · exact .inr (.inr ⟨l, .inr (.inl rfl), rfl⟩)
    · exact .inl (.inr (.inr hm))

/-- The header after the entry of a keyword has been set. -/
def put (s : Store) (k v : Word) (hk : '\x00' ∉ k.text) (hv : '\x00' ∉ v.text) : Store where
  first := s.first
  lines := putLine k (entryText k.text v.text) s.lines
  plain := by
    have hentry : ∀ c ∈ entryText k.text v.text, LineChar c := lineChar_entry hk hv
    have hnew (l : Text) (hl : ∀ c ∈ l, LineChar c) :
        ∀ c ∈ entryText k.text v.text ++ comment l, LineChar c := by
      intro c hc
      rcases List.mem_append.mp hc with hc | hc
      · exact hentry c hc
      · exact hl c (comment_sublist l c hc)
    refine List.forall_mem_cons.mpr ⟨s.plain _ List.mem_cons_self, fun m hm => ?_⟩
    rcases mem_putLine hm with hm | rfl | ⟨l, hl, rfl⟩
    · exact s.plain_lines m hm
    · exact hnew [] (by simp)
    · exact hnew l (s.plain_lines l hl)
  noData := by
    refine List.forall_mem_cons.mpr ⟨s.noData _ List.mem_cons_self, fun m hm => ?_⟩
    rcases mem_putLine hm with hm | rfl | ⟨l, hl, rfl⟩
    · exact s.noData m (List.mem_cons_of_mem _ hm)
    · exact not_data_entry v (by decide)
    · exact not_data_entry v (s.noData l (List.mem_cons_of_mem _ hl))
  leads := s.leads
  valued := by
    intro m hm k' hk'
    rcases mem_putLine hm with hm | rfl | ⟨l, hl, rfl⟩
    · exact s.valued m hm k' hk'
    · rw [lineValue_entry]
      rfl
    · rw [lineValue_entry]
      rfl
  single := by
    rcases putLine_cases k (entryText k.text v.text) s.lines with ⟨hall, hput⟩ | ⟨as, l, bs, hs, has, hl,
      hput⟩
    · rw [hput, List.pairwise_append]
      refine ⟨s.single, List.pairwise_singleton _ _, ?_⟩
      intro m hm l hl k' hk' hnew
      obtain rfl := List.mem_singleton.mp hl
      have hnew' : HoldsKey k' (entryText k.text v.text ++ comment []) := by simpa [comment] using hnew
      rw [holdsKey_entry] at hnew'
      exact hall m hm (hnew' ▸ hk')
    · have hsingle := s.single
      rw [hs, List.pairwise_append, List.pairwise_cons] at hsingle
      obtain ⟨has', ⟨hbs, hbs'⟩, hcross⟩ := hsingle
      rw [hput, List.pairwise_append, List.pairwise_cons]
      refine ⟨has', ⟨?_, hbs'⟩, ?_⟩
      · intro m hm k' hk' hm'
        rw [holdsKey_entry] at hk'
        exact hbs m hm k hl (hk' ▸ hm')
      · intro m hm l' hl' k' hk'
        rcases List.mem_cons.mp hl' with rfl | hl'
        · rw [holdsKey_entry]
          rintro rfl
          exact has m hm hk'
        · exact hcross m hm l' (List.mem_cons_of_mem _ hl') k' hk'

/-- The header after the entry of a keyword has been deleted. -/
def erase (s : Store) (k : Word) : Store where
  first := s.first
  lines := dropLine k s.lines
  plain := by
    refine List.forall_mem_cons.mpr ⟨s.plain _ List.mem_cons_self, fun m hm => ?_⟩
    exact s.plain_lines m (List.mem_of_mem_eraseP hm)
  noData := by
    refine List.forall_mem_cons.mpr ⟨s.noData _ List.mem_cons_self, fun m hm => ?_⟩
    exact s.noData m (List.mem_cons_of_mem _ (List.mem_of_mem_eraseP hm))
  leads := s.leads
  valued := fun m hm => s.valued m (List.mem_of_mem_eraseP hm)
  single := s.single.sublist List.eraseP_sublist

/-- `ascii_header_set` sets the entry. -/
theorem set_text (h : s.Free k) {v : Word} (hk : '\x00' ∉ k.text) (hv : '\x00' ∉ v.text)
    (hshort : v.text.length < strlen) :
    asciiHeaderSet s.text k.text v.text = (s.put k v hk hv).text := by
  rw [asciiHeaderSet, List.take_of_length_le (by omega), place_text h]
  rfl

/-- A keyword whose entry has been set has the value that was written, the others have their own. -/
theorem contents_put (h : s.Free k) {v : Word} (hk : '\x00' ∉ k.text) (hv : '\x00' ∉ v.text) :
    (s.put k v hk hv).contents = Function.update s.contents k (some v.text) := by
  funext k'
  by_cases hne : k' = k
  · subst hne
    show (if k'.text <+: s.first then lineValue s.first
      else ((putLine k' (entryText k'.text v.text) s.lines).find? fun l => HoldsKey k' l).bind lineValue) = _
    rw [Function.update_self, if_neg h]
    rcases putLine_cases k' (entryText k'.text v.text) s.lines with ⟨hall, hput⟩ | ⟨as, l, bs, -, has,
      -, hput⟩
    · have hnew : HoldsKey k' (entryText k'.text v.text ++ comment []) := (holdsKey_entry v []).mpr rfl
      rw [comment, List.dropWhile_nil, List.append_nil] at hnew
      rw [hput, List.find?_append, List.find?_eq_none.mpr (by simpa using hall), Option.none_or,
        List.find?_cons_of_pos (by simpa using hnew), Option.bind_some]
      simpa [comment] using lineValue_entry (k := k') v []
    · have hnew : HoldsKey k' (entryText k'.text v.text ++ comment l) := (holdsKey_entry v l).mpr rfl
      rw [hput, List.find?_append, List.find?_eq_none.mpr (by simpa using has), Option.none_or,
        List.find?_cons_of_pos (by simpa using hnew), Option.bind_some, lineValue_entry]
  · have hnew (l : Text) : ¬ HoldsKey k' (entryText k.text v.text ++ comment l) := fun hh =>
      hne ((holdsKey_entry v l).mp hh)
    have hfind : (putLine k (entryText k.text v.text) s.lines).find? (fun l => HoldsKey k' l) =
        s.lines.find? fun l => HoldsKey k' l := by
      rcases putLine_cases k (entryText k.text v.text) s.lines with ⟨-, hput⟩ | ⟨as, l, bs, hs, -, hl,
        hput⟩
      · have hnew' : ¬ HoldsKey k' (entryText k.text v.text) := by simpa [comment] using hnew []
        rw [hput, List.find?_append, List.find?_cons_of_neg (by simpa using hnew'), List.find?_nil,
          Option.or_none]
      · rw [hput, hs, ← find?_other as [entryText k.text v.text ++ comment l] bs
          (not_holdsKey hne hl) (by simpa using hnew l)]
        simp
    rw [Function.update_of_ne hne, contents, contents]
    show (if k'.text <+: s.first then lineValue s.first
      else ((putLine k (entryText k.text v.text) s.lines).find? fun l => HoldsKey k' l).bind lineValue) = _
    rw [hfind]

/-- A keyword whose entry has been deleted has no value, the others have their own. -/
theorem contents_erase (h : s.Free k) :
    (s.erase k).contents = Function.update s.contents k none := by
  funext k'
  show (if k'.text <+: s.first then lineValue s.first
    else ((dropLine k s.lines).find? fun l => HoldsKey k' l).bind lineValue) = _
  rcases lines_cases k s.lines with hall | ⟨as, l, bs, hs, has, hl⟩
  · -- there was no entry
    have hdrop : dropLine k s.lines = s.lines := List.eraseP_of_forall_not (by simpa using hall)
    rw [hdrop]
    by_cases hne : k' = k
    · subst hne
      rw [Function.update_self, if_neg h, List.find?_eq_none.mpr (by simpa using hall), Option.bind_none]
    · rw [Function.update_of_ne hne, contents]
  · rw [hs, dropLine_of_found has hl]
    by_cases hne : k' = k
    · subst hne
      have hsingle := s.single
      rw [hs, List.pairwise_append, List.pairwise_cons] at hsingle
      have hall : ∀ m ∈ as ++ bs, ¬ HoldsKey k' m := by
        intro m hm
        rcases List.mem_append.mp hm with hm | hm
        · exact has m hm
        · exact hsingle.2.1.1 m hm k' hl
      rw [Function.update_self, if_neg h, List.find?_eq_none.mpr (by simpa using hall), Option.bind_none]
    · rw [Function.update_of_ne hne, contents, hs,
        ← find?_other as [] bs (not_holdsKey hne hl) (by simp), List.append_nil]

/-- A map has a value exactly where a line has the entry. -/
theorem isSome_contents (h : s.Free k) :
    (s.contents k).isSome ↔ ∃ l ∈ s.lines, HoldsKey k l := by
  rw [contents, if_neg h]
  rcases lines_cases k s.lines with hall | ⟨as, l, bs, hs, has, hl⟩
  · rw [List.find?_eq_none.mpr (by simpa using hall)]
    simpa using hall
  · have hmem : l ∈ s.lines := by
      rw [hs]
      simp
    have hfound : s.lines.find? (fun l => HoldsKey k l) = some l := by
      rw [hs, List.find?_append, List.find?_eq_none.mpr (by simpa using has), Option.none_or,
        List.find?_cons_of_pos (by simpa using hl)]
    rw [hfound]
    exact ⟨fun _ => ⟨l, hmem, hl⟩, fun _ => s.valued l hmem k hl⟩

end Store

/-! ## Calls -/

/-- The calls that are made on a header.  Behind the header's end the memory of `ascii_header_del` holds
`beyond`. -/
inductive HeaderCall
  | get (keyword : Word)
  | set (keyword value : Word)
  | del (keyword : Word) (beyond : Text)

/-- What a call returns. -/
inductive HeaderAnswer
  /-- The value that is read, if any. -/
  | value (v : Option Text)
  /-- Whether the call returns 0. -/
  | success (ok : Bool)
deriving DecidableEq

namespace HeaderCall

/-- The keyword of a call. -/
def keyword : HeaderCall → Word
  | get k => k
  | set k _ => k
  | del k _ => k

/-- A call on a header: its answer, and the header it leaves. -/
def run : HeaderCall → Text → HeaderAnswer × Text
  | get k, header => (.value (asciiHeaderGet header k.text), header)
  | set k v, header => (.success true, asciiHeaderSet header k.text v.text)
  | del k beyond, header =>
    match asciiHeaderDel (header ++ '\x00' :: beyond) k.text with
    | some header' => (.success true, header')
    | none => (.success false, header)

/-- Calls in order. -/
def runAll : List HeaderCall → Text → List HeaderAnswer × Text
  | [], header => ([], header)
  | c :: cs, header => ((c.run header).1 :: (runAll cs (c.run header).2).1, (runAll cs (c.run header).2).2)

/-- The same call on a map. -/
def onMap : HeaderCall → (Word → Option Text) → HeaderAnswer × (Word → Option Text)
  | get k, m => (.value (m k), m)
  | set k v, m => (.success true, Function.update m k (some v.text))
  | del k _, m => (.success (m k).isSome, Function.update m k none)

/-- The same calls on a map. -/
def allOnMap : List HeaderCall → (Word → Option Text) → List HeaderAnswer × (Word → Option Text)
  | [], m => ([], m)
  | c :: cs, m => ((c.onMap m).1 :: (allOnMap cs (c.onMap m).2).1, (allOnMap cs (c.onMap m).2).2)

/-- Calls with C strings, that do not write over the first line, with values that fit the buffer in which
they are formatted. -/
def Admissible (first : Text) : HeaderCall → Prop
  | get _ => True
  | set k v => ¬ k.text <+: first ∧ '\x00' ∉ k.text ∧ '\x00' ∉ v.text ∧ v.text.length < strlen
  | del k _ => ¬ k.text <+: first

instance (first : Text) : DecidablePred (Admissible first)
  | get _ => inferInstanceAs (Decidable True)
  | set _ _ => inferInstanceAs (Decidable (_ ∧ _ ∧ _ ∧ _))
  | del _ _ => inferInstanceAs (Decidable (¬ _))

/-- By how much a call lengthens a header at most. -/
def growth : HeaderCall → ℕ
  | set k v => (entryText k.text v.text).length + 1
  | _ => 0

end HeaderCall

/-- That a header is a store with given contents, which has grown by no more than `room`. -/
structure IsStore (header first : Text) (contents : Word → Option Text) (room : ℕ) : Prop where
  /-- It is the text of a store. -/
  store : ∃ s : Store, s.text = header ∧ s.first = first ∧ s.contents = contents
  /-- It fits. -/
  length : header.length ≤ room

theorem length_joinLines_put (k : Word) (entry : Text) (ls : List Text) :
    (joinLines (putLine k entry ls)).length ≤ (joinLines ls).length + (entry.length + 1) := by
  induction ls with
  | nil => simp [putLine, joinLines]
  | cons l ls ih =>
    have hcomment : (comment l).length ≤ l.length := (List.dropWhile_sublist _).length_le
    by_cases hl : HoldsKey k l
    · rw [putLine, if_pos hl]
      simp only [joinLines, List.length_append, List.length_cons]
      omega
    · rw [putLine, if_neg hl]
      simp only [joinLines, List.length_append, List.length_cons]
      omega

theorem length_joinLines_drop (k : Word) (ls : List Text) :
    (joinLines (dropLine k ls)).length ≤ (joinLines ls).length := by
  induction ls with
  | nil => exact le_rfl
  | cons l ls ih =>
    by_cases hl : HoldsKey k l
    · rw [dropLine, List.eraseP_cons_of_pos (by simpa using hl)]
      simp only [joinLines, List.length_append, List.length_cons]
      omega
    · rw [dropLine, List.eraseP_cons_of_neg (by simpa using hl), ← dropLine]
      simp only [joinLines, List.length_append, List.length_cons]
      omega

/-- One call on a store answers as a map does, and leaves a store. -/
theorem HeaderCall.run_store (s : Store) {c : HeaderCall} (hc : c.Admissible s.first) {room : ℕ}
    (hroom : s.text.length ≤ room) :
    (c.run s.text).1 = (c.onMap s.contents).1 ∧
      IsStore (c.run s.text).2 s.first (c.onMap s.contents).2 (room + c.growth) := by
  cases c with
  | get k =>
    refine ⟨?_, ⟨s, rfl, rfl, rfl⟩, hroom⟩
    show HeaderAnswer.value (asciiHeaderGet s.text k.text) = _
    rw [s.get_text]
    rfl
  | set k v =>
    obtain ⟨hfree, hk, hv, hshort⟩ := hc
    have htext := Store.set_text hfree hk hv hshort
    refine ⟨rfl, ⟨s.put k v hk hv, htext.symm, rfl, Store.contents_put hfree hk hv⟩, ?_⟩
    have hput := length_joinLines_put k (entryText k.text v.text) s.lines
    show (asciiHeaderSet s.text k.text v.text).length ≤ _
    rw [htext]
    simp only [Store.text, Store.put, joinLines, List.length_append, List.length_cons,
      HeaderCall.growth] at hroom ⊢
    omega
  | del k beyond =>
    have hdel := Store.del_text (s := s) hc beyond
    have hiff := Store.isSome_contents (s := s) hc
    by_cases hsome : ∃ l ∈ s.lines, HoldsKey k l
    · rw [if_pos hsome] at hdel
      have hrun : (HeaderCall.del k beyond).run s.text = (.success true, (s.erase k).text) := by
        unfold HeaderCall.run
        simp only [hdel]
        rfl
      rw [hrun]
      refine ⟨?_, ⟨s.erase k, rfl, rfl, Store.contents_erase hc⟩, ?_⟩
      · show HeaderAnswer.success true = .success (s.contents k).isSome
        rw [hiff.mpr hsome]
      · have hdrop := length_joinLines_drop k s.lines
        simp only [Store.text, Store.erase, joinLines, List.length_append, List.length_cons,
          HeaderCall.growth] at hroom ⊢
        omega
    · rw [if_neg hsome] at hdel
      have hnone : s.contents k = none := by simpa using mt hiff.mp hsome
      have hrun : (HeaderCall.del k beyond).run s.text = (.success false, s.text) := by
        unfold HeaderCall.run
        simp only [hdel]
      rw [hrun]
      refine ⟨?_, ⟨s, rfl, rfl, ?_⟩, hroom⟩
      · show HeaderAnswer.success false = .success (s.contents k).isSome
        rw [hnone]
        rfl
      · show s.contents = Function.update s.contents k none
        rw [← hnone, Function.update_eq_self]

/-- A first line that has a value. -/
theorem leads_headerDada (k : Word) (_ : k.text <+: "HEADER DADA".toList) :
    (lineValue "HEADER DADA".toList).isSome := by
  decide

/-- A header of two lines, the second with a comment. -/
def Store.observation : Store where
  first := "HEADER DADA".toList
  lines := ["FREQ 1400 # MHz".toList]
  plain := by decide
  noData := by decide
  leads := leads_headerDada
  valued := by
    intro l hl k hk
    obtain rfl := List.mem_singleton.mp hl
    decide
  single := List.pairwise_singleton _ _

theorem isWord_bw : "BW".toList ≠ [] ∧ ∀ c ∈ "BW".toList, isspace c = false ∧ c ≠ '\\' ∧ c ≠ '#' :=
  ⟨by decide, plain_of_all (by decide)⟩

/-- The frequency is changed, a bandwidth is set, read and deleted twice. -/
def bandwidthCalls : List HeaderCall :=
  [.set (.ofString "FREQ" ⟨by decide, plain_of_all (by decide)⟩)
      (.ofString "700" ⟨by decide, plain_of_all (by decide)⟩),
    .set (.ofString "BW" isWord_bw)
      (.ofString "64" ⟨by decide, plain_of_all (by decide)⟩),
    .get (.ofString "BW" isWord_bw),
    .del (.ofString "BW" isWord_bw) "rest".toList,
    .del (.ofString "BW" isWord_bw) []]

end Psrdada
