import Psrdada.Header.Numbers
import Psrdada.Header.Search
import Psrdada.Header.SetGet

/-! # Updating an entry again and again

A header that is written for every file of an observation has the same entry set many times.  `HasEntry`
describes a header with an entry that `ascii_header_set` wrote, and `Written` what one more call keeps of
it: the text around the entry, the comment behind it, and the place where it is found.  From call to call
the entry keeps its length, as long as keyword and value fit their columns.

This goes wrong where the header begins with the keyword as a part of a longer word: then it is not the
keyword's own line that is found (`updates_iff`). -/

namespace Psrdada

open CString

/-! ## Entries that were written -/

/-- A value that fits its column. -/
def Settable (value : Text) : Prop :=
  value.length ≤ 20 ∧ ∀ c ∈ value, isspace c = false ∧ c ≠ '\\' ∧ c ≠ '#'

instance (value : Text) : Decidable (Settable value) := inferInstanceAs (Decidable (_ ∧ _))

/-- A header in which the first entry of a keyword is one that `ascii_header_set` wrote: the lines before
it, the value, and what follows: a comment or the end of the line, and further lines. -/
structure HasEntry (header : Text) (k : Word) (pre old rest : Text) : Prop where
  /-- The header is put together from the three parts. -/
  split : header = pre ++ (entryText k.text old ++ rest)
  /-- The value is on one line, and no part of it is a comment. -/
  plain : ∀ c ∈ old, c ≠ '\n' ∧ c ≠ '#'
  /-- The entry begins a line. -/
  line : pre = [] ∨ ∃ s, pre = s ++ ['\n']
  /-- A comment or the end of the line follows. -/
  cut : ∃ c t, rest = c :: t ∧ (c = '#' ∨ c = '\n')
  /-- No earlier line has an entry of the keyword. -/
  first : ∀ q < pre.length, ¬ KeywordAt header k.text q

/-- `ascii_header_set` for one value after the other. -/
def setAll (header keyword : Text) (values : List Text) : Text :=
  values.foldl (fun header value => asciiHeaderSet header keyword value) header

/-- What updates of an entry are to keep, for a first value and later ones: the length of the header, all
that stands around the entry, and that a value which is set again changes nothing. -/
structure UpdatesInPlace (header : Text) (k : Word) (pre rest : Text) (value : Text)
    (values : List Text) : Prop where
  /-- The header stays as long as the first update made it. -/
  length : (setAll header k.text (value :: values)).length = (setAll header k.text [value]).length
  /-- The entry has the last value, with everything else in place. -/
  frame : setAll header k.text (value :: values) =
    pre ++ (entryText k.text (values.getLastD value) ++ rest)
  /-- Setting the last value twice is setting it once. -/
  again : asciiHeaderSet (setAll header k.text (value :: values)) k.text (values.getLastD value) =
    setAll header k.text (value :: values)

variable {header pre old rest : Text} {k : Word}

/-- What precedes a written entry. -/
theorem keywordAt_written (hline : pre = [] ∨ ∃ s, pre = s ++ ['\n']) (value rest : Text) :
    KeywordAt (pre ++ (entryText k.text value ++ rest)) k.text pre.length := by
  obtain ⟨gap, tail, heq, -⟩ := entryText_split k.text value
  rw [heq, List.append_assoc]
  refine ⟨?_, ?_, .inr ?_⟩
  · rw [List.drop_left]
    exact List.prefix_append _ _
  · rcases hline with rfl | ⟨s, rfl⟩
    · exact .inl rfl
    · exact .inr (.inl (by simp))
  · rw [List.getElem?_append_right (Nat.le_add_right _ _), Nat.add_sub_cancel_left]
    simp

/-- The entry that was written is the one that is found, in a header that is separated from the keyword. -/
theorem HasEntry.find (h : HasEntry header k pre old rest) (hsep : Separated header k.text) :
    asciiHeaderFind header k.text = some pre.length := by
  have hat : KeywordAt header k.text pre.length := by
    rw [h.split]
    exact keywordAt_written h.line old rest
  exact ((finds_iff header k.text k.nonempty).mpr hsep).unique ⟨hat, h.first⟩

/-! ## One update -/

/-- A header whose entry, where it is found, has the given value. -/
structure Written (header : Text) (k : Word) (pre rest value : Text) : Prop where
  /-- The value stands in its column. -/
  split : header = pre ++ (entryText k.text value ++ rest)
  /-- The entry is found. -/
  find : asciiHeaderFind header k.text = some pre.length
  /-- The value is on one line, and no part of it is a comment. -/
  plain : ∀ c ∈ value, c ≠ '\n' ∧ c ≠ '#'

theorem Settable.plain {value : Text} (h : Settable value) : ∀ c ∈ value, c ≠ '\n' ∧ c ≠ '#' := by
  intro c hc
  refine ⟨?_, (h.2 c hc).2.2⟩
  rintro rfl
  exact absurd (h.2 '\n' hc).1 (by decide)

theorem Settable.short {value : Text} (h : Settable value) : value.length < strlen :=
  Nat.lt_of_le_of_lt h.1 (by decide)

/-- What is cut off behind an entry is the comment and the rest of the header. -/
theorem drop_entry (hplain : ∀ c ∈ old, c ≠ '\n' ∧ c ≠ '#')
    (hcut : ∃ c t, rest = c :: t ∧ (c = '#' ∨ c = '\n')) :
    (entryText k.text old ++ rest).drop (strcspn (entryText k.text old ++ rest) "#\n".toList) =
      rest := by
  obtain ⟨c, t, rfl, hc⟩ := hcut
  obtain ⟨gap, tail, heq, hgap, htail⟩ := entryText_split k.text old
  have hentry : ∀ a ∈ entryText k.text old, a ∉ "#\n".toList := by
    intro a ha hmem
    have hbad : a = '#' ∨ a = '\n' := by simpa using hmem
    rw [heq] at ha
    simp only [List.mem_append, List.mem_cons] at ha
    rcases ha with ha | rfl | ha | ha | rfl | ha
    · -- neither character is part of a keyword
      rcases hbad with rfl | rfl
      · exact (k.plain '#' ha).2.2 rfl
      · exact Word.not_mem_of_isspace rfl ha
    · simp at hbad
    · simp [hgap a ha] at hbad
    · exact hbad.elim (hplain a ha).2 (hplain a ha).1
    · simp at hbad
    · simp [htail a ha] at hbad
  have hstop : c ∈ "#\n".toList := by simpa using hc
  rw [strcspn, List.takeWhile_append_of_pos (by simpa using hentry),
    List.takeWhile_cons_of_neg (by simp only [hstop]; decide), List.append_nil, List.drop_left]

/-- One update changes the value and nothing else. -/
theorem Written.set {value : Text} (h : Written header k pre rest old)
    (hcut : ∃ c t, rest = c :: t ∧ (c = '#' ∨ c = '\n')) (hvalue : Settable value) :
    Written (asciiHeaderSet header k.text value) k pre rest value := by
  refine ⟨?_, asciiHeaderFind_set value h.find hvalue.short, hvalue.plain⟩
  rw [asciiHeaderSet, List.take_of_length_le (Nat.le_sub_one_of_lt hvalue.short), placeEntry, h.find]
  simp only []
  rw [h.split, List.take_left, List.drop_left, drop_entry h.plain hcut, List.append_assoc]

/-! ## Many updates -/

/-- Over a run of updates the entry has the value that was set last. -/
theorem Written.setAll {values : List Text} (h : Written header k pre rest old)
    (hcut : ∃ c t, rest = c :: t ∧ (c = '#' ∨ c = '\n')) (hvalues : ∀ w ∈ values, Settable w) :
    Written (setAll header k.text values) k pre rest (values.getLastD old) := by
  induction values generalizing header old with
  | nil => exact h
  | cons value values ih =>
    have hset := h.set hcut (hvalues value List.mem_cons_self)
    rw [List.getLastD_cons]
    exact ih hset fun w hw => hvalues w (List.mem_cons_of_mem _ hw)

/-- An entry whose keyword and value fit their columns has one length. -/
theorem entryText_length_settable {value : Text} (hk : k.text.length ≤ 12) (hvalue : Settable value) :
    (entryText k.text value).length = 36 := by
  have := hvalue.1
  rw [entryText_length]
  omega

theorem getLastD_settable {value : Text} {values : List Text}
    (h : ∀ w ∈ value :: values, Settable w) : Settable (values.getLastD value) :=
  h _ List.getLastD_mem_cons

/-- An entry that is found where it was written is updated in place. -/
theorem HasEntry.updatesInPlace (h : HasEntry header k pre old rest) (hk : k.text.length ≤ 12)
    (hsep : Separated header k.text) {value : Text} {values : List Text}
    (hvalues : ∀ w ∈ value :: values, Settable w) :
    UpdatesInPlace header k pre rest value values := by
  have hstart : Written header k pre rest old := ⟨h.split, h.find hsep, h.plain⟩
  have hlast := getLastD_settable hvalues
  have hall := hstart.setAll h.cut hvalues
  rw [List.getLastD_cons] at hall
  have hfirst : ∀ w ∈ [value], Settable w := by
    intro w hw
    rw [List.mem_singleton.mp hw]
    exact hvalues value List.mem_cons_self
  have hone := hstart.setAll h.cut hfirst
  refine ⟨?_, hall.split, ?_⟩
  · have hlen := entryText_length_settable hk hlast
    have hlen1 := entryText_length_settable hk (hvalues value List.mem_cons_self)
    rw [hall.split, hone.split]
    simp only [List.length_append, List.getLastD_cons, List.getLastD_nil, hlen, hlen1]
  · exact (hall.set h.cut hlast).split.trans hall.split.symm

/-- A word at the beginning of a header lies within the lines before the entry. -/
theorem lt_of_prefix {s : Text} (hpre : k.text <+: (s ++ ['\n']) ++ rest) :
    k.text.length < (s ++ ['\n']).length := by
  have hnl : '\n' ∉ k.text := Word.not_mem_of_isspace rfl
  rw [List.append_assoc] at hpre
  have := ((prefix_append_cons hnl).mp hpre).length_le
  rw [List.length_append, List.length_singleton]
  omega

/-- **Updates of a header.** Every sequence of updates changes the value of the keyword's entry and
nothing else, at a constant length, if and only if the header does not begin with the keyword as a part of
a longer word. -/
theorem updates_iff (h : HasEntry header k pre old rest) (hk : k.text.length ≤ 12) :
    (∀ (value : Text) (values : List Text), (∀ w ∈ value :: values, Settable w) →
      UpdatesInPlace header k pre rest value values) ↔ Separated header k.text := by
  constructor
  · intro hall hpre
    have hset := (hall [] [] (by decide)).frame
    -- the entry is written over the beginning of the header
    have hfound := asciiHeaderFind_zero k.nonempty hpre
    obtain ⟨post, hpost⟩ := asciiHeaderSet_found [] hfound (by decide)
    obtain ⟨gap, tail, heq, -⟩ := entryText_split k.text []
    have hblank : (setAll header k.text [[]])[k.text.length]? = some ' ' := by
      show (asciiHeaderSet header k.text [])[k.text.length]? = some ' '
      rw [hpost, heq]
      simp
    rcases h.line with rfl | ⟨s, rfl⟩
    · obtain ⟨gap', tail', heq', -⟩ := entryText_split k.text old
      rw [h.split, heq']
      exact .inr (by simp)
    · have hlt : k.text.length < (s ++ ['\n']).length := by
        rw [h.split] at hpre
        exact lt_of_prefix hpre
      rw [hset, List.getElem?_append_left hlt] at hblank
      rw [h.split, List.getElem?_append_left hlt]
      exact .inr hblank
  · intro hsep value values hvalues
    exact h.updatesInPlace hk hsep hvalues

/-- The keyword `BW`. -/
def Word.bw : Word := .ofString "BW" ⟨by decide, plain_of_all (by decide)⟩

/-- A header with an entry of `BW`, after other entries. -/
theorem hasEntry_bw (pre : String) (hline : ∃ s, pre.toList = s ++ ['\n'])
    (hfirst : ∀ q < pre.toList.length, ¬ KeywordAt
      (pre.toList ++ (entryText "BW".toList "32".toList ++ "# MHz\n".toList)) "BW".toList q) :
    HasEntry (pre.toList ++ (entryText "BW".toList "32".toList ++ "# MHz\n".toList)) .bw pre.toList
      "32".toList "# MHz\n".toList where
  split := rfl
  plain := by decide
  line := .inr hline
  cut := ⟨'#', " MHz\n".toList, rfl, .inl rfl⟩
  first := hfirst

theorem updates_bw :
    UpdatesInPlace ("FREQ 1400\n".toList ++ (entryText "BW".toList "32".toList ++ "# MHz\n".toList))
      .bw "FREQ 1400\n".toList "# MHz\n".toList "16".toList ["8".toList, "64".toList] :=
  (updates_iff (hasEntry_bw "FREQ 1400\n" ⟨"FREQ 1400".toList, rfl⟩ (by decide +kernel))
    (by decide)).mpr (by decide) _ _ (by decide)

/-- An update of `BW` in a header that begins with `BWIDTH` overwrites the wrong line. -/
theorem bwidth_updated : ¬ ∀ (header pre old rest : Text) (k : Word), HasEntry header k pre old rest →
    k.text.length ≤ 12 → ∀ (value : Text) (values : List Text),
      (∀ w ∈ value :: values, Settable w) → UpdatesInPlace header k pre rest value values := by
  intro h
  have hentry := hasEntry_bw "BWIDTH 64\n" ⟨"BWIDTH 64".toList, rfl⟩ (by decide +kernel)
  have hframe := (h _ _ _ _ _ hentry (by decide) "16".toList [] (by decide)).frame
  revert hframe
  decide +kernel

end Psrdada
