import Psrdada.Header.Entries

/-! # Setting an entry and reading it back

`ascii_header_set` puts an entry in one of four places: over the old entry, in front of `DATA`, at the end,
or, when the keyword is found at the very start of the header, over the first line.  Setting and reading
back works, for every value that fits, exactly when that place is the start of a line, nothing before it
takes its value from there, and the entry does not become the first word of the header (`Placed`). -/

namespace Psrdada

open CString

/-- A header text: empty, or lines that each end in a newline, without a backslash. -/
structure Header where
  /-- The characters of the header. -/
  text : Text
  /-- Every line ends in a newline. -/
  lines : text = [] ∨ ∃ l, text = l ++ ['\n']
  /-- The header has no backslash. -/
  noBackslash : '\\' ∉ text

/-- The value fits in a header buffer of `capacity` bytes, with the terminating zero. -/
def Fits (capacity : ℕ) (header : Header) (keyword value : Word) : Prop :=
  (placeEntry header.text keyword.text (entryText keyword.text value.text)).length < capacity

/-- The value that has been set is read back. -/
def RoundTrip (header : Header) (keyword value : Word) : Prop :=
  asciiHeaderGet (asciiHeaderSet header.text keyword.text value.text) keyword.text = some value.text

/-- Setting a value changes what is read for no other keyword. -/
def OthersKept (header : Header) (keyword value : Word) : Prop :=
  ∀ k : Word, k ≠ keyword →
    asciiHeaderGet (asciiHeaderSet header.text keyword.text value.text) k.text =
      asciiHeaderGet header.text k.text

/-- The entry of `keyword` may become the first word of the header, in front of `post`: the keyword is one
character long, and the first word so far gives no other keyword a value that it does not have in
`post`. -/
def Leads (header : Header) (keyword : Word) (post : Text) : Prop :=
  keyword.text.length = 1 ∧ ∀ k : Word, k ≠ keyword → k.text <+: header.text →
    asciiHeaderGet header.text k.text = asciiHeaderGet ('\n' :: post) k.text

/-- Every other keyword that has an entry in these lines has a value in them. -/
def Valued (keyword : Word) (pre : Text) : Prop :=
  ∀ k : Word, k ≠ keyword → (asciiHeaderFind pre k.text).isSome → (asciiHeaderGet pre k.text).isSome

/-- `DATA`, the line that ends a header. -/
def dataWord : Text := "DATA".toList

/-- Where an entry may be placed without harm. -/
def Placed (header : Header) (keyword : Word) : Prop :=
  match asciiHeaderFind header.text keyword.text with
  | some 0 =>
    Leads header keyword (header.text.drop (strcspn header.text "#\n".toList))
  | some (_ + 1) => True
  | none =>
    match strstr "DATA\n".toList header.text with
    | some 0 => Leads header keyword header.text
    | some (eol + 1) => header.text[eol]? = some '\n' ∧
        (keyword.text = dataWord ∨ Valued keyword (header.text.take (eol + 1)))
    | none =>
      if header.text = [] then Leads header keyword ['\n']
      else Valued keyword header.text

/-! ## The entry and its surroundings -/

/-- No entry can begin where this text does. -/
def Shut (post : Text) : Prop := ∀ k : Word, ¬ IsEntry k.text (some '\n') post

theorem shut_nil : Shut [] := by
  rintro k ⟨h, -⟩
  exact k.nonempty (List.prefix_nil.mp h)

theorem shut_newline (s : Text) : Shut ('\n' :: s) := fun _ =>
  not_isEntry_cons (Word.not_mem_of_isspace rfl)

theorem shut_comment (s : Text) : Shut ('#' :: s) := fun k =>
  not_isEntry_cons fun hm => (k.plain '#' hm).2.2 rfl

/-- `DATA` without a value is no entry. -/
theorem shut_data {s : Text} (h : "DATA\n".toList <+: s) : Shut s := by
  rintro k ⟨hpre, hnext⟩
  obtain ⟨t, rfl⟩ := h
  have hnext' : ("DATA\n".toList ++ t)[k.text.length]? = some '\t' ∨
      ("DATA\n".toList ++ t)[k.text.length]? = some ' ' := by
    rcases hnext with hnext | hnext
    · simp at hnext
    · exact hnext.2
  have hdata : k.text <+: ['D', 'A', 'T', 'A'] :=
    (prefix_append_cons (s := ['D', 'A', 'T', 'A']) (c := '\n')
      (Word.not_mem_of_isspace rfl)).mp hpre
  have hle := hdata.length_le
  simp only [List.length_cons, List.length_nil] at hle
  have hlen : k.text.length < 5 := by omega
  have hget (c : Char) (hc : ("DATA\n".toList ++ t)[k.text.length]? = some c) :
      c ∈ "DATA\n".toList := by
    rw [List.getElem?_append_left (by simpa using hlen)] at hc
    exact List.mem_of_getElem? hc
  rcases hnext' with hnext | hnext
  all_goals simpa using hget _ hnext

theorem Shut.skip {post : Text} (h : Shut post) (k : Word) :
    firstEntry k.text (some '\n') post = firstEntry k.text (some ' ') post := by
  cases post with
  | nil => rfl
  | cons c s =>
    have h2 : ¬ IsEntry k.text (some ' ') (c :: s) := by
      rintro ⟨-, h⟩
      simp at h
    rw [firstEntry, if_neg (h k), firstEntry, if_neg h2]

theorem Shut.get_cons {post : Text} (h : Shut post) (k : Word) :
    asciiHeaderGet ('\n' :: post) k.text = valueAfter k post := by
  have hnl : ¬ IsEntry k.text none ('\n' :: post) := not_isEntry_cons (Word.not_mem_of_isspace rfl)
  rw [asciiHeaderGet_eq, firstEntry, if_neg hnl, h.skip, valueAfter]
  cases firstEntry k.text (some ' ') post <;> rfl

/-- The text of an entry is the rest of a line. -/
theorem entryText_line (k v : Word) : ∀ c ∈ entryText k.text v.text, c ≠ '\n' ∧ c ≠ '\\' := by
  obtain ⟨gap, tail, heq, hgap, htail⟩ := entryText_split k.text v.text
  have hword (w : Word) : ∀ c ∈ w.text, c ≠ '\n' ∧ c ≠ '\\' := by
    refine fun c hc => ⟨?_, (w.plain c hc).2.1⟩
    rintro rfl
    exact Word.not_mem_of_isspace rfl hc
  have hspace (s : Text) (hs : ∀ c ∈ s, c = ' ') : ∀ c ∈ s, c ≠ '\n' ∧ c ≠ '\\' := by
    intro c hc
    rw [hs c hc]
    decide
  intro c hc
  rw [heq] at hc
  simp only [List.mem_append, List.mem_cons] at hc
  rcases hc with hc | rfl | hc | hc | rfl | hc
  · exact hword k c hc
  · decide
  · exact hspace gap hgap c hc
  · exact hword v c hc
  · decide
  · exact hspace tail htail c hc

theorem entryText_ne_nil (k v : Text) : entryText k v ≠ [] := by
  simp [entryText]

/-- A text that begins with a keyword and a blank has an entry of that keyword and of no other. -/
theorem isEntry_entryText {k k' v : Word} {post : Text} {before : Option Char}
    (h : IsEntry k'.text before (entryText k.text v.text ++ post)) (hbefore : before ≠ none) :
    k' = k := by
  obtain ⟨gap, tail, heq, -⟩ := entryText_split k.text v.text
  obtain ⟨hpre, hnext⟩ := h
  rw [heq, List.append_assoc, List.cons_append] at hpre hnext
  rcases hnext with hnone | ⟨-, hnext⟩
  · exact absurd hnone hbefore
  · exact eq_of_prefix_blank rfl hpre hnext

/-- At the start of the header a prefix of the first word is found as well. -/
theorem isEntry_first {k k' v : Word} {post : Text} :
    IsEntry k'.text none (entryText k.text v.text ++ post) ↔ k'.text <+: k.text := by
  obtain ⟨gap, tail, heq, -⟩ := entryText_split k.text v.text
  rw [heq, List.append_assoc, List.cons_append]
  have hpre {rest : Text} : k'.text <+: k.text ++ ' ' :: rest ↔ k'.text <+: k.text :=
    prefix_append_cons (Word.not_mem_of_isspace (k := k') (c := ' ') rfl)
  exact ⟨fun h => hpre.mp h.1, fun h => ⟨hpre.mpr h, .inl rfl⟩⟩

/-- The first word of a line that begins with an entry is the keyword. -/
theorem scanWord_entryText (k v : Word) (post : Text) :
    scanWord (entryText k.text v.text ++ post) = some k.text := by
  obtain ⟨gap, tail, heq, -⟩ := entryText_split k.text v.text
  rw [heq, List.append_assoc, List.cons_append]
  exact scanWord_word (fun c hc => (k.plain c hc).1) k.nonempty rfl

/-! ## An entry that becomes the first word -/

/-- Every keyword that the first word begins with has the value of the first entry. -/
theorem get_lead_of_prefix {k k' : Word} (v : Word) (post : Text) (h : k'.text <+: k.text) :
    asciiHeaderGet (entryText k.text v.text ++ post) k'.text = some v.text := by
  have he : IsEntry k'.text none (entryText k.text v.text ++ post) := isEntry_first.mpr h
  obtain ⟨gap, tail, heq, hgap, -⟩ := entryText_split k.text v.text
  obtain ⟨c, s, hcs⟩ := List.exists_cons_of_ne_nil (entryText_ne_nil k.text v.text)
  have hfirst : firstEntry k'.text none (entryText k.text v.text ++ post) = some 0 := by
    rw [hcs, List.cons_append] at he ⊢
    rw [firstEntry, if_pos he]
  rw [asciiHeaderGet_eq, hfirst]
  show entryValue (entryText k.text v.text ++ post) = _
  rw [heq]
  simpa using entryValue_word k v (tail ++ post) hgap

/-- Every other keyword is looked for in the lines that follow. -/
theorem get_lead_of_not_prefix {k k' : Word} (v : Word) (post : Text) (h : ¬ k'.text <+: k.text) :
    asciiHeaderGet (entryText k.text v.text ++ post) k'.text = valueAfter k' post := by
  have he : ¬ IsEntry k'.text none (entryText k.text v.text ++ post) := fun he =>
    h (isEntry_first.mp he)
  rw [asciiHeaderGet_eq, firstEntry_line (entryText_ne_nil _ _) (entryText_line k v) he, valueAfter]
  cases firstEntry k'.text (some ' ') post with
  | none => rfl
  | some i =>
    show entryValue ((entryText k.text v.text ++ post).drop (i + (entryText k.text v.text).length)) = _
    rw [Nat.add_comm, ← List.drop_drop, List.drop_left]
    rfl

/-! ## An entry on a line of its own -/

/-- A keyword without an entry in the lines before has the value that is set. -/
theorem get_line_self {k : Word} (v : Word) {pre : Text} (post : Text)
    (h : firstEntry k.text none (pre ++ ['\n']) = none) :
    asciiHeaderGet (pre ++ '\n' :: (entryText k.text v.text ++ post)) k.text = some v.text := by
  obtain ⟨gap, tail, heq, hgap, -⟩ := entryText_split k.text v.text
  obtain ⟨c, s, hcs⟩ := List.exists_cons_of_ne_nil (entryText_ne_nil k.text v.text)
  have he : IsEntry k.text (some '\n') (entryText k.text v.text ++ post) := by
    rw [heq, List.append_assoc, List.cons_append]
    exact ⟨List.prefix_append _ _, .inr ⟨.inl rfl, .inr (by simp)⟩⟩
  have hfirst : firstEntry k.text (some '\n') (entryText k.text v.text ++ post) = some 0 := by
    rw [hcs, List.cons_append] at he ⊢
    rw [firstEntry, if_pos he]
  rw [asciiHeaderGet_eq, firstEntry_append, h, hfirst]
  show entryValue ((pre ++ '\n' :: (entryText k.text v.text ++ post)).drop (0 + (pre.length + 1))) = _
  have hdrop : (pre ++ '\n' :: (entryText k.text v.text ++ post)).drop (0 + (pre.length + 1)) =
      entryText k.text v.text ++ post := by
    have hsplit : pre ++ '\n' :: (entryText k.text v.text ++ post) =
        (pre ++ ['\n']) ++ (entryText k.text v.text ++ post) := by simp
    rw [hsplit, Nat.zero_add]
    exact List.drop_left' (by simp)
  rw [hdrop, heq]
  simpa using entryValue_word k v (tail ++ post) hgap

/-- For another keyword the entry is a line to skip, and at most the first word after a value that is
missing. -/
theorem get_line_other {k k' : Word} (v : Word) (pre post : Text) (hne : k' ≠ k) :
    asciiHeaderGet (pre ++ '\n' :: (entryText k.text v.text ++ post)) k'.text =
      (firstEntry k'.text none (pre ++ ['\n'])).elim (valueAfter k' post) fun q =>
        (entryValue ((pre ++ ['\n']).drop q)).or (some k.text) := by
  have he : ¬ IsEntry k'.text (some '\n') (entryText k.text v.text ++ post) := fun he =>
    hne (isEntry_entryText he (by simp))
  rw [get_parts (firstEntry_line (entryText_ne_nil _ _) (entryText_line k v) he),
    scanWord_entryText]

end Psrdada
