import Psrdada.Header.AsciiHeader

/-! # Entries of a header that is put together from parts

A keyword is a word: it has no white space, no backslash and no `#`.  Whether a line begins with an entry
of it does not depend on the other lines, so the first entry of a header is found part by part
(`firstEntry_append`, `firstEntry_line`), and so is the value that `asciiHeaderGet` reads (`get_parts`).
The only thing in a part that can matter to a value before it is the part's first word. -/

namespace Psrdada

open CString

/-- A word: a keyword or a value. -/
structure Word where
  /-- The characters of the word. -/
  text : Text
  /-- A word has at least one character. -/
  nonempty : text ≠ []
  /-- A word has no white space, no backslash and no comment mark. -/
  plain : ∀ c ∈ text, isspace c = false ∧ c ≠ '\\' ∧ c ≠ '#'

/-- The characters of a given word are checked one by one. -/
theorem plain_of_all {t : Text} (h : (t.all fun c => !isspace c && (c != '\\' && c != '#')) = true) :
    ∀ c ∈ t, isspace c = false ∧ c ≠ '\\' ∧ c ≠ '#' := by
  intro c hc
  simpa using List.all_eq_true.mp h c hc

@[ext] theorem Word.ext {k k' : Word} (h : k.text = k'.text) : k = k' := by
  cases k
  cases k'
  simpa using h

variable {k k' : Word}

theorem Word.not_mem_of_isspace {c : Char} (hc : isspace c = true) : c ∉ k.text := fun hm => by
  simp [(k.plain c hm).1] at hc

/-! ## Prefixes -/

/-- A word is a prefix of a text only within what precedes a character that is not in it. -/
theorem prefix_append_cons {t s rest : Text} {c : Char} (hc : c ∉ t) :
    t <+: s ++ c :: rest ↔ t <+: s := by
  constructor
  · intro h
    induction s generalizing t with
    | nil =>
      cases t with
      | nil => exact List.nil_prefix
      | cons a t =>
        obtain ⟨rfl, _⟩ : a = c ∧ t <+: rest := by simpa [List.cons_prefix_cons] using h
        simp at hc
    | cons b s ih =>
      cases t with
      | nil => exact List.nil_prefix
      | cons a t =>
        obtain ⟨rfl, ht⟩ : a = b ∧ t <+: s ++ c :: rest := by
          simpa [List.cons_prefix_cons] using h
        exact List.cons_prefix_cons.mpr ⟨rfl, ih (fun hm => hc (List.mem_cons_of_mem _ hm)) ht⟩
  · intro h
    exact h.trans (List.prefix_append _ _)

/-- Two words that a text begins with, each followed by a blank, are the same. -/
theorem eq_of_prefix_blank {s : Text} {c : Char} (hc : isspace c = true)
    (hpre : k'.text <+: k.text ++ c :: s)
    (hnext : (k.text ++ c :: s)[k'.text.length]? = some '\t' ∨
      (k.text ++ c :: s)[k'.text.length]? = some ' ') : k' = k := by
  have hpre' : k'.text <+: k.text := (prefix_append_cons (Word.not_mem_of_isspace hc)).mp hpre
  obtain ⟨t, ht⟩ := hpre'
  cases t with
  | nil => exact Word.ext (by simpa using ht)
  | cons a t =>
    have ha : a ∈ k.text := by
      rw [← ht]
      simp
    have hget : (k.text ++ c :: s)[k'.text.length]? = some a := by
      rw [← ht]
      simp
    have hplain := (k.plain a ha).1
    rcases hnext with hn | hn
    · obtain rfl : a = '\t' := by simpa [hget] using hn
      simp [isspace] at hplain
    · obtain rfl : a = ' ' := by simpa [hget] using hn
      simp [isspace] at hplain

/-! ## The first entry -/

/-- Whether a line begins with an entry does not depend on the lines that follow it. -/
theorem isEntry_append {before : Option Char} {s rest : Text} :
    IsEntry k.text before (s ++ '\n' :: rest) ↔ IsEntry k.text before (s ++ ['\n']) := by
  have hnl : '\n' ∉ k.text := Word.not_mem_of_isspace rfl
  have hpre : k.text <+: s ++ '\n' :: rest ↔ k.text <+: s ++ ['\n'] :=
    (prefix_append_cons hnl).trans (prefix_append_cons hnl).symm
  constructor
  · rintro ⟨h, hbefore⟩
    have hle : k.text.length ≤ s.length := ((prefix_append_cons hnl).mp h).length_le
    refine ⟨hpre.mp h, hbefore.imp_right (And.imp_right ?_)⟩
    intro hnext
    rcases Nat.lt_or_eq_of_le hle with hlt | heq
    · simpa [List.getElem?_append_left hlt] using hnext
    · simp [heq] at hnext
  · rintro ⟨h, hbefore⟩
    have hle : k.text.length ≤ s.length := ((prefix_append_cons hnl).mp h).length_le
    refine ⟨hpre.mpr h, hbefore.imp_right (And.imp_right ?_)⟩
    intro hnext
    rcases Nat.lt_or_eq_of_le hle with hlt | heq
    · simpa [List.getElem?_append_left hlt] using hnext
    · simp [heq] at hnext

/-- A line does not begin with its end. -/
theorem not_isEntry_cons {before : Option Char} {c : Char} {s : Text} (hc : c ∉ k.text) :
    ¬ IsEntry k.text before (c :: s) := by
  rintro ⟨h, -⟩
  exact k.nonempty (by simpa [List.prefix_nil] using (prefix_append_cons (s := []) hc).mp h)

/-- The first entry is one of the lines up to a line end, or one after it. -/
theorem firstEntry_append {before : Option Char} (s rest : Text) :
    firstEntry k.text before (s ++ '\n' :: rest) =
      (firstEntry k.text before (s ++ ['\n'])).or
        ((firstEntry k.text (some '\n') rest).map (· + (s.length + 1))) := by
  induction s generalizing before with
  | nil =>
    have hnl : '\n' ∉ k.text := Word.not_mem_of_isspace rfl
    simp [firstEntry, not_isEntry_cons hnl]
  | cons c s ih =>
    by_cases he : IsEntry k.text before (c :: (s ++ ['\n']))
    · have he' : IsEntry k.text before (c :: (s ++ '\n' :: rest)) :=
        (isEntry_append (s := c :: s)).mpr he
      rw [List.cons_append, firstEntry, if_pos he', List.cons_append, firstEntry, if_pos he]
      rfl
    · have he' : ¬ IsEntry k.text before (c :: (s ++ '\n' :: rest)) := fun h =>
        he ((isEntry_append (s := c :: s)).mp h)
      rw [List.cons_append, firstEntry, if_neg he', List.cons_append, firstEntry, if_neg he, ih,
        Option.map_or, Option.map_map]
      rfl

/-- In the middle of a line there is no entry. -/
theorem firstEntry_mid {c : Char} {s : Text} (hc : c ≠ '\n' ∧ c ≠ '\\') :
    firstEntry k.text (some c) s = firstEntry k.text (some ' ') s := by
  cases s with
  | nil => rfl
  | cons a s =>
    have h1 : ¬ IsEntry k.text (some c) (a :: s) := by
      rintro ⟨-, h⟩
      simp [hc] at h
    have h2 : ¬ IsEntry k.text (some ' ') (a :: s) := by
      rintro ⟨-, h⟩
      simp at h
    rw [firstEntry, if_neg h1, firstEntry, if_neg h2]

/-- The rest of a line is skipped. -/
theorem firstEntry_rest {m rest : Text} (hm : ∀ c ∈ m, c ≠ '\n' ∧ c ≠ '\\') :
    firstEntry k.text (some ' ') (m ++ rest) =
      (firstEntry k.text (some ' ') rest).map (· + m.length) := by
  induction m with
  | nil => simp
  | cons c m ih =>
    have h : ¬ IsEntry k.text (some ' ') (c :: (m ++ rest)) := by
      rintro ⟨-, h⟩
      simp at h
    rw [List.cons_append, firstEntry, if_neg h, firstEntry_mid (hm c List.mem_cons_self),
      ih fun a ha => hm a (List.mem_cons_of_mem _ ha), Option.map_map]
    rfl

/-- A line that does not begin with an entry is skipped. -/
theorem firstEntry_line {before : Option Char} {m rest : Text} (hne : m ≠ [])
    (hm : ∀ c ∈ m, c ≠ '\n' ∧ c ≠ '\\') (he : ¬ IsEntry k.text before (m ++ rest)) :
    firstEntry k.text before (m ++ rest) =
      (firstEntry k.text (some ' ') rest).map (· + m.length) := by
  obtain ⟨c, m, rfl⟩ := List.exists_cons_of_ne_nil hne
  rw [List.cons_append] at he ⊢
  rw [firstEntry, if_neg he, firstEntry_mid (hm c List.mem_cons_self),
    firstEntry_rest fun a ha => hm a (List.mem_cons_of_mem _ ha), Option.map_map]
  rfl

/-- An entry lies within the text. -/
theorem firstEntry_lt {before : Option Char} {s : Text} {q : ℕ}
    (h : firstEntry k.text before s = some q) : q < s.length := by
  induction s generalizing before q with
  | nil => simp [firstEntry] at h
  | cons c s ih =>
    by_cases he : IsEntry k.text before (c :: s)
    · obtain rfl : 0 = q := by simpa [firstEntry, he] using h
      simp
    · obtain ⟨n, hn, rfl⟩ : ∃ n, firstEntry k.text (some c) s = some n ∧ n + 1 = q := by
        simpa [firstEntry, he] using h
      simpa using ih hn

/-! ## Values -/

/-- The value of the entry that a text begins with. -/
def entryValue (s : Text) : Option Text := scanWord (s.drop (strcspn s whitespace))

theorem asciiHeaderGet_eq (header : Text) (k : Word) :
    asciiHeaderGet header k.text =
      (firstEntry k.text none header).bind fun q => entryValue (header.drop q) := by
  rw [asciiHeaderGet, asciiHeaderFind_eq k.nonempty]
  cases firstEntry k.text none header <;> rfl

/-- Dropping a keyword keeps the end of its line. -/
theorem drop_strcspn_append (s rest : Text) :
    ∃ s', (s ++ '\n' :: rest).drop (strcspn (s ++ '\n' :: rest) whitespace) = s' ++ '\n' :: rest ∧
      (s ++ ['\n']).drop (strcspn (s ++ ['\n']) whitespace) = s' ++ ['\n'] := by
  induction s with
  | nil => exact ⟨[], by simp [strcspn, whitespace], by simp [strcspn, whitespace]⟩
  | cons c s ih =>
    obtain ⟨s', h1, h2⟩ := ih
    by_cases hc : c ∈ whitespace
    · refine ⟨c :: s, ?_, ?_⟩
      · rw [List.cons_append, strcspn_cons_of_mem hc, List.drop_zero]
      · rw [List.cons_append, strcspn_cons_of_mem hc, List.drop_zero]
    · have hdrop (t : Text) : (c :: t).drop (strcspn (c :: t) whitespace) =
          t.drop (strcspn t whitespace) := by
        rw [strcspn_cons_of_not_mem hc, List.drop_succ_cons]
      exact ⟨s', by rw [List.cons_append, hdrop, h1], by rw [List.cons_append, hdrop, h2]⟩

/-- What follows a line matters to the value of its entry only if there is none in the line. -/
theorem entryValue_append (s rest : Text) :
    entryValue (s ++ '\n' :: rest) = (entryValue (s ++ ['\n'])).or (scanWord rest) := by
  obtain ⟨s', h1, h2⟩ := drop_strcspn_append s rest
  rw [entryValue, entryValue, h1, h2, scanWord_append rfl]

/-- The text of an entry: the keyword, spaces, the value, spaces. -/
theorem entryText_split (keyword value : Text) : ∃ gap tail : Text,
    entryText keyword value = keyword ++ ' ' :: (gap ++ (value ++ ' ' :: tail)) ∧
      (∀ c ∈ gap, c = ' ') ∧ ∀ c ∈ tail, c = ' ' := by
  refine ⟨List.replicate (12 - keyword.length) ' ',
    List.replicate (20 - value.length) ' ' ++ "  ".toList, ?_, ?_, ?_⟩
  · have hspace (n : ℕ) (s : Text) :
        List.replicate n ' ' ++ ' ' :: s = ' ' :: (List.replicate n ' ' ++ s) := by
      rw [← List.cons_append, ← List.replicate_succ, List.replicate_succ', List.append_assoc]
      rfl
    have hthree : "   ".toList = ' ' :: "  ".toList := rfl
    simp only [entryText, padRight, List.append_assoc, List.cons_append, hspace, hthree]
  · exact fun c hc => List.eq_of_mem_replicate hc
  · intro c hc
    rcases List.mem_append.mp hc with hc | hc
    · exact List.eq_of_mem_replicate hc
    · simpa using hc

/-- The keyword ends at the first blank. -/
theorem drop_keyword (k : Word) (s : Text) :
    (k.text ++ ' ' :: s).drop (strcspn (k.text ++ ' ' :: s) whitespace) = ' ' :: s := by
  have hword : ∀ c ∈ k.text, c ∉ whitespace := by
    intro c hc hmem
    have hs : isspace c = true := by
      rcases (by simpa [whitespace] using hmem : c = ' ' ∨ c = '\t' ∨ c = '\n') with rfl | rfl | rfl
      all_goals rfl
    exact Word.not_mem_of_isspace hs hc
  rw [strcspn, List.takeWhile_append_of_pos (by simpa using hword)]
  simp [whitespace]

theorem entryValue_keyword (k : Word) (s : Text) :
    entryValue (k.text ++ ' ' :: s) = scanWord s := by
  rw [entryValue, drop_keyword]
  exact scanWord_spaces_append (s := [' ']) (by simp [isspace])

/-- The value of an entry that is given on the same line. -/
theorem entryValue_word (k v : Word) {gap : Text} (tail : Text) (hgap : ∀ c ∈ gap, c = ' ') :
    entryValue (k.text ++ ' ' :: (gap ++ (v.text ++ ' ' :: tail))) = some v.text := by
  have hspaces : ∀ c ∈ gap, isspace c = true := by
    intro c hc
    rw [hgap c hc]
    rfl
  rw [entryValue_keyword, scanWord_spaces_append hspaces]
  exact scanWord_word (fun c hc => (v.plain c hc).1) v.nonempty rfl

/-! ## A header in parts -/

/-- What is read for a keyword from the lines after the one that `post` stands in. -/
def valueAfter (k : Word) (post : Text) : Option Text :=
  (firstEntry k.text (some ' ') post).bind fun q => entryValue (post.drop q)

/-- In a header whose middle part brings no entry of the keyword, the value is read from the lines
before that part, or from those after it; only the first word of what follows can be read in place of a
value that the lines before do not give. -/
theorem get_parts {pre mid post : Text}
    (hmid : firstEntry k.text (some '\n') (mid ++ post) =
      (firstEntry k.text (some ' ') post).map (· + mid.length)) :
    asciiHeaderGet (pre ++ '\n' :: (mid ++ post)) k.text =
      (firstEntry k.text none (pre ++ ['\n'])).elim (valueAfter k post) fun q =>
        (entryValue ((pre ++ ['\n']).drop q)).or (scanWord (mid ++ post)) := by
  rw [asciiHeaderGet_eq, firstEntry_append, hmid]
  cases hq : firstEntry k.text none (pre ++ ['\n']) with
  | some q =>
    have hlt := firstEntry_lt hq
    rw [List.length_append, List.length_singleton] at hlt
    show entryValue ((pre ++ '\n' :: (mid ++ post)).drop q) = _
    rw [List.drop_append_of_le_length (by omega), entryValue_append,
      ← List.drop_append_of_le_length (by omega), Option.elim_some]
  | none =>
    rw [Option.elim_none, valueAfter]
    cases firstEntry k.text (some ' ') post with
    | none => rfl
    | some i =>
      show entryValue ((pre ++ '\n' :: (mid ++ post)).drop (i + mid.length + (pre.length + 1))) = _
      have hdrop : (pre ++ '\n' :: (mid ++ post)).drop (i + mid.length + (pre.length + 1)) =
          post.drop i := by
        have hlen : i + mid.length + (pre.length + 1) = (pre ++ '\n' :: mid).length + i := by
          simp only [List.length_append, List.length_cons]
          omega
        have hsplit : pre ++ '\n' :: (mid ++ post) = (pre ++ '\n' :: mid) ++ post := by simp
        rw [hlen, hsplit, ← List.drop_drop, List.drop_left]
      rw [hdrop]
      rfl

end Psrdada
