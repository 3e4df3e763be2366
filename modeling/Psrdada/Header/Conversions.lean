import Psrdada.Header.CString

/-! # Conversions

`sscanf` with one conversion that skips white space (all of them but `%c`, `%[` and `%n`) looks at the
first token of a text: it passes over white space and reads no further than to the white space after the
token.  `Conversion` keeps these two facts with the function, so that what is read through a header can be
said once for `%s`, `%d`, `%lf` and the others. -/

namespace CString

/-- The value that one conversion of `sscanf` reads, none where it reads none. -/
structure Conversion (α : Type) where
  /-- What is read from a text. -/
  scan : Text → Option α
  /-- White space is skipped. -/
  skip : ∀ {c : Char} (s : Text), isspace c = true → scan (c :: s) = scan s
  /-- What follows the first token is not looked at. -/
  token : ∀ {s : Text} {c : Char} (t : Text), s ≠ [] → (∀ a ∈ s, isspace a = false) →
    isspace c = true → scan (s ++ c :: t) = scan s
  /-- Nothing is read where nothing is left. -/
  nothing : scan [] = none

/-- A text of white space. -/
def Blank (s : Text) : Prop := ∀ c ∈ s, isspace c = true

instance (s : Text) : Decidable (Blank s) := inferInstanceAs (Decidable (∀ c ∈ s, _))

variable {α : Type} (conv : Conversion α)

theorem Conversion.scan_blank_append {s : Text} (h : Blank s) (t : Text) :
    conv.scan (s ++ t) = conv.scan t := by
  induction s with
  | nil => rfl
  | cons c s ih =>
    rw [List.cons_append, conv.skip _ (h c List.mem_cons_self)]
    exact ih fun a ha => h a (List.mem_cons_of_mem _ ha)

theorem Conversion.scan_blank {s : Text} (h : Blank s) : conv.scan s = none := by
  have := conv.scan_blank_append h []
  rwa [List.append_nil, conv.nothing] at this

/-- A text is white space, a token, and then nothing or white space and more. -/
theorem token_split {s : Text} (h : ¬ Blank s) : ∃ gap word rest : Text,
    s = gap ++ (word ++ rest) ∧ Blank gap ∧ word ≠ [] ∧ (∀ a ∈ word, isspace a = false) ∧
      (rest = [] ∨ ∃ c t, rest = c :: t ∧ isspace c = true) := by
  induction s with
  | nil => exact absurd (fun c hc => absurd hc List.not_mem_nil) h
  | cons c s ih =>
    by_cases hc : isspace c = true
    · have hs : ¬ Blank s := by
        intro hs
        apply h
        intro a ha
        rcases List.mem_cons.mp ha with rfl | ha
        · exact hc
        · exact hs a ha
      obtain ⟨gap, word, rest, rfl, hgap, hword⟩ := ih hs
      refine ⟨c :: gap, word, rest, rfl, ?_, hword⟩
      intro a ha
      rcases List.mem_cons.mp ha with rfl | ha
      · exact hc
      · exact hgap a ha
    · refine ⟨[], (c :: s).takeWhile (fun a => !isspace a), (c :: s).dropWhile (fun a => !isspace a),
        ?_, ?_, ?_, ?_, ?_⟩
      · rw [List.nil_append, List.takeWhile_append_dropWhile]
      · exact fun a ha => absurd ha List.not_mem_nil
      · simp [hc]
      · intro a ha
        simpa using List.mem_takeWhile_imp ha
      · rcases hrest : (c :: s).dropWhile (fun a => !isspace a) with - | ⟨a, t⟩
        · exact .inl rfl
        · refine .inr ⟨a, t, rfl, ?_⟩
          have hne : (c :: s).dropWhile (fun a => !isspace a) ≠ [] := by simp [hrest]
          have hhead := List.head_dropWhile_not (fun a => !isspace a) hne
          simpa [hrest] using hhead

/-- A text with a token is read without regard to what follows its white space. -/
theorem Conversion.scan_append {s : Text} {c : Char} (h : ¬ Blank s) (hc : isspace c = true)
    (t : Text) : conv.scan (s ++ c :: t) = conv.scan s := by
  obtain ⟨gap, word, rest, rfl, hgap, hne, hword, rfl | ⟨a, t', rfl, ha⟩⟩ := token_split h
  · rw [List.append_nil, List.append_assoc, conv.scan_blank_append hgap, conv.scan_blank_append hgap,
      conv.token _ hne hword hc]
  · rw [List.append_assoc, List.append_assoc, conv.scan_blank_append hgap,
      conv.scan_blank_append hgap, List.cons_append, conv.token _ hne hword ha,
      conv.token _ hne hword ha]

/-- A word is read from every text with a token. -/
theorem scanWord_isSome {s : Text} (h : ¬ Blank s) : (scanWord s).isSome := by
  obtain ⟨gap, word, rest, rfl, hgap, hne, hword, -⟩ := token_split h
  obtain ⟨a, word, rfl⟩ := List.exists_cons_of_ne_nil hne
  have ha : isspace a = false := hword a List.mem_cons_self
  rw [scanWord_spaces_append hgap, scanWord, List.cons_append, List.dropWhile_cons_of_neg (by simp [ha])]
  rfl

/-- `"%s"`. -/
def Conversion.word : Conversion Text where
  scan := scanWord
  skip s hc := scanWord_spaces_append (s := [_]) (by simpa using hc)
  token t hne hs hc := by
    rw [scanWord_word hs hne hc]
    obtain ⟨a, s, rfl⟩ := List.exists_cons_of_ne_nil hne
    have ha : isspace a = false := hs a List.mem_cons_self
    rw [scanWord, List.dropWhile_cons_of_neg (by simp [ha])]
    simp only []
    rw [List.takeWhile_eq_self_iff.mpr (by simpa using hs)]
  nothing := rfl

end CString
