import Psrdada.Header.AsciiHeader

/-! # The search for a keyword

`KeywordAt` is what makes a position of a header the beginning of a keyword's entry: the beginning of a
line, the keyword, and a blank behind it.  `ascii_header_find` is meant to return the first such position
(`FindsExactly`).  It looks at the character behind the keyword only where the keyword is not the first
thing in the header, so a keyword that the header begins with, as a part of a longer word, is taken for an
entry; `finds_iff` says that this is all that goes wrong. -/

namespace Psrdada

open CString

/-! ## The first position with a property -/

/-- Whether `r` is the first position with a property, or none where no position has it. -/
def IsFirst (P : ℕ → Prop) : Option ℕ → Prop
  | some p => P p ∧ ∀ q < p, ¬ P q
  | none => ∀ q, ¬ P q

/-- There is one first position. -/
theorem IsFirst.unique {P : ℕ → Prop} {r r' : Option ℕ} (h : IsFirst P r) (h' : IsFirst P r') :
    r = r' := by
  cases r with
  | none =>
    cases r' with
    | none => rfl
    | some p' => exact absurd h'.1 (h p')
  | some p =>
    cases r' with
    | none => exact absurd h.1 (h' p)
    | some p' =>
      rcases Nat.lt_trichotomy p p' with hlt | rfl | hlt
      · exact absurd h.1 (h'.2 p hlt)
      · rfl
      · exact absurd h'.1 (h.2 p' hlt)

theorem IsFirst.congr {P Q : ℕ → Prop} {r : Option ℕ} (hPQ : ∀ p, P p ↔ Q p) (h : IsFirst P r) :
    IsFirst Q r := by
  have : P = Q := by
    funext p
    exact propext (hPQ p)
  exact this ▸ h

/-- The first position is the one at hand, or it comes later. -/
theorem IsFirst.cons {P : ℕ → Prop} {r : Option ℕ} (h0 : ¬ P 0)
    (h : IsFirst (fun p => P (p + 1)) r) : IsFirst P (r.map (· + 1)) := by
  cases r with
  | none =>
    intro q
    cases q with
    | zero => exact h0
    | succ q => exact h q
  | some p =>
    refine ⟨h.1, fun q hq => ?_⟩
    cases q with
    | zero => exact h0
    | succ q => exact h.2 q (Nat.lt_of_succ_lt_succ hq)

/-! ## Entries -/

/-- Whether the entry of a keyword begins at `p`: `p` is the beginning of a line, the keyword is there,
and a blank follows it. -/
def KeywordAt (header keyword : Text) (p : ℕ) : Prop :=
  keyword <+: header.drop p ∧
    (p = 0 ∨ header[p - 1]? = some '\n' ∨ header[p - 1]? = some '\\') ∧
      (header[p + keyword.length]? = some '\t' ∨ header[p + keyword.length]? = some ' ')

instance (header keyword : Text) (p : ℕ) : Decidable (KeywordAt header keyword p) :=
  inferInstanceAs (Decidable (_ ∧ _ ∧ _))

/-- Whether the result of a search is the first entry of the keyword. -/
def FindsExactly (header keyword : Text) (found : Option ℕ) : Prop :=
  IsFirst (KeywordAt header keyword) found

/-- Whether the header does not begin with the keyword as a part of a longer word. -/
def Separated (header keyword : Text) : Prop :=
  keyword <+: header →
    header[keyword.length]? = some '\t' ∨ header[keyword.length]? = some ' '

instance (header keyword : Text) : Decidable (Separated header keyword) :=
  inferInstanceAs (Decidable (_ → _))

/-- The search over positions stops at the first one that begins an entry. -/
theorem firstEntry_isFirst {keyword : Text} (hk : keyword ≠ []) (before : Option Char) (s : Text) :
    IsFirst (fun p => IsEntry keyword (charBefore before s p) (s.drop p))
      (firstEntry keyword before s) := by
  induction s generalizing before with
  | nil =>
    intro p h
    have hnil : keyword <+: [] := by simpa using h.1
    exact hk (List.prefix_nil.mp hnil)
  | cons c s ih =>
    by_cases he : IsEntry keyword before (c :: s)
    · rw [firstEntry, if_pos he]
      exact ⟨he, fun q hq => absurd hq (Nat.not_lt_zero q)⟩
    · rw [firstEntry, if_neg he]
      apply IsFirst.cons he
      -- the character before a later position is the same in the tail
      have hbefore (p : ℕ) : charBefore (some c) s p = charBefore before (c :: s) (p + 1) := by
        cases p <;> rfl
      exact (ih (some c)).congr fun p => by rw [hbefore p, List.drop_succ_cons]

/-- What stands before a position that is not the first. -/
theorem charBefore_pos {before : Option Char} {s : Text} {p : ℕ} (hp : p ≠ 0) :
    charBefore before s p = s[p - 1]? := by
  cases p with
  | zero => exact absurd rfl hp
  | succ p => rfl

/-- What the search looks for is an entry, but for the blank that it does not ask for at the beginning
of the header. -/
theorem isEntry_iff {header keyword : Text} (hk : keyword ≠ []) {p : ℕ} :
    IsEntry keyword (charBefore none header p) (header.drop p) ↔
      keyword <+: header.drop p ∧ (p = 0 ∨ KeywordAt header keyword p) := by
  have hget : (header.drop p)[keyword.length]? = header[p + keyword.length]? := List.getElem?_drop
  rcases Nat.eq_zero_or_pos p with rfl | hp
  · simp [IsEntry, charBefore]
  · have hne : p ≠ 0 := Nat.pos_iff_ne_zero.mp hp
    rw [IsEntry, charBefore_pos hne, hget, KeywordAt]
    constructor
    · rintro ⟨hpre, hnone | hmid⟩
      · -- every position but the first has a character before it
        have hlen : header.length ≤ p - 1 := List.getElem?_eq_none_iff.mp hnone
        rw [List.drop_eq_nil_of_le (by omega)] at hpre
        exact absurd (List.prefix_nil.mp hpre) hk
      · exact ⟨hpre, .inr ⟨hpre, .inr hmid.1, hmid.2⟩⟩
    · rintro ⟨hpre, hzero | ⟨-, hbefore, hnext⟩⟩
      · exact absurd hzero hne
      · exact ⟨hpre, .inr ⟨hbefore.resolve_left hne, hnext⟩⟩

/-- `ascii_header_find` returns the first position where the keyword is an entry or the beginning of the
header. -/
theorem asciiHeaderFind_isFirst {header keyword : Text} (hk : keyword ≠ []) :
    IsFirst (fun p => keyword <+: header.drop p ∧ (p = 0 ∨ KeywordAt header keyword p))
      (asciiHeaderFind header keyword) := by
  rw [asciiHeaderFind_eq hk]
  exact (firstEntry_isFirst hk none header).congr fun _ => isEntry_iff hk

/-- In a header that is separated from the keyword the two agree on what an entry is. -/
theorem Separated.keywordAt_iff {header keyword : Text} (h : Separated header keyword) (p : ℕ) :
    keyword <+: header.drop p ∧ (p = 0 ∨ KeywordAt header keyword p) ↔
      KeywordAt header keyword p := by
  constructor
  · rintro ⟨hpre, rfl | hat⟩
    · exact ⟨hpre, .inl rfl, by simpa using h hpre⟩
    · exact hat
  · exact fun hat => ⟨hat.1, .inr hat⟩

/-- A keyword that a header begins with is found there, whatever follows it. -/
theorem asciiHeaderFind_zero {header keyword : Text} (hk : keyword ≠ []) (h : keyword <+: header) :
    asciiHeaderFind header keyword = some 0 :=
  (asciiHeaderFind_isFirst hk).unique
    ⟨⟨h, .inl rfl⟩, fun q hq => absurd hq (Nat.not_lt_zero q)⟩

/-- The search for a keyword is exact if and only if the header does not begin with the keyword as a part
of a longer word. -/
theorem finds_iff (header keyword : Text) (hk : keyword ≠ []) :
    FindsExactly header keyword (asciiHeaderFind header keyword) ↔ Separated header keyword := by
  constructor
  · intro h hpre
    rw [asciiHeaderFind_zero hk hpre] at h
    have hnext := h.1.2.2
    rwa [Nat.zero_add] at hnext
  · intro h
    exact (asciiHeaderFind_isFirst hk).congr h.keywordAt_iff

theorem finds_frequency : FindsExactly "BW 64\nFREQ 1400\n".toList "FREQ".toList
    (asciiHeaderFind "BW 64\nFREQ 1400\n".toList "FREQ".toList) :=
  (finds_iff _ _ (by decide)).mpr (by decide)

/-- The entry of `BWIDTH` is taken for one of `BW`. -/
theorem bw_found_in_bwidth : ¬ ∀ header keyword : Text, keyword ≠ [] →
    FindsExactly header keyword (asciiHeaderFind header keyword) := by
  intro h
  have hfound := h "BWIDTH 64\n".toList "BW".toList (by decide)
  rw [asciiHeaderFind_zero (by decide) (by decide)] at hfound
  exact absurd hfound.1 (by decide)

end Psrdada
