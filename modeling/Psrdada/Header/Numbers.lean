import Mathlib.Data.List.TakeDrop
import Psrdada.Client.ClientLoops
import Psrdada.Header.Placement

/-! # Numbers in headers

A number that `ascii_header_set` writes over an entry is found at the same place again
(`asciiHeaderFind_set`), and read back as the same number (`asciiHeaderGetUnsigned_set`).  No property of
the other lines is needed for that. -/

namespace Psrdada

open CString

/-! ## Decimal numbers -/

theorem isDigit_decimal (n : ℕ) : ∀ c ∈ decimal n, c.isDigit = true := fun _ hc =>
  Nat.isDigit_of_mem_toDigits (by decide) (by decide) hc

theorem digitsValue_decimal (n : ℕ) : digitsValue (decimal n) = n := Nat.ofDigitChars_ten_toDigits

theorem decimal_ne_nil (n : ℕ) : decimal n ≠ [] := Nat.toDigits_ne_nil

/-- A 64-bit number has at most twenty digits. -/
theorem length_decimal_le {n : ℕ} (h : n < 2 ^ 64) : (decimal n).length ≤ 20 :=
  (Nat.length_toDigits_le_iff (by decide) (by decide)).mpr (Nat.lt_trans h (by decide))

/-- A digit is neither a blank nor a sign. -/
theorem digit_plain {c : Char} (h : c.isDigit = true) : c.isWhitespace = false ∧ c ≠ '-' ∧ c ≠ '+' := by
  refine ⟨?_, ?_, ?_⟩
  · by_contra hw
    have hw' : c.isWhitespace = true := by simpa using hw
    simp only [Char.isWhitespace, Bool.or_eq_true, decide_eq_true_eq] at hw'
    rcases hw' with ((rfl | rfl) | rfl) | rfl
    all_goals simp at h
  · rintro rfl
    simp at h
  · rintro rfl
    simp at h

/-- A number in decimal is scanned as it is. -/
theorem scanUnsigned_decimal {n : ℕ} (hn : n < 2 ^ 64) {gap rest : Text}
    (hgap : ∀ c ∈ gap, c = ' ') (hrest : ∀ c ∈ rest.head?, c.isDigit = false) :
    scanUnsigned (gap ++ (decimal n ++ rest)) = some (n, rest) := by
  obtain ⟨d, ds, hd⟩ := List.exists_cons_of_ne_nil (decimal_ne_nil n)
  have hdigit : d.isDigit = true := isDigit_decimal n d (by simp [hd])
  obtain ⟨hblank, hminus, hplus⟩ := digit_plain hdigit
  have hskip : (gap ++ (decimal n ++ rest)).dropWhile Char.isWhitespace = decimal n ++ rest := by
    rw [List.dropWhile_append_of_pos (fun c hc => by rw [hgap c hc]; rfl), hd, List.cons_append,
      List.dropWhile_cons_of_neg (by simp [hblank])]
  have hspan : scanDigits (decimal n ++ rest) = (decimal n, rest) := by
    rw [scanDigits, List.span_eq_takeWhile_dropWhile,
      List.takeWhile_append_of_pos (isDigit_decimal n), List.dropWhile_append_of_pos (isDigit_decimal n)]
    cases rest with
    | nil => simp
    | cons c rest =>
      have hc : ¬ c.isDigit = true := by simp [hrest c rfl]
      rw [List.takeWhile_cons_of_neg hc, List.dropWhile_cons_of_neg hc, List.append_nil]
  have hhead : decimal n ++ rest = d :: (ds ++ rest) := by rw [hd, List.cons_append]
  unfold scanUnsigned
  simp only [hskip]
  split
  · rename_i heq
    rw [hhead] at heq
    exact absurd (List.cons_eq_cons.mp heq).1 hminus
  · rename_i heq
    rw [hhead] at heq
    exact absurd (List.cons_eq_cons.mp heq).1 hplus
  · simp only [hspan, decimal_ne_nil, if_false, digitsValue_decimal, Bool.false_eq_true]
    rw [Nat.min_eq_left (by omega)]

/-! ## The place of an entry -/

/-- Whether an entry begins somewhere depends on the text up to the character after the keyword. -/
theorem isEntry_shared {keyword p a b : Text} {before : Option Char} (h : keyword.length < p.length) :
    IsEntry keyword before (p ++ a) ↔ IsEntry keyword before (p ++ b) := by
  have hget (t : Text) : (p ++ t)[keyword.length]? = p[keyword.length]? := List.getElem?_append_left h
  have hpre (t : Text) : keyword <+: p ++ t ↔ keyword <+: p :=
    ⟨fun hp => List.prefix_of_prefix_length_le hp (List.prefix_append _ _) (by omega),
      fun hp => hp.trans (List.prefix_append _ _)⟩
  unfold IsEntry
  rw [hget, hget, hpre, hpre]

/-- The first entry stays where it is when the text behind its keyword changes. -/
theorem firstEntry_shared {keyword pre a b : Text} {before : Option Char} (hk : keyword ≠ [])
    (h : firstEntry keyword before (pre ++ (keyword ++ a)) = some pre.length)
    (hb : IsEntry keyword (charBefore before pre pre.length) (keyword ++ b)) :
    firstEntry keyword before (pre ++ (keyword ++ b)) = some pre.length := by
  induction pre generalizing before with
  | nil =>
    obtain ⟨c, s, hcs⟩ := List.exists_cons_of_ne_nil hk
    rw [hcs, List.cons_append] at hb
    rw [List.nil_append, hcs, List.cons_append, firstEntry, if_pos]
    · rfl
    · rw [← hcs] at hb ⊢
      exact hb
  | cons c pre ih =>
    have hsplit (t : Text) : c :: (pre ++ (keyword ++ t)) = (c :: pre ++ keyword) ++ t := by simp
    have hlt : keyword.length < (c :: pre ++ keyword).length := by
      simp only [List.length_append, List.length_cons]
      omega
    rw [List.cons_append, firstEntry] at h
    by_cases he : IsEntry keyword before (c :: (pre ++ (keyword ++ a)))
    · rw [if_pos he] at h
      simp at h
    · rw [if_neg he] at h
      have he' : ¬ IsEntry keyword before (c :: (pre ++ (keyword ++ b))) := by
        rw [hsplit] at he ⊢
        exact fun h' => he ((isEntry_shared hlt).mp h')
      obtain ⟨m, hm, hlen⟩ := Option.map_eq_some_iff.mp h
      obtain rfl : m = pre.length := by simpa using hlen
      have hbefore : charBefore (some c) pre pre.length =
          charBefore before (c :: pre) (c :: pre).length := by
        cases pre with
        | nil => rfl
        | cons a pre => simp [charBefore]
      rw [List.cons_append, firstEntry, if_neg he', ih hm (hbefore ▸ hb)]
      rfl

variable {k : Word} {header : Text} {key : ℕ}

/-- An entry that is written over the one that is found. -/
theorem asciiHeaderSet_found (value : Text) (h : asciiHeaderFind header k.text = some key)
    (hvalue : value.length < strlen) : ∃ post : Text,
    asciiHeaderSet header k.text value = header.take key ++ (entryText k.text value ++ post) := by
  refine ⟨(header.drop key).drop (strcspn (header.drop key) "#\n".toList), ?_⟩
  rw [asciiHeaderSet, List.take_of_length_le (by omega), placeEntry, h]
  exact List.append_assoc _ _ _

/-- It is found at the same place. -/
theorem asciiHeaderFind_set (value : Text) (h : asciiHeaderFind header k.text = some key)
    (hvalue : value.length < strlen) :
    asciiHeaderFind (asciiHeaderSet header k.text value) k.text = some key := by
  obtain ⟨post, hset⟩ := asciiHeaderSet_found value h hvalue
  obtain ⟨gap, tail, heq, -⟩ := entryText_split k.text value
  rw [asciiHeaderFind_eq k.nonempty] at h ⊢
  have hlt := firstEntry_lt h
  have hentry := firstEntry_isEntry h
  obtain ⟨a, ha⟩ := hentry.1
  have hlen : (header.take key).length = key := List.length_take_of_le (by omega)
  have hheader : header = header.take key ++ (k.text ++ a) := by rw [ha, List.take_append_drop]
  have hbefore : charBefore none (header.take key) (header.take key).length =
      charBefore none header key := by
    rw [hlen]
    cases key with
    | zero => rfl
    | succ n => simp [charBefore]
  rw [hset, heq, List.append_assoc, List.cons_append]
  have hfirst := @firstEntry_shared k.text (header.take key) a
    (' ' :: (gap ++ (value ++ ' ' :: tail) ++ post)) none k.nonempty
    (by rw [← hheader, hlen]; exact h) (by
      rw [hbefore]
      exact ⟨List.prefix_append _ _, hentry.2.imp_right fun hnext => ⟨hnext.1, .inr (by simp)⟩⟩)
  rw [hlen] at hfirst
  exact hfirst

/-- A number that is written over an entry is read back. -/
theorem asciiHeaderGetUnsigned_set {n : ℕ} (hn : n < 2 ^ 64)
    (h : asciiHeaderFind header k.text = some key) :
    asciiHeaderGetUnsigned (asciiHeaderSet header k.text (decimal n)) k.text = some n := by
  have hshort : (decimal n).length < strlen :=
    Nat.lt_of_le_of_lt (length_decimal_le hn) (by decide)
  obtain ⟨post, hset⟩ := asciiHeaderSet_found (decimal n) h hshort
  obtain ⟨gap, tail, heq, hgap, htail⟩ := entryText_split k.text (decimal n)
  have hlt : key < header.length := by
    rw [asciiHeaderFind_eq k.nonempty] at h
    exact firstEntry_lt h
  rw [asciiHeaderGetUnsigned, asciiHeaderFind_set (decimal n) h hshort]
  simp only []
  rw [hset, List.drop_left' (List.length_take_of_le (by omega)), heq, List.append_assoc,
    List.cons_append]
  have hscan := @scanUnsigned_decimal n hn (' ' :: gap) (' ' :: tail ++ post)
    (by simpa using hgap) (by simp)
  rw [drop_keyword]
  simp only [List.cons_append, List.append_assoc] at hscan ⊢
  rw [hscan]
  rfl

end Psrdada
