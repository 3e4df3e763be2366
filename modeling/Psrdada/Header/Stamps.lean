import Mathlib.Data.List.DropRight
import Psrdada.Header.Numbers
import Psrdada.Header.Store

/-! # Numbers that are kept in a header

A program that writes one file after the other sets the same keywords again and again, on the header that
it has left behind the time before.  `Store.stampAll_again` says that nothing of the earlier values is
left: the header is what the last values make of the first header, with the entries in the same places.

The header thus stays within the room that one round of entries takes (`Store.length_stampAll`). -/

namespace Psrdada

open CString

/-! ## Numbers as words -/

/-- The digits of a number are neither blanks nor marks. -/
theorem plain_decimal (n : ℕ) : ∀ c ∈ decimal n, isspace c = false ∧ c ≠ '\\' ∧ c ≠ '#' := by
  intro c hc
  have hdigit : c.isDigit = true := isDigit_decimal n c hc
  refine ⟨?_, ?_, ?_⟩
  · by_contra hspace
    have hspace' : isspace c = true := by simpa using hspace
    simp only [isspace, Bool.or_eq_true, decide_eq_true_eq] at hspace'
    rcases hspace' with ((((rfl | rfl) | rfl) | rfl) | rfl) | rfl
    all_goals simp at hdigit
  · rintro rfl
    simp at hdigit
  · rintro rfl
    simp at hdigit

/-- A number in decimal, as a word. -/
def numberWord (n : ℕ) : Word := ⟨decimal n, decimal_ne_nil n, plain_decimal n⟩

theorem zero_numberWord (n : ℕ) : '\x00' ∉ (numberWord n).text := fun hc =>
  absurd (isDigit_decimal n _ hc) (by decide)

/-- A number that is read as a word is read as a number, where a blank is white space for both. -/
theorem asciiHeaderGetUnsigned_of_get {header keyword : Text} {n : ℕ} (hn : n < 2 ^ 64)
    (hblank : ∀ c ∈ header, isspace c = c.isWhitespace)
    (h : asciiHeaderGet header keyword = some (decimal n)) :
    asciiHeaderGetUnsigned header keyword = some n := by
  unfold asciiHeaderGet at h
  unfold asciiHeaderGetUnsigned
  cases hkey : asciiHeaderFind header keyword with
  | none => simp [hkey] at h
  | some key =>
    simp only [hkey] at h ⊢
    set t := (header.drop key).drop (strcspn (header.drop key) whitespace) with ht
    have hmem : ∀ c ∈ t, c ∈ header := fun c hc => List.mem_of_mem_drop (List.mem_of_mem_drop hc)
    -- both conversions skip the same blanks
    have hskip : t.dropWhile Char.isWhitespace = t.dropWhile isspace := by
      clear_value t
      clear ht h
      induction t with
      | nil => rfl
      | cons c t ih =>
        rw [List.forall_mem_cons] at hmem
        rw [List.dropWhile_cons, List.dropWhile_cons, hblank c hmem.1, ih hmem.2]
    have hsplit : t.dropWhile isspace = decimal n ++ (t.dropWhile isspace).dropWhile fun c => !isspace c := by
      unfold scanWord at h
      cases hd : t.dropWhile isspace with
      | nil => simp [hd] at h
      | cons c rest =>
        simp only [hd, Option.some.injEq] at h
        rw [← h, List.takeWhile_append_dropWhile]
    have hrest : ∀ c ∈ ((t.dropWhile isspace).dropWhile fun c => !isspace c).head?, c.isDigit = false := by
      intro c hc
      have hstop := List.head?_dropWhile_not (fun c => !isspace c) (t.dropWhile isspace)
      rw [Option.mem_def.mp hc] at hstop
      by_contra hdigit
      have hspace : isspace c = true := by simpa using hstop
      have hdigit' : c.isDigit = true := by simpa using hdigit
      simp only [isspace, Bool.or_eq_true, decide_eq_true_eq] at hspace
      rcases hspace with ((((rfl | rfl) | rfl) | rfl) | rfl) | rfl
      all_goals simp at hdigit'
    have hscan : scanUnsigned t = scanUnsigned (t.dropWhile Char.isWhitespace) := by
      rw [scanUnsigned, scanUnsigned, List.dropWhile_idempotent]
    rw [hscan, hskip, hsplit]
    have := @scanUnsigned_decimal n hn [] _ (by simp) hrest
    rw [List.nil_append] at this
    rw [this]
    rfl

/-! ## Entries that are set again -/

section Lines

variable {k k' : Word} {ls : List Text}

/-- Neither a keyword nor a number has a comment mark. -/
theorem comment_entry (k v : Word) (l : Text) :
    comment (entryText k.text v.text ++ comment l) = comment l := by
  obtain ⟨gap, tail, heq, hgap, htail⟩ := entryText_split k.text v.text
  have hplain : ∀ c ∈ entryText k.text v.text, decide (c ≠ '#') = true := by
    intro c hc
    rw [heq] at hc
    simp only [List.mem_append, List.mem_cons] at hc
    rw [decide_eq_true_eq]
    rcases hc with hc | rfl | hc | hc | rfl | hc
    · exact (k.plain c hc).2.2
    · decide
    · rw [hgap c hc]
      decide
    · exact (v.plain c hc).2.2
    · decide
    · rw [htail c hc]
      decide
  have hlead (t : Text) : comment (entryText k.text v.text ++ t) = comment t := by
    unfold comment
    rw [List.dropWhile_append_of_pos hplain]
  rw [hlead, comment, comment, List.dropWhile_idempotent]

/-- The second of two values replaces the first. -/
theorem putLine_again (k v w : Word) (ls : List Text) :
    putLine k (entryText k.text w.text) (putLine k (entryText k.text v.text) ls) =
      putLine k (entryText k.text w.text) ls := by
  have hholds (l : Text) : HoldsKey k (entryText k.text v.text ++ comment l) := (holdsKey_entry v l).mpr rfl
  induction ls with
  | nil =>
    have hnil := hholds []
    rw [comment, List.dropWhile_nil, List.append_nil] at hnil
    have hempty : comment (entryText k.text v.text) = [] := by simpa [comment] using comment_entry k v []
    show putLine k (entryText k.text w.text) [entryText k.text v.text] = [entryText k.text w.text]
    rw [putLine, if_pos hnil, hempty, List.append_nil]
  | cons l ls ih =>
    by_cases hl : HoldsKey k l
    · rw [putLine, if_pos hl, putLine, if_pos (hholds l), comment_entry, putLine, if_pos hl]
    · rw [putLine, if_neg hl, putLine, if_neg hl, ih, putLine, if_neg hl]

/-- An entry that is there already can be set before another or after it. -/
theorem putLine_comm (hne : k ≠ k') (v v' : Word) (h : ∃ l ∈ ls, HoldsKey k l) :
    putLine k (entryText k.text v.text) (putLine k' (entryText k'.text v'.text) ls) =
      putLine k' (entryText k'.text v'.text) (putLine k (entryText k.text v.text) ls) := by
  have hother (l : Text) : ¬ HoldsKey k' (entryText k.text v.text ++ comment l) := fun hh =>
    hne ((holdsKey_entry v l).mp hh).symm
  have hother' (l : Text) : ¬ HoldsKey k (entryText k'.text v'.text ++ comment l) := fun hh =>
    hne ((holdsKey_entry v' l).mp hh)
  induction ls with
  | nil =>
    obtain ⟨l, hl, -⟩ := h
    exact absurd hl List.not_mem_nil
  | cons l ls ih =>
    by_cases hl : HoldsKey k l
    · have hl' : ¬ HoldsKey k' l := Store.not_holdsKey hne.symm hl
      rw [putLine, if_neg hl', putLine, if_pos hl, putLine, if_pos hl, putLine, if_neg (hother l)]
    · have hrest : ∃ l ∈ ls, HoldsKey k l := by
        obtain ⟨m, hm, hholds⟩ := h
        rcases List.mem_cons.mp hm with rfl | hm
        · exact absurd hholds hl
        · exact ⟨m, hm, hholds⟩
      by_cases hl' : HoldsKey k' l
      · rw [putLine, if_pos hl', putLine, if_neg (hother' l), putLine, if_neg hl, putLine, if_pos hl']
      · rw [putLine, if_neg hl', putLine, if_neg hl, ih hrest, putLine, if_neg hl, putLine, if_neg hl']

/-- An entry that has been set is there, and stays when others are set. -/
theorem holds_putLine_self (k v : Word) (ls : List Text) :
    ∃ l ∈ putLine k (entryText k.text v.text) ls, HoldsKey k l := by
  rcases Store.putLine_cases k (entryText k.text v.text) ls with ⟨-, hput⟩ | ⟨as, l, bs, -, -, -, hput⟩
  · have hnil : HoldsKey k (entryText k.text v.text ++ comment []) := (holdsKey_entry v []).mpr rfl
    rw [comment, List.dropWhile_nil, List.append_nil] at hnil
    exact ⟨_, by rw [hput]; simp, hnil⟩
  · exact ⟨_, by rw [hput]; simp, (holdsKey_entry v l).mpr rfl⟩

theorem holds_putLine (k' v : Word) (h : ∃ l ∈ ls, HoldsKey k l) :
    ∃ l ∈ putLine k' (entryText k'.text v.text) ls, HoldsKey k l := by
  by_cases hk : k = k'
  · subst hk
    exact holds_putLine_self k v ls
  · obtain ⟨l, hl, hholds⟩ := h
    rcases Store.putLine_cases k' (entryText k'.text v.text) ls with ⟨-, hput⟩ | ⟨as, m, bs, hs, -, hm, hput⟩
    · exact ⟨l, by rw [hput]; exact List.mem_append_left _ hl, hholds⟩
    · refine ⟨l, ?_, hholds⟩
      rw [hs] at hl
      rw [hput]
      rcases List.mem_append.mp hl with hl | hl
      · exact List.mem_append_left _ hl
      · rcases List.mem_cons.mp hl with rfl | hl
        · exact absurd hm (Store.not_holdsKey (Ne.symm hk) hholds)
        · exact List.mem_append_right _ (List.mem_cons_of_mem _ hl)

/-- A line has no entry of another line's keyword if it has none of the one that it is known for. -/
theorem holdsKey_apart {k : Word} {l l' : Text} (hl : HoldsKey k l) (hl' : ¬ HoldsKey k l') (k' : Word)
    (h : HoldsKey k' l) : ¬ HoldsKey k' l' := by
  by_cases hk : k' = k
  · subst hk
    exact hl'
  · exact absurd h (Store.not_holdsKey hk hl)

end Lines

/-! ## Stamps -/

/-- A number for a keyword of a header. -/
structure Stamp where
  /-- The keyword. -/
  key : Word
  /-- It is a C string. -/
  plain : '\x00' ∉ key.text
  /-- The number. -/
  number : ℕ

/-- `ascii_header_set` of numbers, one after the other. -/
def stampText (header : Text) (xs : List Stamp) : Text :=
  xs.foldl (fun header x => asciiHeaderSet header x.key.text (decimal x.number)) header

namespace Store

variable {s : Store}

/-- The header after a number has been set. -/
def stamp (s : Store) (x : Stamp) : Store :=
  s.put x.key (numberWord x.number) x.plain (zero_numberWord x.number)

/-- The header after numbers have been set, one after the other. -/
def stampAll (s : Store) (xs : List Stamp) : Store := xs.foldl stamp s

/-- What the numbers make of the lines. -/
theorem lines_stamp (s : Store) (x : Stamp) :
    (s.stamp x).lines = putLine x.key (entryText x.key.text (decimal x.number)) s.lines := rfl

theorem first_stampAll (s : Store) (xs : List Stamp) : (s.stampAll xs).first = s.first := by
  induction xs generalizing s with
  | nil => rfl
  | cons x xs ih => exact ih (s.stamp x)

/-- The calls of the source set the numbers. -/
theorem text_stampAll {xs : List Stamp} (h : ∀ x ∈ xs, s.Free x.key ∧ x.number < 2 ^ 64) :
    stampText s.text xs = (s.stampAll xs).text := by
  induction xs generalizing s with
  | nil => rfl
  | cons x xs ih =>
    rw [List.forall_mem_cons] at h
    have hshort : (numberWord x.number).text.length < strlen :=
      Nat.lt_of_le_of_lt (length_decimal_le h.1.2) (by decide)
    have hset : asciiHeaderSet s.text x.key.text (decimal x.number) = (s.stamp x).text :=
      set_text h.1.1 x.plain (zero_numberWord x.number) hshort
    rw [stampText, List.foldl_cons, hset]
    exact ih (s := s.stamp x) h.2

/-- A header with numbers holds them, and else what it did. -/
theorem contents_stampAll {xs : List Stamp} (h : ∀ x ∈ xs, s.Free x.key) :
    (s.stampAll xs).contents =
      xs.foldl (fun m (x : Stamp) => Function.update m x.key (some (decimal x.number))) s.contents := by
  induction xs generalizing s with
  | nil => rfl
  | cons x xs ih =>
    rw [List.forall_mem_cons] at h
    have hone : (s.stamp x).contents = Function.update s.contents x.key (some (decimal x.number)) :=
      contents_put h.1 x.plain (zero_numberWord x.number)
    rw [List.foldl_cons, ← hone]
    exact ih (s := s.stamp x) h.2

/-- The second of two numbers for a keyword replaces the first. -/
theorem stamp_again {x y : Stamp} (hkey : x.key = y.key) : (s.stamp x).stamp y = s.stamp y := by
  rw [Store.mk.injEq]
  refine ⟨rfl, ?_⟩
  rw [lines_stamp, lines_stamp, lines_stamp, hkey]
  exact putLine_again y.key (numberWord x.number) (numberWord y.number) s.lines

/-- What an earlier round has set is gone after a round with the same keywords. -/
theorem stampAll_again {xs ys : List Stamp} (hkeys : xs.map Stamp.key = ys.map Stamp.key)
    (hnodup : (xs.map Stamp.key).Nodup) : (s.stampAll xs).stampAll ys = s.stampAll ys := by
  -- an earlier number for a keyword that is there goes past the later rounds
  have hpast (zs : List Stamp) (x : Stamp) (s : Store) (hx : ∃ l ∈ s.lines, HoldsKey x.key l)
      (hne : ∀ z ∈ zs, x.key ≠ z.key) : (s.stampAll zs).stamp x = (s.stamp x).stampAll zs := by
    induction zs generalizing s with
    | nil => rfl
    | cons z zs ih =>
      rw [List.forall_mem_cons] at hne
      have hswap : (s.stamp z).stamp x = (s.stamp x).stamp z := by
        rw [Store.mk.injEq]
        exact ⟨rfl, putLine_comm hne.1 (numberWord x.number) (numberWord z.number) hx⟩
      have hholds : ∃ l ∈ (s.stamp z).lines, HoldsKey x.key l :=
        holds_putLine z.key (numberWord z.number) hx
      show ((s.stamp z).stampAll zs).stamp x = ((s.stamp x).stamp z).stampAll zs
      rw [ih _ hholds hne.2, hswap]
  induction xs generalizing s ys with
  | nil =>
    obtain rfl : ys = [] := by simpa using hkeys.symm
    rfl
  | cons x xs ih =>
    cases ys with
    | nil => simp at hkeys
    | cons y ys =>
      obtain ⟨hkey, hkeys⟩ := List.cons_eq_cons.mp hkeys
      obtain ⟨hx, hnodup⟩ := List.nodup_cons.mp hnodup
      have hheld : ∃ l ∈ (s.stamp x).lines, HoldsKey y.key l := by
        rw [← show x.key = y.key from hkey]
        exact holds_putLine_self x.key (numberWord x.number) s.lines
      have hne : ∀ z ∈ xs, y.key ≠ z.key := by
        intro z hz heq
        refine hx ?_
        rw [show x.key = z.key from hkey.trans heq]
        exact List.mem_map_of_mem hz
      show (((s.stamp x).stampAll xs).stamp y).stampAll ys = (s.stamp y).stampAll ys
      rw [hpast xs y (s.stamp x) hheld hne, stamp_again hkey]
      exact ih hkeys hnodup

/-- The numbers of one round take a line each, of as many characters as the longest keyword needs. -/
theorem length_stampAll {width : ℕ} (hwidth : 12 ≤ width) {xs : List Stamp}
    (h : ∀ x ∈ xs, x.key.text.length ≤ width ∧ x.number < 2 ^ 64) :
    (s.stampAll xs).text.length ≤ s.text.length + (width + 25) * xs.length := by
  induction xs generalizing s with
  | nil => exact le_rfl
  | cons x xs ih =>
    rw [List.forall_mem_cons] at h
    have hentry : (entryText x.key.text (decimal x.number)).length ≤ width + 24 := by
      have := length_decimal_le h.1.2
      rw [entryText_length]
      omega
    have hput := length_joinLines_put x.key (entryText x.key.text (decimal x.number)) s.lines
    have hone : (s.stamp x).text.length ≤ s.text.length + (width + 25) := by
      simp only [text, stamp, put, numberWord, joinLines, List.length_append, List.length_cons]
      omega
    have := ih (s := s.stamp x) h.2
    show ((s.stamp x).stampAll xs).text.length ≤ _
    rw [List.length_cons, Nat.mul_succ]
    omega

theorem mem_joinLines {ls : List Text} {c : Char} :
    c ∈ joinLines ls ↔ (∃ l ∈ ls, c ∈ l) ∨ c = '\n' ∧ ls ≠ [] := by
  induction ls with
  | nil => simp [joinLines]
  | cons l ls ih =>
    simp only [joinLines, List.mem_append, List.mem_cons, ih, exists_eq_or_imp]
    constructor
    · rintro (hc | hc | hc | hc)
      · exact .inl (.inl hc)
      · exact .inr ⟨hc, List.cons_ne_nil _ _⟩
      · exact .inl (.inr hc)
      · exact .inr ⟨hc.1, List.cons_ne_nil _ _⟩
    · rintro ((hc | hc) | ⟨hc, -⟩)
      · exact .inl hc
      · exact .inr (.inr (.inl hc))
      · exact .inr (.inl hc)

/-- No other characters get into the header than those of the keywords, blanks and digits. -/
theorem forall_text_stampAll {P : Char → Prop} {xs : List Stamp} (h : ∀ c ∈ s.text, P c)
    (hkeys : ∀ x ∈ xs, ∀ c ∈ x.key.text, P c) (hspace : P ' ')
    (hdigit : ∀ c : Char, c.isDigit = true → P c) : ∀ c ∈ (s.stampAll xs).text, P c := by
  induction xs generalizing s with
  | nil => exact h
  | cons x xs ih =>
    rw [List.forall_mem_cons] at hkeys
    refine ih (s := s.stamp x) ?_ hkeys.2
    have hentry : ∀ c ∈ entryText x.key.text (decimal x.number), P c := by
      obtain ⟨gap, tail, heq, hgap, htail⟩ := entryText_split x.key.text (decimal x.number)
      intro c hc
      rw [heq] at hc
      simp only [List.mem_append, List.mem_cons] at hc
      rcases hc with hc | rfl | hc | hc | rfl | hc
      · exact hkeys.1 c hc
      · exact hspace
      · exact hgap c hc ▸ hspace
      · exact hdigit c (isDigit_decimal _ c hc)
      · exact hspace
      · exact htail c hc ▸ hspace
    have hline {l : Text} (hl : l ∈ s.first :: s.lines) : ∀ c ∈ l, P c := fun c hc =>
      h c (mem_joinLines.mpr (.inl ⟨l, hl, hc⟩))
    have hnl : P '\n' := h '\n' (mem_joinLines.mpr (.inr ⟨rfl, List.cons_ne_nil _ _⟩))
    intro c hc
    rcases mem_joinLines.mp hc with ⟨l, hl, hcl⟩ | ⟨rfl, -⟩
    · rcases List.mem_cons.mp hl with rfl | hl
      · exact hline List.mem_cons_self c hcl
      · rcases mem_putLine hl with hl | rfl | ⟨m, hm, rfl⟩
        · exact hline (List.mem_cons_of_mem _ hl) c hcl
        · rw [comment, List.dropWhile_nil, List.append_nil] at hcl
          exact hentry c hcl
        · rcases List.mem_append.mp hcl with hcl | hcl
          · exact hentry c hcl
          · exact hline (List.mem_cons_of_mem _ hm) c (comment_sublist m c hcl)
    · exact hnl

end Store

end Psrdada
