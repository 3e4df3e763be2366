import Psrdada.Header.Placement

/-! # When setting and reading back works

The places of `Header.Placement`, put together: setting an entry works for every value that fits exactly
when the place is one where an entry does no harm and no value that fits is longer than the buffer in
which it is formatted. -/

namespace Psrdada

open CString

variable {header : Header} {k : Word}

/-- A header that has no entry of a keyword does not begin with it. -/
theorem not_prefix_of_absent (h : firstEntry k.text none header.text = none) :
    ¬ k.text <+: header.text := by
  intro hpre
  cases htext : header.text with
  | nil => exact k.nonempty (List.prefix_nil.mp (htext ▸ hpre))
  | cons c s =>
    have he : IsEntry k.text none (c :: s) := ⟨htext ▸ hpre, .inl rfl⟩
    rw [htext, firstEntry, if_pos he] at h
    simp at h

/-- `DATA` begins a line: the entry becomes the line before it. -/
theorem inserted_of_data {eol : ℕ} (h : asciiHeaderFind header.text k.text = none)
    (hdata : strstr "DATA\n".toList header.text = some (eol + 1))
    (hchar : header.text[eol]? = some '\n') :
    Inserted header k (header.text.take eol) (header.text.drop (eol + 1))
      (header.text.drop (eol + 1)) := by
  have hlt := strstr_lt (List.cons_ne_nil _ _) hdata
  have hget : header.text[eol] = '\n' := by
    rw [List.getElem?_eq_getElem (by omega)] at hchar
    exact Option.some.inj hchar
  have htake : header.text.take (eol + 1) = header.text.take eol ++ ['\n'] := by
    rw [List.take_succ_eq_append_getElem (by omega), hget]
  have htext : header.text = header.text.take eol ++ '\n' :: header.text.drop (eol + 1) := by
    conv_lhs => rw [← List.take_append_drop (eol + 1) header.text, htake]
    simp
  refine ⟨htext, ?_, ?_, shut_data (strstr_some hdata), fun _ => rfl⟩
  · intro entry
    rw [placeEntry_of_data h hdata, htake]
    simp
  · rw [asciiHeaderFind_eq k.nonempty, htext, firstEntry_append, Option.or_eq_none_iff] at h
    exact h.1

/-- There is no `DATA`: the entry becomes the last line. -/
theorem inserted_of_end {l : Text} (h : asciiHeaderFind header.text k.text = none)
    (hdata : strstr "DATA\n".toList header.text = none) (hl : header.text = l ++ ['\n']) :
    Inserted header k l [] ['\n'] := by
  refine ⟨hl, ?_, ?_, shut_nil, ?_⟩
  · intro entry
    rw [placeEntry_of_end h hdata, hl]
    simp
  · rw [← hl, ← asciiHeaderFind_eq k.nonempty, h]
  · intro k'
    rw [valueAfter_newline]
    rfl

/-! ## In the middle of a line -/

/-- An entry that is written in the middle of a line is not found, unless the header begins with what
looks like it. -/
theorem firstEntry_inside {before : Option Char} {m post : Text} (v : Word) (hm : m ≠ [])
    (hline : ∀ c ∈ m, c ≠ '\n' ∧ c ≠ '\\') (hnone : firstEntry k.text before (m ++ post) = none)
    (hfirst : before = none → ¬ k.text <+: m ++ (entryText k.text v.text ++ post)) :
    firstEntry k.text before (m ++ (entryText k.text v.text ++ post)) = none := by
  have hold : ¬ IsEntry k.text before (m ++ post) := by
    intro he
    obtain ⟨c, s, rfl⟩ := List.exists_cons_of_ne_nil hm
    rw [List.cons_append] at he hnone
    rw [firstEntry, if_pos he] at hnone
    simp at hnone
  have hpost : firstEntry k.text (some ' ') post = none := by
    rw [firstEntry_line hm hline hold] at hnone
    simpa using hnone
  have hnew : ¬ IsEntry k.text before (m ++ (entryText k.text v.text ++ post)) := by
    obtain ⟨gap, tail, heq, -⟩ := entryText_split k.text v.text
    rintro ⟨hpre, hnext⟩
    rcases hnext with hstart | ⟨hend, hnext⟩
    · exact hfirst hstart hpre
    rcases Nat.lt_or_ge k.text.length m.length with hlt | hge
    · refine hold ⟨?_, .inr ⟨hend, ?_⟩⟩
      · exact (List.prefix_of_prefix_length_le hpre (List.prefix_append _ _) hlt.le).trans
          (List.prefix_append _ _)
      · rw [List.getElem?_append_left hlt] at hnext ⊢
        exact hnext
    · have hinside : k.text.length - m.length < k.text.length := by
        have := List.length_pos_iff.mpr hm
        have := List.length_pos_iff.mpr k.nonempty
        omega
      rw [List.getElem?_append_right hge, heq, List.append_assoc, List.getElem?_append_left hinside,
        List.getElem?_eq_getElem hinside] at hnext
      have hplain := (k.plain _ (List.getElem_mem hinside)).1
      rcases hnext with hnext | hnext
      · rw [Option.some.inj hnext] at hplain
        simp [isspace] at hplain
      · rw [Option.some.inj hnext] at hplain
        simp [isspace] at hplain
  have hlong : ∀ c ∈ m ++ entryText k.text v.text, c ≠ '\n' ∧ c ≠ '\\' := by
    intro c hc
    rcases List.mem_append.mp hc with hc | hc
    · exact hline c hc
    · exact entryText_line k v c hc
  rw [← List.append_assoc] at hnew ⊢
  rw [firstEntry_line (by simp [hm]) hlong hnew, hpost]
  rfl

/-- The part of a text after its last newline. -/
theorem split_last_line {s : Text} (h : s.getLast? ≠ some '\n') (hs : s ≠ []) :
    ∃ l m, m ≠ [] ∧ '\n' ∉ m ∧ (s = m ∨ s = l ++ '\n' :: m) := by
  induction s with
  | nil => exact absurd rfl hs
  | cons c s ih =>
    cases s with
    | nil =>
      refine ⟨[], [c], by simp, ?_, .inl rfl⟩
      rintro hmem
      simp only [List.mem_singleton] at hmem
      simp [← hmem] at h
    | cons a s =>
      obtain ⟨l, m, hm, hnl, hsplit⟩ := ih (by simpa using h) (List.cons_ne_nil a s)
      rcases hsplit with hsplit | hsplit
      · by_cases hc : c = '\n'
        · exact ⟨[], m, hm, hnl, .inr (by rw [hc, hsplit, List.nil_append])⟩
        · refine ⟨[], c :: m, List.cons_ne_nil c m, ?_, .inl (by rw [hsplit])⟩
          rw [List.mem_cons, not_or]
          exact ⟨fun h => hc h.symm, hnl⟩
      · exact ⟨c :: l, m, hm, hnl, .inr (by rw [hsplit, List.cons_append])⟩

/-- `DATA` is found in the middle of a line: no two values can be set and read back without changing what
is read for other keywords. -/
theorem not_kept_of_mid {eol : ℕ} (h : asciiHeaderFind header.text k.text = none)
    (hdata : strstr "DATA\n".toList header.text = some (eol + 1))
    (hchar : header.text[eol]? ≠ some '\n') {v w : Word} (hvw : v ≠ w)
    (hv : v.text.length < strlen) (hw : w.text.length < strlen) (hkv : SetKept header k v)
    (hkw : SetKept header k w) : False := by
  have hlt := strstr_lt (List.cons_ne_nil _ _) hdata
  obtain ⟨pre, post, hpre, htext, hplace⟩ : ∃ pre post, pre = header.text.take (eol + 1) ∧
      header.text = pre ++ post ∧
      ∀ entry, placeEntry header.text k.text entry = pre ++ (entry ++ post) := by
    refine ⟨header.text.take (eol + 1), header.text.drop (eol + 1), rfl,
      (List.take_append_drop _ _).symm, ?_⟩
    intro entry
    rw [placeEntry_of_data h hdata, ← List.append_assoc]
  have habsent : firstEntry k.text none header.text = none := by
    rw [← asciiHeaderFind_eq k.nonempty, h]
  have hstart : ¬ k.text <+: pre ++ post := htext ▸ not_prefix_of_absent habsent
  have hpre_ne : pre ≠ [] := by
    intro hnil
    have hlen : pre.length = eol + 1 := by rw [hpre, List.length_take_of_le (by omega)]
    simp [hnil] at hlen
  by_cases hlead : k.text <+: pre ++ (entryText k.text v.text ++ post)
  · -- the header begins with `pre` and then the keyword, which reads as one longer keyword
    have hpre : pre <+: k.text := by
      rcases List.prefix_or_prefix_of_prefix hlead (List.prefix_append _ _) with hk | hk
      · exact absurd (hk.trans (List.prefix_append _ _)) hstart
      · exact hk
    have hplain : ∀ c ∈ pre ++ k.text, isspace c = false ∧ c ≠ '\\' ∧ c ≠ '#' := by
      intro c hc
      rcases List.mem_append.mp hc with hc | hc
      · exact k.plain c (hpre.subset hc)
      · exact k.plain c hc
    obtain ⟨k', hk'⟩ : ∃ k' : Word, k'.text = pre ++ k.text :=
      ⟨⟨pre ++ k.text, by simp [hpre_ne], hplain⟩, rfl⟩
    have hne : k' ≠ k := by
      rintro rfl
      exact hpre_ne (by simpa using hk')
    have hread (u : Word) (hu : u.text.length < strlen) :
        asciiHeaderGet (asciiHeaderSet header.text k.text u.text) k'.text = some u.text := by
      obtain ⟨gap, tail, heq, hgap, -⟩ := entryText_split k.text u.text
      have hnew : placeEntry header.text k.text (entryText k.text u.text) =
          k'.text ++ ' ' :: (gap ++ (u.text ++ ' ' :: (tail ++ post))) := by
        rw [hplace, heq, hk']
        simp
      obtain ⟨c, s, hcs⟩ := List.exists_cons_of_ne_nil k'.nonempty
      have he : IsEntry k'.text none (k'.text ++ ' ' :: (gap ++ (u.text ++ ' ' :: (tail ++ post)))) :=
        ⟨List.prefix_append _ _, .inl rfl⟩
      have hzero : firstEntry k'.text none
          (k'.text ++ ' ' :: (gap ++ (u.text ++ ' ' :: (tail ++ post)))) = some 0 := by
        generalize k'.text ++ ' ' :: (gap ++ (u.text ++ ' ' :: (tail ++ post))) = t at he
        cases t with
        | nil => exact absurd (List.prefix_nil.mp he.1) k'.nonempty
        | cons c s => rw [firstEntry, if_pos he]
      rw [asciiHeaderSet_of_short hu, hnew, asciiHeaderGet_eq, hzero, Option.bind_some, List.drop_zero]
      exact entryValue_word k' u (tail ++ post) hgap
    have h1 := hkv.2 k' hne
    have h2 := hkw.2 k' hne
    rw [hread v hv] at h1
    rw [hread w hw, ← h1] at h2
    exact hvw (Word.ext (by simpa using h2.symm))
  · -- the entry is not found at all
    have hread : asciiHeaderGet (asciiHeaderSet header.text k.text v.text) k.text = none := by
      have hlast : pre.getLast? ≠ some '\n' := by
        have hlen : pre.length = eol + 1 := by rw [hpre, List.length_take_of_le (by omega)]
        rw [List.getLast?_eq_getElem?, hlen, hpre, Nat.add_sub_cancel, List.getElem?_take_of_lt (by omega)]
        exact hchar
      obtain ⟨l, m, hm, hnl, hsplit⟩ := split_last_line hlast hpre_ne
      have hback : '\\' ∉ pre := fun hmem => header.noBackslash (by
        rw [htext]
        exact List.mem_append_left _ hmem)
      rw [asciiHeaderSet_of_short hv, hplace, asciiHeaderGet_eq]
      rw [htext] at habsent
      have hnone : firstEntry k.text none (pre ++ (entryText k.text v.text ++ post)) = none := by
        rcases hsplit with rfl | rfl
        · have hline : ∀ c ∈ pre, c ≠ '\n' ∧ c ≠ '\\' := fun c hc =>
            ⟨fun he => hnl (he ▸ hc), fun he => hback (he ▸ hc)⟩
          exact firstEntry_inside v hm hline habsent fun _ => hlead
        · have hline : ∀ c ∈ m, c ≠ '\n' ∧ c ≠ '\\' := fun c hc =>
            ⟨fun he => hnl (he ▸ hc), fun he => hback
              (List.mem_append_right _ (List.mem_cons_of_mem _ (he ▸ hc)))⟩
          rw [List.append_assoc, List.cons_append, firstEntry_append, Option.or_eq_none_iff,
            Option.map_eq_none_iff] at habsent
          rw [List.append_assoc, List.cons_append, firstEntry_append, habsent.1, Option.none_or,
            firstEntry_inside v hm hline habsent.2 (by simp)]
          rfl
      rw [hnone]
      rfl
    have := hkv.1
    rw [RoundTrip, hread] at this
    simp at this

/-! ## Every place -/

/-- The first word after a place in front of `DATA`. -/
theorem scanWord_data {s : Text} (h : "DATA\n".toList <+: s) : scanWord s = some dataWord := by
  obtain ⟨t, rfl⟩ := h
  have hword : (dataWord.all fun c => !isspace c) = true := by decide
  exact scanWord_word (w := dataWord) (c := '\n') (fun c hc => by simpa using List.all_eq_true.mp hword c hc)
    (by decide) rfl

/-- The lines up to the place in front of `DATA`. -/
theorem take_succ_of_newline {s : Text} {n : ℕ} (h : s[n]? = some '\n') :
    s.take (n + 1) = s.take n ++ ['\n'] := by
  obtain ⟨hn, hget⟩ := List.getElem?_eq_some_iff.mp h
  rw [List.take_succ_eq_append_getElem hn, hget]

/-- At a place where an entry does no harm, a short value can be set and read back. -/
theorem setKept_of_placed (h : Placed header k) {v : Word} (hv : v.text.length < strlen) :
    SetKept header k v := by
  unfold Placed at h
  split at h
  case h_1 hfound => exact (first_of_found hfound).kept h hv
  case h_2 p hfound => exact kept_of_found hfound hv
  case h_3 habsent =>
    split at h
    case h_1 hdata => exact (first_of_data habsent hdata).kept h hv
    case h_2 eol hdata =>
      obtain ⟨hchar, hcond⟩ := h
      refine ((inserted_of_data habsent hdata hchar).kept_iff hv).mpr (hcond.imp ?_ ?_)
      · intro hk
        rw [scanWord_data (strstr_some hdata), hk]
      · intro hvalued
        rwa [← take_succ_of_newline hchar]
    case h_3 hdata =>
      split at h
      case isTrue hnil => exact (first_of_nil hnil).kept h hv
      case isFalse hne =>
        obtain ⟨l, hl⟩ := header.lines.resolve_left hne
        refine ((inserted_of_end habsent hdata hl).kept_iff hv).mpr (.inr ?_)
        rwa [← hl]

/-- Where two short values can be set and read back, the place is one where an entry does no harm. -/
theorem placed_of_setKept {v w : Word} (hvw : v ≠ w) (hv : v.text.length < strlen)
    (hw : w.text.length < strlen) (hkv : SetKept header k v) (hkw : SetKept header k w) :
    Placed header k := by
  unfold Placed
  split
  case h_1 hfound => exact (first_of_found hfound).leads hvw hv hw hkv hkw
  case h_2 => trivial
  case h_3 habsent =>
    split
    case h_1 hdata => exact (first_of_data habsent hdata).leads hvw hv hw hkv hkw
    case h_2 eol hdata =>
      by_cases hchar : header.text[eol]? = some '\n'
      · refine ⟨hchar, ?_⟩
        rcases ((inserted_of_data habsent hdata hchar).kept_iff hv).mp hkv with hscan | hvalued
        · rw [scanWord_data (strstr_some hdata)] at hscan
          exact .inl (Option.some.inj hscan).symm
        · rw [take_succ_of_newline hchar]
          exact .inr hvalued
      · exact (not_kept_of_mid habsent hdata hchar hvw hv hw hkv hkw).elim
    case h_3 hdata =>
      split
      case isTrue hnil => exact (first_of_nil hnil).leads hvw hv hw hkv hkw
      case isFalse hne =>
        obtain ⟨l, hl⟩ := header.lines.resolve_left hne
        rcases ((inserted_of_end habsent hdata hl).kept_iff hv).mp hkv with hscan | hvalued
        · simp [scanWord] at hscan
        · rwa [hl]

/-! ## Values that fit -/

theorem entryText_length (keyword value : Text) :
    (entryText keyword value).length = max 12 keyword.length + 1 + max 20 value.length + 3 := by
  have hthree : "   ".toList.length = 3 := rfl
  simp only [entryText, padRight, List.length_append, List.length_cons, List.length_replicate, hthree]
  omega

/-- A header is as much longer as its entry is. -/
theorem placeEntry_length_le {header keyword entry entry' : Text}
    (h : entry.length ≤ entry'.length) :
    (placeEntry header keyword entry).length ≤ (placeEntry header keyword entry').length := by
  unfold placeEntry
  split
  · simp only [List.length_append]
    omega
  · split
    all_goals
      simp only [List.length_append]
      omega

/-- Of two values, the one that is not longer fits where the other does. -/
theorem Fits.of_le {capacity : ℕ} {v w : Word} (h : Fits capacity header k v)
    (hle : w.text.length ≤ max 20 v.text.length) : Fits capacity header k w := by
  refine Nat.lt_of_le_of_lt (placeEntry_length_le ?_) h
  rw [entryText_length, entryText_length]
  omega

/-- A word of one digit. -/
def Word.digit (d : Fin 10) : Word where
  text := [Char.ofNat (48 + d)]
  nonempty := List.cons_ne_nil _ _
  plain := plain_of_all (by
    revert d
    decide)

/-- The beginning of a word. -/
def Word.takeSucc (w : Word) (n : ℕ) : Word where
  text := w.text.take (n + 1)
  nonempty := by
    intro h
    exact w.nonempty (by simpa using h)
  plain := fun c hc => w.plain c (List.mem_of_mem_take hc)

/-- A header whose first keyword is longer than the one that is set. -/
def Header.bandwidth : Header where
  text := "BWIDTH 64\nFREQ 1400\n".toList
  lines := .inr ⟨"BWIDTH 64\nFREQ 1400".toList, by decide⟩
  noBackslash := by decide

/-- A word that is given as a string. -/
def Word.ofString (s : String)
    (h : s.toList ≠ [] ∧ ∀ c ∈ s.toList, isspace c = false ∧ c ≠ '\\' ∧ c ≠ '#') : Word where
  text := s.toList
  nonempty := h.1
  plain := h.2

end Psrdada
