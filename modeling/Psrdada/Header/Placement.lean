import Psrdada.Header.RoundTrip

/-! # Where an entry is placed

One lemma for each place where `ascii_header_set` puts an entry: what the header looks like there, and
exactly when setting the entry keeps what is read for the other keywords.  `kept_iff_placed` puts them
together. -/

namespace Psrdada

open CString

variable {header : Header} {k : Word}

/-! ## Splitting a header -/

/-- The rest of a line ends at a comment or at the end of the line. -/
theorem cut_line (s : Text) : ∃ old post, s = old ++ post ∧
    s.drop (strcspn s "#\n".toList) = post ∧ (∀ c ∈ old, c ≠ '\n' ∧ c ≠ '#') ∧
      (post = [] ∨ ∃ c t, post = c :: t ∧ (c = '#' ∨ c = '\n')) := by
  induction s with
  | nil => exact ⟨[], [], rfl, rfl, by simp, .inl rfl⟩
  | cons c s ih =>
    by_cases hc : c = '#' ∨ c = '\n'
    · refine ⟨[], c :: s, rfl, ?_, by simp, .inr ⟨c, s, rfl, hc⟩⟩
      have hmem : c ∈ "#\n".toList := by simpa using hc
      rw [strcspn_cons_of_mem hmem, List.drop_zero]
    · obtain ⟨old, post, hs, hdrop, hold, hpost⟩ := ih
      refine ⟨c :: old, post, by rw [hs, List.cons_append], ?_, ?_, hpost⟩
      · have hmem : c ∉ "#\n".toList := by simpa using hc
        rw [strcspn_cons_of_not_mem hmem, List.drop_succ_cons, hdrop]
      · intro a ha
        rcases List.mem_cons.mp ha with rfl | ha
        · exact ⟨fun h => hc (.inr h), fun h => hc (.inl h)⟩
        · exact hold a ha

/-- What follows the rest of a line is shut. -/
theorem shut_of_cut {post : Text} (h : post = [] ∨ ∃ c t, post = c :: t ∧ (c = '#' ∨ c = '\n')) :
    Shut post := by
  rcases h with rfl | ⟨c, t, rfl, rfl | rfl⟩
  · exact shut_nil
  · exact shut_comment t
  · exact shut_newline t

/-- A keyword lies within one line. -/
theorem ne_nil_of_prefix_cut {old post : Text}
    (h : post = [] ∨ ∃ c t, post = c :: t ∧ (c = '#' ∨ c = '\n')) (hk : k.text <+: old ++ post) :
    old ≠ [] := by
  rintro rfl
  rcases h with rfl | ⟨c, t, rfl, hc⟩
  · exact k.nonempty (List.prefix_nil.mp hk)
  · have hmem : c ∉ k.text := by
      intro hm
      rcases hc with rfl | rfl
      · exact (k.plain '#' hm).2.2 rfl
      · exact Word.not_mem_of_isspace rfl hm
    have := (prefix_append_cons (s := []) hmem).mp hk
    exact k.nonempty (List.prefix_nil.mp this)

/-- The first entry is one. -/
theorem firstEntry_isEntry {before : Option Char} {s : Text} {q : ℕ}
    (h : firstEntry k.text before s = some q) :
    IsEntry k.text (charBefore before s q) (s.drop q) := by
  induction s generalizing before q with
  | nil => simp [firstEntry] at h
  | cons c s ih =>
    by_cases he : IsEntry k.text before (c :: s)
    · obtain rfl : 0 = q := by simpa [firstEntry, he] using h
      exact he
    · obtain ⟨n, hn, rfl⟩ : ∃ n, firstEntry k.text (some c) s = some n ∧ n + 1 = q := by
        simpa [firstEntry, he] using h
      have hbefore : charBefore (some c) s n = charBefore before (c :: s) (n + 1) := by
        cases n <;> rfl
      rw [← hbefore, List.drop_succ_cons]
      exact ih hn

/-- Two words that have an entry at the same place after the start of the header are the same. -/
theorem isEntry_unique {k' : Word} {c : Char} {s : Text} (h : IsEntry k.text (some c) s)
    (h' : IsEntry k'.text (some c) s) : k' = k := by
  obtain ⟨⟨t, rfl⟩, hnext⟩ := h
  have hnext' : (k.text ++ t)[k.text.length]? = some '\t' ∨
      (k.text ++ t)[k.text.length]? = some ' ' := by
    rcases hnext with hnext | hnext
    · simp at hnext
    · exact hnext.2
  obtain ⟨b, u, rfl, hb⟩ : ∃ b u, t = b :: u ∧ isspace b = true := by
    cases t with
    | nil => simp at hnext'
    | cons b u =>
      refine ⟨b, u, rfl, ?_⟩
      rcases (by simpa using hnext' : b = '\t' ∨ b = ' ') with rfl | rfl
      all_goals rfl
  obtain ⟨hpre, hafter⟩ := h'
  rcases hafter with hafter | ⟨-, hafter⟩
  · simp at hafter
  · exact eq_of_prefix_blank hb hpre hafter

/-- The word that a line begins with is its keyword. -/
theorem scanWord_of_isEntry {c : Char} {s : Text} (h : IsEntry k.text (some c) s) :
    scanWord s = some k.text := by
  obtain ⟨⟨t, rfl⟩, hnext⟩ := h
  have hnext' : (k.text ++ t)[k.text.length]? = some '\t' ∨
      (k.text ++ t)[k.text.length]? = some ' ' := by
    rcases hnext with hnext | hnext
    · simp at hnext
    · exact hnext.2
  have hword : ∀ a ∈ k.text, isspace a = false := fun a ha => (k.plain a ha).1
  cases t with
  | nil => simp at hnext'
  | cons b u =>
    refine scanWord_word hword k.nonempty ?_
    rcases (by simpa using hnext' : b = '\t' ∨ b = ' ') with rfl | rfl
    all_goals rfl

/-! ## Short values -/

/-- A value that fits the buffer of `ascii_header_set` is written as it is. -/
theorem asciiHeaderSet_of_short {v : Word} (hv : v.text.length < strlen) (keyword : Text) :
    asciiHeaderSet header.text keyword v.text =
      placeEntry header.text keyword (entryText keyword v.text) := by
  rw [asciiHeaderSet, List.take_of_length_le (by omega)]

/-- What is read after a short value has been set: the value for its keyword, what was there before for
the others. -/
def SetKept (header : Header) (k v : Word) : Prop :=
  RoundTrip header k v ∧ OthersKept header k v

/-! ## Over the first line -/

/-- Where the entry becomes the first word. -/
structure First (header : Header) (k : Word) (post : Text) : Prop where
  /-- The entry is placed in front of `post`. -/
  place : ∀ entry, placeEntry header.text k.text entry = entry ++ post
  /-- What follows the entry is shut. -/
  shut : Shut post
  /-- A keyword that is not found at the start is looked for in `post`. -/
  others : ∀ k' : Word, ¬ k'.text <+: header.text →
    asciiHeaderGet header.text k'.text = valueAfter k' post

theorem First.get {post : Text} (h : First header k post) {v : Word}
    (hv : v.text.length < strlen) (k' : Word) :
    asciiHeaderGet (asciiHeaderSet header.text k.text v.text) k'.text =
      if k'.text <+: k.text then some v.text else valueAfter k' post := by
  rw [asciiHeaderSet_of_short hv, h.place]
  by_cases hpre : k'.text <+: k.text
  · rw [if_pos hpre, get_lead_of_prefix v post hpre]
  · rw [if_neg hpre, get_lead_of_not_prefix v post hpre]

/-- A word is a proper prefix only of a word that is longer than one character. -/
theorem not_prefix_of_length_one {k' : Word} (hk : k.text.length = 1) (hne : k' ≠ k) :
    ¬ k'.text <+: k.text := by
  intro hpre
  have hpos : 0 < k'.text.length := List.length_pos_iff.mpr k'.nonempty
  exact hne (Word.ext (hpre.eq_of_length (by have := hpre.length_le; omega)))

theorem First.kept {post : Text} (h : First header k post) (hlead : Leads header k post) {v : Word}
    (hv : v.text.length < strlen) : SetKept header k v := by
  obtain ⟨hone, hothers⟩ := hlead
  constructor
  · rw [RoundTrip, h.get hv, if_pos List.prefix_rfl]
  · intro k' hne
    rw [h.get hv, if_neg (not_prefix_of_length_one hone hne)]
    by_cases hpre : k'.text <+: header.text
    · rw [hothers k' hne hpre, h.shut.get_cons]
    · rw [h.others k' hpre]

/-- The first character of a word is a word. -/
def Word.head (k : Word) : Word where
  text := k.text.take 1
  nonempty := by
    intro h
    exact k.nonempty (by simpa using h)
  plain := fun c hc => k.plain c (List.mem_of_mem_take hc)

theorem First.leads {post : Text} (h : First header k post) {v w : Word} (hvw : v ≠ w)
    (hv : v.text.length < strlen) (hw : w.text.length < strlen) (hkv : SetKept header k v)
    (hkw : SetKept header k w) : Leads header k post := by
  have hnotpre (k' : Word) (hne : k' ≠ k) : ¬ k'.text <+: k.text := by
    intro hpre
    have h1 := hkv.2 k' hne
    have h2 := hkw.2 k' hne
    rw [h.get hv, if_pos hpre] at h1
    rw [h.get hw, if_pos hpre, ← h1] at h2
    exact hvw (Word.ext (by simpa using h2.symm))
  constructor
  · by_contra hlen
    have hpos : 0 < k.text.length := List.length_pos_iff.mpr k.nonempty
    refine hnotpre k.head ?_ (List.take_prefix 1 k.text)
    intro heq
    have : (k.text.take 1).length = k.text.length := congrArg (fun k : Word => k.text.length) heq
    rw [List.length_take] at this
    omega
  · intro k' hne hpre
    rw [← hkv.2 k' hne, h.get hv, if_neg (hnotpre k' hne), h.shut.get_cons]

/-- The keyword is found at the start of the header. -/
theorem first_of_found (h : asciiHeaderFind header.text k.text = some 0) :
    First header k (header.text.drop (strcspn header.text "#\n".toList)) := by
  obtain ⟨old, post, hsplit, hdrop, hold, hpost⟩ := cut_line header.text
  have hfirst : firstEntry k.text none header.text = some 0 := by
    rw [← asciiHeaderFind_eq k.nonempty, h]
  have hocc : k.text <+: header.text := (firstEntry_isEntry hfirst).1
  rw [hdrop]
  refine ⟨?_, shut_of_cut hpost, ?_⟩
  · intro entry
    rw [placeEntry, h]
    show header.text.take 0 ++ entry ++ (header.text.drop 0).drop _ = _
    rw [List.take_zero, List.drop_zero, hdrop, List.nil_append]
  · intro k' hk'
    have hne : old ≠ [] := ne_nil_of_prefix_cut hpost (hsplit ▸ hocc)
    have hline : ∀ c ∈ old, c ≠ '\n' ∧ c ≠ '\\' := by
      refine fun c hc => ⟨(hold c hc).1, ?_⟩
      rintro rfl
      refine header.noBackslash ?_
      rw [hsplit]
      exact List.mem_append_left _ hc
    have he : ¬ IsEntry k'.text none (old ++ post) := fun he => hk' (hsplit ▸ he.1)
    rw [asciiHeaderGet_eq, valueAfter, hsplit, firstEntry_line hne hline he]
    cases firstEntry k'.text (some ' ') post with
    | none => rfl
    | some i =>
      show entryValue ((old ++ post).drop (i + old.length)) = _
      rw [Nat.add_comm, ← List.drop_drop, List.drop_left]
      rfl

/-- The keyword is not found, and the header begins with `DATA`. -/
theorem first_of_data (h : asciiHeaderFind header.text k.text = none)
    (hdata : strstr "DATA\n".toList header.text = some 0) : First header k header.text := by
  have hpre : "DATA\n".toList <+: header.text := strstr_some hdata
  refine ⟨?_, shut_data hpre, ?_⟩
  · intro entry
    rw [placeEntry_of_data h hdata]
    simp
  · intro k' hk'
    have he : ¬ IsEntry k'.text none header.text := fun he => hk' he.1
    have he' : ¬ IsEntry k'.text (some ' ') header.text := fun he => hk' he.1
    rw [asciiHeaderGet_eq, valueAfter]
    have hskip : firstEntry k'.text none header.text = firstEntry k'.text (some ' ') header.text := by
      cases hcs : header.text with
      | nil => rfl
      | cons c s =>
        rw [hcs] at he he'
        rw [firstEntry, if_neg he, firstEntry, if_neg he']
    rw [hskip]

/-- Nothing is read from an empty line. -/
theorem valueAfter_newline (k' : Word) : valueAfter k' ['\n'] = none := by
  have hnl : ¬ IsEntry k'.text (some ' ') ['\n'] := not_isEntry_cons (Word.not_mem_of_isspace rfl)
  rw [valueAfter, firstEntry, if_neg hnl]
  rfl

/-- The header is empty. -/
theorem first_of_nil (h : header.text = []) : First header k ['\n'] := by
  refine ⟨?_, shut_newline [], ?_⟩
  · intro entry
    have hfind : asciiHeaderFind [] k.text = none := by
      rw [asciiHeaderFind_eq k.nonempty]
      rfl
    rw [h, placeEntry, hfind]
    rfl
  · intro k' _
    rw [h, asciiHeaderGet_eq, valueAfter_newline]
    rfl

/-! ## Over a later line -/

/-- The keyword is found after the start of the header: its entry is the rest of a line. -/
theorem line_of_found {p : ℕ} (h : asciiHeaderFind header.text k.text = some (p + 1)) :
    ∃ pre old post, header.text = pre ++ '\n' :: (old ++ post) ∧
      (∀ entry, placeEntry header.text k.text entry = pre ++ '\n' :: (entry ++ post)) ∧
      firstEntry k.text none (pre ++ ['\n']) = none ∧ old ≠ [] ∧
      (∀ c ∈ old, c ≠ '\n' ∧ c ≠ '\\') ∧ IsEntry k.text (some '\n') (old ++ post) := by
  have hfirst : firstEntry k.text none header.text = some (p + 1) := by
    rw [← asciiHeaderFind_eq k.nonempty, h]
  have hlt := firstEntry_lt hfirst
  have hentry : IsEntry k.text header.text[p]? (header.text.drop (p + 1)) :=
    firstEntry_isEntry hfirst
  obtain ⟨old, post, hsplit, hdrop, hold, hpost⟩ := cut_line (header.text.drop (p + 1))
  have hchar : header.text[p]? = some '\n' := by
    rcases hentry.2 with hnone | ⟨hc | hc, -⟩
    · rw [List.getElem?_eq_getElem (by omega)] at hnone
      simp at hnone
    · exact hc
    · exact absurd (List.mem_of_getElem? hc) header.noBackslash
  have hget : header.text[p] = '\n' := by
    rw [List.getElem?_eq_getElem (by omega)] at hchar
    exact Option.some.inj hchar
  have htake : header.text.take (p + 1) = header.text.take p ++ ['\n'] := by
    rw [List.take_succ_eq_append_getElem (by omega), hget]
  have htext : header.text = header.text.take p ++ '\n' :: (old ++ post) := by
    conv_lhs => rw [← List.take_append_drop (p + 1) header.text, htake, hsplit]
    simp
  have hlen : (header.text.take p).length = p := List.length_take_of_le (by omega)
  refine ⟨header.text.take p, old, post, htext, ?_, ?_, ?_, ?_, ?_⟩
  · intro entry
    rw [placeEntry, h]
    show header.text.take (p + 1) ++ entry ++ (header.text.drop (p + 1)).drop _ = _
    rw [hdrop, htake]
    simp
  · rw [htext, firstEntry_append, hlen] at hfirst
    cases hq : firstEntry k.text none (header.text.take p ++ ['\n']) with
    | none => rfl
    | some q =>
      have hq' := firstEntry_lt hq
      rw [List.length_append, hlen, List.length_singleton] at hq'
      have heq : q = p + 1 := by simpa [hq] using hfirst
      omega
  · exact ne_nil_of_prefix_cut hpost (hsplit ▸ hentry.1)
  · refine fun c hc => ⟨(hold c hc).1, ?_⟩
    rintro rfl
    refine header.noBackslash ?_
    rw [htext]
    simp [hc]
  · rw [← hsplit, ← hchar]
    exact hentry

/-- Over a later line, setting an entry always works. -/
theorem kept_of_found {p : ℕ} (h : asciiHeaderFind header.text k.text = some (p + 1)) {v : Word}
    (hv : v.text.length < strlen) : SetKept header k v := by
  obtain ⟨pre, old, post, htext, hplace, hnone, hne, hline, hentry⟩ := line_of_found h
  have hset : asciiHeaderSet header.text k.text v.text =
      pre ++ '\n' :: (entryText k.text v.text ++ post) := by
    rw [asciiHeaderSet_of_short hv, hplace]
  constructor
  · rw [RoundTrip, hset, get_line_self v post hnone]
  · intro k' hk'
    have he : ¬ IsEntry k'.text (some '\n') (old ++ post) := fun he => hk' (isEntry_unique hentry he)
    rw [hset, get_line_other v pre post hk', htext, get_parts (firstEntry_line hne hline he),
      scanWord_of_isEntry hentry]

/-! ## A new line -/

/-- Where the entry becomes a new line after `pre`. -/
structure Inserted (header : Header) (k : Word) (pre post post' : Text) : Prop where
  /-- The header at that place. -/
  text : header.text = pre ++ '\n' :: post
  /-- The entry is placed there. -/
  place : ∀ entry, placeEntry header.text k.text entry = pre ++ '\n' :: (entry ++ post')
  /-- The keyword has no entry before. -/
  absent : firstEntry k.text none (pre ++ ['\n']) = none
  /-- What follows is shut. -/
  shut : Shut post
  /-- The lines after the entry are the same. -/
  after : ∀ k' : Word, valueAfter k' post' = valueAfter k' post

theorem Inserted.roundTrip {pre post post' : Text} (h : Inserted header k pre post post') {v : Word}
    (hv : v.text.length < strlen) : RoundTrip header k v := by
  rw [RoundTrip, asciiHeaderSet_of_short hv, h.place, get_line_self v post' h.absent]

/-- What is read for another keyword, before and after the entry has been inserted. -/
theorem Inserted.get {pre post post' : Text} (h : Inserted header k pre post post') {v : Word}
    (hv : v.text.length < strlen) {k' : Word} (hne : k' ≠ k) :
    (asciiHeaderGet (asciiHeaderSet header.text k.text v.text) k'.text =
      (firstEntry k'.text none (pre ++ ['\n'])).elim (valueAfter k' post) fun q =>
        (entryValue ((pre ++ ['\n']).drop q)).or (some k.text)) ∧
    asciiHeaderGet header.text k'.text =
      (firstEntry k'.text none (pre ++ ['\n'])).elim (valueAfter k' post) fun q =>
        (entryValue ((pre ++ ['\n']).drop q)).or (scanWord post) := by
  constructor
  · rw [asciiHeaderSet_of_short hv, h.place, get_line_other v pre post' hne, h.after]
  · have hmid : firstEntry k'.text (some '\n') ([] ++ post) =
        (firstEntry k'.text (some ' ') post).map (· + ([] : Text).length) := by
      simp [h.shut.skip]
    rw [h.text]
    exact get_parts hmid

/-- What is read from the lines before the new one. -/
theorem get_before (pre : Text) (k' : Word) :
    asciiHeaderGet (pre ++ ['\n']) k'.text =
      (firstEntry k'.text none (pre ++ ['\n'])).bind fun q => entryValue ((pre ++ ['\n']).drop q) :=
  asciiHeaderGet_eq _ _

/-- Inserting an entry keeps what is read for the others exactly when the place is not one where another
keyword takes its value from, or when that value does not change. -/
theorem Inserted.kept_iff {pre post post' : Text} (h : Inserted header k pre post post') {v : Word}
    (hv : v.text.length < strlen) :
    SetKept header k v ↔ scanWord post = some k.text ∨ Valued k (pre ++ ['\n']) := by
  constructor
  · rintro ⟨-, hothers⟩
    by_contra hnot
    rw [not_or] at hnot
    obtain ⟨hscan, hvalued⟩ := hnot
    refine hvalued fun k' hne hfound => ?_
    obtain ⟨hnew, hold⟩ := h.get hv hne
    have heq := hothers k' hne
    rw [asciiHeaderFind_eq k'.nonempty] at hfound
    obtain ⟨q, hq⟩ := Option.isSome_iff_exists.mp hfound
    rw [hnew, hold, hq, Option.elim_some, Option.elim_some] at heq
    rw [get_before, hq, Option.bind_some]
    cases hvalue : entryValue ((pre ++ ['\n']).drop q) with
    | some w => rfl
    | none =>
      rw [hvalue] at heq
      exact absurd heq.symm hscan
  · intro hcond
    refine ⟨h.roundTrip hv, fun k' hne => ?_⟩
    obtain ⟨hnew, hold⟩ := h.get hv hne
    rw [hnew, hold]
    cases hq : firstEntry k'.text none (pre ++ ['\n']) with
    | none => rfl
    | some q =>
      rcases hcond with hscan | hvalued
      · rw [hscan]
      · have hfound : (asciiHeaderFind (pre ++ ['\n']) k'.text).isSome := by
          rw [asciiHeaderFind_eq k'.nonempty, hq]
          rfl
        have hvalue := hvalued k' hne hfound
        rw [get_before, hq, Option.bind_some] at hvalue
        obtain ⟨w, hw⟩ := Option.isSome_iff_exists.mp hvalue
        rw [Option.elim_some, Option.elim_some, hw]
        rfl

end Psrdada
