import Psrdada.Header.Numbers
import Psrdada.Time.Str2tm

/-! # The accesses and the fields of `str2tm`

The counters of the first loop only go up, so that the place where the string is cut is told by what
precedes it.  After the cut the copy still ends with a zero, and the fields are taken from its end without
leaving it. -/

namespace Psrdada

open CString

/-! ## The first loop -/

namespace FieldCounter

variable {n : FieldCounter}

/-- The counters go up by at most one. -/
theorem step_le (n : FieldCounter) (c : Char) :
    n.fieldCount ≤ (n.step c).fieldCount ∧ (n.step c).fieldCount ≤ n.fieldCount + 1 ∧
      n.digits ≤ (n.step c).digits ∧ (n.step c).digits ≤ n.digits + 1 := by
  unfold step
  split
  · refine ⟨?_, ?_, Nat.le_succ _, Nat.le_refl _⟩
    · simp only; split <;> omega
    · simp only; split <;> omega
  · exact ⟨Nat.le_refl _, Nat.le_succ _, Nat.le_refl _, Nat.le_succ _⟩

/-- The counters never go down. -/
theorem le_foldl (n : FieldCounter) (text : Text) :
    n.fieldCount ≤ (text.foldl step n).fieldCount ∧ n.digits ≤ (text.foldl step n).digits := by
  induction text generalizing n with
  | nil => exact ⟨Nat.le_refl _, Nat.le_refl _⟩
  | cons c text ih =>
    obtain ⟨hf, -, hd, -⟩ := n.step_le c
    exact ⟨hf.trans (ih _).1, hd.trans (ih _).2⟩

/-- A field of digits after something else. -/
theorem foldl_digits {field : Text} (hne : field ≠ []) (hd : ∀ c ∈ field, c.isDigit = true)
    (hn : n.infield = false) :
    field.foldl step n = ⟨true, n.fieldCount + 1, n.digits + field.length⟩ := by
  obtain ⟨c, field, rfl⟩ := List.exists_cons_of_ne_nil hne
  obtain ⟨hc, hfield⟩ := List.forall_mem_cons.1 hd
  have hin (m : FieldCounter) (hm : m.infield = true) :
      field.foldl step m = ⟨true, m.fieldCount, m.digits + field.length⟩ := by
    clear hne hd
    induction field generalizing m with
    | nil => rw [List.foldl_nil, List.length_nil, Nat.add_zero, ← hm]
    | cons a field ih =>
      obtain ⟨ha, hd⟩ := List.forall_mem_cons.1 hfield
      have hstep : m.step a = ⟨true, m.fieldCount, m.digits + 1⟩ := by
        rw [step, if_pos ha, if_pos hm]
      rw [List.foldl_cons, hstep, ih hd _ rfl, List.length_cons]
      simp only [mk.injEq, true_and]
      omega
  have hstep : n.step c = ⟨true, n.fieldCount + 1, n.digits + 1⟩ := by
    rw [step, if_pos hc, if_neg (by rw [hn]; exact Bool.false_ne_true)]
  rw [List.foldl_cons, hstep, hin _ rfl, List.length_cons]
  simp only [mk.injEq, true_and]
  omega

/-- Something else after a field of digits. -/
theorem foldl_gap {gap : Text} (hne : gap ≠ []) (hg : ∀ c ∈ gap, c.isDigit = false) :
    gap.foldl step n = ⟨false, n.fieldCount, n.digits⟩ := by
  have hstep (m : FieldCounter) {c : Char} (hc : c.isDigit = false) :
      m.step c = ⟨false, m.fieldCount, m.digits⟩ := by
    rw [step, if_neg (by rw [hc]; exact Bool.false_ne_true)]
  obtain ⟨c, gap, rfl⟩ := List.exists_cons_of_ne_nil hne
  obtain ⟨hc, hgap⟩ := List.forall_mem_cons.1 hg
  rw [List.foldl_cons, hstep n hc]
  clear hne hg
  induction gap with
  | nil => rfl
  | cons a gap ih =>
    obtain ⟨ha, hg⟩ := List.forall_mem_cons.1 hgap
    rw [List.foldl_cons, hstep _ ha]
    exact ih hg

end FieldCounter

/-- The loop passes over what has neither six fields nor fourteen digits. -/
theorem cutIndex_append {n : FieldCounter} {p : Text} (rest : List Char) (trav : ℕ) (hp : nul ∉ p)
    (hf : (p.foldl FieldCounter.step n).fieldCount < 6) (hd : (p.foldl FieldCounter.step n).digits < 14) :
    cutIndex trav n (p ++ rest) = cutIndex (trav + p.length) (p.foldl FieldCounter.step n) rest := by
  induction p generalizing n trav with
  | nil => rfl
  | cons c p ih =>
    obtain ⟨hle, hle'⟩ := (n.step c).le_foldl p
    rw [List.foldl_cons] at hf hd
    rw [List.cons_append, cutIndex, if_neg (List.ne_of_not_mem_cons hp).symm]
    simp only
    rw [if_neg (by omega), if_neg (by omega), ih _ (List.not_mem_of_not_mem_cons hp) hf hd,
      List.length_cons, List.foldl_cons, Nat.add_assoc, Nat.add_comm 1]

/-- Where the loop ends. -/
theorem cutIndex_cases {n : FieldCounter} {str : Text} (trav : ℕ) (hs : nul ∉ str)
    (hf : n.fieldCount < 6) (hd : n.digits < 14) :
    ((str.foldl FieldCounter.step n).fieldCount < 6 ∧ cutIndex trav n (strdup str) = some none) ∨
      ∃ p c q, str = p ++ c :: q ∧ (p.foldl FieldCounter.step n).fieldCount < 6 ∧
        (p.foldl FieldCounter.step n).digits < 14 ∧
        (((p ++ [c]).foldl FieldCounter.step n).fieldCount = 6 ∧
            cutIndex trav n (strdup str) = some (some (trav + p.length + 2)) ∨
          ((p ++ [c]).foldl FieldCounter.step n).fieldCount ≠ 6 ∧
            ((p ++ [c]).foldl FieldCounter.step n).digits = 14 ∧
            cutIndex trav n (strdup str) = some (some (trav + p.length + 1))) := by
  induction str generalizing n trav with
  | nil =>
    refine .inl ⟨hf, ?_⟩
    rw [strdup, List.nil_append, cutIndex, if_pos rfl]
  | cons c str ih =>
    have hcut : cutIndex trav n (strdup (c :: str)) =
        if (n.step c).fieldCount = 6 then some (some (trav + 2))
        else if (n.step c).digits = 14 then some (some (trav + 1))
        else cutIndex (trav + 1) (n.step c) (strdup str) := by
      rw [strdup, List.cons_append, cutIndex, if_neg (List.ne_of_not_mem_cons hs).symm, strdup]
    obtain ⟨-, hf', -, hd'⟩ := n.step_le c
    by_cases h6 : (n.step c).fieldCount = 6
    · rw [if_pos h6] at hcut
      exact .inr ⟨[], c, str, rfl, hf, hd, .inl ⟨h6, hcut⟩⟩
    by_cases h14 : (n.step c).digits = 14
    · rw [if_neg h6, if_pos h14] at hcut
      exact .inr ⟨[], c, str, rfl, hf, hd, .inr ⟨h6, h14, hcut⟩⟩
    rw [if_neg h6, if_neg h14] at hcut
    obtain ⟨hlt, hnone⟩ | ⟨p, a, q, rfl, hp, hp', hend⟩ :=
      ih (n := n.step c) (trav + 1) (List.not_mem_of_not_mem_cons hs) (by omega) (by omega)
    · exact .inl ⟨hlt, hcut.trans hnone⟩
    · refine .inr ⟨c :: p, a, q, rfl, hp, hp', ?_⟩
      have hlen (k : ℕ) : trav + (c :: p).length + k = trav + 1 + p.length + k := by
        rw [List.length_cons]; omega
      rw [hlen, hlen, hcut]
      exact hend

/-- The string ends right after the first digit of its sixth field. -/
def EndsInSixthField (str : Text) : Prop :=
  ∃ p c, str = p ++ [c] ∧ (FieldCounter.of p).fieldCount < 6 ∧ (FieldCounter.of p).digits < 14 ∧
    (FieldCounter.of str).fieldCount = 6

/-! ## The accesses to the copy -/

/-- The copy ends with a zero. -/
def Terminated (temp : List Char) : Prop := ∃ s, temp = s ++ [nul]

theorem not_isDigit_nul : nul.isDigit = false := by decide

theorem Terminated.pos {temp : List Char} (h : Terminated temp) : 0 < temp.length := by
  obtain ⟨s, rfl⟩ := h
  rw [List.length_append, List.length_singleton]
  omega

/-- A zero can be put anywhere in the copy. -/
theorem Terminated.storeChar {temp : List Char} {i : ℕ} (h : Terminated temp) (hi : i < temp.length) :
    ∃ temp', storeChar temp i nul = some temp' ∧ temp'.length = temp.length ∧ Terminated temp' := by
  refine ⟨temp.set i nul, if_pos hi, List.length_set, ?_⟩
  obtain ⟨s, rfl⟩ := h
  rw [List.length_append, List.length_singleton] at hi
  obtain hlt | rfl : i < s.length ∨ i = s.length := by omega
  · exact ⟨s.set i nul, List.set_append_left _ _ hlt⟩
  · exact ⟨s, by rw [List.set_append_right _ _ (Nat.le_refl _), Nat.sub_self, List.set_cons_zero]⟩

/-- A string begins anywhere in the copy. -/
theorem Terminated.stringFrom {temp : List Char} {i : ℕ} (h : Terminated temp) (hi : i < temp.length) :
    ∃ s, stringFrom temp i = some s ∧ s.length < temp.length := by
  obtain ⟨s, rfl⟩ := h
  rw [List.length_append, List.length_singleton] at hi
  have hdrop : (s ++ [nul]).drop i = s.drop i ++ [nul] :=
    List.drop_append_of_le_length (Nat.le_of_lt_succ hi)
  have hmem : nul ∈ (s ++ [nul]).drop i := by
    rw [hdrop]
    exact List.mem_append_right _ (List.mem_singleton_self _)
  refine ⟨_, if_pos hmem, Nat.lt_of_le_of_ne ?_ fun heq => ?_⟩
  · exact (List.takeWhile_prefix _).length_le.trans (List.drop_suffix _ _).length_le
  · have hfull : ((s ++ [nul]).drop i).takeWhile (· ≠ nul) = (s ++ [nul]).drop i := by
      refine (List.takeWhile_prefix _).eq_of_length (Nat.le_antisymm (List.takeWhile_prefix _).length_le ?_)
      rw [heq]
      exact (List.drop_suffix _ _).length_le
    have hne := List.takeWhile_eq_self_iff.1 hfull nul hmem
    simp only [ne_eq, not_true_eq_false, decide_false, Bool.false_eq_true] at hne

/-- Within the copy the search for the last digit finds one or ends at the beginning. -/
theorem trimEnd_le {temp : List Char} {e : ℕ} (he : e ≤ temp.length) :
    ∃ e', trimEnd temp e = some e' ∧ e' ≤ e ∧ ∀ i, i + 1 = e' → ∃ c, temp[i]? = some c ∧ c.isDigit = true := by
  induction e with
  | zero => exact ⟨0, rfl, Nat.le_refl _, fun i hi => absurd hi (Nat.succ_ne_zero i)⟩
  | succ e ih =>
    obtain ⟨c, hget⟩ : ∃ c, temp[e]? = some c := ⟨_, List.getElem?_eq_getElem he⟩
    rw [trimEnd, hget]
    cases hd : c.isDigit with
    | true =>
      refine ⟨e + 1, by simp [hd], Nat.le_refl _, fun i hi => ⟨_, ?_, hd⟩⟩
      rw [Nat.succ.inj hi, hget]
    | false =>
      obtain ⟨e', he', hle, hdigit⟩ := ih (Nat.le_of_succ_le he)
      exact ⟨e', by simp [hd, he'], Nat.le_succ_of_le hle, hdigit⟩

/-- The end is cut off within the copy. -/
theorem Terminated.cutEnd {temp : List Char} {e : ℕ} (h : Terminated temp) (he : e ≤ temp.length) :
    cutEnd temp e = some none ∨
      ∃ temp' e', cutEnd temp e = some (some (temp', e')) ∧ Terminated temp' ∧
        temp'.length = temp.length ∧ e' < temp.length := by
  obtain ⟨e', htrim, hle, hdigit⟩ := trimEnd_le he
  cases e' with
  | zero => exact .inl (by rw [Psrdada.cutEnd, htrim]; rfl)
  | succ i =>
    obtain ⟨c, hc, hd⟩ := hdigit i rfl
    -- the digit is not the zero that ends the copy
    have hlt : i + 1 < temp.length := by
      obtain ⟨s, rfl⟩ := h
      rw [List.length_append, List.length_singleton] at he ⊢
      refine Nat.lt_of_le_of_ne (hle.trans he) fun heq => ?_
      rw [Nat.succ.inj heq, List.getElem?_append_right (Nat.le_refl _), Nat.sub_self] at hc
      cases hc
      exact absurd hd (by rw [not_isDigit_nul]; exact Bool.false_ne_true)
    obtain ⟨temp', hstore, hlen, hterm⟩ := h.storeChar hlt
    exact .inr ⟨temp', i + 1, by rw [Psrdada.cutEnd, htrim]; simp [hstore], hterm, hlen, hlt⟩

/-- The place of a field is found within the copy. -/
theorem twoDigits_le (temp : List Char) {e : ℕ} (he : e < temp.length) :
    ∃ trav, twoDigits temp e = some trav ∧ trav ≤ e := by
  match e with
  | 0 => exact ⟨0, rfl, Nat.le_refl _⟩
  | 1 => exact ⟨0, rfl, Nat.zero_le _⟩
  | e + 2 =>
    obtain ⟨c, hget⟩ : ∃ c, temp[e]? = some c := ⟨_, List.getElem?_eq_getElem (by omega)⟩
    rw [twoDigits, hget]
    cases hd : c.isDigit with
    | true => exact ⟨e, by simp [hd], by omega⟩
    | false => exact ⟨e + 1, by simp [hd], by omega⟩

theorem backDigits_le (temp : List Char) (n : ℕ) {e : ℕ} (he : e < temp.length) :
    ∃ trav, backDigits temp n e = some trav ∧ trav ≤ e := by
  induction n generalizing e with
  | zero => exact ⟨e, rfl, Nat.le_refl _⟩
  | succ n ih =>
    cases e with
    | zero => exact ⟨0, rfl, Nat.le_refl _⟩
    | succ e =>
      obtain ⟨c, hget⟩ : ∃ c, temp[e]? = some c := ⟨_, List.getElem?_eq_getElem (by omega)⟩
      rw [backDigits, hget]
      cases hd : c.isDigit with
      | true =>
        obtain ⟨trav, htrav, hle⟩ := ih (e := e) (by omega)
        exact ⟨trav, by simp [hd, htrav], by omega⟩
      | false => exact ⟨e + 1, by simp [hd], Nat.le_refl _⟩

/-- A field is parsed within the copy. -/
theorem Terminated.lastField {temp : List Char} {e : ℕ} (h : Terminated temp) (he : e ≤ temp.length) :
    lastField temp e = some none ∨
      ∃ value temp' trav, lastField temp e = some (some (value, temp', trav)) ∧ Terminated temp' ∧
        trav ≤ temp'.length := by
  obtain hnone | ⟨temp', e', hcut, hterm, hlen, hlt⟩ := h.cutEnd he
  · exact .inl (by rw [Psrdada.lastField, hnone]; rfl)
  · obtain ⟨trav, htrav, hle⟩ := twoDigits_le temp' (e := e') (by omega)
    obtain ⟨s, hs, -⟩ := hterm.stringFrom (i := trav) (by omega)
    refine .inr ⟨(scanIntWidth 2 s).getD 0, temp', trav, ?_, hterm, by omega⟩
    rw [Psrdada.lastField, hcut]
    simp only [Option.bind_eq_bind, Option.bind_some, htrav, hs]
    rfl

theorem Terminated.lastYear {temp : List Char} {e : ℕ} (h : Terminated temp) (he : e ≤ temp.length) :
    ∃ year, lastYear temp e = some year := by
  obtain hnone | ⟨temp', e', hcut, hterm, hlen, hlt⟩ := h.cutEnd he
  · exact ⟨none, by rw [Psrdada.lastYear, hnone]; rfl⟩
  · obtain ⟨trav, htrav, hle⟩ := backDigits_le temp' 4 (e := e') (by omega)
    obtain ⟨s, hs, -⟩ := hterm.stringFrom (i := trav) (by omega)
    refine ⟨some ((scanIntWidth 4 s).getD 0), ?_⟩
    rw [Psrdada.lastYear, hcut]
    simp only [Option.bind_eq_bind, Option.bind_some, htrav, hs]
    rfl

/-- After the cut no access leaves the copy. -/
theorem str2tm_of_cut {str : Text} {temp : List Char} (hcut : cutString (strdup str) = some temp)
    (hterm : Terminated temp) : ∃ result, str2tm str = some result := by
  obtain ⟨s, hs, hlt⟩ := hterm.stringFrom hterm.pos
  unfold str2tm
  simp only [Option.bind_eq_bind, Option.bind_some, hcut, hs]
  obtain h | ⟨sec, temp, trav, h, hterm, hle⟩ := hterm.lastField (e := s.length + 1) (by omega)
  · exact ⟨_, by rw [h]; rfl⟩
  rw [h]
  simp only [Option.bind_some]
  obtain h | ⟨min, temp, trav, h, hterm, hle⟩ := hterm.lastField hle
  · exact ⟨_, by rw [h]; rfl⟩
  rw [h]
  simp only [Option.bind_some]
  obtain h | ⟨hour, temp, trav, h, hterm, hle⟩ := hterm.lastField hle
  · exact ⟨_, by rw [h]; rfl⟩
  rw [h]
  simp only [Option.bind_some]
  obtain h | ⟨mday, temp, trav, h, hterm, hle⟩ := hterm.lastField hle
  · exact ⟨_, by rw [h]; rfl⟩
  rw [h]
  simp only [Option.bind_some]
  obtain h | ⟨mon, temp, trav, h, hterm, hle⟩ := hterm.lastField hle
  · exact ⟨_, by rw [h]; rfl⟩
  rw [h]
  simp only [Option.bind_some]
  obtain ⟨year, h⟩ := hterm.lastYear hle
  rw [h]
  cases year with
  | none => exact ⟨_, rfl⟩
  | some year => exact ⟨_, rfl⟩

theorem length_strdup (str : Text) : (strdup str).length = str.length + 1 := by
  rw [strdup, List.length_append, List.length_singleton]

/-- What follows the place of the cut is not looked at. -/
theorem not_endsInSixthField_of_lt {p q : Text} {c : Char} (hq : q ≠ [])
    (h : 6 ≤ (FieldCounter.of (p ++ [c])).fieldCount ∨ 14 ≤ (FieldCounter.of (p ++ [c])).digits) :
    ¬ EndsInSixthField (p ++ c :: q) := by
  rintro ⟨p', c', heq, hf, hd, -⟩
  obtain ⟨r, rfl⟩ : ∃ r, p' = p ++ [c] ++ r := by
    obtain ⟨r, b, hr⟩ := (List.eq_nil_or_concat q).resolve_left hq
    rw [hr, List.concat_eq_append, ← List.singleton_append, ← List.append_assoc, ← List.append_assoc,
      List.append_singleton_inj] at heq
    exact ⟨r, heq.1.symm⟩
  obtain ⟨hf', hd'⟩ := (FieldCounter.of (p ++ [c])).le_foldl r
  rw [FieldCounter.of, List.foldl_append] at hf hd
  unfold FieldCounter.of at h hf' hd'
  omega

/-- **Each access of `str2tm` is within the copy**, unless the string ends right after the first digit of
its sixth field. -/
theorem str2tm_isSome_iff {str : Text} (hs : nul ∉ str) :
    (∃ result, str2tm str = some result) ↔ ¬ EndsInSixthField str := by
  have hterm : Terminated (strdup str) := ⟨str, rfl⟩
  have hstored {i : ℕ} (hcut : cutIndex 0 FieldCounter.init (strdup str) = some (some i))
      (hi : i < (strdup str).length) : ∃ result, str2tm str = some result := by
    obtain ⟨temp, hstore, -, hterm'⟩ := hterm.storeChar hi
    exact str2tm_of_cut (by rw [cutString, hcut]; exact hstore) hterm'
  obtain ⟨hlt, hnone⟩ | ⟨p, c, q, rfl, hf, hd, ⟨h6, hcut⟩ | ⟨h6, h14, hcut⟩⟩ :=
    cutIndex_cases (n := FieldCounter.init) 0 hs (by decide) (by decide)
  · refine iff_of_true (str2tm_of_cut (by rw [cutString, hnone]; rfl) hterm) ?_
    rintro ⟨p, c, -, -, -, h6⟩
    unfold FieldCounter.of at h6
    omega
  · rw [Nat.zero_add] at hcut
    by_cases hq : q = []
    · subst hq
      refine iff_of_false ?_ (not_not.2 ⟨p, c, rfl, hf, hd, h6⟩)
      rintro ⟨result, hresult⟩
      have hout : storeChar (strdup (p ++ [c])) (p.length + 2) nul = none := by
        refine if_neg ?_
        rw [length_strdup, List.length_append, List.length_singleton]
        omega
      have hnone : cutString (strdup (p ++ [c])) = none := by
        rw [cutString, hcut]
        exact hout
      rw [str2tm, hnone] at hresult
      cases hresult
    · refine iff_of_true (hstored hcut ?_) (not_endsInSixthField_of_lt hq (.inl h6.ge))
      have := List.length_pos_iff.2 hq
      rw [length_strdup, List.length_append, List.length_cons]
      omega
  · rw [Nat.zero_add] at hcut
    refine iff_of_true (hstored hcut ?_) ?_
    · rw [length_strdup, List.length_append, List.length_cons]
      omega
    · by_cases hq : q = []
      · subst hq
        rintro ⟨p', c', heq, -, -, h6'⟩
        exact h6 h6'
      · exact not_endsInSixthField_of_lt hq (.inr h14.ge)

/-! ## The fields -/

theorem ne_nul_of_isDigit {c : Char} (h : c.isDigit = true) : c ≠ nul := by
  rintro rfl
  rw [not_isDigit_nul] at h
  cases h

theorem isspace_of_isDigit {c : Char} (h : c.isDigit = true) : isspace c = false := by
  rw [Bool.eq_false_iff]
  intro hc
  simp only [isspace, Bool.or_eq_true, decide_eq_true_eq] at hc
  obtain ((((rfl | rfl) | rfl) | rfl) | rfl) | rfl := hc <;> cases h

/-- A field of digits is read as it is. -/
theorem scanIntWidth_digits {field : Text} {width : ℕ} (hne : field ≠ [])
    (hd : ∀ c ∈ field, c.isDigit = true) (hw : field.length ≤ width) :
    scanIntWidth width field = some (digitsValue field : ℤ) := by
  obtain ⟨c, cs, rfl⟩ := List.exists_cons_of_ne_nil hne
  have hc := hd c List.mem_cons_self
  obtain ⟨-, hminus, hplus⟩ := digit_plain hc
  have htext : ((c :: cs).dropWhile isspace).take width = c :: cs := by
    rw [List.dropWhile_cons_of_neg (by rw [isspace_of_isDigit hc]; exact Bool.false_ne_true),
      List.take_of_length_le hw]
  unfold scanIntWidth
  simp only [htext]
  split
  · next heq => exact absurd (List.cons_eq_cons.1 heq).1 hminus
  · next heq => exact absurd (List.cons_eq_cons.1 heq).1 hplus
  · next heq => simp only [List.takeWhile_eq_self_iff.2 hd, hne, if_false, Bool.false_eq_true]

/-- What follows the last digit is passed over. -/
theorem trimEnd_append {a sep : Text} {d : Char} (tail : List Char) (hd : d.isDigit = true)
    (hsep : ∀ c ∈ sep, c.isDigit = false) :
    trimEnd (a ++ [d] ++ sep ++ tail) (a ++ [d] ++ sep).length = some (a.length + 1) := by
  induction sep using List.reverseRecOn generalizing tail with
  | nil =>
    have hget : (a ++ [d] ++ [] ++ tail)[a.length]? = some d := by simp
    rw [List.append_nil, List.length_append, List.length_singleton, trimEnd]
    rw [List.append_nil] at hget
    simp only [hget, Option.bind_eq_bind, Option.bind_some, hd, if_true]
    rfl
  | append_singleton sep c ih =>
    have hc : c.isDigit = false := hsep c (List.mem_append_right _ (List.mem_singleton_self c))
    have hget : (a ++ [d] ++ (sep ++ [c]) ++ tail)[(a ++ [d] ++ sep).length]? = some c := by simp
    have hlen : (a ++ [d] ++ (sep ++ [c])).length = (a ++ [d] ++ sep).length + 1 := by
      rw [← List.append_assoc, List.length_append, List.length_singleton]
    have ih := ih (c :: tail) fun x hx => hsep x (List.mem_append_left _ hx)
    rw [hlen, trimEnd]
    simp only [hget, Option.bind_eq_bind, Option.bind_some, hc, Bool.false_eq_true, if_false]
    rw [← ih]
    congr 1
    simp

/-- The end is cut off after the last digit. -/
theorem cutEnd_append (a : Text) {sep : Text} (tail : List Char) {d : Char} (hd : d.isDigit = true)
    (hsep : ∀ c ∈ sep, c.isDigit = false) (hne : sep ++ tail ≠ []) :
    cutEnd (a ++ [d] ++ sep ++ tail) (a ++ [d] ++ sep).length =
      some (some (a ++ [d] ++ nul :: (sep ++ tail).tail, a.length + 1)) := by
  obtain ⟨x, rest, hrest⟩ := List.exists_cons_of_ne_nil hne
  have hstore : storeChar (a ++ [d] ++ sep ++ tail) (a.length + 1) nul = some (a ++ [d] ++ nul :: rest) := by
    have hlen : (a ++ [d]).length = a.length + 1 := by rw [List.length_append, List.length_singleton]
    rw [List.append_assoc, hrest, ← hlen, storeChar, if_pos (by simp), List.set_append_right _ _ (Nat.le_refl _),
      Nat.sub_self, List.set_cons_zero]
  rw [cutEnd, trimEnd_append tail hd hsep, hrest]
  simp only [Option.bind_eq_bind, Option.bind_some, hstore]
  rfl

/-- The string that a cut has ended. -/
theorem stringFrom_append {pre field : Text} (rest : List Char) (hf : nul ∉ field) :
    stringFrom (pre ++ field ++ nul :: rest) pre.length = some field := by
  have hdrop : (pre ++ field ++ nul :: rest).drop pre.length = field ++ nul :: rest := by
    rw [List.append_assoc, List.drop_left]
  have htake : (field ++ nul :: rest).takeWhile (· ≠ nul) = field := by
    have hall : ∀ c ∈ field, decide (c ≠ nul) = true := fun c hc =>
      decide_eq_true (ne_of_mem_of_not_mem hc hf)
    rw [List.takeWhile_append_of_pos hall, List.takeWhile_cons_of_neg (by simp), List.append_nil]
  rw [stringFrom, hdrop, if_pos (List.mem_append_right _ List.mem_cons_self), htake]

/-- A field of one or two digits. -/
structure ShortField where
  text : Text
  digits : ∀ c ∈ text, c.isDigit = true
  length : text.length = 1 ∨ text.length = 2

/-- What stands between two fields. -/
structure Separator where
  text : Text
  nonempty : text ≠ []
  plain : ∀ c ∈ text, c.isDigit = false

/-- A text does not end with a digit. -/
def EndsPlain (text : Text) : Prop := ∀ c ∈ text.getLast?, c.isDigit = false

theorem ShortField.ne_nil (f : ShortField) : f.text ≠ [] := by
  intro h
  obtain hf := f.length
  rw [h] at hf
  cases hf <;> contradiction

theorem Separator.endsPlain (g : Separator) (pre : Text) : EndsPlain (pre ++ g.text) := by
  intro c hc
  rw [List.getLast?_append_of_ne_nil _ g.nonempty] at hc
  exact g.plain c (List.mem_of_mem_getLast? hc)

/-- Where a field of one or two digits begins. -/
theorem twoDigits_append {pre : Text} (field : ShortField) (rest : List Char) (hpre : EndsPlain pre) :
    twoDigits (pre ++ field.text ++ rest) (pre ++ field.text).length = some pre.length := by
  obtain ⟨text, hd, hlen⟩ := field
  match text, hlen with
  | [d], _ =>
    obtain rfl | ⟨pre, c, rfl⟩ := List.eq_nil_or_concat' pre
    · rfl
    · have hc : c.isDigit = false := hpre c (by simp)
      have hget : (pre ++ [c] ++ [d] ++ rest)[pre.length]? = some c := by simp
      have he : (pre ++ [c] ++ [d]).length = pre.length + 2 := by simp
      rw [he, twoDigits, hget]
      simp [hc]
  | [d, d'], _ =>
    have hc : d.isDigit = true := hd d List.mem_cons_self
    have hget : (pre ++ [d, d'] ++ rest)[pre.length]? = some d := by simp
    have he : (pre ++ [d, d']).length = pre.length + 2 := by simp
    rw [he, twoDigits, hget]
    simp [hc]

theorem exists_getLast {field : Text} (hne : field ≠ []) (hd : ∀ c ∈ field, c.isDigit = true) :
    ∃ b d, field = b ++ [d] ∧ d.isDigit = true := by
  obtain ⟨b, d, h⟩ := (List.eq_nil_or_concat field).resolve_left hne
  rw [List.concat_eq_append] at h
  exact ⟨b, d, h, hd d (h ▸ List.mem_append_right _ (List.mem_singleton_self d))⟩

/-- The end of the copy is cut off after a field. -/
theorem cutEnd_field (pre : Text) {field sep : Text} {tail : List Char} (hne : field ≠ [])
    (hd : ∀ c ∈ field, c.isDigit = true) (hsep : ∀ c ∈ sep, c.isDigit = false) (htail : sep ++ tail ≠ []) :
    ∃ rest, cutEnd (pre ++ field ++ sep ++ tail) (pre ++ field ++ sep).length =
      some (some (pre ++ field ++ nul :: rest, (pre ++ field).length)) := by
  obtain ⟨b, d, rfl, hdigit⟩ := exists_getLast hne hd
  have hcut := cutEnd_append (pre ++ b) tail hdigit hsep htail
  refine ⟨(sep ++ tail).tail, ?_⟩
  rw [← List.append_assoc pre, hcut, @List.length_append _ (pre ++ b) [d], List.length_singleton]

/-- **A field is taken from the end.** -/
theorem lastField_append {pre sep : Text} {tail : List Char} (field : ShortField) (hpre : EndsPlain pre)
    (hsep : ∀ c ∈ sep, c.isDigit = false) (htail : sep ++ tail ≠ []) :
    ∃ rest, rest ≠ [] ∧ lastField (pre ++ field.text ++ sep ++ tail) (pre ++ field.text ++ sep).length =
      some (some ((digitsValue field.text : ℤ), pre ++ rest, pre.length)) := by
  obtain ⟨rest, hcut⟩ := cutEnd_field pre field.ne_nil field.digits hsep htail
  refine ⟨field.text ++ nul :: rest, List.append_ne_nil_of_right_ne_nil _ (List.cons_ne_nil _ _), ?_⟩
  have hnul : nul ∉ field.text := fun h => ne_nul_of_isDigit (field.digits _ h) rfl
  have hscan : scanIntWidth 2 field.text = some (digitsValue field.text : ℤ) :=
    scanIntWidth_digits field.ne_nil field.digits (by obtain h | h := field.length <;> omega)
  rw [lastField, hcut]
  simp only [Option.bind_eq_bind, Option.bind_some, twoDigits_append field _ hpre,
    stringFrom_append rest hnul, hscan, Option.getD_some]
  rw [List.append_assoc]
  rfl

/-- The year is taken from what is left. -/
theorem lastYear_append {year sep : Text} {tail : List Char} (hlen : year.length = 4)
    (hd : ∀ c ∈ year, c.isDigit = true) (hsep : ∀ c ∈ sep, c.isDigit = false)
    (htail : sep ++ tail ≠ []) :
    lastYear (year ++ sep ++ tail) (year ++ sep).length = some (some (digitsValue year : ℤ)) := by
  have hne : year ≠ [] := by
    rintro rfl
    cases hlen
  obtain ⟨rest, hcut⟩ := cutEnd_field [] hne hd hsep htail
  have hnul : nul ∉ year := fun h => ne_nul_of_isDigit (hd _ h) rfl
  have hscan : scanIntWidth 4 year = some (digitsValue year : ℤ) := scanIntWidth_digits hne hd hlen.le
  have hback : backDigits (year ++ nul :: rest) 4 year.length = some 0 := by
    match year, hlen with
    | [a, b, c, d], _ =>
      simp only [List.forall_mem_cons] at hd
      obtain ⟨ha, hb, hc, hdd, -⟩ := hd
      simp [backDigits, ha, hb, hc, hdd]
  have hstring : stringFrom (year ++ nul :: rest) 0 = some year := @stringFrom_append [] _ rest hnul
  rw [List.nil_append] at hcut
  rw [lastYear, hcut]
  simp only [Option.bind_eq_bind, Option.bind_some, hback, hstring, hscan, Option.getD_some]
  rfl

theorem storedYear_of_le {year : ℤ} (h : 1930 ≤ year) : storedYear year = year - 1900 := by
  have hlate : year > 1900 := by omega
  simp only [storedYear, if_pos hlate]
  rw [if_neg (by omega)]

/-! ## A date of six fields -/

/-- A text of six fields of digits. -/
structure DateText where
  year : Text
  year_digits : ∀ c ∈ year, c.isDigit = true
  year_length : year.length = 4
  year_from : 1930 ≤ digitsValue year
  afterYear : Separator
  month : ShortField
  afterMonth : Separator
  day : ShortField
  afterDay : Separator
  hour : ShortField
  afterHour : Separator
  minute : ShortField
  afterMinute : Separator
  second : ShortField
  /-- What follows the six fields. -/
  rest : Text
  rest_plain : ∀ c ∈ rest.head?, c.isDigit = false

namespace DateText

variable (t : DateText)

/-- The text before the second. -/
def beforeSecond : Text :=
  t.year ++ t.afterYear.text ++ t.month.text ++ t.afterMonth.text ++ t.day.text ++ t.afterDay.text ++
    t.hour.text ++ t.afterHour.text ++ t.minute.text ++ t.afterMinute.text

/-- The whole text. -/
def text : Text := t.beforeSecond ++ t.second.text ++ t.rest

/-- The six numbers, as `struct tm` counts them. -/
def fields : Tm where
  tmYear := (digitsValue t.year : ℤ) - 1900
  tmMon := (digitsValue t.month.text : ℤ) - 1
  tmMday := digitsValue t.day.text
  tmHour := digitsValue t.hour.text
  tmMin := digitsValue t.minute.text
  tmSec := digitsValue t.second.text

/-- Before the second there are five fields and at most twelve digits. -/
theorem of_beforeSecond : (FieldCounter.of t.beforeSecond).infield = false ∧
    (FieldCounter.of t.beforeSecond).fieldCount = 5 ∧ (FieldCounter.of t.beforeSecond).digits ≤ 12 := by
  have hyear : t.year ≠ [] := fun h => by
    have := t.year_length
    rw [h] at this
    cases this
  have hle (f : ShortField) : f.text.length ≤ 2 := by obtain h | h := f.length <;> omega
  have h1 := hle t.month
  have h2 := hle t.day
  have h3 := hle t.hour
  have h4 := hle t.minute
  simp only [FieldCounter.of, beforeSecond, List.foldl_append]
  rw [FieldCounter.foldl_digits hyear t.year_digits rfl,
    FieldCounter.foldl_gap t.afterYear.nonempty t.afterYear.plain,
    FieldCounter.foldl_digits t.month.ne_nil t.month.digits rfl,
    FieldCounter.foldl_gap t.afterMonth.nonempty t.afterMonth.plain,
    FieldCounter.foldl_digits t.day.ne_nil t.day.digits rfl,
    FieldCounter.foldl_gap t.afterDay.nonempty t.afterDay.plain,
    FieldCounter.foldl_digits t.hour.ne_nil t.hour.digits rfl,
    FieldCounter.foldl_gap t.afterHour.nonempty t.afterHour.plain,
    FieldCounter.foldl_digits t.minute.ne_nil t.minute.digits rfl,
    FieldCounter.foldl_gap t.afterMinute.nonempty t.afterMinute.plain]
  simp only [FieldCounter.init, t.year_length]
  exact ⟨trivial, trivial, by omega⟩

/-- The first two characters from the second on are kept. -/
theorem cutString_text (hnul : nul ∉ t.text) (hend : t.rest = [] → t.second.text.length = 2) :
    ∃ sep tail, (∀ c ∈ sep, c.isDigit = false) ∧ sep ++ tail ≠ [] ∧
      cutString (strdup t.text) = some (t.beforeSecond ++ t.second.text ++ sep ++ tail) ∧
      ∃ s, stringFrom (t.beforeSecond ++ t.second.text ++ sep ++ tail) 0 = some s ∧
        s.length + 1 = (t.beforeSecond ++ t.second.text ++ sep).length := by
  obtain ⟨hin, hfields, hdigits⟩ := t.of_beforeSecond
  have hbefore : nul ∉ t.beforeSecond := fun h => hnul (by simp [text, h])
  -- the loop ends at the first digit of the second
  have hcut {d : Char} {x : List Char} (hd : d.isDigit = true)
      (heq : strdup t.text = t.beforeSecond ++ d :: x) :
      cutString (strdup t.text) = storeChar (strdup t.text) (t.beforeSecond.length + 2) nul := by
    have hstep : ((FieldCounter.of t.beforeSecond).step d).fieldCount = 6 := by
      rw [FieldCounter.step, if_pos hd, hin, hfields]
      rfl
    have hindex : cutIndex 0 FieldCounter.init (strdup t.text) = some (some (t.beforeSecond.length + 2)) := by
      have happ := cutIndex_append (n := FieldCounter.init) (d :: x) 0 hbefore
        (by unfold FieldCounter.of at hfields; omega) (by unfold FieldCounter.of at hdigits; omega)
      rw [heq, happ, cutIndex, if_neg (ne_nul_of_isDigit hd), Nat.zero_add]
      exact if_pos hstep
    rw [cutString, hindex]
    rfl
  -- what is left then is the text before the second and two characters
  have hkeep {d c y : Char} {x : List Char} (hd : d.isDigit = true) (hc : c ≠ nul)
      (heq : strdup t.text = t.beforeSecond ++ d :: c :: y :: x) :
      cutString (strdup t.text) = some (t.beforeSecond ++ [d, c] ++ nul :: x) ∧
        stringFrom (t.beforeSecond ++ [d, c] ++ nul :: x) 0 = some (t.beforeSecond ++ [d, c]) := by
    refine ⟨?_, @stringFrom_append [] _ x fun h => ?_⟩
    · have hlen : (t.beforeSecond ++ [d, c]).length = t.beforeSecond.length + 2 := by simp
      have heq' : strdup t.text = t.beforeSecond ++ [d, c] ++ y :: x := by rw [heq, List.append_assoc]; rfl
      rw [hcut hd heq, heq', storeChar, ← hlen, if_pos (by simp), List.set_append_right _ _ (Nat.le_refl _),
        Nat.sub_self, List.set_cons_zero]
    · obtain h | h := List.mem_append.1 h
      · exact hbefore h
      · obtain h | h := List.mem_cons.1 h
        · exact ne_nul_of_isDigit hd h.symm
        · exact hc (List.mem_singleton.1 h).symm
  have htext : strdup t.text = t.beforeSecond ++ (t.second.text ++ (t.rest ++ [nul])) := by
    simp only [strdup, text, List.append_assoc]
  obtain hone | htwo := t.second.length
  · obtain ⟨d, hsecond⟩ := List.length_eq_one_iff.1 hone
    obtain ⟨c, r, hrest⟩ : ∃ c r, t.rest = c :: r := by
      refine List.exists_cons_of_ne_nil fun h => ?_
      rw [hend h] at hone
      cases hone
    have hd : d.isDigit = true := t.second.digits d (by rw [hsecond]; exact List.mem_singleton_self d)
    have hc : c.isDigit = false := t.rest_plain c (by rw [hrest]; rfl)
    have hcnul : c ≠ nul := fun h => hnul (by simp [text, hrest, h])
    obtain ⟨y, x, hx⟩ := List.exists_cons_of_ne_nil (List.append_ne_nil_of_right_ne_nil r
      (List.cons_ne_nil nul []))
    rw [hsecond, hrest, List.singleton_append, List.cons_append, hx] at htext
    obtain ⟨hcopy, hstring⟩ := hkeep hd hcnul htext
    rw [hsecond]
    refine ⟨[c, nul], x, ?_, List.cons_ne_nil _ _, ?_, t.beforeSecond ++ [d, c], ?_, by simp⟩
    · exact List.forall_mem_cons.2 ⟨hc, List.forall_mem_singleton.2 not_isDigit_nul⟩
    · rw [hcopy]; simp
    · rw [← hstring]; congr 1; simp
  · obtain ⟨d, c, hsecond⟩ := List.length_eq_two.1 htwo
    have hd : d.isDigit = true := t.second.digits d (by rw [hsecond]; exact List.mem_cons_self)
    have hc : c.isDigit = true := t.second.digits c (by simp [hsecond])
    obtain ⟨y, x, hx⟩ := List.exists_cons_of_ne_nil (List.append_ne_nil_of_right_ne_nil t.rest
      (List.cons_ne_nil nul []))
    rw [hsecond, hx] at htext
    obtain ⟨hcopy, hstring⟩ := hkeep hd (ne_nul_of_isDigit hc) htext
    rw [hsecond]
    refine ⟨[nul], x, ?_, List.cons_ne_nil _ _, ?_, t.beforeSecond ++ [d, c], ?_, by simp⟩
    · exact List.forall_mem_singleton.2 not_isDigit_nul
    · rw [hcopy, List.append_assoc _ [nul]]; rfl
    · rw [← hstring, List.append_assoc _ [nul]]; rfl

/-- **The fields that are stored are the six numbers.** -/
theorem str2tm_text (hnul : nul ∉ t.text) (hend : t.rest = [] → t.second.text.length = 2) :
    str2tm t.text = some (.mktime t.fields) := by
  obtain ⟨sep, tail, hsep, htail, hcut, s, hs, hlen⟩ := t.cutString_text hnul hend
  unfold str2tm
  simp only [Option.bind_eq_bind, Option.bind_some, hcut, hs, hlen]
  obtain ⟨rest, hrest, hfield⟩ := lastField_append t.second (t.afterMinute.endsPlain _) hsep htail
  rw [beforeSecond, hfield]
  simp only [Option.bind_some]
  obtain ⟨rest, hrest, hfield⟩ := lastField_append t.minute (t.afterHour.endsPlain _) t.afterMinute.plain
    (List.append_ne_nil_of_right_ne_nil _ hrest)
  rw [hfield]
  simp only [Option.bind_some]
  obtain ⟨rest, hrest, hfield⟩ := lastField_append t.hour (t.afterDay.endsPlain _) t.afterHour.plain
    (List.append_ne_nil_of_right_ne_nil _ hrest)
  rw [hfield]
  simp only [Option.bind_some]
  obtain ⟨rest, hrest, hfield⟩ := lastField_append t.day (t.afterMonth.endsPlain _) t.afterDay.plain
    (List.append_ne_nil_of_right_ne_nil _ hrest)
  rw [hfield]
  simp only [Option.bind_some]
  obtain ⟨rest, hrest, hfield⟩ := lastField_append t.month (t.afterYear.endsPlain _) t.afterMonth.plain
    (List.append_ne_nil_of_right_ne_nil _ hrest)
  rw [hfield]
  simp only [Option.bind_some]
  rw [lastYear_append t.year_length t.year_digits t.afterYear.plain
    (List.append_ne_nil_of_right_ne_nil _ hrest)]
  have hyear : storedYear (digitsValue t.year : ℤ) = (digitsValue t.year : ℤ) - 1900 :=
    storedYear_of_le (Int.ofNat_le.2 t.year_from)
  simp only [Option.bind_some, hyear, fields]
  rfl

end DateText

/-- **What is asked of `str2tm`**: it makes no access outside its copy, and it stores the six numbers of a
date. -/
def ParsesDate (str : Text) : Prop :=
  ∃ result, str2tm str = some result ∧ ∀ t : DateText, t.text = str → result = .mktime t.fields

/-- **It is met** unless the string ends right after the first digit of its sixth field. -/
theorem parsesDate_iff (str : Text) (hs : nul ∉ str) : ParsesDate str ↔ ¬ EndsInSixthField str := by
  constructor
  · rintro ⟨result, hresult, -⟩
    exact (str2tm_isSome_iff hs).1 ⟨result, hresult⟩
  · intro h
    obtain ⟨result, hresult⟩ := (str2tm_isSome_iff hs).2 h
    refine ⟨result, hresult, ?_⟩
    rintro t rfl
    have hend : t.rest = [] → t.second.text.length = 2 := by
      intro hrest
      refine t.second.length.resolve_left fun hone => h ?_
      obtain ⟨c, hsecond⟩ := List.length_eq_one_iff.1 hone
      obtain ⟨hin, hfields, hdigits⟩ := t.of_beforeSecond
      have hc : c.isDigit = true := t.second.digits c (by rw [hsecond]; exact List.mem_singleton_self c)
      have htext : t.text = t.beforeSecond ++ [c] := by rw [DateText.text, hsecond, hrest, List.append_nil]
      refine ⟨t.beforeSecond, c, htext, by omega, by omega, ?_⟩
      rw [htext, FieldCounter.of, List.foldl_append, List.foldl_cons, List.foldl_nil, FieldCounter.step,
        if_pos hc]
      unfold FieldCounter.of at hin hfields
      rw [hin, hfields]
      rfl
    rw [t.str2tm_text hs hend] at hresult
    exact (Option.some.inj hresult).symm

/-- A date whose second has two digits is parsed. -/
theorem parsesDate_iff_2000 :
    ParsesDate "2000-01-02-03:04:05".toList ↔ ¬ EndsInSixthField "2000-01-02-03:04:05".toList :=
  parsesDate_iff "2000-01-02-03:04:05".toList (by decide)

/-- A date whose second has one digit, and that ends there, makes the write outside the copy. -/
theorem not_parsesDate_of_one_digit : ¬ ParsesDate "2000-1-2-3:4:5".toList := by
  rintro ⟨result, hresult, -⟩
  have hnone : str2tm "2000-1-2-3:4:5".toList = none := by decide +kernel
  rw [hnone] at hresult
  cases hresult

end Psrdada
