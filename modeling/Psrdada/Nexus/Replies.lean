import Psrdada.Nexus.CommandServer

/-! # Replies of a command server are read one by one

A reply fits the buffer, holds no zero, and no line behind its first begins with the character of the
prompt or with the one that `ungetc` loses: then `node_recv` stops behind its prompt, whatever follows.
What it leaves in the buffer is the output of the handler only behind an `ok`, and when the output is
empty, is ended by a newline or is a part of one line. -/

namespace CommandReplies

open CString Stdio

/-! ## The end of a reply -/

/-- The word of the line that ends a reply. -/
def statusWord (ret : ℤ) : Text := if ret < 0 then ['f', 'a', 'i', 'l'] else ['o', 'k']

theorem statusLine_eq (ret : ℤ) : statusLine ret = statusWord ret ++ ['\n'] := by
  unfold statusLine statusWord
  split <;> rfl

theorem newline_not_mem_statusWord (ret : ℤ) : '\n' ∉ statusWord ret := by
  unfold statusWord
  split <;> decide

theorem return_not_mem_statusLine (ret : ℤ) : '\r' ∉ statusLine ret := by
  unfold statusLine
  split <;> decide

theorem nul_not_mem_statusLine (ret : ℤ) : nul ∉ statusLine ret := by
  unfold statusLine
  split <;> decide

/-- No line behind the first begins with the character. -/
def Begins (c : Char) (text : Text) : Prop := ['\n', c] <:+: text

/-- The line that ends a reply begins with none of the characters that matter. -/
theorem begins_append_statusLine {c : Char} {output : Text} {ret : ℤ} (hc : c = '>' ∨ c = 'ÿ')
    (h : Begins c (output ++ statusLine ret)) : Begins c output := by
  have hword : ∃ a b, statusLine ret = a :: b ∧ a ≠ '\n' ∧ a ≠ c ∧ c ∉ b := by
    unfold statusLine
    split
    · exact ⟨_, _, rfl, by decide, by rcases hc with rfl | rfl <;> decide,
        by rcases hc with rfl | rfl <;> decide⟩
    · exact ⟨_, _, rfl, by decide, by rcases hc with rfl | rfl <;> decide,
        by rcases hc with rfl | rfl <;> decide⟩
  obtain ⟨a, b, hline, han, hac, hcb⟩ := hword
  rw [hline] at h
  clear hline
  induction output with
  | nil =>
    have hmem : c ∈ b := by
      rcases List.infix_cons_iff.mp h with hp | hi
      · exact absurd (List.cons_prefix_cons.mp hp).1.symm han
      · exact hi.mem (by simp)
    exact absurd hmem hcb
  | cons d output ih =>
    rcases List.infix_cons_iff.mp h with hp | hi
    · obtain ⟨hd, hrest⟩ := List.cons_prefix_cons.mp hp
      cases output with
      | nil => exact absurd (List.cons_prefix_cons.mp hrest).1.symm hac
      | cons e output =>
        have he := (List.cons_prefix_cons.mp hrest).1
        exact (List.cons_prefix_cons.mpr ⟨hd, List.cons_prefix_cons.mpr
          ⟨he, List.nil_prefix⟩⟩).isInfix
    · exact List.infix_cons (ih hi)

/-- The output of a handler and the status it returns make a reply that a reader with a buffer of `size`
characters can take. -/
structure Fits (size : ℕ) (ret : ℤ) (output : Text) : Prop where
  /-- The size is positive as an `int`. -/
  size_lt : size < 2 ^ 31
  /-- The reply and the terminating zero fit. -/
  length_lt : output.length + (statusLine ret).length < size
  nul_not_mem : nul ∉ output
  not_prompt : ¬Begins '>' output
  not_eof : ¬Begins 'ÿ' output
  /-- Behind an `ok`, the output ends in a newline, or is a part of one line. -/
  tidy : 0 ≤ ret → output.getLast? = some '\n' ∨ '\n' ∉ output ∧ '\r' ∉ output

/-- The output without the newline that ends it. -/
def chomp (output : Text) : Text :=
  if output.getLast? = some '\n' then output.dropLast else output

/-- What is cut at the last newline of an output is its last newline when nothing follows it. -/
theorem cutLast_eq_chomp {output : Text}
    (h : output.getLast? = some '\n' ∨ '\n' ∉ output ∧ '\r' ∉ output) :
    cutLast '\n' output = chomp output := by
  rcases h with h | ⟨h, -⟩
  · obtain ⟨body, rfl⟩ := List.getLast?_eq_some_iff.mp h
    rw [cutLast_append_cons List.not_mem_nil, chomp, if_pos h, List.dropLast_concat]
  · have hlast : output.getLast? ≠ some '\n' := fun hl => h (List.mem_of_getLast? hl)
    rw [cutLast_of_not_mem h, chomp, if_neg hlast]

/-! ## The loop of the reader -/

/-- The loop reads a text that is ended by a newline and the prompt, and nothing behind: it leaves the
text split before its last line. -/
theorem readLines_text (size : ℤ) (rest : Text) (closed : Bool) :
    ∀ (turns : ℕ) (text before : Text) (stored : ℕ), nul ∉ text →
      ¬Begins '>' text → ¬Begins 'ÿ' text → text.length < turns →
      (text.length : ℤ) + 1 < size → stored ≤ before.length + text.length + 2 →
      readLines size turns before stored ⟨text ++ '\n' :: '>' :: rest, closed⟩ =
        .ok ⟨before ++ text.rdropWhile (· ≠ '\n'), text.rtakeWhile (· ≠ '\n') ++ ['\n'],
          before.length + text.length + 2, ⟨rest, closed⟩⟩ := by
  intro turns
  -- the induction is on the turns of the loop, each of which reads one line of the text
  induction turns with
  | zero => intro text before stored _ _ _ h; omega
  | succ turns ih =>
    intro text before stored hnul hprompt heof hturns hsize hstored
    have hclean : ∀ {t : Text}, nul ∉ t → (t ++ ['\n']).takeWhile (· ≠ nul) = t ++ ['\n'] := by
      intro t ht
      refine List.takeWhile_eq_self_iff.mpr fun c hc => ?_
      have : c ≠ nul := by
        rintro rfl
        rcases List.mem_append.mp hc with h | h
        · exact ht h
        · exact absurd (List.mem_singleton.mp h) (by decide)
      simpa using this
    by_cases hmem : '\n' ∈ text
    · obtain ⟨line, tail, rfl, hline⟩ := List.eq_append_cons_of_mem hmem
      simp only [List.length_append, List.length_cons] at hturns hsize hstored
      have hnl : nul ∉ line := fun h => hnul (by simp [h])
      have hnt : nul ∉ tail := fun h => hnul (by simp [h])
      have hinf : ∀ {c}, Begins c tail → Begins c (line ++ '\n' :: tail) := fun h =>
        (List.infix_cons h).trans (List.suffix_append _ _).isInfix
      -- the character behind the line is the first of the next one
      obtain ⟨c, next, hnext, hc1, hc2⟩ : ∃ c next, tail ++ '\n' :: '>' :: rest = c :: next ∧
          c ≠ '>' ∧ c ≠ 'ÿ' := by
        cases tail with
        | nil => exact ⟨_, _, rfl, by decide, by decide⟩
        | cons c tail =>
          have hbeg : Begins c (line ++ '\n' :: c :: tail) := ⟨line, tail, by simp⟩
          exact ⟨c, _, rfl, fun h => hprompt (h ▸ hbeg), fun h => heof (h ▸ hbeg)⟩
      have hih := ih tail (before ++ (line ++ ['\n']))
        (max stored (before.length + (line ++ ['\n']).length + 1)) hnt
        (fun h => hprompt (hinf h)) (fun h => heof (hinf h)) (by omega) (by omega)
        (by simp only [List.length_append, List.length_singleton]; omega)
      rw [List.append_assoc, List.cons_append, readLines,
        fgets_line hline (by omega) closed]
      simp only [fgetc, hnext, hclean hnl, if_neg hc1, if_neg hc2]
      rw [← hnext, hih, rdropWhile_append_cons (by simp), rtakeWhile_append_cons (by simp)]
      simp only [List.append_assoc, List.length_append, List.length_cons, List.singleton_append,
        List.length_nil, Nat.add_assoc]
      congr 2
      omega
    · rw [readLines, fgets_line hmem (by omega) closed]
      have hall : ∀ c ∈ text, (decide (c ≠ '\n')) = true := fun c hc => by
        simpa using fun h : c = '\n' => hmem (h ▸ hc)
      rw [List.rdropWhile_eq_nil_iff.mpr hall, List.rtakeWhile_eq_self_iff.mpr hall]
      simp only [fgetc, hclean hnul, if_true, List.append_nil, List.length_append,
        List.length_singleton]
      congr 2
      omega

/-- The loop of `node_recv` on a reply that fits. -/
theorem readLines_reply {size : ℕ} {ret : ℤ} {output : Text} (h : Fits size ret output) (rest : Text)
    (closed : Bool) (turns : ℕ) (hturns : output.length + (statusLine ret).length < turns) :
    readLines (toInt size) turns [] 0
        ⟨output ++ statusLine ret ++ prompt ++ rest, closed⟩ =
      .ok ⟨output.rdropWhile (· ≠ '\n'), output.rtakeWhile (· ≠ '\n') ++ statusLine ret,
        output.length + (statusLine ret).length + 1, ⟨' ' :: rest, closed⟩⟩ := by
  have hsize := toInt_of_lt h.size_lt
  have hword : ∀ c ∈ statusWord ret, decide (c ≠ '\n') = true := fun c hc => by
    simpa using fun hn : c = '\n' => newline_not_mem_statusWord ret (hn ▸ hc)
  have hinf : ∀ {c}, Begins c (output ++ statusWord ret) → Begins c (output ++ statusLine ret) := by
    intro c hb
    rw [statusLine_eq, ← List.append_assoc]
    exact hb.trans (List.prefix_append _ _).isInfix
  have hnul : nul ∉ output ++ statusWord ret := by
    intro hm
    rcases List.mem_append.mp hm with hm | hm
    · exact h.nul_not_mem hm
    · exact nul_not_mem_statusLine ret (by rw [statusLine_eq]; exact List.mem_append_left _ hm)
  have hlen : (statusLine ret).length = (statusWord ret).length + 1 := by
    rw [statusLine_eq, List.length_append, List.length_singleton]
  have hfit := h.length_lt
  have hread := readLines_text size (' ' :: rest) closed turns
    (output ++ statusWord ret) [] 0 hnul
    (fun hb => h.not_prompt (begins_append_statusLine (.inl rfl) (hinf hb)))
    (fun hb => h.not_eof (begins_append_statusLine (.inr rfl) (hinf hb)))
    (by rw [List.length_append]; omega) (by rw [List.length_append]; omega) (by omega)
  rw [rdropWhile_append_of_pos hword, rtakeWhile_append_of_pos hword, List.append_assoc _ _ ['\n'],
    ← statusLine_eq] at hread
  have htext : output ++ statusLine ret ++ prompt ++ rest =
      output ++ statusWord ret ++ '\n' :: '>' :: ' ' :: rest := by
    simp [statusLine_eq, prompt]
  have hstored : ([] : Text).length + (output ++ statusWord ret).length + 2 =
      output.length + (statusLine ret).length + 1 := by
    rw [List.length_append, hlen, List.length_nil]
    omega
  rw [hstored, List.nil_append] at hread
  rw [hsize, htext]
  exact hread

/-- Behind a failure, `node_recv` returns -1 and leaves the status line in the buffer. -/
theorem nodeRecv_fail {size : ℕ} {ret : ℤ} {output : Text} (h : Fits size ret output) (hret : ret < 0)
    (rest : Text) (closed : Bool) :
    ∃ buffer, buffer.length = output.length + 5 ∧
      nodeRecv size ⟨output ++ statusLine ret ++ prompt ++ rest, closed⟩ =
        .ok ⟨-1, buffer, output.length + (statusLine ret).length + 1, ⟨rest, closed⟩⟩ := by
  have hread := readLines_reply h rest closed
    ((output ++ statusLine ret ++ prompt ++ rest).length + 1)
    (by simp only [List.length_append]; omega)
  have hline : statusLine ret = statusLine (-1) := by simp [statusLine, hret]
  have hrep : replaceFirst '\r' '\n' (output.rtakeWhile (· ≠ '\n') ++ statusLine (-1)) =
      replaceFirst '\r' '\n' (output.rtakeWhile (· ≠ '\n')) ++ statusLine (-1) :=
    replaceFirst_append (return_not_mem_statusLine (-1))
  have hfound : (strstr (statusLine (-1)) (replaceFirst '\r' '\n'
      (output.rtakeWhile (· ≠ '\n')) ++ statusLine (-1))).isSome := by
    by_contra hnone
    rw [Bool.not_eq_true, Option.isSome_eq_false_iff, Option.isNone_iff_eq_none] at hnone
    have := strstr_none hnone (replaceFirst '\r' '\n' (output.rtakeWhile (· ≠ '\n'))).length
    rw [List.drop_left] at this
    exact this List.prefix_rfl
  refine ⟨output.rdropWhile (· ≠ '\n') ++ (replaceFirst '\r' '\n'
    (output.rtakeWhile (· ≠ '\n')) ++ statusLine (-1)), ?_, ?_⟩
  · have hsplit := congrArg List.length (List.rdropWhile_append_rtakeWhile (p := (· ≠ '\n'))
      (l := output))
    rw [List.length_append] at hsplit
    rw [List.length_append, List.length_append, length_replaceFirst]
    have : (statusLine (-1)).length = 5 := rfl
    omega
  · rw [nodeRecv, hread, Except.bind, hline, finish]
    simp only [fgetc, hrep, hfound, if_true]

/-- Behind a success, `node_recv` returns 0 and leaves the output without its last newline. -/
theorem nodeRecv_ok {size : ℕ} {ret : ℤ} {output : Text} (h : Fits size ret output) (hret : 0 ≤ ret)
    (rest : Text) (closed : Bool) :
    nodeRecv size ⟨output ++ statusLine ret ++ prompt ++ rest, closed⟩ =
      .ok ⟨0, chomp output, output.length + (statusLine ret).length + 1, ⟨rest, closed⟩⟩ := by
  have hread := readLines_reply h rest closed
    ((output ++ statusLine ret ++ prompt ++ rest).length + 1)
    (by simp only [List.length_append]; omega)
  have hline : statusLine ret = statusLine 0 := by simp [statusLine, Int.not_lt.mpr hret]
  -- the part of a line that the output may end in
  set part := output.rtakeWhile (· ≠ '\n') with hpart
  have hnewline : '\n' ∉ part := fun hm => by simpa using List.mem_rtakeWhile_imp hm
  have hreturn : '\r' ∉ part := by
    rcases h.tidy hret with hlast | ⟨-, hr⟩
    · obtain ⟨body, rfl⟩ := List.getLast?_eq_some_iff.mp hlast
      rw [hpart, List.rtakeWhile_concat_neg _ _ _ (by simp)]
      exact List.not_mem_nil
    · exact fun hm => hr ((List.rtakeWhile_suffix _ _).subset hm)
  have hrep : replaceFirst '\r' '\n' (part ++ statusLine 0) = part ++ statusLine 0 := by
    rw [replaceFirst_append (return_not_mem_statusLine 0), replaceFirst_of_not_mem hreturn]
  have hword : part ++ statusLine 0 = part ++ ['o', 'k'] ++ ['\n'] := by simp [statusLine]
  have hpartok : '\n' ∉ part ++ ['o', 'k'] := by simp [hnewline]
  have hfail : strstr (statusLine (-1)) (part ++ statusLine 0) = none := by
    have hsuffix : ¬['f', 'a', 'i', 'l'] <:+ part ++ ['o', 'k'] := by
      rintro ⟨t, ht⟩
      have := congrArg List.getLast? ht
      simp at this
    rw [hword]
    exact (strstr_line (t := ['f', 'a', 'i', 'l']) (by decide) hpartok).trans (if_neg hsuffix)
  have hok : strstr (statusLine 0) (part ++ statusLine 0) = some part.length := by
    rw [hword]
    refine (strstr_line (t := ['o', 'k']) (by decide) hpartok).trans ?_
    rw [if_pos (List.suffix_append _ _)]
    simp
  rw [nodeRecv, hread, Except.bind, hline, finish]
  simp only [fgetc, hrep, hfail, hok, Option.isSome_none, Bool.false_eq_true, if_false,
    List.take_left]
  rw [hpart, List.rdropWhile_append_rtakeWhile, cutLast_eq_chomp (h.tidy hret)]

end CommandReplies
