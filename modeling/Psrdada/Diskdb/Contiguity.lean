import Mathlib.Data.List.Chain
import Psrdada.Diskdb.Diskdb

/-! # What check_contiguity finds

`check_contiguity` goes through the files once, and adds the size of each file to the entries before it
as far back as the files continue.  After that `continues` tells which files are continued by the next one,
and the entry of a file in `file_sizes` is the total from that file to the end of its run (`Marked`). -/

namespace Psrdada

open CString

variable {hdrSize : ℕ}

/-- Whether a file in a list is continued by the next one. -/
def joined (files : List (DiskFile hdrSize)) (i : ℕ) : Bool :=
  match files[i]?, files[i + 1]? with
  | some f, some g => f.continuedBy g
  | _, _ => false

/-- The length of the data from the first file to the end of its run. -/
def runTotal : List (DiskFile hdrSize) → ℕ
  | [] => 0
  | [f] => f.data.length
  | f :: g :: files => f.data.length + if f.continuedBy g then runTotal (g :: files) else 0

/-- The arrays tell what they shall about the files seen so far, of `n` in all. -/
structure Marked (n : ℕ) (files : List (DiskFile hdrSize)) (continues : List Bool)
    (sizes : List ℕ) : Prop where
  /-- There is an entry for each file. -/
  continues_length : continues.length = n
  /-- There is an entry for each file. -/
  sizes_length : sizes.length = n
  /-- Which files continue. -/
  continues_get : ∀ i < n, continues[i]? = some (joined files i)
  /-- The totals. -/
  sizes_get : ∀ i < files.length, sizes[i]? = some (runTotal (files.drop i))

/-! ## Totals -/

/-- The files of a list continue one another. -/
def Continued (files : List (DiskFile hdrSize)) : Prop :=
  files.IsChain fun f g => f.continuedBy g = true

theorem runTotal_append_of_continued {files : List (DiskFile hdrSize)} {f : DiskFile hdrSize}
    (h : Continued (files ++ [f])) : runTotal (files ++ [f]) = runTotal files + f.data.length := by
  induction files with
  | nil => simp [runTotal]
  | cons a files ih =>
    cases files with
    | nil =>
      have hab : a.continuedBy f = true := by simpa [Continued] using h
      simp [runTotal, hab]
    | cons b files =>
      obtain ⟨hab, hrest⟩ := List.isChain_cons_cons.mp h
      have := ih hrest
      simp only [List.cons_append, runTotal, hab, if_true] at this ⊢
      omega

theorem runTotal_append_of_not_continued {files : List (DiskFile hdrSize)} {f : DiskFile hdrSize}
    (hne : files ≠ []) (h : ¬ Continued (files ++ [f])) :
    runTotal (files ++ [f]) = runTotal files := by
  induction files with
  | nil => exact absurd rfl hne
  | cons a files ih =>
    cases files with
    | nil =>
      have hab : ¬ a.continuedBy f = true := by simpa [Continued] using h
      simp [runTotal, hab]
    | cons b files =>
      simp only [List.cons_append, runTotal]
      by_cases hab : a.continuedBy b = true
      · have hrest : ¬ Continued (b :: files ++ [f]) := fun hc =>
          h (List.isChain_cons_cons.mpr ⟨hab, hc⟩)
        have := ih (List.cons_ne_nil _ _) hrest
        simp only [List.cons_append] at this
        rw [this]
      · simp [hab]

/-- The total of a run that ends here. -/
theorem runTotal_run {run rest : List (DiskFile hdrSize)} (hrun : Continued run)
    (hend : ∀ f ∈ run.getLast?, ∀ g ∈ rest.head?, f.continuedBy g = false) (hne : run ≠ []) :
    runTotal (run ++ rest) = (dataOf run).length := by
  induction run with
  | nil => exact absurd rfl hne
  | cons a run ih =>
    cases run with
    | nil =>
      cases rest with
      | nil => simp [runTotal, dataOf]
      | cons b rest =>
        have hab := hend a rfl b rfl
        simp [runTotal, dataOf, hab]
    | cons b run =>
      obtain ⟨hab, hrest⟩ := List.isChain_cons_cons.mp hrun
      have := ih hrest (by simpa using hend) (List.cons_ne_nil _ _)
      simp only [List.cons_append, runTotal, hab, if_true] at this ⊢
      rw [this]
      simp [dataOf]

/-! ## One file more -/

/-- Accumulating changes the entries from which the files continue. -/
theorem getElem?_accumulate (continues : List Bool) (size i : ℕ) (sizes : List ℕ) (j : ℕ) :
    ((j < i ∧ ∀ m, j ≤ m → m < i → continues[m]? = some true) →
      (accumulate continues size i sizes)[j]? = sizes[j]?.map (· + size)) ∧
    (¬ (j < i ∧ ∀ m, j ≤ m → m < i → continues[m]? = some true) →
      (accumulate continues size i sizes)[j]? = sizes[j]?) := by
  induction i generalizing sizes with
  | zero => exact ⟨fun h => absurd h.1 (Nat.not_lt_zero _), fun _ => rfl⟩
  | succ i ih =>
    rw [accumulate]
    by_cases hi : continues[i]? = some true
    · rw [if_pos hi]
      obtain ⟨h1, h2⟩ := ih (sizes.modify i (· + size))
      constructor
      · rintro ⟨hj, hall⟩
        rcases Nat.lt_or_eq_of_le (Nat.le_of_lt_succ hj) with hlt | rfl
        · rw [h1 ⟨hlt, fun m hjm hm => hall m hjm (by omega)⟩, List.getElem?_modify_ne _ _ (by omega)]
        · rw [h2 (by omega), List.getElem?_modify_eq]
          rfl
      · intro hnot
        have hji : j ≠ i := by
          rintro rfl
          exact hnot ⟨Nat.lt_succ_self _, fun m hjm hm => by
            obtain rfl : m = j := by omega
            exact hi⟩
        rw [h2, List.getElem?_modify_ne _ _ (Ne.symm hji)]
        rintro ⟨hlt, hall⟩
        refine hnot ⟨by omega, fun m hjm hm => ?_⟩
        rcases Nat.lt_or_eq_of_le (Nat.le_of_lt_succ hm) with hmi | rfl
        · exact hall m hjm hmi
        · exact hi
    · rw [if_neg hi]
      exact ⟨fun ⟨hj, hall⟩ => absurd (hall i (by omega) (Nat.lt_succ_self _)) hi, fun _ => rfl⟩

/-- A file that is joined to the one before it. -/
theorem joined_append {files : List (DiskFile hdrSize)} {p f : DiskFile hdrSize} (i : ℕ)
    (hlast : files.getLast? = some p) :
    joined (files ++ [f]) i =
      if i + 1 = files.length then p.continuedBy f else joined files i := by
  have hp : files[files.length - 1]? = some p := by rw [← hlast, List.getLast?_eq_getElem?]
  have hpos : files ≠ [] := by
    rintro rfl
    simp at hlast
  have hlen := List.length_pos_iff.mpr hpos
  unfold joined
  by_cases hi : i + 1 = files.length
  · have hi' : i = files.length - 1 := by omega
    rw [if_pos hi, hi', List.getElem?_append_left (by omega), hp]
    have hnext : (files ++ [f])[files.length - 1 + 1]? = some f := by
      rw [Nat.sub_add_cancel hlen]
      simp
    rw [hnext]
  · rw [if_neg hi]
    rcases Nat.lt_or_ge (i + 1) files.length with hlt | hge
    · rw [List.getElem?_append_left (by omega), List.getElem?_append_left hlt]
    · have h1 : (files ++ [f])[i + 1]? = none := List.getElem?_eq_none (by simp; omega)
      have h2 : files[i + 1]? = none := List.getElem?_eq_none hge
      rw [h1, h2]
      split <;> split <;> simp_all

/-- Files continue one another when each is joined to the next. -/
theorem continued_drop_iff {files : List (DiskFile hdrSize)} (i : ℕ) :
    Continued (files.drop i) ↔ ∀ m, i ≤ m → m + 1 < files.length → joined files m = true := by
  have hget (m : ℕ) (h : m + 1 < files.length) (hm : m < files.length) :
      joined files m = files[m].continuedBy files[m + 1] := by
    rw [joined, List.getElem?_eq_getElem h, List.getElem?_eq_getElem hm]
  unfold Continued
  rw [List.isChain_iff_getElem]
  constructor
  · intro h m him hm
    rw [hget m hm (by omega)]
    have := h (m - i) (by rw [List.length_drop]; omega)
    simp only [List.getElem_drop] at this
    have h1 : i + (m - i) = m := by omega
    have h2 : i + (m - i + 1) = m + 1 := by omega
    simpa only [h1, h2] using this
  · intro h m hm
    rw [List.length_drop] at hm
    have := h (i + m) (by omega) (by omega)
    rw [hget _ (by omega) (by omega)] at this
    simpa only [List.getElem_drop, Nat.add_assoc] using this

section Step

variable {n : ℕ} {pre : List (DiskFile hdrSize)} {continues : List Bool} {sizes : List ℕ}
  {p f : DiskFile hdrSize}

/-- The entry that says whether the last file continues. -/
theorem Marked.set_continues (h : Marked n pre continues sizes) (hlast : pre.getLast? = some p)
    (i : ℕ) (hi : i < n) : (continues.set (pre.length - 1) (p.continuedBy f))[i]? =
      some (joined (pre ++ [f]) i) := by
  have hpos : 0 < pre.length := by
    rw [List.length_pos_iff]
    rintro rfl
    simp at hlast
  rw [joined_append i hlast]
  by_cases heq : i + 1 = pre.length
  · have hi' : i = pre.length - 1 := by omega
    rw [if_pos heq, hi']
    exact List.getElem?_set_self (by rw [h.continues_length]; omega)
  · rw [if_neg heq, List.getElem?_set_ne (by omega)]
    exact h.continues_get i hi

/-- The total from a file that was seen before. -/
theorem runTotal_drop_append {i : ℕ} (hi : i < pre.length) :
    (Continued ((pre ++ [f]).drop i) →
      runTotal ((pre ++ [f]).drop i) = runTotal (pre.drop i) + f.data.length) ∧
    (¬ Continued ((pre ++ [f]).drop i) →
      runTotal ((pre ++ [f]).drop i) = runTotal (pre.drop i)) := by
  have hdrop : (pre ++ [f]).drop i = pre.drop i ++ [f] :=
    List.drop_append_of_le_length (Nat.le_of_lt hi)
  have hne : pre.drop i ≠ [] := by
    intro hnil
    have := List.drop_eq_nil_iff.mp hnil
    omega
  rw [hdrop]
  exact ⟨runTotal_append_of_continued, runTotal_append_of_not_continued hne⟩

/-- A file that continues the one before it. -/
theorem Marked.push_continued (h : Marked n pre continues sizes) (hlast : pre.getLast? = some p)
    (hn : pre.length < n) (hpf : p.continuedBy f = true) :
    Marked n (pre ++ [f]) (continues.set (pre.length - 1) true)
      (accumulate (continues.set (pre.length - 1) true) f.data.length pre.length
        (sizes.set pre.length f.data.length)) := by
  have hset : ∀ i < n, (continues.set (pre.length - 1) true)[i]? = some (joined (pre ++ [f]) i) := by
    intro i hi
    have := h.set_continues (f := f) hlast i hi
    rwa [hpf] at this
  refine ⟨by rw [List.length_set, h.continues_length], ?_, hset, ?_⟩
  · have hlength (i : ℕ) (sizes : List ℕ) :
        (accumulate (continues.set (pre.length - 1) true) f.data.length i sizes).length =
          sizes.length := by
      induction i generalizing sizes with
      | zero => rfl
      | succ i ih =>
        rw [accumulate]
        split
        · rw [ih, List.length_modify]
        · rfl
    rw [hlength, List.length_set, h.sizes_length]
  · intro i hi
    rw [List.length_append, List.length_singleton] at hi
    obtain ⟨hacc, hkeep⟩ := getElem?_accumulate (continues.set (pre.length - 1) true) f.data.length
      pre.length (sizes.set pre.length f.data.length) i
    rcases Nat.lt_or_eq_of_le (Nat.le_of_lt_succ hi) with hlt | rfl
    · obtain ⟨hyes, hno⟩ := runTotal_drop_append (f := f) hlt
      have hiff : Continued ((pre ++ [f]).drop i) ↔ ∀ m, i ≤ m → m < pre.length →
          (continues.set (pre.length - 1) true)[m]? = some true := by
        rw [continued_drop_iff]
        constructor
        · intro hall m him hm
          rw [hset m (by omega), hall m him (by simp; omega)]
        · intro hall m him hm
          rw [List.length_append, List.length_singleton] at hm
          have := hall m him (by omega)
          rw [hset m (by omega)] at this
          exact Option.some.inj this
      have hold : (sizes.set pre.length f.data.length)[i]? = some (runTotal (pre.drop i)) := by
        rw [List.getElem?_set_ne (by omega)]
        exact h.sizes_get i hlt
      by_cases hc : Continued ((pre ++ [f]).drop i)
      · rw [hacc ⟨hlt, hiff.mp hc⟩, hold, hyes hc]
        rfl
      · rw [hkeep fun ⟨_, hall⟩ => hc (hiff.mpr hall), hold, hno hc]
    · rw [hkeep (fun hlt => absurd hlt.1 (Nat.lt_irrefl _)),
        List.getElem?_set_self (by rw [h.sizes_length]; exact hn), List.drop_left]
      rfl

/-- A file that does not. -/
theorem Marked.push_other (h : Marked n pre continues sizes) (hlast : pre.getLast? = some p)
    (hn : pre.length < n) (hpf : p.continuedBy f = false) :
    Marked n (pre ++ [f]) (continues.set (pre.length - 1) false)
      (sizes.set pre.length f.data.length) := by
  refine ⟨by rw [List.length_set, h.continues_length], by rw [List.length_set, h.sizes_length], ?_, ?_⟩
  · intro i hi
    have := h.set_continues (f := f) hlast i hi
    rwa [hpf] at this
  · intro i hi
    rw [List.length_append, List.length_singleton] at hi
    rcases Nat.lt_or_eq_of_le (Nat.le_of_lt_succ hi) with hlt | rfl
    · have hpos : 0 < pre.length := by omega
      have hbreak : ¬ Continued ((pre ++ [f]).drop i) := by
        rw [continued_drop_iff]
        intro hall
        have := hall (pre.length - 1) (by omega) (by simp; omega)
        rw [joined_append _ hlast, if_pos (by omega), hpf] at this
        simp at this
      rw [(runTotal_drop_append (f := f) hlt).2 hbreak, List.getElem?_set_ne (by omega)]
      exact h.sizes_get i hlt
    · rw [List.getElem?_set_self (by rw [h.sizes_length]; exact hn), List.drop_left]
      rfl

end Step

/-! ## All files -/

/-- What is read from a header. -/
theorem contiguityFields_eq (f : DiskFile hdrSize) :
    contiguityFields hdrSize f = some (f.utcStart, f.obsOffset, f.data.length) := by
  unfold contiguityFields
  simp only [f.textOf_content f.short, f.utcStart_eq, f.obsOffset_eq, f.fileSize_eq, Option.getD_some]

/-- The comparison of the times is not disturbed by what `malloc` has left: all of them are as long as the
buffer allows from the first on, or all are shorter. -/
def PlainUtc (garbage : Text) (files : List (DiskFile hdrSize)) : Prop :=
  garbage = [] ∨ (∀ f ∈ files.head?, f.utcStart.length = 19) ∨ ∀ f ∈ files, f.utcStart.length < 19

/-- The loop over the files. -/
theorem checkFiles_marked {n : ℕ} {tail : Text} (rest : List (DiskFile hdrSize))
    (htail : tail = [] ∨ ∀ f ∈ rest, f.utcStart.length < 19)
    {pre : List (DiskFile hdrSize)} {p : DiskFile hdrSize} {continues : List Bool} {sizes : List ℕ}
    (h : Marked n pre continues sizes) (hlast : pre.getLast? = some p)
    (hn : pre.length + rest.length = n) :
    Marked n (pre ++ rest)
      (checkFiles hdrSize tail rest pre.length p.utcStart p.obsOffset p.data.length continues sizes).1
      (checkFiles hdrSize tail rest pre.length p.utcStart p.obsOffset p.data.length continues
        sizes).2 := by
  induction rest generalizing pre p continues sizes with
  | nil =>
    rw [List.append_nil]
    exact h
  | cons f rest ih =>
    rw [List.length_cons] at hn
    have hcopy : copyUtcStart f.utcStart tail = f.utcStart := by
      unfold copyUtcStart
      have := f.utcStart_length
      split
      case isTrue => rfl
      case isFalse hge =>
        rcases htail with rfl | hshort
        · rw [List.take_of_length_le this, List.append_nil]
        · exact absurd (hshort f List.mem_cons_self) hge
    have hlen : (pre ++ [f]).length = pre.length + 1 := by simp
    have hsplit : pre ++ f :: rest = (pre ++ [f]) ++ rest := by simp
    have hlast' : (pre ++ [f]).getLast? = some f := by simp
    have htail' : tail = [] ∨ ∀ g ∈ rest, g.utcStart.length < 19 :=
      htail.imp_right fun hs g hg => hs g (List.mem_cons_of_mem _ hg)
    rw [checkFiles, contiguityFields_eq, hsplit]
    simp only [hcopy]
    by_cases heq : p.utcStart = f.utcStart ∧ f.obsOffset = p.obsOffset + p.data.length
    · have hpf : p.continuedBy f = true := by simp [DiskFile.continuedBy, heq]
      have hm := ih htail' (h.push_continued hlast (by omega) hpf) hlast' (by rw [hlen]; omega)
      rw [hlen] at hm
      simp only [if_pos heq, List.set_set]
      exact hm
    · have hpf : p.continuedBy f = false := by simpa [DiskFile.continuedBy] using heq
      have hm := ih htail' (h.push_other hlast (by omega) hpf) hlast' (by rw [hlen]; omega)
      rw [hlen] at hm
      simp only [if_neg heq]
      exact hm

/-- **check_contiguity** marks all files. -/
theorem checkContiguity_marked {files : List (DiskFile hdrSize)} {garbage : Text} (hne : files ≠ [])
    (hsize : ∀ f ∈ files.head?, defaultHeaderSize ≤ hdrSize + f.data.length)
    (hutc : PlainUtc garbage files) :
    ∃ continues sizes, checkContiguity files garbage = some (continues, sizes) ∧
      Marked files.length files continues sizes := by
  obtain ⟨f, rest, rfl⟩ := List.exists_cons_of_ne_nil hne
  have hget : asciiHeaderGetSize f = some hdrSize := by
    rw [asciiHeaderGetSize, if_neg (by rw [f.length_content]; exact Nat.not_lt.mpr (hsize f rfl)),
      f.textOf_take_content, f.hdrSize_first]
  have htail : (if f.utcStart.length = 19 then [] else garbage) = [] ∨
      ∀ g ∈ rest, g.utcStart.length < 19 := by
    rcases hutc with rfl | hfirst | hall
    · exact .inl (by simp)
    · exact .inl (if_pos (hfirst f rfl))
    · exact .inr fun g hg => hall g (List.mem_cons_of_mem _ hg)
  have hstart : Marked (f :: rest).length [f] (List.replicate (f :: rest).length false)
      ((List.replicate (f :: rest).length 0).set 0 f.data.length) := by
    refine ⟨by simp, by simp, ?_, ?_⟩
    · intro i hi
      rw [List.getElem?_replicate_of_lt hi]
      cases i <;> rfl
    · intro i hi
      obtain rfl : i = 0 := by simpa using hi
      simp [runTotal]
  have hm := checkFiles_marked rest htail hstart rfl (by simp [Nat.add_comm])
  exact ⟨_, _, by rw [checkContiguity, hget]; simp only [contiguityFields_eq]; rfl, hm⟩

end Psrdada
