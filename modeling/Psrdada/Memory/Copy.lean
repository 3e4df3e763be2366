import Mathlib.Data.List.Basic
import Mathlib.Data.Nat.Notation

/-! # Copies into a memory

A memory as a function of the address, copies into it, and what a stretch of it holds after
one copy or after several. -/

variable {α : Type*}

/-- Contents by address. -/
abbrev Memory (α : Type*) := ℕ → α

namespace Memory

/-- `memcpy` of `data` to address `offset`. -/
def copy (mem : Memory α) (offset : ℕ) (data : List α) : Memory α := fun i =>
  if h : offset ≤ i ∧ i < offset + data.length then data[i - offset] else mem i

/-- The `length` values from address `offset` on. -/
def slice (mem : Memory α) (offset length : ℕ) : List α :=
  (List.range length).map fun i => mem (offset + i)

@[simp] theorem length_slice (mem : Memory α) (offset length : ℕ) :
    (mem.slice offset length).length = length := by
  simp [slice]

/-- A stretch in two parts. -/
theorem slice_add (mem : Memory α) (offset a b : ℕ) :
    mem.slice offset (a + b) = mem.slice offset a ++ mem.slice (offset + a) b := by
  simp only [slice, List.range_add, List.map_append, List.map_map, Nat.add_assoc]
  rfl

/-- Two stretches are equal when the memories agree there. -/
theorem slice_congr {mem mem' : Memory α} {offset length : ℕ}
    (h : ∀ i, offset ≤ i → i < offset + length → mem i = mem' i) :
    mem.slice offset length = mem'.slice offset length := by
  apply List.map_congr_left
  intro i hi
  rw [List.mem_range] at hi
  exact h (offset + i) (Nat.le_add_right _ _) (by omega)

theorem copy_of_outside (mem : Memory α) (offset : ℕ) (data : List α) {i : ℕ}
    (h : i < offset ∨ offset + data.length ≤ i) : mem.copy offset data i = mem i := by
  rw [copy, dif_neg (by omega)]

theorem copy_of_inside (mem : Memory α) (offset : ℕ) (data : List α) {i : ℕ}
    (h : i < data.length) : mem.copy offset data (offset + i) = data[i] := by
  have hin : offset ≤ offset + i ∧ offset + i < offset + data.length := by omega
  simp only [copy, dif_pos hin, Nat.add_sub_cancel_left]

/-- A copy of consecutive values. -/
theorem copy_map_range (mem : Memory α) (offset k : ℕ) (f : ℕ → α) (j : ℕ) :
    mem.copy offset ((List.range k).map f) j =
      if offset ≤ j ∧ j < offset + k then f (j - offset) else mem j := by
  have hlen : ((List.range k).map f).length = k := by rw [List.length_map, List.length_range]
  by_cases h : offset ≤ j ∧ j < offset + k
  · obtain ⟨t, rfl⟩ : ∃ t, j = offset + t := ⟨j - offset, by omega⟩
    rw [if_pos h, copy_of_inside mem offset _ (by omega), List.getElem_map, List.getElem_range,
      Nat.add_sub_cancel_left]
  · rw [if_neg h, copy_of_outside mem offset _ (by omega)]

/-- What was copied is there. -/
theorem slice_copy_self (mem : Memory α) (offset : ℕ) (data : List α) :
    (mem.copy offset data).slice offset data.length = data := by
  apply List.ext_getElem
  · exact length_slice _ _ _
  · intro i hi hi'
    rw [length_slice] at hi
    simp only [slice, List.getElem_map, List.getElem_range]
    exact copy_of_inside mem offset data hi

/-- A copy leaves the stretches outside of it alone. -/
theorem slice_copy_of_disjoint (mem : Memory α) {offset offset' length : ℕ} (data : List α)
    (h : offset' + length ≤ offset ∨ offset + data.length ≤ offset') :
    (mem.copy offset data).slice offset' length = mem.slice offset' length := by
  apply slice_congr
  intro i hge hlt
  exact copy_of_outside mem offset data (by omega)

/-! ## Several copies -/

/-- The copies of a list, one after the other. -/
def copies (mem : Memory α) (writes : List (ℕ × List α)) : Memory α :=
  writes.foldl (fun m w => m.copy w.1 w.2) mem

@[simp] theorem copies_nil (mem : Memory α) : mem.copies [] = mem := rfl

@[simp] theorem copies_cons (mem : Memory α) (w : ℕ × List α) (writes : List (ℕ × List α)) :
    mem.copies (w :: writes) = (mem.copy w.1 w.2).copies writes := rfl

/-- Stretches outside of every copy keep their contents. -/
theorem slice_copies_of_disjoint {writes : List (ℕ × List α)} {offset length : ℕ}
    (h : ∀ w ∈ writes, offset + length ≤ w.1 ∨ w.1 + w.2.length ≤ offset) (mem : Memory α) :
    (mem.copies writes).slice offset length = mem.slice offset length := by
  induction writes generalizing mem with
  | nil => rfl
  | cons w writes ih =>
    rw [copies_cons, ih (fun w' hw' => h w' (List.mem_cons_of_mem w hw'))]
    exact slice_copy_of_disjoint mem w.2 (h w List.mem_cons_self)

/-- The stretches of two copies have no address in common. -/
def Apart (w w' : ℕ × List α) : Prop := w.1 + w.2.length ≤ w'.1 ∨ w'.1 + w'.2.length ≤ w.1

/-- When no two copies overlap, what each of them wrote is there in the end. -/
theorem slice_copies_of_mem {writes : List (ℕ × List α)} (hapart : writes.Pairwise Apart)
    {w : ℕ × List α} (hw : w ∈ writes) (mem : Memory α) :
    (mem.copies writes).slice w.1 w.2.length = w.2 := by
  induction writes generalizing mem with
  | nil => cases hw
  | cons w' writes ih =>
    rw [List.pairwise_cons] at hapart
    rcases List.mem_cons.mp hw with rfl | hw
    · rw [copies_cons, slice_copies_of_disjoint hapart.1]
      exact slice_copy_self mem w.1 w.2
    · exact ih hapart.2 hw _

theorem Apart.symm {w w' : ℕ × List α} (h : Apart w w') : Apart w' w := Or.symm h

/-- What is in the memory after several copies was there before, or comes from one of them. -/
theorem copies_apply (mem : Memory α) (writes : List (ℕ × List α)) (i : ℕ) :
    mem.copies writes i = mem i ∨
      ∃ w ∈ writes, ∃ k, ∃ h : k < w.2.length, i = w.1 + k ∧ mem.copies writes i = w.2[k] := by
  induction writes generalizing mem with
  | nil => exact .inl rfl
  | cons w writes ih =>
    rw [copies_cons]
    obtain hbefore | ⟨w', hw', hcopied⟩ := ih (mem.copy w.1 w.2)
    · by_cases hin : w.1 ≤ i ∧ i < w.1 + w.2.length
      · obtain ⟨k, rfl⟩ := Nat.exists_eq_add_of_le hin.1
        have hk : k < w.2.length := by omega
        exact .inr ⟨w, List.mem_cons_self, k, hk, rfl, hbefore.trans (copy_of_inside mem w.1 w.2 hk)⟩
      · exact .inl (hbefore.trans (copy_of_outside mem w.1 w.2 (by omega)))
    · exact .inr ⟨w', List.mem_cons_of_mem _ hw', hcopied⟩

/-- When no two copies overlap, each address has what the copy over it wrote. -/
theorem copies_apply_of_mem {writes : List (ℕ × List α)} (hapart : writes.Pairwise Apart)
    {w : ℕ × List α} (hw : w ∈ writes) (mem : Memory α) {k : ℕ} (h : k < w.2.length) :
    mem.copies writes (w.1 + k) = w.2[k] := by
  have hslice := slice_copies_of_mem hapart hw mem
  have hlen : k < ((mem.copies writes).slice w.1 w.2.length).length := by
    rw [length_slice]
    exact h
  calc mem.copies writes (w.1 + k) = ((mem.copies writes).slice w.1 w.2.length)[k] := by
        simp only [slice, List.getElem_map, List.getElem_range]
    _ = w.2[k] := by simp only [hslice]

end Memory
