import Mathlib.Data.Multiset.Bind
import Mathlib.Logic.Function.Basic
import Psrdada.Memory.Copy

/-! # Elements moved one by one

A loop that assigns elements of one block to elements of another is the list of its assignments.  When no
element is written twice, each ends up with what it was assigned; this also holds in place, when no
element is read after it has been overwritten.  A rearrangement is such a list that fills the block. -/

variable {α : Type*} {ι : Type*}

/-- One assignment `out[dst] = in[src]`. -/
structure Assign where
  dst : ℕ
  src : ℕ
  deriving DecidableEq, Repr

namespace Assign

/-! ## Assignments -/

/-- The assignments from one block to another. -/
def run (input : Memory α) (moves : List Assign) (output : Memory α) : Memory α :=
  moves.foldl (fun out m => Function.update out m.dst (input m.src)) output

/-- The assignments within one block. -/
def runInPlace (moves : List Assign) (mem : Memory α) : Memory α :=
  moves.foldl (fun mem m => Function.update mem m.dst (mem m.src)) mem

/-- No element is read after it has been overwritten. -/
def Fresh (moves : List Assign) : Prop := moves.Pairwise fun m m' => m.dst ≠ m'.src

/-- All elements that are read and written are in the block. -/
def Inside (size : ℕ) (moves : List Assign) : Prop := ∀ m ∈ moves, m.dst < size ∧ m.src < size

instance (moves : List Assign) : Decidable (Fresh moves) :=
  inferInstanceAs (Decidable (moves.Pairwise fun m m' => m.dst ≠ m'.src))

instance (size : ℕ) (moves : List Assign) : Decidable (Inside size moves) :=
  inferInstanceAs (Decidable (∀ m ∈ moves, m.dst < size ∧ m.src < size))

section

variable {input output mem : Memory α} {moves moves' : List Assign} {m : Assign} {i : ℕ}

@[simp] theorem run_cons : run input (m :: moves) output =
    run input moves (Function.update output m.dst (input m.src)) := rfl

@[simp] theorem runInPlace_cons : runInPlace (m :: moves) mem =
    runInPlace moves (Function.update mem m.dst (mem m.src)) := rfl

theorem run_append : run input (moves ++ moves') output = run input moves' (run input moves output) :=
  List.foldl_append

/-- Elements that are not written keep their value. -/
theorem run_of_not_mem (h : i ∉ moves.map dst) : run input moves output i = output i := by
  induction moves generalizing output with
  | nil => rfl
  | cons m moves ih =>
    rw [List.map_cons, List.mem_cons, not_or] at h
    rw [run_cons, ih h.2, Function.update_of_ne h.1]

/-- An element that is written once has what it was assigned. -/
theorem run_of_mem (hnodup : (moves.map dst).Nodup) (hm : m ∈ moves) :
    run input moves output m.dst = input m.src := by
  induction moves generalizing output with
  | nil => cases hm
  | cons m' moves ih =>
    rw [List.map_cons, List.nodup_cons] at hnodup
    rcases List.mem_cons.1 hm with rfl | hm
    · rw [run_cons, run_of_not_mem hnodup.1, Function.update_self]
    · exact ih hnodup.2 hm

/-- In place the values are those from before, when none is read after it has been overwritten. -/
theorem runInPlace_eq_run (h : Fresh moves) : runInPlace moves mem = run mem moves mem := by
  -- the elements that are still to be read have their values from before
  have key (out : Memory α) (hout : ∀ m ∈ moves, out m.src = mem m.src) :
      runInPlace moves out = run mem moves out := by
    induction moves generalizing out with
    | nil => rfl
    | cons m moves ih =>
      obtain ⟨hm, hfresh⟩ := List.pairwise_cons.1 h
      rw [runInPlace_cons, run_cons, hout m List.mem_cons_self]
      apply ih hfresh
      intro m' hm'
      rw [Function.update_of_ne (hm m' hm').symm]
      exact hout m' (List.mem_cons_of_mem _ hm')
  exact key mem fun _ _ => rfl

end

/-! ## Rearrangements -/

/-- **The assignments rearrange a block**: the element at each coordinate is moved once, from where `src`
has it to where `dst` has it, and so each of the `size` elements of either block is used once. -/
structure Rearranges (coords : List ι) (src dst : ι → ℕ) (size : ℕ) (moves : List Assign) : Prop where
  moves_perm : moves.Perm (coords.map fun x => ⟨dst x, src x⟩)
  src_perm : (coords.map src).Perm (List.range size)
  dst_perm : (coords.map dst).Perm (List.range size)

namespace Rearranges

variable {coords : List ι} {src dst : ι → ℕ} {size : ℕ} {moves : List Assign}

/-- Each element is written once. -/
theorem written_perm (h : Rearranges coords src dst size moves) :
    (moves.map Assign.dst).Perm (List.range size) := by
  have := h.moves_perm.map Assign.dst
  rw [List.map_map] at this
  exact this.trans h.dst_perm

/-- Each element is read once. -/
theorem read_perm (h : Rearranges coords src dst size moves) :
    (moves.map Assign.src).Perm (List.range size) := by
  have := h.moves_perm.map Assign.src
  rw [List.map_map] at this
  exact this.trans h.src_perm

/-- No access is outside of the blocks. -/
theorem inside (h : Rearranges coords src dst size moves) : Inside size moves := by
  intro m hm
  exact ⟨List.mem_range.1 (h.written_perm.mem_iff.1 (List.mem_map_of_mem hm)),
    List.mem_range.1 (h.read_perm.mem_iff.1 (List.mem_map_of_mem hm))⟩

/-- **The element at each coordinate is put where it belongs.** -/
theorem run_apply (h : Rearranges coords src dst size moves) (input output : Memory α) {x : ι}
    (hx : x ∈ coords) : run input moves output (dst x) = input (src x) := by
  have hm : (⟨dst x, src x⟩ : Assign) ∈ moves :=
    h.moves_perm.mem_iff.2 (List.mem_map.2 ⟨x, hx, rfl⟩)
  exact run_of_mem (h.written_perm.nodup_iff.2 List.nodup_range) hm

/-- Another order of the assignments is the same rearrangement. -/
theorem perm {moves' : List Assign} (h : Rearranges coords src dst size moves) (hp : moves'.Perm moves) :
    Rearranges coords src dst size moves' := ⟨hp.trans h.moves_perm, h.src_perm, h.dst_perm⟩

end Rearranges

/-! ## Loops over a grid -/

/-- The outer and the inner loop may be exchanged. -/
theorem flatMap_map_comm {β γ δ : Type*} (l : List β) (l' : List γ) (f : β → γ → δ) :
    (l.flatMap fun a => l'.map fun b => f a b).Perm (l'.flatMap fun b => l.map fun a => f a b) := by
  have h := Multiset.bind_map_comm (l : Multiset β) (l' : Multiset γ) (f := f)
  simpa only [Multiset.map_coe, Multiset.coe_bind, Multiset.coe_eq_coe] using h

/-- The numbers below `a * b`, row by row. -/
theorem range_mul (a b : ℕ) :
    ((List.range a).flatMap fun i => (List.range b).map fun j => i * b + j) = List.range (a * b) := by
  induction a with
  | zero => rw [Nat.zero_mul]; rfl
  | succ a ih =>
    rw [List.range_succ, List.flatMap_append, ih, List.flatMap_singleton, Nat.succ_mul, List.range_add]

/-- The numbers below `a * b`, column by column. -/
theorem range_mul_comm (a b : ℕ) :
    ((List.range b).flatMap fun j => (List.range a).map fun i => i * b + j).Perm (List.range (a * b)) := by
  rw [← range_mul]
  exact flatMap_map_comm _ _ fun j i => i * b + j

/-- The coordinates that two nested loops go through. -/
def grid (a b : ℕ) : List (ℕ × ℕ) := (List.range a).flatMap fun i => (List.range b).map fun j => (i, j)

theorem mem_grid {a b : ℕ} {x : ℕ × ℕ} : x ∈ grid a b ↔ x.1 < a ∧ x.2 < b := by
  obtain ⟨i, j⟩ := x
  simp only [grid, List.mem_flatMap, List.mem_map, List.mem_range, Prod.mk.injEq]
  constructor
  · rintro ⟨i', hi, j', hj, rfl, rfl⟩
    exact ⟨hi, hj⟩
  · rintro ⟨hi, hj⟩
    exact ⟨i, hi, j, hj, rfl, rfl⟩

theorem map_grid {β : Type*} (a b : ℕ) (f : ℕ × ℕ → β) :
    (grid a b).map f = (List.range a).flatMap fun i => (List.range b).map fun j => f (i, j) := by
  rw [grid, List.map_flatMap]
  simp only [List.map_map]
  rfl

theorem length_grid (a b : ℕ) : (grid a b).length = a * b := by
  rw [grid, List.length_flatMap]
  simp only [List.length_map, List.length_range, List.map_const', List.sum_replicate, Nat.nsmul_eq_mul]

/-- The coordinates row by row number the block. -/
theorem map_grid_rows (a b : ℕ) : ((grid a b).map fun x => x.1 * b + x.2) = List.range (a * b) := by
  rw [map_grid, range_mul]

/-- So do the coordinates column by column. -/
theorem map_grid_columns (a b : ℕ) :
    ((grid a b).map fun x => x.2 * a + x.1).Perm (List.range (a * b)) := by
  rw [map_grid, Nat.mul_comm, ← range_mul]
  exact flatMap_map_comm _ _ fun i j => j * a + i

/-- And so they do with the rows numbered from the last. -/
theorem map_grid_columns_reverse (a b : ℕ) :
    ((grid a b).map fun x => x.2 * a + (a - 1 - x.1)).Perm (List.range (a * b)) := by
  have hreverse : ((List.range a).map fun i => a - 1 - i).Perm (List.range a) := by
    have h := @List.reverse_range' 0 a
    rw [← List.range_eq_range', Nat.zero_add] at h
    rw [← h]
    exact List.reverse_perm _
  have hcolumns := map_grid_columns a b
  rw [map_grid] at hcolumns ⊢
  refine List.Perm.trans ?_ hcolumns
  have h := hreverse.flatMap_right fun k => (List.range b).map fun j => j * a + k
  rwa [List.flatMap_map] at h

/-- A loop over the rows whose indices are computed modulo `w` rearranges a block that `w` can count. -/
theorem rearranges_grid {a b w : ℕ} {dst : ℕ × ℕ → ℕ} (hdst : ((grid a b).map dst).Perm (List.range (a * b)))
    (hw : a * b ≤ w) :
    Rearranges (grid a b) (fun x => x.1 * b + x.2) dst (a * b)
      ((List.range a).flatMap fun i => (List.range b).map fun j => ⟨dst (i, j) % w, i * b + j⟩) where
  moves_perm := by
    refine List.Perm.of_eq ?_
    rw [← map_grid a b fun x => (⟨dst x % w, x.1 * b + x.2⟩ : Assign)]
    refine List.map_congr_left fun x hx => ?_
    have hlt : dst x < a * b := List.mem_range.1 (hdst.mem_iff.1 (List.mem_map_of_mem hx))
    rw [Nat.mod_eq_of_lt (Nat.lt_of_lt_of_le hlt hw)]
  src_perm := by rw [map_grid_rows]
  dst_perm := hdst

/-! ## Pointers that advance -/

/-- A loop of `n` passes that advances the pointer into the one block by `din` and that into the other by
`dout` after each. -/
def strides (body : ℕ → ℕ → List Assign) (din dout : ℕ) : ℕ → ℕ → ℕ → List Assign
  | 0, _, _ => []
  | n + 1, inp, out => body inp out ++ strides body din dout n (inp + din) (out + dout)

/-- Pass `i` finds the pointers advanced `i` times. -/
theorem strides_eq (body : ℕ → ℕ → List Assign) (din dout n inp out : ℕ) :
    strides body din dout n inp out =
      (List.range n).flatMap fun i => body (inp + i * din) (out + i * dout) := by
  induction n generalizing inp out with
  | zero => rfl
  | succ n ih =>
    rw [strides, ih, List.range_succ_eq_map, List.flatMap_cons, List.flatMap_map, Nat.zero_mul, Nat.zero_mul]
    congr 2
    funext i
    rw [Nat.succ_mul, Nat.succ_mul, Nat.add_comm (i * din), Nat.add_comm (i * dout), Nat.add_assoc,
      Nat.add_assoc]

/-! ## One block into several -/

/-- **The assignments distribute a block** over `n` blocks of `size` elements: the block `i` gets the
elements that `src i` gives, each where `dst` has it, and each element goes to one place. -/
structure Distributes (coords : List ι) (src : ℕ → ι → ℕ) (dst : ι → ℕ) (n size : ℕ)
    (moves : ℕ → List Assign) : Prop where
  moves_perm : ∀ i < n, (moves i).Perm (coords.map fun x => ⟨dst x, src i x⟩)
  dst_perm : (coords.map dst).Perm (List.range size)
  src_perm : ((List.range n).flatMap fun i => coords.map (src i)).Perm (List.range (n * size))

namespace Distributes

variable {coords : List ι} {src : ℕ → ι → ℕ} {dst : ι → ℕ} {n size : ℕ} {moves : ℕ → List Assign}

/-- Each element of a block is written once. -/
theorem written_perm (h : Distributes coords src dst n size moves) {i : ℕ} (hi : i < n) :
    ((moves i).map Assign.dst).Perm (List.range size) := by
  have := (h.moves_perm i hi).map Assign.dst
  rw [List.map_map] at this
  exact this.trans h.dst_perm

/-- **Each block gets its elements.** -/
theorem run_apply (h : Distributes coords src dst n size moves) (input output : Memory α) {i : ℕ} {x : ι}
    (hi : i < n) (hx : x ∈ coords) : run input (moves i) output (dst x) = input (src i x) := by
  have hm : (⟨dst x, src i x⟩ : Assign) ∈ moves i :=
    (h.moves_perm i hi).mem_iff.2 (List.mem_map.2 ⟨x, hx, rfl⟩)
  exact run_of_mem ((h.written_perm hi).nodup_iff.2 List.nodup_range) hm

/-- Each element of the one block is read once. -/
theorem read_perm (h : Distributes coords src dst n size moves) :
    ((List.range n).flatMap fun i => (moves i).map Assign.src).Perm (List.range (n * size)) := by
  refine (List.Perm.flatMap_left _ fun i hi => ?_).trans h.src_perm
  have := (h.moves_perm i (List.mem_range.1 hi)).map Assign.src
  rw [List.map_map] at this
  exact this

/-- No access is outside of the blocks. -/
theorem inside (h : Distributes coords src dst n size moves) {i : ℕ} (hi : i < n) :
    ∀ m ∈ moves i, m.dst < size ∧ m.src < n * size := by
  intro m hm
  refine ⟨List.mem_range.1 ((h.written_perm hi).mem_iff.1 (List.mem_map_of_mem hm)), ?_⟩
  have hmem : m.src ∈ (List.range n).flatMap fun i => (moves i).map Assign.src :=
    List.mem_flatMap.2 ⟨i, List.mem_range.2 hi, List.mem_map_of_mem hm⟩
  exact List.mem_range.1 (h.read_perm.mem_iff.1 hmem)

end Distributes

end Assign
