import Mathlib.Data.List.Induction
import Mathlib.Data.Nat.Notation

/-! # Blocks of slots

A block of memory as an array of slots, each of which may not have been written yet.  A load from a slot
that is not there or not written, and a store to one that is not there, have no result.  The two loops by
which an array makes room for an element and closes the gap of one are given with what they leave. -/

namespace Slots

variable {α : Type*}

/-- `block[i]` -/
def load (block : List (Option α)) (i : ℕ) : Option α := block[i]?.join

/-- `block[i] = a` -/
def store (block : List (Option α)) (i : ℕ) (a : α) : Option (List (Option α)) :=
  if i < block.length then some (block.set i (some a)) else none

/-- `realloc (block, n)`: the slots that there were are kept and the new ones are not written. -/
def realloc (block : List (Option α)) (n : ℕ) : List (Option α) :=
  block.take n ++ List.replicate (n - block.length) none

/-- `for (val = n; val > pos; val--) block[val] = block[val-1]` -/
def shiftUp (pos : ℕ) : ℕ → List (Option α) → Option (List (Option α))
  | 0, block => some block
  | val + 1, block =>
    if pos < val + 1 then
      (load block val).bind fun a => (store block (val + 1) a).bind (shiftUp pos val)
    else some block

/-- `for (val = pos; val < n; val++) block[val] = block[val+1]`, with the number of turns left. -/
def shiftDown : ℕ → ℕ → List (Option α) → Option (List (Option α))
  | 0, _, block => some block
  | turns + 1, val, block =>
    (load block (val + 1)).bind fun a => (store block val a).bind (shiftDown turns (val + 1))

/-! ## One slot -/

/-- The slot behind `p` is loaded. -/
theorem load_middle (p : List (Option α)) (a : α) (s : List (Option α)) {i : ℕ} (hi : i = p.length) :
    load (p ++ some a :: s) i = some a := by
  subst hi
  simp [load]

/-- The slot behind `p` is stored to. -/
theorem store_middle (p : List (Option α)) (x : Option α) (a : α) (s : List (Option α)) {i : ℕ}
    (hi : i = p.length) : store (p ++ x :: s) i a = some (p ++ some a :: s) := by
  subst hi
  simp [store]

/-- Every slot of an array of written ones holds its element. -/
theorem load_map_some (l : List α) (i : ℕ) : load (l.map some) i = l[i]? := by
  rw [load, List.getElem?_map]
  cases l[i]? <;> rfl

/-- A block that grows by one slot keeps its elements. -/
theorem realloc_succ (l : List α) : realloc (l.map some) (l.length + 1) = l.map some ++ [none] := by
  simp [realloc, List.take_of_length_le]

/-- A block of which more is in use than it holds elements keeps them, with one slot behind. -/
theorem realloc_map_some_append (l : List α) (t : List (Option α)) :
    ∃ y, realloc (l.map some ++ t) (l.length + 1) = l.map some ++ [y] := by
  cases t with
  | nil => exact ⟨none, by rw [List.append_nil, realloc_succ]⟩
  | cons x t => exact ⟨x, by simp [realloc, List.take_append, List.take_of_length_le]⟩

/-- A block of which all but the last slot are kept. -/
theorem realloc_append (l : List α) (x : Option α) :
    realloc (l.map some ++ [x]) l.length = l.map some := by
  simp [realloc]

/-! ## The loops -/

/-- Elements behind a position move up by one slot: the one at the position can be written anew. -/
theorem shiftUp_map_some {pos : ℕ} (l : List α) :
    ∀ (x : Option α) (t : List (Option α)), pos ≤ l.length →
      ∃ y, shiftUp pos l.length (l.map some ++ x :: t) =
        some ((l.take pos).map some ++ y :: ((l.drop pos).map some ++ t)) := by
  -- the loop goes down from the end of the array, and so does the induction
  induction l using List.reverseRecOn with
  | nil =>
    intro x t _
    exact ⟨x, by simp [shiftUp]⟩
  | append_singleton l b ih =>
    intro x t hpos
    rw [List.length_append, List.length_singleton] at hpos ⊢
    rcases Nat.lt_or_ge pos (l.length + 1) with h | h
    · obtain ⟨y, hy⟩ := ih (some b) (some b :: t) (by omega)
      have hload : load ((l ++ [b]).map some ++ x :: t) l.length = some b := by
        rw [List.map_append, List.append_assoc]
        exact load_middle _ b _ (by rw [List.length_map])
      have hstore : store ((l ++ [b]).map some ++ x :: t) (l.length + 1) b =
          some (l.map some ++ some b :: some b :: t) := by
        rw [store_middle _ x b t (by simp)]
        simp
      refine ⟨y, ?_⟩
      rw [shiftUp, if_pos h, hload, Option.bind_some, hstore, Option.bind_some, hy,
        List.take_append_of_le_length (by omega), List.drop_append_of_le_length (by omega)]
      simp
    · obtain rfl : pos = l.length + 1 := by omega
      refine ⟨x, ?_⟩
      rw [shiftUp, if_neg (by omega)]
      simp [List.take_of_length_le, List.drop_of_length_le]

/-- Elements behind a slot move down by one: the last slot is of no more use. -/
theorem shiftDown_map_some_append (s : List α) :
    ∀ (p : List α) (x : Option α) (t : List (Option α)), ∃ y,
      shiftDown s.length p.length (p.map some ++ x :: (s.map some ++ t)) =
        some ((p ++ s).map some ++ y :: t) := by
  induction s with
  | nil =>
    intro p x t
    exact ⟨x, by simp [shiftDown]⟩
  | cons b s ih =>
    intro p x t
    obtain ⟨y, hy⟩ := ih (p ++ [b]) (some b) t
    have hload : load (p.map some ++ x :: ((b :: s).map some ++ t)) (p.length + 1) = some b := by
      have := load_middle (p.map some ++ [x]) b (s.map some ++ t) (i := p.length + 1) (by simp)
      simpa using this
    have hstore : store (p.map some ++ x :: ((b :: s).map some ++ t)) p.length b =
        some ((p ++ [b]).map some ++ some b :: (s.map some ++ t)) := by
      rw [store_middle _ x b _ (by simp)]
      simp
    refine ⟨y, ?_⟩
    rw [List.length_append, List.length_singleton] at hy
    rw [List.length_cons, shiftDown, hload, Option.bind_some, hstore, Option.bind_some, hy]
    simp

/-- The same in a block that ends with the elements. -/
theorem shiftDown_map_some (s p : List α) (x : Option α) :
    ∃ y, shiftDown s.length p.length (p.map some ++ x :: s.map some) =
      some ((p ++ s).map some ++ [y]) := by
  simpa using shiftDown_map_some_append s p x []

/-! ## Positions of a list -/

/-- Inserting behind a first part. -/
theorem insertIdx_take_drop (l : List α) (a : α) {pos : ℕ} (h : pos ≤ l.length) :
    l.insertIdx pos a = l.take pos ++ a :: l.drop pos := by
  induction l generalizing pos with
  | nil =>
    obtain rfl : pos = 0 := by simpa using h
    simp
  | cons b l ih =>
    cases pos with
    | zero => simp
    | succ pos => simp [ih (by simpa using h)]

end Slots
