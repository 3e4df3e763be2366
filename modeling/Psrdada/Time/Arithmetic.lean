import Mathlib.Data.Int.Notation
import Mathlib.Data.Int.Basic

/-! # Arithmetic that records its steps

The integers of C are bounded and their division truncates.  A computation over them is done in ℤ, and
records each result and each operand of a division, so that it can be said afterwards that all of them
were in range. -/

namespace Psrdada

universe u v

/-- What a computation yields, and what it passed through. -/
structure Computation (α : Type u) where
  value : α
  /-- The results of all operations. -/
  results : List ℤ
  /-- The operands of all divisions. -/
  operands : List ℤ

namespace Computation

variable {α : Type u} {β : Type v}

/-- No operation. -/
protected def pure (a : α) : Computation α := ⟨a, [], []⟩

/-- One computation after another. -/
protected def bind (m : Computation α) (f : α → Computation β) : Computation β where
  value := (f m.value).value
  results := m.results ++ (f m.value).results
  operands := m.operands ++ (f m.value).operands

instance : Monad Computation where
  pure := Computation.pure
  bind := Computation.bind

/-- `x + y` -/
def add (x y : ℤ) : Computation ℤ := ⟨x + y, [x + y], []⟩

/-- `x - y` -/
def sub (x y : ℤ) : Computation ℤ := ⟨x - y, [x - y], []⟩

/-- `x * y` -/
def mul (x y : ℤ) : Computation ℤ := ⟨x * y, [x * y], []⟩

/-- `x / y` -/
def div (x y : ℤ) : Computation ℤ := ⟨x.tdiv y, [x.tdiv y], [x, y]⟩

/-- `x % y` -/
def mod (x y : ℤ) : Computation ℤ := ⟨x.tmod y, [x.tmod y], [x, y]⟩

/-- A computation goes well when all results are in range and no division has a negative operand. -/
structure Regular (lo hi : ℤ) (m : Computation α) : Prop where
  results : ∀ x ∈ m.results, lo ≤ x ∧ x ≤ hi
  operands : ∀ x ∈ m.operands, 0 ≤ x

/-- The computation goes well and yields `a`. -/
structure Yields (lo hi : ℤ) (m : Computation α) (a : α) : Prop extends Regular lo hi m where
  value : m.value = a

section

variable {lo hi : ℤ}

theorem Yields.pure (a : α) : Yields lo hi (pure a : Computation α) a where
  results := fun _ hx => absurd hx List.not_mem_nil
  operands := fun _ hx => absurd hx List.not_mem_nil
  value := rfl

/-- A sequence goes well when its parts do. -/
theorem Yields.bind {α β : Type u} {a : α} {b : β} {m : Computation α} {f : α → Computation β}
    (hm : Yields lo hi m a) (hf : Yields lo hi (f a) b) : Yields lo hi (m >>= f) b := by
  obtain ⟨⟨hr, ho⟩, rfl⟩ := hm
  obtain ⟨⟨hr', ho'⟩, rfl⟩ := hf
  exact ⟨⟨fun x hx => (List.mem_append.1 hx).elim (hr x) (hr' x),
    fun x hx => (List.mem_append.1 hx).elim (ho x) (ho' x)⟩, rfl⟩

variable {x y z : ℤ}

theorem yields_one {operands : List ℤ} (h : lo ≤ z ∧ z ≤ hi) (ho : ∀ x ∈ operands, 0 ≤ x) :
    Yields lo hi ⟨z, [z], operands⟩ z where
  results := fun _ hx => (List.mem_singleton.1 hx) ▸ h
  operands := ho
  value := rfl

theorem yields_add (hz : x + y = z) (h : lo ≤ z ∧ z ≤ hi) : Yields lo hi (add x y) z := by
  subst hz
  exact yields_one h fun _ hx => absurd hx List.not_mem_nil

theorem yields_sub (hz : x - y = z) (h : lo ≤ z ∧ z ≤ hi) : Yields lo hi (sub x y) z := by
  subst hz
  exact yields_one h fun _ hx => absurd hx List.not_mem_nil

theorem yields_mul (hz : x * y = z) (h : lo ≤ z ∧ z ≤ hi) : Yields lo hi (mul x y) z := by
  subst hz
  exact yields_one h fun _ hx => absurd hx List.not_mem_nil

/-- The division of numbers that are not negative is that of ℤ. -/
theorem yields_div (hx : 0 ≤ x) (hy : 0 ≤ y) (hz : x / y = z) (h : lo ≤ z ∧ z ≤ hi) :
    Yields lo hi (div x y) z := by
  subst hz
  rw [← Int.tdiv_eq_ediv_of_nonneg hx] at h ⊢
  exact yields_one h (List.forall_mem_cons.2 ⟨hx, List.forall_mem_singleton.2 hy⟩)

theorem yields_mod (hx : 0 ≤ x) (hy : 0 ≤ y) (hz : x % y = z) (h : lo ≤ z ∧ z ≤ hi) :
    Yields lo hi (mod x y) z := by
  subst hz
  rw [← Int.tmod_eq_emod_of_nonneg hx] at h ⊢
  exact yields_one h (List.forall_mem_cons.2 ⟨hx, List.forall_mem_singleton.2 hy⟩)

end

end Computation

end Psrdada
