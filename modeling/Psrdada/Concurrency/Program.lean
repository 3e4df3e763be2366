import Mathlib.Logic.Function.Basic

/-! # Programs over atomic operations

A sequential program is a tree of *atomic operations* on a memory it shares with other programs:
`Program.call o k` performs `o` and continues with the answer, `Program.loop` repeats a body for as
long as the body asks for it.  Nothing is said here about what an operation does; a machine
(`Concurrency.System`) supplies that, and between any two operations it may run another program.

Private data of a process is threaded by `Routine`, the state monad over `Program`: reading or
changing it is not an operation and cannot be observed by anyone else. -/

namespace Concurrency

/-- An interface: the atomic operations and the type of answer each of them gives. -/
structure Signature where
  /-- The operations. -/
  Op : Type
  /-- The answer of an operation. -/
  Res : Op → Type

/-- Programs that perform operations of `S` and return a value. -/
inductive Program (S : Signature) : Type → Type 1
  /-- Stop with a value. -/
  | ret {α : Type} (a : α) : Program S α
  /-- Perform one atomic operation, then continue with its answer. -/
  | call {α : Type} (o : S.Op) (k : S.Res o → Program S α) : Program S α
  /-- Run `body` from `t`, again from each `Sum.inl` it returns, and continue at the first
  `Sum.inr`. -/
  | loop {α β τ : Type} (body : τ → Program S (τ ⊕ β)) (t : τ) (k : β → Program S α) : Program S α

namespace Program

variable {S : Signature} {α β γ τ : Type}

/-- Sequential composition. -/
def bind {α β : Type} : Program S α → (α → Program S β) → Program S β
  | ret a, f => f a
  | call o k, f => call o fun r => (k r).bind f
  | loop body t k, f => loop body t fun b => (k b).bind f

instance : Monad (Program S) where
  pure := ret
  bind := bind

/-- A single operation as a program. -/
def perform (o : S.Op) : Program S (S.Res o) := call o ret

@[simp] theorem pure_eq (a : α) : (pure a : Program S α) = ret a := rfl

@[simp] theorem ret_bind (a : α) (f : α → Program S β) : ret a >>= f = f a := rfl

@[simp] theorem call_bind (o : S.Op) (k : S.Res o → Program S α) (f : α → Program S β) :
    call o k >>= f = call o fun r => k r >>= f := rfl

@[simp] theorem loop_bind (body : τ → Program S (τ ⊕ γ)) (t : τ) (k : γ → Program S α)
    (f : α → Program S β) : loop body t k >>= f = loop body t fun b => k b >>= f := rfl

/-- One round of a loop: the body, then either another round or the continuation. -/
def unroll (body : τ → Program S (τ ⊕ β)) (t : τ) (k : β → Program S α) : Program S α :=
  body t >>= Sum.elim (fun t' => loop body t' k) k

end Program

/-- A routine of a process with private data `τ`. -/
abbrev Routine (S : Signature) (τ α : Type) := StateT τ (Program S) α

namespace Routine

variable {S : Signature} {τ υ α β γ : Type}

/-- A single operation as a routine. -/
def perform (o : S.Op) : Routine S τ (S.Res o) := fun t => .call o fun r => .ret (r, t)

/-- Repeat `body` from `b` until it returns a `Sum.inr`. -/
def iterate (body : β → Routine S τ (β ⊕ γ)) (b : β) : Routine S τ γ := fun t =>
  .loop (fun bt : β × τ => do
    let (r, t') ← body bt.1 bt.2
    pure (r.elim (fun b' => .inl (b', t')) fun c => .inr (c, t'))) (b, t) .ret

/-- `body 0`, `body 1`, …, `body (n - 1)`, in this order. -/
def countUp (body : Nat → Routine S τ Unit) : Nat → Routine S τ Unit
  | 0 => pure ()
  | n + 1 => do
    countUp body n
    body n

/-- Run a routine on one part of the private data. -/
def focus (get : υ → τ) (put : τ → υ → υ) (m : Routine S τ α) : Routine S υ α := fun u => do
  let (a, t) ← m (get u)
  pure (a, put t u)

/-- The program of a process that runs a routine from its private data `t`. -/
def start (m : Routine S τ Unit) (t : τ) : Program S Unit := do
  let _ ← m.run t
  pure ()

end Routine

end Concurrency
