import Psrdada.Bits.Packing
import Psrdada.Memory.Copy

/-! # Datagrams -/

namespace Psrdada

open Bits

/-- Arithmetic on `uint64_t`. -/
def u64 (n : ℕ) : ℕ := n % 2 ^ 64

theorem u64_of_lt {n : ℕ} (h : n < 2 ^ 64) : u64 n = n := Nat.mod_eq_of_lt h

/-- A datagram as `recvfrom` leaves it in the socket buffer. -/
abbrev Datagram := List UInt8

/-- The eight bytes of the socket buffer before `stop`, the last of them least significant. -/
def decodeWord (buf : Datagram) (stop : ℕ) : ℕ :=
  (ofBytes 64 (fun i => (buf.getD (stop - i - 1) 0).toBitVec) 8).toNat

/-! ## The last of several with one number -/

section Latest

variable {α β : Type*} (number : α → ℕ) (content : α → β) (blank : β)

/-- What the last packet with number `k` brought, or `blank` when none has come. -/
def latest (k : ℕ) (ps : List α) : β :=
  ps.foldl (fun b p => if number p = k then content p else b) blank

theorem latest_concat (k : ℕ) (ps : List α) (p : α) :
    latest number content blank k (ps ++ [p]) =
      if number p = k then content p else latest number content blank k ps := by
  rw [latest, List.foldl_append]
  rfl

theorem latest_of_none {k : ℕ} {ps : List α} (h : ∀ p ∈ ps, number p ≠ k) :
    latest number content blank k ps = blank := by
  induction ps with
  | nil => rfl
  | cons p ps ih =>
    have hrest := ih (fun q hq => h q (List.mem_cons_of_mem p hq))
    simp only [latest, List.foldl_cons, if_neg (h p List.mem_cons_self)]
    exact hrest

/-- When each number comes once, every packet is the last of its number. -/
theorem latest_of_mem {ps : List α} (h : ps.Pairwise fun p q => number p ≠ number q) {p : α}
    (hp : p ∈ ps) : latest number content blank (number p) ps = content p := by
  induction ps using List.reverseRecOn with
  | nil => cases hp
  | append_singleton ps q ih =>
    rw [List.pairwise_append] at h
    rw [latest_concat]
    rcases List.mem_append.mp hp with hp | hp
    · have hne := h.2.2 p hp q (List.mem_singleton_self q)
      rw [if_neg (fun heq => hne heq.symm)]
      exact ih h.1 hp
    · rw [List.mem_singleton.mp hp, if_pos rfl]

end Latest

end Psrdada
