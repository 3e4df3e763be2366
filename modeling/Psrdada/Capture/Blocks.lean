import Psrdada.Capture.Datagram
import Mathlib.Data.List.Nodup

/-! # Blocks of numbered packets

Packets of one length have consecutive numbers, and the packet with number `k` belongs `k` lengths
into a stream. A block is a stretch of that stream, a count the number of packets that came for
one. -/

namespace Psrdada

variable {α : Type*} (number : α → ℕ) (content : α → List UInt8) (length : ℕ)

/-- What belongs at the place of number `k`: what the last packet with it brought, or zeros. -/
def due (k : ℕ) (ps : List α) : List UInt8 :=
  latest number content (List.replicate length 0) k ps

variable {number content length}

theorem due_concat_of_ne {k : ℕ} {p : α} (h : number p ≠ k) (ps : List α) :
    due number content length k (ps ++ [p]) = due number content length k ps := by
  rw [due, latest_concat, if_neg h]
  rfl

theorem due_of_none {k : ℕ} {ps : List α} (h : ∀ p ∈ ps, number p ≠ k) :
    due number content length k ps = List.replicate length 0 :=
  latest_of_none number content _ h

theorem due_of_mem {ps : List α} (h : ps.Pairwise fun p q => number p ≠ number q) {p : α}
    (hp : p ∈ ps) : due number content length (number p) ps = content p :=
  latest_of_mem number content _ h hp

theorem length_due (hcontent : ∀ p, (content p).length = length) (k : ℕ) (ps : List α) :
    (due number content length k ps).length = length := by
  induction ps using List.reverseRecOn with
  | nil => exact List.length_replicate
  | append_singleton ps p ih =>
    rw [due, latest_concat]
    by_cases h : number p = k
    · rw [if_pos h]
      exact hcontent p
    · rw [if_neg h]
      exact ih

/-! ## What a block holds -/

variable (number content length) in
/-- The buffer has at the place of every number from `first` on, for `n` numbers, what belongs
there. -/
def Holds (first n : ℕ) (buffer : Memory UInt8) (ps : List α) : Prop :=
  ∀ k, first ≤ k → k < first + n →
    buffer.slice ((k - first) * length) length = due number content length k ps

/-- A buffer of zeros, when nothing has come for its block. -/
theorem holds_of_blank {first n : ℕ} {buffer : Memory UInt8} {ps : List α}
    (hblank : ∀ i < n * length, buffer i = 0)
    (hnone : ∀ p ∈ ps, number p < first ∨ first + n ≤ number p) :
    Holds number content length first n buffer ps := by
  intro k hge hlt
  rw [due_of_none (fun p hp heq => by have := hnone p hp; omega)]
  have hroom : (k - first) * length + length ≤ n * length := by
    rw [← Nat.succ_mul]
    exact Nat.mul_le_mul_right _ (by omega)
  rw [List.eq_replicate_iff]
  refine ⟨Memory.length_slice _ _ _, ?_⟩
  intro b hb
  obtain ⟨i, hi, rfl⟩ := List.mem_map.mp hb
  rw [List.mem_range] at hi
  exact hblank _ (by omega)

/-- A packet of the block goes to its place and leaves the others alone. -/
theorem Holds.copy {first n : ℕ} {buffer : Memory UInt8} {ps : List α}
    (h : Holds number content length first n buffer ps) {p : α}
    (hlen : (content p).length = length) (hge : first ≤ number p) :
    Holds number content length first n
      (buffer.copy ((number p - first) * length) (content p)) (ps ++ [p]) := by
  intro k hk hlt
  by_cases heq : number p = k
  · subst heq
    rw [due, latest_concat, if_pos rfl]
    have hself := Memory.slice_copy_self buffer ((number p - first) * length) (content p)
    rwa [hlen] at hself
  · rw [due_concat_of_ne heq, Memory.slice_copy_of_disjoint]
    · exact h k hk hlt
    · rw [hlen, ← Nat.succ_mul, ← Nat.succ_mul]
      rcases Nat.lt_or_gt_of_ne heq with hcase | hcase
      · exact .inr (Nat.mul_le_mul_right _ (by omega))
      · exact .inl (Nat.mul_le_mul_right _ (by omega))

/-- A packet of another block changes nothing that belongs in this one. -/
theorem Holds.other {first n : ℕ} {buffer : Memory UInt8} {ps : List α}
    (h : Holds number content length first n buffer ps) {p : α}
    (hout : number p < first ∨ first + n ≤ number p) :
    Holds number content length first n buffer (ps ++ [p]) := by
  intro k hk hlt
  rw [due_concat_of_ne (by omega)]
  exact h k hk hlt

/-- The start of a block is what belongs at its first places. -/
theorem Holds.slice {first n : ℕ} {buffer : Memory UInt8} {ps : List α}
    (h : Holds number content length first n buffer ps) {m : ℕ} (hm : m ≤ n) :
    buffer.slice 0 (m * length) =
      (List.range m).flatMap fun i => due number content length (first + i) ps := by
  induction m with
  | zero => simp [Memory.slice]
  | succ m ih =>
    have hlast := h (first + m) (Nat.le_add_right _ _) (by omega)
    rw [Nat.add_sub_cancel_left] at hlast
    rw [Nat.succ_mul, Memory.slice_add, ih (by omega), Nat.zero_add, hlast, List.range_succ,
      List.flatMap_append, List.flatMap_singleton]

/-! ## The stream of the blocks -/

variable (number content length) in
/-- The first `n` places of the stream. -/
def dueStream (n : ℕ) (ps : List α) : List UInt8 :=
  (List.range n).flatMap fun k => due number content length k ps

theorem dueStream_concat {n : ℕ} {p : α} (h : n ≤ number p) (ps : List α) :
    dueStream number content length n (ps ++ [p]) = dueStream number content length n ps := by
  apply List.flatMap_congr
  intro k hk
  rw [List.mem_range] at hk
  exact due_concat_of_ne (by omega) ps

/-- The stream goes on with the start of the next block. -/
theorem Holds.dueStream_add {first n : ℕ} {buffer : Memory UInt8} {ps : List α}
    (h : Holds number content length first n buffer ps) {m : ℕ} (hm : m ≤ n) :
    dueStream number content length (first + m) ps =
      dueStream number content length first ps ++ buffer.slice 0 (m * length) := by
  rw [h.slice hm, dueStream, List.range_add, List.flatMap_append, List.flatMap_map]
  rfl

theorem length_dueStream (hcontent : ∀ p, (content p).length = length) (n : ℕ) (ps : List α) :
    (dueStream number content length n ps).length = n * length := by
  induction n with
  | zero => simp [dueStream]
  | succ n ih =>
    rw [dueStream, List.range_succ, List.flatMap_append, List.flatMap_singleton,
      List.length_append, length_due hcontent, ← dueStream, ih, Nat.succ_mul]

/-- Place `k` of the stream. -/
theorem place_dueStream (hcontent : ∀ p, (content p).length = length) {k n : ℕ} (h : k < n)
    (ps : List α) :
    ((dueStream number content length n ps).drop (k * length)).take length =
      due number content length k ps := by
  induction n with
  | zero => omega
  | succ n ih =>
    have hlen : (dueStream number content length n ps).length = n * length :=
      length_dueStream hcontent n ps
    have hsplit : dueStream number content length (n + 1) ps =
        dueStream number content length n ps ++ due number content length n ps := by
      rw [dueStream, List.range_succ, List.flatMap_append, List.flatMap_singleton, ← dueStream]
    rw [hsplit]
    rcases Nat.lt_succ_iff_lt_or_eq.mp h with hlt | rfl
    · have hroom : k * length + length ≤ n * length := by
        rw [← Nat.succ_mul]
        exact Nat.mul_le_mul_right _ hlt
      rw [List.drop_append_of_le_length (by omega),
        List.take_append_of_le_length (by rw [List.length_drop]; omega)]
      exact ih hlt
    · rw [← hlen, List.drop_left]
      exact List.take_of_length_le (length_due hcontent k ps).le

/-! ## Counting -/

variable (number) in
/-- How many packets have a number from `lo` to below `hi`. -/
def countIn (lo hi : ℕ) (ps : List α) : ℕ := ps.countP fun p => lo ≤ number p ∧ number p < hi

theorem countIn_concat (lo hi : ℕ) (ps : List α) (p : α) :
    countIn number lo hi (ps ++ [p]) =
      countIn number lo hi ps + if lo ≤ number p ∧ number p < hi then 1 else 0 := by
  rw [countIn, List.countP_append, List.countP_singleton]
  simp only [decide_eq_true_eq, countIn]

theorem countIn_add {lo mid hi : ℕ} (hlo : lo ≤ mid) (hhi : mid ≤ hi) (ps : List α) :
    countIn number lo mid ps + countIn number mid hi ps = countIn number lo hi ps := by
  induction ps using List.reverseRecOn with
  | nil => rfl
  | append_singleton ps p ih =>
    rw [countIn_concat, countIn_concat, countIn_concat, ← ih]
    rcases Nat.lt_or_ge (number p) mid with h | h
    · simp only [show ¬ mid ≤ number p by omega, h, show number p < hi by omega, and_true, if_false]
      omega
    · simp only [h, show ¬ number p < mid by omega, show lo ≤ number p by omega, and_false, true_and,
        if_false]
      omega

theorem countIn_eq_zero {lo hi : ℕ} {ps : List α} (h : ∀ p ∈ ps, number p < lo ∨ hi ≤ number p) :
    countIn number lo hi ps = 0 := by
  apply List.countP_eq_zero.mpr
  intro p hp
  have := h p hp
  simp only [decide_eq_true_eq, not_and, Nat.not_lt]
  omega

/-- Distinct numbers are no more than there is room for. -/
theorem countIn_le {lo hi : ℕ} {ps : List α} (h : ps.Pairwise fun p q => number p ≠ number q) :
    countIn number lo hi ps ≤ hi - lo := by
  have hnodup : ((ps.filter fun p => lo ≤ number p ∧ number p < hi).map number).Nodup :=
    List.pairwise_map.mpr (h.filter _)
  have hsub : (ps.filter fun p => lo ≤ number p ∧ number p < hi).map number ⊆
      List.range' lo (hi - lo) := by
    intro k hk
    obtain ⟨p, hp, rfl⟩ := List.mem_map.mp hk
    have hrange := of_decide_eq_true (List.mem_filter.mp hp).2
    rw [List.mem_range'_1]
    omega
  have hle := (hnodup.subperm hsub).length_le
  rwa [List.length_map, List.length_range', ← List.countP_eq_length_filter] at hle

end Psrdada
