import Mathlib.Algebra.Ring.Nat
import Mathlib.Data.List.Nodup
import Mathlib.Data.List.Range
import Mathlib.Data.List.Perm.Subperm
import Psrdada.Memory.Slots

/-! # The order in which `ipcbuf_lock_read` tries the slots of the readers

Before it looks for a free slot, `ipcbuf_lock_read` writes the indices of the readers into an array, by
the numbers of the sub-blocks that they read next: for every place of the array it goes over all readers
for the least number, and over the places before for the indices that are used.  The places that have not
been written hold nothing, so that an index that no reader had set would be noticed. -/

namespace ReaderSlots

/-! ## The selection -/

/-- The two arrays of the selection. -/
structure Arrays where
  /-- `xfers_val` -/
  xfersVal : List (Option ℕ)
  /-- `xfers_pos` -/
  xfersPos : List (Option ℕ)
  deriving DecidableEq, Repr

/-- `UINT64_MAX` -/
def uint64Max : ℕ := 2 ^ 64 - 1

/-- The arrays as they are declared, with room for `size` readers. -/
def declared (size : ℕ) : Arrays where
  xfersVal := List.replicate size none
  xfersPos := List.replicate size none

/-- `used`, after the loop over the first `k` places. -/
def used (xfersPos : List (Option ℕ)) (iread : ℕ) : ℕ → Option Bool
  | 0 => some false
  | ipos2 + 1 =>
    (used xfersPos iread ipos2).bind fun u =>
      (Slots.load xfersPos ipos2).map fun p => if p = iread then true else u

/-- One reader in the loop for a place. -/
def consider (rBufs : ℕ → ℕ) (ipos iread : ℕ) (a : Arrays) : Option Arrays :=
  (Slots.load a.xfersVal ipos).bind fun val =>
    if rBufs iread < val then
      (used a.xfersPos iread ipos).bind fun u =>
        if u then some a
        else
          (Slots.store a.xfersVal ipos (rBufs iread)).bind fun xfersVal =>
            (Slots.store a.xfersPos ipos iread).map fun xfersPos => ⟨xfersVal, xfersPos⟩
    else some a

/-- The loop for a place, after the first `k` readers. -/
def fill (rBufs : ℕ → ℕ) (ipos : ℕ) : ℕ → Arrays → Option Arrays
  | 0, a => some a
  | iread + 1, a => (fill rBufs ipos iread a).bind (consider rBufs ipos iread)

/-- The selection for `n` readers, after the first `k` places. -/
def select (rBufs : ℕ → ℕ) (n size : ℕ) : ℕ → Option Arrays
  | 0 => some (declared size)
  | ipos + 1 =>
    (select rBufs n size ipos).bind fun a =>
      (Slots.store a.xfersVal ipos uint64Max).bind fun xfersVal =>
        fill rBufs ipos n { a with xfersVal }

/-! ## The scan -/

/-- What the attempt to decrement `READER_CONN` of a slot comes to. -/
inductive Attempt
  | decremented
  /-- `EAGAIN` -/
  | again
  | error
  deriving DecidableEq, Repr

/-- The loop over the places from `place` on: the slot that is assigned, some of none for a return of -1.
It has no result where a place has not been written. -/
def scan (xfersPos : List (Option ℕ)) (attempt : ℕ → Attempt) : ℕ → ℕ → Option (Option ℕ)
  | 0, _ => some none
  | turns + 1, place =>
    (Slots.load xfersPos place).bind fun oldest =>
      match attempt oldest with
      | .decremented => some (some oldest)
      | .again => scan xfersPos attempt turns (place + 1)
      | .error => some none

/-! ## The order -/

/-- A reader is before another in the order: it reads an earlier sub-block, or the same and has the lower
index. -/
def Before (rBufs : ℕ → ℕ) (i j : ℕ) : Prop := rBufs i < rBufs j ∨ rBufs i = rBufs j ∧ i < j

theorem before_of_le_of_ne {rBufs : ℕ → ℕ} {i j : ℕ}
    (hle : rBufs i < rBufs j ∨ rBufs i = rBufs j ∧ i ≤ j) (hne : i ≠ j) : Before rBufs i j := by
  rcases hle with hlt | ⟨heq, hle⟩
  · exact .inl hlt
  · exact .inr ⟨heq, Nat.lt_of_le_of_ne hle hne⟩

/-- The first places of the order: distinct readers, each before the next, and none of the others before
one of them. -/
structure Leads (rBufs : ℕ → ℕ) (n : ℕ) (order : List ℕ) : Prop where
  lt : ∀ i ∈ order, i < n
  pairwise : order.Pairwise (Before rBufs)
  rest : ∀ i ∈ order, ∀ j < n, j ∉ order → Before rBufs i j

theorem Leads.nodup {rBufs : ℕ → ℕ} {n : ℕ} {order : List ℕ} (h : Leads rBufs n order) :
    order.Nodup :=
  h.pairwise.imp fun {i j} hb hij => by
    rcases hb with hlt | ⟨-, hlt⟩
    · exact absurd (hij ▸ hlt) (lt_irrefl _)
    · exact absurd (hij ▸ hlt) (lt_irrefl _)

/-- With fewer places than readers, a reader is left. -/
theorem exists_lt_not_mem {n : ℕ} {order : List ℕ} (hlength : order.length < n) :
    ∃ j < n, j ∉ order := by
  by_contra hall
  have hsub : List.range n ⊆ order := fun j hj => by
    by_contra hmem
    exact hall ⟨j, List.mem_range.mp hj, hmem⟩
  have := (List.nodup_range.subperm hsub).length_le
  rw [List.length_range] at this
  omega

/-- As many places as readers are all of them. -/
theorem Leads.perm {rBufs : ℕ → ℕ} {n : ℕ} {order : List ℕ} (h : Leads rBufs n order)
    (hlength : order.length = n) : order.Perm (List.range n) := by
  have hsub : order ⊆ List.range n := fun i hi => List.mem_range.mpr (h.lt i hi)
  exact (h.nodup.subperm hsub).perm_of_length_le (by simp [hlength])

/-! ## One place -/

/-- The reader that the loop for a place has found among the first `m`, if there is one that is not in
the order. -/
structure Found (rBufs : ℕ → ℕ) (order : List ℕ) (m : ℕ) (best : Option ℕ) : Prop where
  mem : ∀ b ∈ best, b < m ∧ b ∉ order
  none_left : best = none → ∀ j < m, j ∈ order
  least : ∀ b ∈ best, ∀ j < m, j ∉ order → rBufs b < rBufs j ∨ rBufs b = rBufs j ∧ b ≤ j

/-- The arrays when the places before are the order and the loop has found a reader. -/
def arrays (rBufs : ℕ → ℕ) (order : List ℕ) (vals : List (Option ℕ)) (best : Option ℕ) (size : ℕ) :
    Arrays where
  xfersVal := vals ++ some (best.elim uint64Max rBufs) :: List.replicate (size - order.length - 1) none
  xfersPos := order.map some ++ best :: List.replicate (size - order.length - 1) none

/-- The places before say which readers are used. -/
theorem used_eq (order : List ℕ) (t : List (Option ℕ)) (iread : ℕ) :
    ∀ k ≤ order.length, used (order.map some ++ t) iread k = some (decide (iread ∈ order.take k)) := by
  intro k
  induction k with
  | zero => intro _; simp [used]
  | succ k ih =>
    intro hk
    have hlt : k < order.length := hk
    have hload : Slots.load (order.map some ++ t) k = some order[k] := by
      rw [Slots.load, List.getElem?_append_left (by simpa using hlt), List.getElem?_map,
        List.getElem?_eq_getElem hlt]
      rfl
    rw [used, ih (by omega), Option.bind_some, hload, Option.map_some,
      List.take_succ_eq_append_getElem hlt]
    simp only [List.mem_append, List.mem_singleton, Option.some.injEq]
    by_cases hi : order[k] = iread
    · simp [hi]
    · have hi' : iread ≠ order[k] := fun he => hi he.symm
      simp only [hi, hi', if_false, or_false]

/-- One reader more is looked at. -/
theorem consider_found {rBufs : ℕ → ℕ} {order : List ℕ} {vals : List (Option ℕ)} (size : ℕ) {m : ℕ}
    {best : Option ℕ} (hvals : vals.length = order.length) (h : Found rBufs order m best)
    (hmax : rBufs m < uint64Max) :
    ∃ best', consider rBufs order.length m (arrays rBufs order vals best size) =
        some (arrays rBufs order vals best' size) ∧ Found rBufs order (m + 1) best' := by
  have hload : Slots.load (arrays rBufs order vals best size).xfersVal order.length =
      some (best.elim uint64Max rBufs) := Slots.load_middle _ _ _ hvals.symm
  have hused : used (arrays rBufs order vals best size).xfersPos m order.length =
      some (decide (m ∈ order)) := by
    have := used_eq order (best :: List.replicate (size - order.length - 1) none) m order.length le_rfl
    rwa [List.take_length] at this
  rw [consider, hload, Option.bind_some]
  by_cases hlt : rBufs m < best.elim uint64Max rBufs
  · rw [if_pos hlt, hused, Option.bind_some]
    by_cases hmem : m ∈ order
    · -- the reader has its place already
      refine ⟨best, by simp [hmem], ⟨fun b hb => ?_, fun hb j hj => ?_, fun b hb j hj hjo => ?_⟩⟩
      · exact ⟨by have := (h.mem b hb).1; omega, (h.mem b hb).2⟩
      · rcases Nat.lt_succ_iff_lt_or_eq.mp hj with hj | rfl
        · exact h.none_left hb j hj
        · exact hmem
      · rcases Nat.lt_succ_iff_lt_or_eq.mp hj with hj | rfl
        · exact h.least b hb j hj hjo
        · exact absurd hmem hjo
    · -- the reader is the least so far
      refine ⟨some m, ?_, ⟨fun b hb => ?_, nofun, fun b hb j hj hjo => ?_⟩⟩
      · have hval := Slots.store_middle vals (some (best.elim uint64Max rBufs)) (rBufs m)
          (List.replicate (size - order.length - 1) none) (i := order.length) hvals.symm
        have hpos := Slots.store_middle (order.map some) best m
          (List.replicate (size - order.length - 1) none) (i := order.length) (by simp)
        simp only [hmem, decide_false, Bool.false_eq_true, if_false]
        rw [arrays, hval, Option.bind_some, hpos]
        rfl
      · obtain rfl : m = b := Option.some.inj hb
        exact ⟨Nat.lt_succ_self _, hmem⟩
      · obtain rfl : m = b := Option.some.inj hb
        rcases Nat.lt_succ_iff_lt_or_eq.mp hj with hj | rfl
        · cases hbest : best with
          | none => exact absurd (h.none_left hbest j hj) hjo
          | some c =>
            have := h.least c hbest j hj hjo
            rw [hbest, Option.elim_some] at hlt
            omega
        · exact .inr ⟨rfl, le_rfl⟩
  · rw [if_neg hlt]
    refine ⟨best, rfl, ⟨fun b hb => ?_, fun hb => ?_, fun b hb j hj hjo => ?_⟩⟩
    · exact ⟨by have := (h.mem b hb).1; omega, (h.mem b hb).2⟩
    · rw [hb, Option.elim_none] at hlt
      exact absurd hmax hlt
    · rcases Nat.lt_succ_iff_lt_or_eq.mp hj with hj | rfl
      · exact h.least b hb j hj hjo
      · have hbj := (h.mem b hb).1
        rw [Option.mem_def.mp hb, Option.elim_some] at hlt
        omega

/-- The loop for a place. -/
theorem fill_found {rBufs : ℕ → ℕ} {order : List ℕ} {vals : List (Option ℕ)} (size : ℕ)
    (hvals : vals.length = order.length) :
    ∀ m, (∀ i < m, rBufs i < uint64Max) →
      ∃ best, fill rBufs order.length m (arrays rBufs order vals none size) =
        some (arrays rBufs order vals best size) ∧ Found rBufs order m best := by
  intro m
  induction m with
  | zero => exact fun _ => ⟨none, rfl, nofun, fun _ _ h => absurd h (Nat.not_lt_zero _), nofun⟩
  | succ m ih =>
    intro hmax
    obtain ⟨best, hfill, hfound⟩ := ih fun i hi => hmax i (by omega)
    obtain ⟨best', hconsider, hfound'⟩ := consider_found size hvals hfound (hmax m (Nat.lt_succ_self _))
    exact ⟨best', by rw [fill, hfill, Option.bind_some, hconsider], hfound'⟩

/-! ## All places -/

/-- After `k` places the array leads with `k` readers. -/
theorem select_leads {rBufs : ℕ → ℕ} {n size : ℕ} (hsize : n ≤ size)
    (hmax : ∀ i < n, rBufs i < uint64Max) :
    ∀ k ≤ n, ∃ (order : List ℕ) (vals : List (Option ℕ)), order.length = k ∧ vals.length = k ∧
      Leads rBufs n order ∧
      select rBufs n size k = some ⟨vals ++ List.replicate (size - k) none,
        order.map some ++ List.replicate (size - k) none⟩ := by
  intro k
  induction k with
  | zero =>
    intro _
    exact ⟨[], [], rfl, rfl, ⟨by simp, .nil, by simp⟩, rfl⟩
  | succ k ih =>
    intro hk
    obtain ⟨order, vals, horder, hvals, hleads, hselect⟩ := ih (by omega)
    have hrep : List.replicate (size - k) (none : Option ℕ) =
        none :: List.replicate (size - k - 1) none := by
      rw [← List.replicate_succ]
      congr 1
      omega
    have hstore := Slots.store_middle vals none uint64Max (List.replicate (size - k - 1) none)
      (i := k) hvals.symm
    obtain ⟨best, hfill, hfound⟩ := fill_found size (hvals.trans horder.symm) n hmax
    -- a reader is left, so that one is found
    obtain ⟨j, hj, hjo⟩ := exists_lt_not_mem (horder.trans_lt hk)
    obtain ⟨b, rfl⟩ : ∃ b, best = some b := by
      cases best with
      | none => exact absurd (hfound.none_left rfl j hj) hjo
      | some b => exact ⟨b, rfl⟩
    obtain ⟨hbn, hbo⟩ := hfound.mem b rfl
    refine ⟨order ++ [b], vals ++ [some (rBufs b)], by simp [horder], by simp [hvals], ?_, ?_⟩
    · refine ⟨fun i hi => ?_, ?_, fun i hi j hj hjo => ?_⟩
      · rcases List.mem_append.mp hi with hi | hi
        · exact hleads.lt i hi
        · exact List.mem_singleton.mp hi ▸ hbn
      · rw [List.pairwise_append]
        exact ⟨hleads.pairwise, List.pairwise_singleton _ _, fun i hi c hc =>
          List.mem_singleton.mp hc ▸ hleads.rest i hi b hbn hbo⟩
      · rw [List.mem_append, List.mem_singleton, not_or] at hjo
        rcases List.mem_append.mp hi with hi | hi
        · exact hleads.rest i hi j hj hjo.1
        · obtain rfl := List.mem_singleton.mp hi
          exact before_of_le_of_ne (hfound.least i rfl j hj hjo.1) fun h => hjo.2 h.symm
    · have hstart : (⟨vals ++ some uint64Max :: List.replicate (size - k - 1) none,
          order.map some ++ none :: List.replicate (size - k - 1) none⟩ : Arrays) =
          arrays rBufs order vals none size := by
        rw [arrays, horder, Option.elim_none]
      rw [select, hselect, Option.bind_some, hrep, hstore, Option.bind_some, hstart]
      rw [horder] at hfill
      rw [hfill, arrays, horder, Option.elim_some, Nat.sub_sub]
      simp

/-! ## The slot that is taken -/

/-- The scan takes the first slot of the order whose semaphore it can decrement, when those before it are
all connected. -/
theorem scan_cases (order : List ℕ) (t : List (Option ℕ))
    (attempt : ℕ → Attempt) : ∀ (turns place : ℕ), place + turns = order.length →
      ∃ picked, scan (order.map some ++ t) attempt turns place = some picked ∧
        ((∃ tried i rest, picked = some i ∧ order.drop place = tried ++ i :: rest ∧
            attempt i = .decremented ∧ ∀ j ∈ tried, attempt j = .again) ∨
          (picked = none ∧ ((∀ j ∈ order.drop place, attempt j = .again) ∨
            ∃ j ∈ order.drop place, attempt j = .error))) := by
  intro turns
  induction turns with
  | zero =>
    intro place hplace
    refine ⟨none, rfl, .inr ⟨rfl, .inl ?_⟩⟩
    rw [List.drop_of_length_le (by omega)]
    exact fun j hj => absurd hj List.not_mem_nil
  | succ turns ih =>
    intro place hplace
    have hlt : place < order.length := by omega
    have hload : Slots.load (order.map some ++ t) place = some order[place] := by
      rw [Slots.load, List.getElem?_append_left (by simpa using hlt), List.getElem?_map,
        List.getElem?_eq_getElem hlt]
      rfl
    rw [scan, hload, Option.bind_some, List.drop_eq_getElem_cons hlt]
    cases hattempt : attempt order[place] with
    | decremented =>
      exact ⟨_, rfl, .inl ⟨[], _, _, rfl, rfl, hattempt, fun j hj => absurd hj List.not_mem_nil⟩⟩
    | again =>
      obtain ⟨picked, hscan, hpicked⟩ := ih (place + 1) (by omega)
      refine ⟨picked, hscan, ?_⟩
      rcases hpicked with ⟨tried, i, rest, hp, hdrop, hi, htried⟩ | ⟨hp, hall | ⟨j, hj, herr⟩⟩
      · refine .inl ⟨order[place] :: tried, i, rest, hp, by rw [hdrop]; rfl, hi, ?_⟩
        exact List.forall_mem_cons.mpr ⟨hattempt, htried⟩
      · exact .inr ⟨hp, .inl (List.forall_mem_cons.mpr ⟨hattempt, hall⟩)⟩
      · exact .inr ⟨hp, .inr ⟨j, List.mem_cons_of_mem _ hj, herr⟩⟩
    | error => exact ⟨none, rfl, .inr ⟨rfl, .inr ⟨_, List.mem_cons_self, hattempt⟩⟩⟩

/-- The selection for `n` readers, in arrays with room for `size`, writes every reader once, in the order
of the sub-blocks that they read next; and of the slots that are free the scan takes the first of that
order. -/
def OrdersSlots (rBufs : ℕ → ℕ) (n size : ℕ) : Prop :=
  ∃ (a : Arrays) (order : List ℕ), select rBufs n size n = some a ∧
    a.xfersPos = order.map some ++ List.replicate (size - n) none ∧
    order.Perm (List.range n) ∧ order.Pairwise (Before rBufs) ∧
    ∀ attempt : ℕ → Attempt, ∃ picked, scan a.xfersPos attempt n 0 = some picked ∧
      (∀ i ∈ picked, i < n ∧ attempt i = .decremented ∧
        ∀ j < n, attempt j = .decremented → j ≠ i → Before rBufs i j) ∧
      (picked = none → (∀ j < n, attempt j = .again) ∨ ∃ j < n, attempt j = .error)

/-- Whatever the readers' counters are below the greatest number, their slots are ordered. -/
theorem ordersSlots (rBufs : ℕ → ℕ) {n size : ℕ} (hsize : n ≤ size)
    (hmax : ∀ i < n, rBufs i < uint64Max) : OrdersSlots rBufs n size := by
  obtain ⟨order, vals, horder, hvals, hleads, hselect⟩ := select_leads hsize hmax n le_rfl
  have hperm := hleads.perm horder
  have hmem : ∀ {j}, j ∈ order ↔ j < n := hperm.mem_iff.trans List.mem_range
  refine ⟨_, order, hselect, rfl, hperm, hleads.pairwise, fun attempt => ?_⟩
  obtain ⟨picked, hscan, hpicked⟩ := scan_cases order (List.replicate (size - n) none) attempt n 0
    (by rw [horder, Nat.zero_add])
  refine ⟨picked, hscan, ?_⟩
  rw [List.drop_zero] at hpicked
  rcases hpicked with ⟨tried, i, rest, rfl, hsplit, hi, htried⟩ | ⟨rfl, hnone⟩
  · refine ⟨fun i' hi' => ?_, nofun⟩
    obtain rfl := Option.some.inj hi'
    refine ⟨hmem.mp (hsplit ▸ List.mem_append_right _ List.mem_cons_self), hi, fun j hj hfree hne => ?_⟩
    have hpair := hleads.pairwise
    rw [hsplit, List.pairwise_append, List.pairwise_cons] at hpair
    -- a free slot is not among those that were tried before
    rcases List.mem_append.mp (hsplit ▸ hmem.mpr hj) with hjt | hjr
    · exact absurd ((htried j hjt).symm.trans hfree) (by decide)
    · rcases List.mem_cons.mp hjr with rfl | hjr
      · exact absurd rfl hne
      · exact hpair.2.1.1 j hjr
  · refine ⟨nofun, fun _ => ?_⟩
    rcases hnone with hall | ⟨j, hj, herr⟩
    · exact .inl fun j hj => hall j (hmem.mpr hj)
    · exact .inr ⟨j, hmem.mp hj, herr⟩

/-- Three readers, of which the last two are at the same sub-block. -/
def threeReaders (iread : ℕ) : ℕ := [5, 3, 3].getD iread 0

/-- The two at the earlier sub-block are tried first, the one with the lower index before the other. -/
example : (select threeReaders 3 8 3).map (·.xfersPos.take 3) = some [some 1, some 2, some 0] := by
  decide +kernel

theorem ordersSlots_three : OrdersSlots threeReaders 3 8 :=
  ordersSlots threeReaders (by decide) (by decide)

end ReaderSlots
