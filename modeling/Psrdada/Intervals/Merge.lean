import Mathlib.Order.Lattice
import Mathlib.Order.MinMax
import Mathlib.Data.List.Pairwise

/-! # Merging intervals

Half-open intervals over a linear order, sorted by where they start, are merged from left to right: an
interval that starts before the one in hand has ended is absorbed by it.  The result is a list of disjoint
intervals with the same elements (`contains_merge`), each given interval lies within one of them
(`merge_within`), and the merged intervals are connected (`merge_interior`).

Of the merged intervals those that begin before a bound may be dropped.  What remains has the elements
from the bound on exactly when no given interval reaches over the bound (`dropped_iff`). -/

namespace Intervals

variable {α : Type*}

/-- A half-open interval, which is empty when it does not stop after its start. -/
structure Span (α : Type*) where
  /-- The first element. -/
  start : α
  /-- The first element that follows. -/
  stop : α
deriving DecidableEq

variable [LinearOrder α]

/-- The elements of an interval. -/
def Span.Contains (s : Span α) (x : α) : Prop := s.start ≤ x ∧ x < s.stop

/-- The starts do not go back. -/
def Ordered (spans : List (Span α)) : Prop := spans.Pairwise fun a b => a.start ≤ b.start

/-- No interval stops before its start. -/
def Proper (spans : List (Span α)) : Prop := ∀ s ∈ spans, s.start ≤ s.stop

/-- Each interval stops before the next one starts. -/
def Separate (spans : List (Span α)) : Prop := spans.Pairwise fun a b => a.stop ≤ b.start

/-- Merge intervals with the one in hand. -/
def merge (s : Span α) : List (Span α) → List (Span α)
  | [] => [s]
  | t :: spans =>
    if t.start < s.stop then merge ⟨s.start, max s.stop t.stop⟩ spans else s :: merge t spans

/-! ## The merged intervals -/

section Merge

variable {s : Span α} {spans : List (Span α)}

/-- The intervals after one has been absorbed. -/
theorem Ordered.absorb {t : Span α} (h : Ordered (s :: t :: spans)) (stop : α) :
    Ordered (⟨s.start, stop⟩ :: spans) := by
  obtain ⟨hs, ht⟩ := List.pairwise_cons.mp h
  exact List.pairwise_cons.mpr ⟨fun u hu => hs u (List.mem_cons_of_mem _ hu), ht.of_cons⟩

theorem Proper.absorb {t : Span α} (h : Proper (s :: t :: spans)) :
    Proper (⟨s.start, max s.stop t.stop⟩ :: spans) := by
  intro u hu
  rcases List.mem_cons.mp hu with rfl | hu
  · exact le_max_of_le_left (h s List.mem_cons_self)
  · exact h u (List.mem_cons_of_mem _ (List.mem_cons_of_mem _ hu))

/-- Every interval lies within one of the merged ones. -/
theorem merge_within (h : Ordered (s :: spans)) :
    ∀ i ∈ s :: spans, ∃ e ∈ merge s spans, e.start ≤ i.start ∧ i.stop ≤ e.stop := by
  induction spans generalizing s with
  | nil =>
    intro i hi
    exact ⟨s, List.mem_cons_self, by obtain rfl := List.mem_singleton.mp hi; exact ⟨le_rfl, le_rfl⟩⟩
  | cons t spans ih =>
    intro i hi
    rw [merge]
    split_ifs with ht
    · have ih' := ih (h.absorb (max s.stop t.stop))
      rcases List.mem_cons.mp hi with rfl | hi
      · obtain ⟨e, he, hstart, hstop⟩ := ih' _ List.mem_cons_self
        exact ⟨e, he, hstart, le_trans (le_max_left _ _) hstop⟩
      rcases List.mem_cons.mp hi with rfl | hi
      · obtain ⟨e, he, hstart, hstop⟩ := ih' _ List.mem_cons_self
        exact ⟨e, he, le_trans hstart ((List.pairwise_cons.mp h).1 i List.mem_cons_self),
          le_trans (le_max_right _ _) hstop⟩
      · exact ih' i (List.mem_cons_of_mem _ hi)
    · rcases List.mem_cons.mp hi with rfl | hi
      · exact ⟨i, List.mem_cons_self, le_rfl, le_rfl⟩
      · obtain ⟨e, he, hwithin⟩ := ih h.of_cons i hi
        exact ⟨e, List.mem_cons_of_mem _ he, hwithin⟩

/-- A merged interval starts with one of those that it absorbs. -/
theorem merge_start (h : Ordered (s :: spans)) :
    ∀ e ∈ merge s spans, ∃ i ∈ s :: spans, i.start = e.start ∧ (e.start < e.stop → i.start < i.stop) := by
  induction spans generalizing s with
  | nil =>
    intro e he
    obtain rfl := List.mem_singleton.mp he
    exact ⟨e, List.mem_cons_self, rfl, id⟩
  | cons t spans ih =>
    intro e he
    rw [merge] at he
    split_ifs at he with ht
    · obtain ⟨i, hi, hstart, hpos⟩ := ih (h.absorb (max s.stop t.stop)) e he
      rcases List.mem_cons.mp hi with rfl | hi
      · refine ⟨s, List.mem_cons_self, hstart, fun _ => ?_⟩
        exact lt_of_le_of_lt ((List.pairwise_cons.mp h).1 t List.mem_cons_self) ht
      · exact ⟨i, List.mem_cons_of_mem _ (List.mem_cons_of_mem _ hi), hstart, hpos⟩
    · rcases List.mem_cons.mp he with rfl | he
      · exact ⟨e, List.mem_cons_self, rfl, id⟩
      · obtain ⟨i, hi, hspec⟩ := ih h.of_cons e he
        exact ⟨i, List.mem_cons_of_mem _ hi, hspec⟩

/-- A merged interval is connected: an element that is not its first one is not the first one of some
given interval either. -/
theorem merge_interior :
    ∀ e ∈ merge s spans, ∀ x, e.start < x → x < e.stop → ∃ i ∈ s :: spans, i.start < x ∧ x < i.stop := by
  induction spans generalizing s with
  | nil =>
    intro e he x hstart hstop
    obtain rfl := List.mem_singleton.mp he
    exact ⟨e, List.mem_cons_self, hstart, hstop⟩
  | cons t spans ih =>
    intro e he x hstart hstop
    rw [merge] at he
    split_ifs at he with ht
    · obtain ⟨i, hi, hi1, hi2⟩ := ih e he x hstart hstop
      rcases List.mem_cons.mp hi with rfl | hi
      · rcases lt_or_ge x s.stop with hlt | hge
        · exact ⟨s, List.mem_cons_self, hi1, hlt⟩
        · refine ⟨t, List.mem_cons_of_mem _ List.mem_cons_self, lt_of_lt_of_le ht hge, ?_⟩
          exact (lt_max_iff.mp hi2).resolve_left (not_lt.mpr hge)
      · exact ⟨i, List.mem_cons_of_mem _ (List.mem_cons_of_mem _ hi), hi1, hi2⟩
    · rcases List.mem_cons.mp he with rfl | he
      · exact ⟨e, List.mem_cons_self, hstart, hstop⟩
      · obtain ⟨i, hi, hspec⟩ := ih e he x hstart hstop
        exact ⟨i, List.mem_cons_of_mem _ hi, hspec⟩

theorem merge_proper (h : Proper (s :: spans)) : Proper (merge s spans) := by
  induction spans generalizing s with
  | nil => exact h
  | cons t spans ih =>
    rw [merge]
    split_ifs with ht
    · exact ih h.absorb
    · intro e he
      rcases List.mem_cons.mp he with rfl | he
      · exact h e List.mem_cons_self
      · exact ih (fun i hi => h i (List.mem_cons_of_mem _ hi)) e he

/-- The merged intervals are in order, and do not overlap. -/
theorem merge_separate (h : Ordered (s :: spans)) : Separate (merge s spans) := by
  induction spans generalizing s with
  | nil => exact List.pairwise_singleton _ _
  | cons t spans ih =>
    rw [merge]
    split_ifs with ht
    · exact ih (h.absorb _)
    · refine List.pairwise_cons.mpr ⟨fun e he => ?_, ih h.of_cons⟩
      obtain ⟨i, hi, hstart, -⟩ := merge_start h.of_cons e he
      have hti : t.start ≤ i.start := by
        rcases List.mem_cons.mp hi with rfl | hi
        · exact le_rfl
        · exact (List.pairwise_cons.mp h.of_cons).1 i hi
      exact le_trans (le_trans (not_lt.mp ht) hti) (le_of_eq hstart)

/-- **Merging** keeps the elements. -/
theorem contains_merge (h : Ordered (s :: spans)) (x : α) :
    (∃ e ∈ merge s spans, e.Contains x) ↔ ∃ i ∈ s :: spans, i.Contains x := by
  constructor
  · rintro ⟨e, he, hstart, hstop⟩
    rcases eq_or_lt_of_le hstart with rfl | hlt
    · obtain ⟨i, hi, heq, hpos⟩ := merge_start h e he
      exact ⟨i, hi, le_of_eq heq, heq ▸ hpos hstop⟩
    · obtain ⟨i, hi, hi1, hi2⟩ := merge_interior e he x hlt hstop
      exact ⟨i, hi, le_of_lt hi1, hi2⟩
  · rintro ⟨i, hi, hstart, hstop⟩
    obtain ⟨e, he, he1, he2⟩ := merge_within h i hi
    exact ⟨e, he, le_trans he1 hstart, lt_of_lt_of_le hstop he2⟩

/-- An element is in one of the merged intervals only. -/
theorem Separate.eq_of_contains {spans : List (Span α)} (h : Separate spans) {e e' : Span α}
    (he : e ∈ spans) (he' : e' ∈ spans) {x : α} (hx : e.Contains x) (hx' : e'.Contains x) : e = e' := by
  induction spans with
  | nil => simp at he
  | cons a spans ih =>
    obtain ⟨ha, hrest⟩ := List.pairwise_cons.mp h
    -- an element of the first interval is in front of the others
    have hfirst : ∀ b ∈ spans, a.Contains x → b.Contains x → False := fun b hb hax hbx =>
      absurd (lt_of_lt_of_le hax.2 (le_trans (ha b hb) hbx.1)) (lt_irrefl x)
    rcases List.mem_cons.mp he with rfl | hmem
    · rcases List.mem_cons.mp he' with rfl | hmem'
      · rfl
      · exact (hfirst _ hmem' hx hx').elim
    · rcases List.mem_cons.mp he' with rfl | hmem'
      · exact (hfirst _ hmem hx' hx).elim
      · exact ih hrest hmem hmem'

end Merge

/-! ## Dropping what begins before a bound -/

/-- When the merged intervals that begin before `p` are dropped, the elements that remain are those from
`p` on and before `l` exactly when no given interval reaches over `p`, and none of the others over `l`. -/
theorem dropped_iff {s : Span α} {spans : List (Span α)} (h : Ordered (s :: spans)) {p l : α}
    (hpl : p < l) :
    (∀ x, (∃ e ∈ merge s spans, p ≤ e.start ∧ e.Contains x) ↔
        (∃ i ∈ s :: spans, i.Contains x) ∧ p ≤ x ∧ x < l) ↔
      (∀ i ∈ s :: spans, i.start < p → i.stop ≤ p) ∧
      ∀ i ∈ s :: spans, p ≤ i.start → i.start < i.stop → i.stop ≤ l := by
  constructor
  · intro hall
    -- an interval with `p` in it begins there
    have hover : ∀ e ∈ merge s spans, e.Contains p → p ≤ e.start := by
      intro e he hp
      obtain ⟨e', he', hstart, hp'⟩ := (hall p).mpr ⟨(contains_merge h p).mp ⟨e, he, hp⟩, le_rfl, hpl⟩
      rwa [(merge_separate h).eq_of_contains he he' hp hp']
    constructor
    · intro i hi hstart
      by_contra hstop
      obtain ⟨e, he, hle, hge⟩ := merge_within h i hi
      have hp := hover e he ⟨le_trans hle (le_of_lt hstart), lt_of_lt_of_le (not_le.mp hstop) hge⟩
      exact absurd (lt_of_le_of_lt (le_trans hp hle) hstart) (lt_irrefl p)
    · intro i hi hstart hpos
      by_contra hstop
      have hstop' := not_le.mp hstop
      obtain ⟨e, he, hle, hge⟩ := merge_within h i hi
      have hp : p ≤ e.start := by
        rcases le_or_gt e.start p with hlt | hgt
        · exact hover e he ⟨hlt, lt_of_le_of_lt hstart (lt_of_lt_of_le hpos hge)⟩
        · exact le_of_lt hgt
      have hx : e.Contains (max l i.start) :=
        ⟨le_trans hle (le_max_right _ _), lt_of_lt_of_le (max_lt hstop' hpos) hge⟩
      have hlt := ((hall (max l i.start)).mp ⟨e, he, hp, hx⟩).2.2
      exact absurd hlt (not_lt.mpr (le_max_left _ _))
  · rintro ⟨hover, hend⟩ x
    constructor
    · rintro ⟨e, he, hp, hx⟩
      obtain ⟨i, hi, hix⟩ := (contains_merge h x).mp ⟨e, he, hx⟩
      have hpx : p ≤ x := le_trans hp hx.1
      have hpi : p ≤ i.start := by
        by_contra hlt
        exact absurd (lt_of_lt_of_le hix.2 (hover i hi (not_le.mp hlt))) (not_lt.mpr hpx)
      exact ⟨⟨i, hi, hix⟩, hpx, lt_of_lt_of_le hix.2 (hend i hi hpi (lt_of_le_of_lt hix.1 hix.2))⟩
    · rintro ⟨⟨i, hi, hix⟩, hpx, -⟩
      obtain ⟨e, he, hle, hge⟩ := merge_within h i hi
      refine ⟨e, he, ?_, le_trans hle hix.1, lt_of_lt_of_le hix.2 hge⟩
      by_contra hlt
      -- `p` would be within a given interval
      have hstop : p < e.stop := lt_of_le_of_lt hpx (lt_of_lt_of_le hix.2 hge)
      obtain ⟨j, hj, hj1, hj2⟩ := merge_interior e he p (not_le.mp hlt) hstop
      exact absurd (hover j hj hj1) (not_le.mpr hj2)

end Intervals
