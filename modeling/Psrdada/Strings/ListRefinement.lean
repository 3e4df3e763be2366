import Mathlib.Data.List.Nodup
import Mathlib.Data.Option.Basic
import Psrdada.Refinement.Calls
import Psrdada.Strings.StringArray

/-! # A string array refines a list of strings

An array represents a list when each of its slots owns one string of the heap, no two slots the same one,
and nothing else is allocated.  Inserting and removing keep this and do to the list what they say.  The
exchange of two entries copies one over the other, and the filter does not look at the entry behind one
that it removes. -/

namespace StringArray

open CString

/-! ## The list operations -/

/-- The list with the entries at two positions exchanged. -/
def exchange (pos1 pos2 : ℕ) (l : List Text) : List Text :=
  match l[pos1]?, l[pos2]? with
  | some a, some b => (l.set pos1 b).set pos2 a
  | _, _ => l

/-- The entry occurs in the text of a filter. -/
def Occurs (filter entry : Text) : Prop := (strstr entry filter).isSome

instance (filter entry : Text) : Decidable (Occurs filter entry) :=
  inferInstanceAs (Decidable (_ = true))

/-- What a call returns and does to a list. -/
def Op.onList : Op → List Text → ℤ × List Text
  | insert entry pos, l => if pos ≤ l.length then (0, l.insertIdx pos entry) else (-1, l)
  | append entry, l => (0, l ++ [entry])
  | remove pos, l => if pos < l.length then (0, l.eraseIdx pos) else (-1, l)
  | switch pos1 pos2, l => (0, exchange pos1 pos2 l)
  | filter text, l => (0, l.filter (Occurs text))
  | tok string white, l =>
    (0, (tokens string white).foldl (fun l word => if word ∈ l then l else l ++ [word]) l)

/-- When the call on the array does what it does on the list. -/
def Op.Meets : Op → List Text → Prop
  | insert _ pos, l => pos ≤ l.length → l.length + 1 < 2 ^ 32
  | append _, l => l.length + 1 < 2 ^ 32
  | remove _, _ => True
  | switch pos1 pos2, l => pos1 = pos2 ∧ pos1 < l.length
  | filter text, l => l.IsChain fun a b => Occurs text a ∨ Occurs text b
  | tok string white, l => ((tok string white).onList l).2.length < 2 ^ 32

/-! ## Representation -/

/-- The slots of the array hold the pointers, and these own the strings of the list. -/
structure Holds (a : State) (ptrs : List ℕ) (l : List Text) : Prop where
  size : a.size = l.length
  length_lt : l.length < 2 ^ 32
  /-- No block without entries. -/
  strs : a.strs = if ptrs = [] then none else some (ptrs.map some)
  strings : ptrs.map a.heap.string = l.map some
  nodup : ptrs.Nodup
  /-- Every string that is allocated is owned by a slot. -/
  owned : ∀ p, (a.heap.string p).isSome → p ∈ ptrs

/-- The array represents the list. -/
def Represents (a : State) (l : List Text) : Prop := ∃ ptrs, Holds a ptrs l

namespace Holds

variable {a : State} {ptrs : List ℕ} {l : List Text}

theorem length_eq (h : Holds a ptrs l) : ptrs.length = l.length := by
  simpa using congrArg List.length h.strings

/-- An array holds one list. -/
theorem unique {ptrs' : List ℕ} {l' : List Text} (h : Holds a ptrs l) (h' : Holds a ptrs' l') :
    l = l' := by
  have hptrs : ptrs = ptrs' := by
    have hs := h.strs.symm.trans h'.strs
    by_cases h1 : ptrs = [] <;> by_cases h2 : ptrs' = []
    · rw [h1, h2]
    · simp [h1, h2] at hs
    · simp [h1, h2] at hs
    · rw [if_neg h1, if_neg h2] at hs
      exact List.map_injective_iff.mpr (Option.some_injective _) (Option.some.inj hs)
  subst hptrs
  exact List.map_injective_iff.mpr (Option.some_injective _) (h.strings.symm.trans h'.strings)

/-- The block of the array, whose slots are all written. -/
theorem getD_strs (h : Holds a ptrs l) : a.strs.getD [] = ptrs.map some := by
  rw [h.strs]
  split
  · simp [*]
  · rfl

end Holds

theorem Represents.size_eq {a : State} {l : List Text} (h : Represents a l) : a.size = l.length := by
  obtain ⟨ptrs, h⟩ := h
  exact h.size

/-! ## The heap -/

theorem Heap.lt_of_string {heap : Heap} {p : ℕ} (h : (heap.string p).isSome) : p < heap.length := by
  by_contra hp
  simp [Heap.string, List.getElem?_eq_none (Nat.le_of_not_lt hp)] at h

/-- An allocation leaves the strings that there are. -/
theorem Heap.string_append_of_lt {heap : Heap} {p : ℕ} (h : p < heap.length) (x : Option Text) :
    (heap ++ [x]).string p = heap.string p := by
  simp only [Heap.string, List.getElem?_append_left h]

theorem Heap.string_append_length (heap : Heap) (entry : Text) :
    (heap ++ [some entry]).string heap.length = some entry := by
  simp [Heap.string]

/-- Freeing a string leaves the others. -/
theorem Heap.string_set_of_ne {heap : Heap} {p q : ℕ} (h : p ≠ q) :
    Heap.string (heap.set p none) q = heap.string q := by
  simp only [Heap.string, List.getElem?_set_ne h]

theorem Heap.string_set_self (heap : Heap) (p : ℕ) : Heap.string (heap.set p none) p = none := by
  simp only [Heap.string, List.getElem?_set_self']
  cases heap[p]? <;> rfl

namespace Holds

variable {a : State} {ptrs : List ℕ} {l : List Text}

/-- A slot owns a string. -/
theorem string_of_mem (h : Holds a ptrs l) {p : ℕ} (hp : p ∈ ptrs) : (a.heap.string p).isSome := by
  have hmem : a.heap.string p ∈ l.map some := h.strings ▸ List.mem_map_of_mem hp
  obtain ⟨t, -, ht⟩ := List.mem_map.mp hmem
  rw [← ht]
  rfl

theorem strings_take (h : Holds a ptrs l) (n : ℕ) :
    (ptrs.take n).map a.heap.string = (l.take n).map some := by
  simpa only [List.map_take] using congrArg (List.take n) h.strings

theorem strings_drop (h : Holds a ptrs l) (n : ℕ) :
    (ptrs.drop n).map a.heap.string = (l.drop n).map some := by
  simpa only [List.map_drop] using congrArg (List.drop n) h.strings

/-- The slot at a position owns the entry at that position. -/
theorem string_getElem (h : Holds a ptrs l) {pos : ℕ} (hpos : pos < ptrs.length)
    (hpos' : pos < l.length) : a.heap.string ptrs[pos] = some l[pos] := by
  have := congrArg (·[pos]?) h.strings
  simpa [hpos, hpos'] using this

end Holds

/-! ## Inserting -/

/-- An entry that is inserted pushes those behind it towards the end. -/
theorem Holds.insert {a : State} {ptrs : List ℕ} {l : List Text} (h : Holds a ptrs l) {pos : ℕ}
    (hpos : pos ≤ l.length) (hlength : l.length + 1 < 2 ^ 32) (entry : Text) :
    ∃ a', StringArray.insert a entry pos = some (0, a') ∧ Represents a' (l.insertIdx pos entry) := by
  have hlen := h.length_eq
  have hnew : a.heap.length ∉ ptrs := fun hm =>
    absurd (Heap.lt_of_string (h.string_of_mem hm)) (lt_irrefl _)
  obtain ⟨y, hshift⟩ := Slots.shiftUp_map_some ptrs none [] (hlen ▸ hpos)
  have hstore := Slots.store_middle ((ptrs.take pos).map some) y a.heap.length
    ((ptrs.drop pos).map some ++ []) (i := pos) (by simp; omega)
  have hmod : (l.length + 1) % 2 ^ 32 = l.length + 1 := Nat.mod_eq_of_lt hlength
  have hsize : ¬a.size < pos := by rw [h.size]; omega
  refine ⟨⟨l.length + 1, some ((ptrs.insertIdx pos a.heap.length).map some),
    a.heap ++ [some entry]⟩, ?_, ptrs.insertIdx pos a.heap.length, ?_⟩
  · rw [StringArray.insert, if_neg hsize, h.getD_strs, h.size]
    dsimp only
    rw [hmod, if_neg (Nat.succ_ne_zero _), ← hlen, Slots.realloc_succ, hshift, Option.bind_some,
      hstore, Option.map_some, Slots.insertIdx_take_drop ptrs _ (hlen ▸ hpos)]
    simp
  · rw [Slots.insertIdx_take_drop ptrs _ (hlen ▸ hpos), Slots.insertIdx_take_drop l _ hpos]
    have hperm : (ptrs.take pos ++ a.heap.length :: ptrs.drop pos).Perm (a.heap.length :: ptrs) := by
      refine List.perm_middle.trans (List.Perm.of_eq ?_)
      rw [List.take_append_drop]
    have hkeep : ∀ q ∈ ptrs, Heap.string (a.heap ++ [some entry]) q = a.heap.string q := fun q hq =>
      Heap.string_append_of_lt (Heap.lt_of_string (h.string_of_mem hq)) _
    constructor
    · simp
      omega
    · simpa using by omega
    · simp
    · have htake : (ptrs.take pos).map (Heap.string (a.heap ++ [some entry])) =
          (l.take pos).map some := by
        rw [List.map_congr_left fun q hq => hkeep q (List.mem_of_mem_take hq), h.strings_take]
      have hdrop : (ptrs.drop pos).map (Heap.string (a.heap ++ [some entry])) =
          (l.drop pos).map some := by
        rw [List.map_congr_left fun q hq => hkeep q (List.mem_of_mem_drop hq), h.strings_drop]
      rw [List.map_append, List.map_cons, htake, hdrop, Heap.string_append_length, List.map_append,
        List.map_cons]
    · exact hperm.nodup_iff.mpr (List.nodup_cons.mpr ⟨hnew, h.nodup⟩)
    · intro q hq
      rw [hperm.mem_iff, List.mem_cons]
      have hlt := Heap.lt_of_string hq
      rw [List.length_append, List.length_singleton] at hlt
      rcases Nat.lt_succ_iff_lt_or_eq.mp hlt with hlt | rfl
      · exact .inr (h.owned q (Heap.string_append_of_lt hlt _ ▸ hq))
      · exact .inl rfl

/-! ## Removing -/

/-- An entry that is removed lets those behind it move up, and its string is freed. -/
theorem Holds.remove {a : State} {ptrs : List ℕ} {l : List Text} (h : Holds a ptrs l) {pos : ℕ}
    (hpos : pos < l.length) :
    ∃ a', StringArray.remove a pos = some (0, a') ∧ Represents a' (l.eraseIdx pos) := by
  have hlen := h.length_eq
  have hpos' : pos < ptrs.length := hlen ▸ hpos
  have hne : ptrs ≠ [] := fun he => by simp [he] at hpos'
  have hsplit : ptrs = ptrs.take pos ++ ptrs[pos] :: ptrs.drop (pos + 1) := by
    rw [List.getElem_cons_drop, List.take_append_drop]
  have hsize0 : ¬a.size = 0 := by rw [h.size]; omega
  have hsize : ¬a.size ≤ pos := by rw [h.size]; omega
  have hload : Slots.load (ptrs.map some) pos = some ptrs[pos] := by
    rw [Slots.load_map_some, List.getElem?_eq_getElem hpos']
  have hfree : a.heap.free ptrs[pos] = some (a.heap.set ptrs[pos] none) :=
    if_pos (h.string_of_mem (List.getElem_mem hpos'))
  obtain ⟨y, hshift⟩ := Slots.shiftDown_map_some (ptrs.drop (pos + 1)) (ptrs.take pos)
    (some ptrs[pos])
  rw [List.length_drop, List.length_take_of_le hpos'.le, ← List.map_cons, ← List.map_append, ← hsplit,
    ← List.eraseIdx_eq_take_drop_succ] at hshift
  have hturns : l.length - 1 - pos = ptrs.length - (pos + 1) := by omega
  have herase : (ptrs.eraseIdx pos).length = l.length - 1 := by
    rw [List.length_eraseIdx_of_lt hpos', hlen]
  refine ⟨⟨l.length - 1, if ptrs.eraseIdx pos = [] then none else some ((ptrs.eraseIdx pos).map some),
    a.heap.set ptrs[pos] none⟩, ?_, ptrs.eraseIdx pos, ?_⟩
  · rw [StringArray.remove, if_neg hsize0, if_neg hsize, h.strs, if_neg hne, Option.bind_some, hload,
      Option.bind_some, hfree, Option.bind_some]
    dsimp only
    rw [h.size, hturns, hshift, Option.map_some, ← herase, Slots.realloc_append]
    by_cases hnil : ptrs.eraseIdx pos = []
    · rw [if_pos hnil, if_pos (by rw [hnil]; rfl)]
    · rw [if_neg hnil, if_neg fun h0 => hnil (List.eq_nil_of_length_eq_zero h0)]
  · have hother : ∀ q ∈ ptrs.eraseIdx pos, ptrs[pos] ≠ q ∧ q ∈ ptrs := by
      intro q hq
      rw [← List.Nodup.erase_getElem h.nodup _ hpos', h.nodup.mem_erase_iff] at hq
      exact ⟨hq.1.symm, hq.2⟩
    constructor
    · rw [List.length_eraseIdx_of_lt hpos]
    · rw [List.length_eraseIdx_of_lt hpos]
      have := h.length_lt
      omega
    · rfl
    · rw [List.map_congr_left fun q hq => Heap.string_set_of_ne (hother q hq).1,
        List.eraseIdx_eq_take_drop_succ, List.eraseIdx_eq_take_drop_succ, List.map_append,
        h.strings_take, h.strings_drop, List.map_append]
    · exact h.nodup.sublist (List.eraseIdx_sublist _ _)
    · intro q hq
      have hne : ptrs[pos] ≠ q := fun he => by
        rw [← he, Heap.string_set_self] at hq
        simp at hq
      rw [Heap.string_set_of_ne hne] at hq
      rw [← List.Nodup.erase_getElem h.nodup _ hpos', h.nodup.mem_erase_iff]
      exact ⟨hne.symm, h.owned q hq⟩

/-! ## Exchanging -/

/-- An entry is exchanged with itself. -/
theorem Holds.switch_self {a : State} {ptrs : List ℕ} {l : List Text} (h : Holds a ptrs l) {pos : ℕ}
    (hpos : pos < l.length) : StringArray.switch a pos pos = some (0, a) := by
  have hpos' : pos < ptrs.length := h.length_eq ▸ hpos
  have hne : ptrs ≠ [] := fun he => by simp [he] at hpos'
  have hload : Slots.load (ptrs.map some) pos = some ptrs[pos] := by
    rw [Slots.load_map_some, List.getElem?_eq_getElem hpos']
  have hstore : Slots.store (ptrs.map some) pos ptrs[pos] = some (ptrs.map some) := by
    rw [Slots.store, if_pos (by simpa using hpos'), ← List.map_set, List.set_getElem_self]
  have hstrs : a.strs = some (ptrs.map some) := by rw [h.strs, if_neg hne]
  have hself : { a with strs := some (ptrs.map some) } = a := by rw [← hstrs]
  rw [StringArray.switch, hstrs, Option.bind_some, hload, Option.bind_some, Option.bind_some, hstore,
    Option.bind_some, hstore, Option.map_some, hself]

/-- Two entries are not exchanged: where both slots are there, the one at the first position is copied to
the second, and both own its string. -/
theorem Holds.switch_eq_self {a : State} {ptrs : List ℕ} {l : List Text} (h : Holds a ptrs l)
    {pos1 pos2 : ℕ} {r : ℤ} {a' : State} {l' : List Text}
    (hrun : StringArray.switch a pos1 pos2 = some (r, a')) (h' : Represents a' l') :
    pos1 = pos2 ∧ pos1 < l.length := by
  obtain ⟨ptrs', h'⟩ := h'
  have hlen := h.length_eq
  by_cases hne : ptrs = []
  · rw [StringArray.switch, h.strs, if_pos hne] at hrun
    simp at hrun
  rw [StringArray.switch, h.strs, if_neg hne, Option.bind_some] at hrun
  -- the slots are there, or the call would have no result
  by_cases hpos1 : pos1 < ptrs.length
  swap
  · rw [Slots.load_map_some, List.getElem?_eq_none (by omega)] at hrun
    simp at hrun
  by_cases hpos2 : pos2 < ptrs.length
  swap
  · rw [Slots.load_map_some, List.getElem?_eq_getElem hpos1, Option.bind_some, Option.bind_some,
      Slots.store, if_neg (by simpa using hpos2)] at hrun
    simp at hrun
  rw [Slots.load_map_some, List.getElem?_eq_getElem hpos1, Option.bind_some, Option.bind_some,
    Slots.store, if_pos (by simpa using hpos2), Option.bind_some, Slots.store,
    if_pos (by simpa using hpos1), Option.map_some, ← List.map_set, ← List.map_set] at hrun
  obtain ⟨-, rfl⟩ := Prod.mk.injEq .. ▸ Option.some.inj hrun
  have hptrs : ptrs' = (ptrs.set pos2 ptrs[pos1]).set pos1 ptrs[pos1] := by
    have hs := h'.strs
    by_cases hnil : ptrs' = []
    · simp [hnil] at hs
    · rw [if_neg hnil] at hs
      exact List.map_injective_iff.mpr (Option.some_injective _) (Option.some.inj hs).symm
  have hnodup := h'.nodup
  subst hptrs
  have h1 : pos1 < ((ptrs.set pos2 ptrs[pos1]).set pos1 ptrs[pos1]).length := by simpa using hpos1
  have h2 : pos2 < ((ptrs.set pos2 ptrs[pos1]).set pos1 ptrs[pos1]).length := by simpa using hpos2
  have hboth : ((ptrs.set pos2 ptrs[pos1]).set pos1 ptrs[pos1])[pos1] =
      ((ptrs.set pos2 ptrs[pos1]).set pos1 ptrs[pos1])[pos2] := by
    rw [List.getElem_set_self, List.getElem_set]
    split
    · rfl
    · rw [List.getElem_set_self]
  exact ⟨hnodup.getElem_inj_iff.mp hboth, hlen ▸ hpos1⟩

theorem exchange_self (l : List Text) (pos : ℕ) : exchange pos pos l = l := by
  unfold exchange
  split
  · next a b ha hb =>
    obtain rfl : a = b := Option.some.inj (ha.symm.trans hb)
    obtain ⟨hpos, rfl⟩ := List.getElem?_eq_some_iff.mp ha
    rw [List.set_getElem_self, List.set_getElem_self]
  · rfl

/-! ## Filtering -/

/-- What the loop of the filter leaves of a list: the entry behind one that is removed is not looked
at. -/
def skip (filter : Text) : List Text → List Text
  | [] => []
  | [entry] => if Occurs filter entry then [entry] else []
  | entry :: next :: l =>
    if Occurs filter entry then entry :: skip filter (next :: l) else next :: skip filter l

/-- The filter keeps what it should when no two neighbours are to go. -/
theorem skip_eq_filter_iff (filter : Text) (l : List Text) :
    skip filter l = l.filter (Occurs filter) ↔
      l.IsChain fun a b => Occurs filter a ∨ Occurs filter b := by
  induction l using skip.induct filter with
  | case1 => simp [skip]
  | case2 entry h => simp [skip, h]
  | case3 entry h => simp [skip, h]
  | case4 entry next l h ih =>
    rw [skip, if_pos h, List.filter_cons_of_pos (by simpa using h), List.cons_inj_right, ih,
      List.isChain_cons_cons]
    simp [h]
  | case5 entry next l h ih =>
    rw [skip, if_neg h, List.filter_cons_of_neg (by simpa using h), List.isChain_cons_cons]
    by_cases hnext : Occurs filter next
    · rw [List.filter_cons_of_pos (by simpa using hnext), List.cons_inj_right, ih]
      cases l with
      | nil => simp [hnext]
      | cons b l => simp [hnext, List.isChain_cons_cons]
    · refine ⟨fun heq => ?_, fun hc => absurd hc.1 (by simp [h, hnext])⟩
      -- the neighbour that is to go stays
      have hmem : next ∈ (next :: l).filter (Occurs filter) := heq ▸ List.mem_cons_self
      simp [hnext] at hmem

/-- An entry that is there has a pointer to its string. -/
theorem Holds.get {a : State} {ptrs : List ℕ} {l : List Text} (h : Holds a ptrs l) {pos : ℕ}
    (hpos : pos < l.length) :
    ∃ p, StringArray.get a pos = some (some p) ∧ a.heap.string p = some l[pos] := by
  have hpos' : pos < ptrs.length := h.length_eq ▸ hpos
  have hne : ptrs ≠ [] := fun he => by simp [he] at hpos'
  refine ⟨ptrs[pos], ?_, h.string_getElem hpos' hpos⟩
  rw [StringArray.get, if_pos (h.size ▸ hpos), h.strs, if_neg hne, Option.bind_some,
    Slots.load_map_some, List.getElem?_eq_getElem hpos']
  rfl

/-- At the end of the array the loop of the filter ends. -/
theorem filterLoop_end (filter : Text) (turns : ℕ) {istr : ℕ} {a : State} (h : a.size ≤ istr) :
    filterLoop filter turns istr a = some (0, a) := by
  cases turns with
  | zero => rfl
  | succ turns => rw [filterLoop, if_neg (Nat.not_lt.mpr h)]

/-- A turn of the filter on an entry that stays, and on one that goes. -/
theorem filterLoop_turn (filter : Text) (turns : ℕ) {a : State} {p : List Text} {entry : Text}
    {s : List Text} (h : Represents a (p ++ entry :: s)) :
    ∃ a', filterLoop filter (turns + 1) p.length a = filterLoop filter turns (p.length + 1) a' ∧
      Represents a' (if Occurs filter entry then p ++ entry :: s else p ++ s) := by
  obtain ⟨ptrs, h⟩ := h
  have hlt : p.length < (p ++ entry :: s).length := by simp
  obtain ⟨q, hget, hstring⟩ := h.get hlt
  rw [List.getElem_append_right le_rfl] at hstring
  simp only [Nat.sub_self, List.getElem_cons_zero] at hstring
  rw [filterLoop, if_pos (h.size ▸ hlt), hget]
  dsimp only
  rw [hstring, Option.bind_some]
  by_cases hocc : Occurs filter entry
  · have hsome : ¬(strstr entry filter).isNone := by
      rw [← Option.not_isSome, Bool.not_eq_true', Bool.not_eq_false]
      exact hocc
    rw [if_neg hsome, if_pos hocc]
    exact ⟨a, rfl, ptrs, h⟩
  · have hnone : (strstr entry filter).isNone := by
      rw [← Option.not_isSome, Bool.not_eq_true', ← Bool.not_eq_true]
      exact hocc
    obtain ⟨a', hrem, hrep⟩ := h.remove hlt
    rw [List.eraseIdx_append_of_length_le le_rfl, Nat.sub_self] at hrep
    rw [if_pos hnone, hrem, Option.bind_some, if_neg hocc]
    exact ⟨a', rfl, hrep⟩

/-- The loop of the filter. -/
theorem filterLoop_skip (filter : Text) (s : List Text) :
    ∀ {a : State} (p : List Text) (turns : ℕ), s.length ≤ turns → Represents a (p ++ s) →
      ∃ a', filterLoop filter turns p.length a = some (0, a') ∧
        Represents a' (p ++ skip filter s) := by
  induction s using skip.induct filter with
  | case1 =>
    intro a p turns _ h
    exact ⟨a, filterLoop_end filter turns (by simp [h.size_eq]), h⟩
  | case2 entry hocc =>
    intro a p turns hturns h
    obtain ⟨turns, rfl⟩ : ∃ n, turns = n + 1 := ⟨turns - 1, by simp at hturns; omega⟩
    obtain ⟨a', hturn, hrep⟩ := filterLoop_turn filter turns h
    rw [if_pos hocc] at hrep
    refine ⟨a', by rw [hturn, filterLoop_end filter turns (by simp [hrep.size_eq])], ?_⟩
    rw [skip, if_pos hocc]
    exact hrep
  | case3 entry hocc =>
    intro a p turns hturns h
    obtain ⟨turns, rfl⟩ : ∃ n, turns = n + 1 := ⟨turns - 1, by simp at hturns; omega⟩
    obtain ⟨a', hturn, hrep⟩ := filterLoop_turn filter turns h
    rw [if_neg hocc] at hrep
    refine ⟨a', by rw [hturn, filterLoop_end filter turns (by simp [hrep.size_eq])], ?_⟩
    rw [skip, if_neg hocc]
    exact hrep
  | case4 entry next l hocc ih =>
    intro a p turns hturns h
    obtain ⟨turns, rfl⟩ : ∃ n, turns = n + 1 := ⟨turns - 1, by simp at hturns; omega⟩
    obtain ⟨a', hturn, hrep⟩ := filterLoop_turn filter turns h
    rw [if_pos hocc, List.append_cons] at hrep
    obtain ⟨a'', hloop, hrep'⟩ := ih (p ++ [entry]) turns (by simp at hturns ⊢; omega) hrep
    rw [List.length_append, List.length_singleton] at hloop
    refine ⟨a'', by rw [hturn, hloop], ?_⟩
    rw [skip, if_pos hocc, List.append_cons]
    exact hrep'
  | case5 entry next l hocc ih =>
    intro a p turns hturns h
    obtain ⟨turns, rfl⟩ : ∃ n, turns = n + 1 := ⟨turns - 1, by simp at hturns; omega⟩
    obtain ⟨a', hturn, hrep⟩ := filterLoop_turn filter turns h
    rw [if_neg hocc, List.append_cons] at hrep
    obtain ⟨a'', hloop, hrep'⟩ := ih (p ++ [next]) turns (by simp at hturns ⊢; omega) hrep
    rw [List.length_append, List.length_singleton] at hloop
    refine ⟨a'', by rw [hturn, hloop], ?_⟩
    rw [skip, if_neg hocc, List.append_cons]
    exact hrep'

/-! ## Adding words -/

/-- The loop of the search says whether the text is among the entries that are left. -/
theorem Holds.searchLoop {a : State} {ptrs : List ℕ} {l : List Text} (h : Holds a ptrs l) (text : Text) :
    ∀ (turns i : ℕ), i + turns = l.length →
      ∃ r, StringArray.searchLoop a text turns i = some r ∧ (r = none ↔ text ∉ l.drop i) := by
  intro turns
  induction turns with
  | zero =>
    intro i hi
    exact ⟨none, rfl, by simp [List.drop_of_length_le (show l.length ≤ i by omega)]⟩
  | succ turns ih =>
    intro i hi
    have hpos : i < l.length := by omega
    have hpos' : i < ptrs.length := h.length_eq ▸ hpos
    have hne : ptrs ≠ [] := fun he => by simp [he] at hpos'
    have hload : Slots.load (ptrs.map some) i = some ptrs[i] := by
      rw [Slots.load_map_some, List.getElem?_eq_getElem hpos']
    rw [StringArray.searchLoop, h.strs, if_neg hne, Option.bind_some, hload, Option.bind_some,
      h.string_getElem hpos' hpos, Option.bind_some, List.drop_eq_getElem_cons hpos]
    by_cases heq : l[i] = text
    · exact ⟨some ptrs[i], if_pos heq, by simp [heq]⟩
    · obtain ⟨r, hr, hmem⟩ := ih (i + 1) (by omega)
      refine ⟨r, by rw [if_neg heq, hr], ?_⟩
      rw [hmem, List.mem_cons, not_or]
      exact ⟨fun hd => ⟨fun he => heq he.symm, hd⟩, fun hd => hd.2⟩

/-- The list with the words added that it does not have. -/
def addWords (words : List Text) (l : List Text) : List Text :=
  words.foldl (fun l word => if word ∈ l then l else l ++ [word]) l

theorem length_le_addWords (words : List Text) (l : List Text) :
    l.length ≤ (addWords words l).length := by
  induction words generalizing l with
  | nil => exact le_rfl
  | cons word words ih =>
    refine le_trans ?_ (ih _)
    by_cases hmem : word ∈ l <;> simp [hmem]

/-- The words that are not there are appended. -/
theorem tokLoop_addWords (words : List Text) :
    ∀ {a : State} {l : List Text}, Represents a l → (addWords words l).length < 2 ^ 32 →
      ∃ a', tokLoop words a = some (0, a') ∧ Represents a' (addWords words l) := by
  induction words with
  | nil => exact fun h _ => ⟨_, rfl, h⟩
  | cons word words ih =>
    intro a l h hlength
    obtain ⟨ptrs, hh⟩ := h
    obtain ⟨r, hsearch, hfound⟩ := hh.searchLoop word l.length 0 (Nat.zero_add _)
    rw [List.drop_zero] at hfound
    rw [tokLoop, search, hh.size, hsearch, Option.bind_some]
    by_cases hmem : word ∈ l
    · have hwords : addWords (word :: words) l = addWords words l := by
        rw [addWords, List.foldl_cons, if_pos hmem, addWords]
      rw [if_neg fun hr => hfound.mp hr hmem, hwords]
      exact ih ⟨ptrs, hh⟩ (hwords ▸ hlength)
    · have hwords : addWords (word :: words) l = addWords words (l ++ [word]) := by
        rw [addWords, List.foldl_cons, if_neg hmem, addWords]
      rw [hwords] at hlength ⊢
      have hle := length_le_addWords words (l ++ [word])
      rw [List.length_append, List.length_singleton] at hle
      obtain ⟨a', happend, hrep⟩ := hh.insert le_rfl (by omega) word
      rw [List.insertIdx_length_self] at hrep
      rw [if_pos (hfound.mpr hmem), append, hh.size, happend, Option.bind_some]
      exact ih hrep hlength

/-! ## Sequences of calls -/

/-- String arrays as a structure that stands for lists. -/
def strings : Calls.Structure Op ℤ State (List Text) where
  run := Op.run
  onModel := Op.onList
  Represents := Represents
  Meets := Op.Meets

/-- A call on an array that represents a list does what it does on the list, exactly under its
condition. -/
theorem refines_iff_meets {a : State} {l : List Text} (h : Represents a l) (op : Op) :
    strings.Refines op a l ↔ op.Meets l := by
  obtain ⟨ptrs, hh⟩ := h
  -- an array represents no list of 2 ^ 32 entries
  have hlt : ∀ {a' l'}, Represents a' l' → l'.length < 2 ^ 32 := fun ⟨_, h'⟩ => h'.length_lt
  cases op with
  | insert entry pos =>
    by_cases hpos : pos ≤ l.length
    · simp only [Calls.Structure.Refines, strings, Op.run, Op.onList, Op.Meets, if_pos hpos]
      refine ⟨fun ⟨a', _, hrep⟩ _ => ?_, fun hm => hh.insert hpos (hm hpos) entry⟩
      have := hlt hrep
      rwa [List.length_insertIdx_of_le_length hpos] at this
    · simp only [Calls.Structure.Refines, strings, Op.run, Op.onList, Op.Meets, if_neg hpos]
      refine ⟨fun _ hp => absurd hp hpos, fun _ => ⟨a, ?_, ptrs, hh⟩⟩
      rw [StringArray.insert, if_pos (by rw [hh.size]; omega)]
  | append entry =>
    simp only [Calls.Structure.Refines, strings, Op.run, Op.onList, Op.Meets]
    refine ⟨fun ⟨a', _, hrep⟩ => ?_, fun hm => ?_⟩
    · have := hlt hrep
      rwa [List.length_append, List.length_singleton] at this
    · obtain ⟨a', hrun, hrep⟩ := hh.insert le_rfl hm entry
      rw [List.insertIdx_length_self] at hrep
      exact ⟨a', by rw [StringArray.append, hh.size, hrun], hrep⟩
  | remove pos =>
    simp only [Calls.Structure.Refines, strings, Op.run, Op.onList, Op.Meets, iff_true]
    by_cases hpos : pos < l.length
    · rw [if_pos hpos]
      exact hh.remove hpos
    · rw [if_neg hpos]
      refine ⟨a, ?_, ptrs, hh⟩
      rw [StringArray.remove]
      by_cases h0 : a.size = 0
      · rw [if_pos h0]
      · rw [if_neg h0, if_pos (by rw [hh.size]; omega)]
  | switch pos1 pos2 =>
    simp only [Calls.Structure.Refines, strings, Op.run, Op.onList, Op.Meets]
    constructor
    · rintro ⟨a', hrun, hrep⟩
      exact hh.switch_eq_self hrun hrep
    · rintro ⟨rfl, hpos⟩
      exact ⟨a, hh.switch_self hpos, by rw [exchange_self]; exact ⟨ptrs, hh⟩⟩
  | filter text =>
    simp only [Calls.Structure.Refines, strings, Op.run, Op.onList, Op.Meets]
    obtain ⟨a', hloop, hrep⟩ := filterLoop_skip text l [] l.length le_rfl ⟨ptrs, hh⟩
    rw [List.nil_append, List.length_nil] at *
    have hrun : StringArray.filter a text = some (0, a') := by rw [StringArray.filter, hh.size, hloop]
    rw [← skip_eq_filter_iff]
    constructor
    · rintro ⟨a'', hrun', hrep'⟩
      obtain rfl : a' = a'' := by simpa using hrun.symm.trans hrun'
      obtain ⟨⟨_, h1⟩, ⟨_, h2⟩⟩ := hrep, hrep'
      exact h1.unique h2
    · intro hskip
      exact ⟨a', hrun, hskip ▸ hrep⟩
  | tok string white =>
    simp only [Calls.Structure.Refines, strings, Op.run, Op.onList, Op.Meets]
    refine ⟨fun ⟨a', _, hrep⟩ => hlt hrep, fun hm => ?_⟩
    exact tokLoop_addWords (tokens string white) ⟨ptrs, hh⟩ hm

/-- Nothing is in an array that has been created. -/
theorem holds_create : Holds create [] [] :=
  ⟨rfl, by decide, rfl, rfl, List.nodup_nil, by simp [create, Heap.string]⟩


/-- Any sequence of calls on a new array equals the same sequence on a list exactly when every call meets
its condition. -/
theorem agrees_iff_meetAll (ops : List Op) : strings.Agrees create [] ops ↔ strings.MeetAll [] ops :=
  Calls.Structure.agrees_iff_of_refines_iff refines_iff_meets ops ⟨[], holds_create⟩

/-- Two entries that are exchanged are the same one afterwards, and of two that a filter has not both are
not removed. -/
theorem switch_and_filter_differ :
    ¬strings.Agrees create [] [.append ['a'], .append ['b'], .switch 0 1] ∧
      ¬strings.Agrees create [] [.append ['a'], .append ['b'], .filter []] := by
  have hcreate : strings.Represents create [] := ⟨[], holds_create⟩
  rw [Calls.Structure.agrees_iff_of_refines_iff refines_iff_meets _ hcreate,
    Calls.Structure.agrees_iff_of_refines_iff refines_iff_meets _ hcreate]
  refine ⟨fun h => absurd h.2.2.1.1 (by decide), fun h => ?_⟩
  have hchain := h.2.2.1
  simp only [strings, Op.onList, List.nil_append, List.singleton_append, Op.Meets,
    List.isChain_cons_cons] at hchain
  exact absurd hchain.1 (by decide)

end StringArray
