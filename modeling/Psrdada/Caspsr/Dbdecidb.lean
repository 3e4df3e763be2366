import Psrdada.Memory.Assign

/-! # `caspsr_dbdecidb.c`: decimation in place

A block holds groups of four bytes, of the one and of the other polarisation in turn.  The decimated data
overwrite its first half.  `dbdecidb_write` goes through the bytes of one polarisation for any factor and
skips the other by advancing its own loop variable; `dbdecidb_write_block_2` handles 16 bytes at a time. -/

namespace Psrdada

namespace Dbdecidb

open Assign

/-! ## The two loops -/

/-- The loop of `dbdecidb_write` from its variables `indat`, `outdat` and `idec` on. -/
def writeLoop (tdec dataSize indat outdat idec : ℕ) : List Assign :=
  if indat < dataSize then
    let idec := idec % tdec
    let indat' := if indat ≠ 0 ∧ indat % 4 = 0 then indat + 4 else indat
    if idec = 0 then
      let outdat := if outdat ≠ 0 ∧ outdat % 4 = 0 then outdat + 4 else outdat
      -- pol0 and pol1
      ⟨outdat, indat'⟩ :: ⟨outdat + 4, indat' + 4⟩ ::
        writeLoop tdec dataSize (indat' + 1) (outdat + 1) (idec + 1)
    else writeLoop tdec dataSize (indat' + 1) outdat (idec + 1)
  else []
termination_by dataSize - indat
decreasing_by
  all_goals
    have : indat ≤ indat' := by
      simp only [indat']
      split <;> omega
    omega

/-- `dbdecidb_write`: what it does to the block. -/
def dbdecidbWrite (tdec dataSize : ℕ) : List Assign := writeLoop tdec dataSize 0 0 0

/-- The loop of `dbdecidb_write_block_2` from its variables `idat`, `indat` and `outdat` on. -/
def writeBlock2Loop (ndat idat indat outdat : ℕ) : List Assign :=
  if idat < ndat then
    -- pol 0
    ⟨outdat, indat⟩ :: ⟨outdat + 1, indat + 2⟩ :: ⟨outdat + 2, indat + 8⟩ :: ⟨outdat + 3, indat + 10⟩ ::
    -- pol 1
    ⟨outdat + 4, indat + 4⟩ :: ⟨outdat + 5, indat + 6⟩ :: ⟨outdat + 6, indat + 12⟩ ::
      ⟨outdat + 7, indat + 14⟩ :: writeBlock2Loop ndat (idat + 16) (indat + 16) (outdat + 8)
  else []
termination_by ndat - idat

/-- `dbdecidb_write_block_2`: what it does to the block. -/
def dbdecidbWriteBlock2 (dataSize : ℕ) : List Assign := writeBlock2Loop dataSize 0 0 0

/-! ## What they go through -/

/-- One step of `dbdecidb_write` that keeps a sample. -/
theorem writeLoop_keep {size i o z : ℕ} (i' o' : ℕ) (hlt : i < size) (hz : z % 2 = 0)
    (hi : i ≠ 0 ∧ i % 4 = 0 ∧ i' = i + 4 ∨ (i = 0 ∨ i % 4 ≠ 0) ∧ i' = i)
    (ho : o ≠ 0 ∧ o % 4 = 0 ∧ o' = o + 4 ∨ (o = 0 ∨ o % 4 ≠ 0) ∧ o' = o) :
    writeLoop 2 size i o z =
      ⟨o', i'⟩ :: ⟨o' + 4, i' + 4⟩ :: writeLoop 2 size (i' + 1) (o' + 1) 1 := by
  have hi' : (if i ≠ 0 ∧ i % 4 = 0 then i + 4 else i) = i' := by split <;> omega
  have ho' : (if o ≠ 0 ∧ o % 4 = 0 then o + 4 else o) = o' := by split <;> omega
  rw [writeLoop, if_pos hlt]
  simp only [hz, hi', ho', if_true]

/-- One step of `dbdecidb_write` that leaves a sample out. -/
theorem writeLoop_skip {size i z : ℕ} (o : ℕ) (hlt : i < size) (hz : z % 2 = 1) (hi : i % 4 ≠ 0) :
    writeLoop 2 size i o z = writeLoop 2 size (i + 1) o 2 := by
  have hi' : (if i ≠ 0 ∧ i % 4 = 0 then i + 4 else i) = i := if_neg fun h => hi h.2
  rw [writeLoop, if_pos hlt]
  simp only [hz, hi', Nat.one_ne_zero, if_false]

theorem writeLoop_end {size i : ℕ} (o z : ℕ) (h : size ≤ i) : writeLoop 2 size i o z = [] := by
  rw [writeLoop, if_neg (Nat.not_lt.2 h)]

/-- What `dbdecidb_write` does to the group `g` of 16 bytes. -/
def writeGroup (g : ℕ) : List Assign :=
  [⟨8 * g, 16 * g⟩, ⟨8 * g + 4, 16 * g + 4⟩, ⟨8 * g + 1, 16 * g + 2⟩, ⟨8 * g + 5, 16 * g + 6⟩,
    ⟨8 * g + 2, 16 * g + 8⟩, ⟨8 * g + 6, 16 * g + 12⟩, ⟨8 * g + 3, 16 * g + 10⟩,
    ⟨8 * g + 7, 16 * g + 14⟩]

/-- What `dbdecidb_write_block_2` does to it. -/
def blockGroup (g : ℕ) : List Assign :=
  [⟨8 * g, 16 * g⟩, ⟨8 * g + 1, 16 * g + 2⟩, ⟨8 * g + 2, 16 * g + 8⟩, ⟨8 * g + 3, 16 * g + 10⟩,
    ⟨8 * g + 4, 16 * g + 4⟩, ⟨8 * g + 5, 16 * g + 6⟩, ⟨8 * g + 6, 16 * g + 12⟩,
    ⟨8 * g + 7, 16 * g + 14⟩]

/-- A group begins at the last group of four bytes before it, which is skipped. -/
theorem writeLoop_group {n g i o z : ℕ} (hg : g < n) (hz : z % 2 = 0)
    (hstart : g = 0 ∧ i = 0 ∧ o = 0 ∨ 0 < g ∧ i + 4 = 16 * g ∧ o + 4 = 8 * g) :
    writeLoop 2 (16 * n) i o z = writeGroup g ++ writeLoop 2 (16 * n) (16 * g + 12) (8 * g + 4) 2 := by
  rw [writeLoop_keep (16 * g) (8 * g) (by omega) hz (by omega) (by omega),
    writeLoop_skip (8 * g + 1) (by omega) rfl (by omega),
    writeLoop_keep (16 * g + 2) (8 * g + 1) (by omega) rfl (by omega) (by omega),
    writeLoop_skip (8 * g + 2) (by omega) rfl (by omega),
    writeLoop_keep (16 * g + 8) (8 * g + 2) (by omega) rfl (by omega) (by omega),
    writeLoop_skip (8 * g + 3) (by omega) rfl (by omega),
    writeLoop_keep (16 * g + 10) (8 * g + 3) (by omega) rfl (by omega) (by omega),
    writeLoop_skip (8 * g + 4) (by omega) rfl (by omega)]
  rfl

/-- The groups one after the other. -/
theorem writeLoop_groups {n k : ℕ} (hk : k < n) :
    dbdecidbWrite 2 (16 * n) =
      (List.range (k + 1)).flatMap writeGroup ++ writeLoop 2 (16 * n) (16 * k + 12) (8 * k + 4) 2 := by
  induction k with
  | zero =>
    rw [dbdecidbWrite, writeLoop_group (g := 0) hk rfl (.inl ⟨rfl, rfl, rfl⟩)]
    rfl
  | succ k ih =>
    rw [ih (by omega), writeLoop_group (g := k + 1) hk rfl (.inr (by omega)), List.range_succ (n := k + 1),
      List.flatMap_append, List.flatMap_singleton, List.append_assoc]

/-- **What `dbdecidb_write` does**: after the last group it goes on to the group behind the block. -/
theorem dbdecidbWrite_eq (n : ℕ) : dbdecidbWrite 2 (16 * n) = (List.range n).flatMap writeGroup ++
    if n = 0 then [] else [⟨8 * n, 16 * n⟩, ⟨8 * n + 4, 16 * n + 4⟩] := by
  cases n with
  | zero => rw [if_pos rfl, dbdecidbWrite, writeLoop_end _ _ (Nat.zero_le _)]; rfl
  | succ k =>
    rw [writeLoop_groups (Nat.lt_succ_self k), if_neg (Nat.succ_ne_zero k),
      writeLoop_keep (16 * (k + 1)) (8 * (k + 1)) (by omega) rfl (by omega) (by omega),
      writeLoop_end _ _ (by omega)]

/-- **What `dbdecidb_write_block_2` does.** -/
theorem dbdecidbWriteBlock2_eq (n : ℕ) :
    dbdecidbWriteBlock2 (16 * n) = (List.range n).flatMap blockGroup := by
  have key (k : ℕ) (hk : k ≤ n) : dbdecidbWriteBlock2 (16 * n) =
      (List.range k).flatMap blockGroup ++ writeBlock2Loop (16 * n) (16 * k) (16 * k) (8 * k) := by
    induction k with
    | zero => rfl
    | succ k ih =>
      rw [ih (by omega), writeBlock2Loop, if_pos (by omega), List.range_succ, List.flatMap_append,
        List.flatMap_singleton, List.append_assoc]
      rfl
  rw [key n (Nat.le_refl n), writeBlock2Loop, if_neg (Nat.lt_irrefl _), List.append_nil]

/-! ## Decimation -/

/-- Where sample `u` of polarisation `p` is. -/
def sampleAt (u p : ℕ) : ℕ := 8 * (u / 4) + 4 * p + u % 4

/-- The block begins with every second sample of each polarisation. -/
def Decimates (size : ℕ) (moves : List Assign) : Prop :=
  ∀ (mem : Memory UInt8) (u p : ℕ), u < size / 4 → p < 2 →
    runInPlace moves mem (sampleAt u p) = mem (sampleAt (2 * u) p)

/-- What is asked of one of the loops. -/
structure Sound (size : ℕ) (moves : List Assign) : Prop where
  decimates : Decimates size moves
  fresh : Fresh moves
  inside : Inside size moves

/-- The assignments of a group. -/
structure IsGroup (g : ℕ) (moves : List Assign) : Prop where
  mem : ∀ u p, u / 4 = g → p < 2 → (⟨sampleAt u p, sampleAt (2 * u) p⟩ : Assign) ∈ moves
  dst : ∀ m ∈ moves, 8 * g ≤ m.dst ∧ m.dst < 8 * g + 8
  src : ∀ m ∈ moves, 16 * g ≤ m.src ∧ m.src < 16 * g + 16
  once : (moves.map Assign.dst).Nodup
  fresh : Fresh moves

theorem isGroup_blockGroup (g : ℕ) : IsGroup g (blockGroup g) where
  mem u p hu hp := by
    obtain ⟨j, hj, rfl⟩ : ∃ j, j < 4 ∧ u = 4 * g + j := ⟨u % 4, Nat.mod_lt _ (Nat.succ_pos _), by omega⟩
    have hdst : sampleAt (4 * g + j) p = 8 * g + 4 * p + j := by unfold sampleAt; omega
    have hsrc : sampleAt (2 * (4 * g + j)) p = 16 * g + 8 * (j / 2) + 4 * p + 2 * (j % 2) := by
      unfold sampleAt; omega
    rw [hdst, hsrc]
    simp only [blockGroup, List.mem_cons, Assign.mk.injEq, List.not_mem_nil, or_false]
    omega
  dst m hm := by
    simp only [blockGroup, List.mem_cons, List.not_mem_nil, or_false] at hm
    obtain rfl | rfl | rfl | rfl | rfl | rfl | rfl | rfl := hm <;> exact ⟨by simp only; omega, by simp only; omega⟩
  src m hm := by
    simp only [blockGroup, List.mem_cons, List.not_mem_nil, or_false] at hm
    obtain rfl | rfl | rfl | rfl | rfl | rfl | rfl | rfl := hm <;> exact ⟨by simp only; omega, by simp only; omega⟩
  once := by
    simp only [blockGroup, List.map_cons, List.map_nil, List.nodup_cons, List.mem_cons, List.not_mem_nil,
      or_false, not_false_eq_true, List.nodup_nil, and_true]
    omega
  fresh := by
    simp only [Fresh, blockGroup, List.pairwise_cons, List.mem_cons, List.not_mem_nil, or_false,
      forall_eq_or_imp, forall_eq, List.Pairwise.nil, and_true, false_implies, implies_true]
    omega

/-- The loops differ in the order within a group. -/
theorem perm_writeGroup (g : ℕ) : (writeGroup g).Perm (blockGroup g) := by
  have horder : [0, 4, 1, 5, 2, 6, 3, 7].Perm [0, 1, 2, 3, 4, 5, 6, 7] := by decide
  exact horder.map fun j => (blockGroup g).getD j ⟨0, 0⟩

theorem isGroup_writeGroup (g : ℕ) : IsGroup g (writeGroup g) where
  mem u p hu hp := (perm_writeGroup g).mem_iff.2 ((isGroup_blockGroup g).mem u p hu hp)
  dst m hm := (isGroup_blockGroup g).dst m ((perm_writeGroup g).mem_iff.1 hm)
  src m hm := (isGroup_blockGroup g).src m ((perm_writeGroup g).mem_iff.1 hm)
  once := ((perm_writeGroup g).map Assign.dst).nodup_iff.2 (isGroup_blockGroup g).once
  fresh := by
    simp only [Fresh, writeGroup, List.pairwise_cons, List.mem_cons, List.not_mem_nil, or_false,
      forall_eq_or_imp, forall_eq, List.Pairwise.nil, and_true, false_implies, implies_true]
    omega

section

variable {group : ℕ → List Assign} (hgroup : ∀ g, IsGroup g (group g)) {n : ℕ}
include hgroup

/-- The places of the groups. -/
theorem mem_groups {m : Assign} (hm : m ∈ (List.range n).flatMap group) :
    ∃ g < n, 8 * g ≤ m.dst ∧ m.dst < 8 * g + 8 ∧ 16 * g ≤ m.src ∧ m.src < 16 * g + 16 := by
  obtain ⟨g, hg, hm⟩ := List.mem_flatMap.1 hm
  exact ⟨g, List.mem_range.1 hg, ((hgroup g).dst m hm).1, ((hgroup g).dst m hm).2, (hgroup g).src m hm⟩

/-- No two groups write the same byte. -/
theorem nodup_groups : (((List.range n).flatMap group).map Assign.dst).Nodup := by
  rw [List.map_flatMap]
  refine List.nodup_flatMap.2 ⟨fun g _ => (hgroup g).once, ?_⟩
  refine List.nodup_range.imp fun {g g'} hne => ?_
  intro i hi hi'
  obtain ⟨m, hm, rfl⟩ := List.mem_map.1 hi
  obtain ⟨m', hm', heq⟩ := List.mem_map.1 hi'
  have := (hgroup g).dst m hm
  have := (hgroup g').dst m' hm'
  omega

/-- A group is read before the later ones overwrite it. -/
theorem fresh_groups : Fresh ((List.range n).flatMap group) := by
  refine List.pairwise_flatMap.2 ⟨fun g _ => (hgroup g).fresh, ?_⟩
  refine List.pairwise_lt_range.imp fun {g g'} hlt => ?_
  intro m hm m' hm'
  have := (hgroup g).dst m hm
  have := (hgroup g').src m' hm'
  omega

/-- All groups are in the block. -/
theorem inside_groups : Inside (16 * n) ((List.range n).flatMap group) := by
  intro m hm
  obtain ⟨g, hg, hdst, hdst', hsrc, hsrc'⟩ := mem_groups hgroup hm
  omega

/-- The groups, and what comes after them, decimate the block. -/
theorem decimates_groups {rest : List Assign} (hfresh : Fresh ((List.range n).flatMap group ++ rest))
    (hrest : ∀ m ∈ rest, 8 * n ≤ m.dst) : Decimates (16 * n) ((List.range n).flatMap group ++ rest) := by
  intro mem u p hu hp
  have hlt : sampleAt u p < 8 * n := by unfold sampleAt; omega
  have hnot : sampleAt u p ∉ rest.map Assign.dst := fun h => by
    obtain ⟨m, hm, heq⟩ := List.mem_map.1 h
    have := hrest m hm
    omega
  have hmem : (⟨sampleAt u p, sampleAt (2 * u) p⟩ : Assign) ∈ (List.range n).flatMap group :=
    List.mem_flatMap.2 ⟨u / 4, List.mem_range.2 (by omega), (hgroup (u / 4)).mem u p rfl hp⟩
  rw [runInPlace_eq_run hfresh, run_append, run_of_not_mem hnot]
  exact run_of_mem (nodup_groups hgroup) hmem

end

/-- `dbdecidb_write` decimates the block, and overwrites no byte before it is read. -/
theorem decimates_dbdecidbWrite (n : ℕ) :
    Decimates (16 * n) (dbdecidbWrite 2 (16 * n)) ∧ Fresh (dbdecidbWrite 2 (16 * n)) := by
  obtain ⟨rest, hrest⟩ : ∃ rest, rest =
      if n = 0 then [] else [(⟨8 * n, 16 * n⟩ : Assign), ⟨8 * n + 4, 16 * n + 4⟩] := ⟨_, rfl⟩
  have hmem : ∀ m ∈ rest, 8 * n ≤ m.dst ∧ 16 * n ≤ m.src ∧ m.dst < m.src := fun m hm => by
    rw [hrest] at hm
    split at hm
    · cases hm
    · obtain rfl | hm := List.mem_cons.1 hm
      · exact ⟨by simp only; omega, by simp only; omega, by simp only; omega⟩
      · obtain rfl := List.mem_singleton.1 hm
        exact ⟨by simp only; omega, by simp only; omega, by simp only; omega⟩
  have hlast : Fresh rest := by
    rw [hrest]
    split
    · exact List.Pairwise.nil
    · simp only [Fresh, List.pairwise_cons, List.mem_singleton, forall_eq, List.not_mem_nil, false_implies,
        implies_true, List.Pairwise.nil, and_true]
      omega
  have hfresh : Fresh ((List.range n).flatMap writeGroup ++ rest) := by
    refine List.pairwise_append.2 ⟨fresh_groups isGroup_writeGroup, hlast, fun m hm m' hm' => ?_⟩
    obtain ⟨g, hg, -, hdst, -⟩ := mem_groups isGroup_writeGroup hm
    have := hmem m' hm'
    omega
  rw [dbdecidbWrite_eq, ← hrest]
  exact ⟨decimates_groups isGroup_writeGroup hfresh fun m hm => (hmem m hm).1, hfresh⟩

/-- `dbdecidb_write_block_2` decimates the block, overwrites no byte before it is read, and stays inside. -/
theorem sound_dbdecidbWriteBlock2 (n : ℕ) : Sound (16 * n) (dbdecidbWriteBlock2 (16 * n)) := by
  have hfresh := fresh_groups isGroup_blockGroup (n := n)
  have hdecimates := @decimates_groups _ isGroup_blockGroup n []
    (by rw [List.append_nil]; exact hfresh) fun m hm => absurd hm List.not_mem_nil
  rw [List.append_nil] at hdecimates
  rw [dbdecidbWriteBlock2_eq]
  exact ⟨hdecimates, hfresh, inside_groups isGroup_blockGroup⟩

/-- `dbdecidb_write` stays inside of an empty block only. -/
theorem inside_dbdecidbWrite_iff (n : ℕ) : Inside (16 * n) (dbdecidbWrite 2 (16 * n)) ↔ n = 0 := by
  rw [dbdecidbWrite_eq]
  constructor
  · intro h
    by_contra hn
    rw [if_neg hn] at h
    have := (h ⟨8 * n, 16 * n⟩ (List.mem_append_right _ List.mem_cons_self)).2
    exact Nat.lt_irrefl _ this
  · rintro rfl
    exact fun m hm => absurd hm List.not_mem_nil

/-- Both loops leave the same decimated bytes. -/
theorem decimated_eq {size : ℕ} {moves moves' : List Assign} (hsize : 16 ∣ size) (h : Decimates size moves)
    (h' : Decimates size moves') (mem : Memory UInt8) {i : ℕ} (hi : i < size / 2) :
    runInPlace moves mem i = runInPlace moves' mem i := by
  have hat : sampleAt (4 * (i / 8) + i % 4) (i % 8 / 4) = i := by unfold sampleAt; omega
  have hu : 4 * (i / 8) + i % 4 < size / 4 := by omega
  rw [← hat, h mem _ _ hu (by omega), h' mem _ _ hu (by omega)]

/-- **The two loops do what is asked**: they leave the same bytes, which are every second sample of each
polarisation, overwrite none before it is read, and stay inside of the block. -/
def Agrees (size : ℕ) : Prop :=
  Sound size (dbdecidbWrite 2 size) ∧ Sound size (dbdecidbWriteBlock2 size) ∧
    ∀ (mem : Memory UInt8) (i : ℕ), i < size / 2 →
      runInPlace (dbdecidbWrite 2 size) mem i = runInPlace (dbdecidbWriteBlock2 size) mem i

/-- **It is met on the empty block only**, since `dbdecidb_write` reads two bytes behind any other.  All
that is asked besides is met on every block. -/
theorem agrees_iff (size : ℕ) (hsize : 16 ∣ size) :
    (Agrees size ↔ size = 0) ∧ Sound size (dbdecidbWriteBlock2 size) ∧
      Decimates size (dbdecidbWrite 2 size) ∧ Fresh (dbdecidbWrite 2 size) ∧
      ∀ (mem : Memory UInt8) (i : ℕ), i < size / 2 →
        runInPlace (dbdecidbWrite 2 size) mem i = runInPlace (dbdecidbWriteBlock2 size) mem i := by
  obtain ⟨n, rfl⟩ := hsize
  obtain ⟨hdecimates, hfresh⟩ := decimates_dbdecidbWrite n
  have hblock := sound_dbdecidbWriteBlock2 n
  have hsame := fun (mem : Memory UInt8) (i : ℕ) (hi : i < 16 * n / 2) =>
    decimated_eq (Nat.dvd_mul_right 16 n) hdecimates hblock.decimates mem hi
  refine ⟨⟨fun h => ?_, fun h => ?_⟩, hblock, hdecimates, hfresh, hsame⟩
  · rw [(inside_dbdecidbWrite_iff n).1 h.1.inside]
  · have hn : n = 0 := by omega
    exact ⟨⟨hdecimates, hfresh, (inside_dbdecidbWrite_iff n).2 hn⟩, hblock, hsame⟩

/-- A block of two groups. -/
theorem agrees_iff_32 :
    (Agrees 32 ↔ 32 = 0) ∧ Sound 32 (dbdecidbWriteBlock2 32) ∧
      Decimates 32 (dbdecidbWrite 2 32) ∧ Fresh (dbdecidbWrite 2 32) ∧
      ∀ (mem : Memory UInt8) (i : ℕ), i < 32 / 2 →
        runInPlace (dbdecidbWrite 2 32) mem i = runInPlace (dbdecidbWriteBlock2 32) mem i :=
  agrees_iff 32 (by decide)

/-- With 16 bytes, `dbdecidb_write` reads byte 16. -/
theorem not_agrees_16 : ¬ Agrees 16 := by
  rintro ⟨⟨-, -, hinside⟩, -⟩
  have hmem : (⟨8, 16⟩ : Assign) ∈ dbdecidbWrite 2 16 := by
    rw [show 16 = 16 * 1 by rfl, dbdecidbWrite_eq]
    decide
  exact absurd (hinside ⟨8, 16⟩ hmem).2 (by decide)

end Dbdecidb

end Psrdada
