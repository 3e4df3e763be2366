import Mathlib.Data.Bool.Basic
import Psrdada.Concurrency.Fairness
import Psrdada.Dbmergedb.Aligning

/-! # The merged output

Two inputs that start at different times are merged from a common place on, whatever the order in which
the threads take their turns.  The input that starts earlier is to lose `n` bytes, those up to the start of
the other one.  It loses `discarded bufsz n` instead: of the block in which the `n` bytes end,
`input_thread` keeps the last part as long as it should have kept the first one away, so that the two agree
only where these bytes end in the middle of a block (`discarded_eq_iff`).

`merges` says for every order of turns what is written, and for which inputs there is an output at all. -/

namespace Psrdada

open Fairness

/-! ## What is discarded -/

/-- The bytes of a block that are still to be discarded when the last block is opened for it. -/
def lastDiscard (bufsz n : ℕ) : ℕ := (n - 1) % bufsz + 1

/-- The bytes that `input_thread` discards of an input that is to lose `n`. -/
def discarded (bufsz n : ℕ) : ℕ :=
  if n = 0 then 0 else (n - 1) / bufsz * bufsz + (bufsz - lastDiscard bufsz n)

/-- They are as many as they shall be where the last of them are half a block. -/
theorem discarded_eq_iff {bufsz n : ℕ} (hb : 0 < bufsz) :
    discarded bufsz n = n ↔ n = 0 ∨ 2 * lastDiscard bufsz n = bufsz := by
  unfold discarded
  rcases Nat.eq_zero_or_pos n with rfl | hn
  · simp
  · have hsplit : (n - 1) / bufsz * bufsz + (n - 1) % bufsz = n - 1 := by
      rw [Nat.mul_comm]
      exact Nat.div_add_mod _ _
    have hlt : (n - 1) % bufsz < bufsz := Nat.mod_lt _ hb
    rw [if_neg (Nat.pos_iff_ne_zero.mp hn), lastDiscard]
    omega

theorem dvd_lastDiscard {bufsz n size : ℕ} (hn : 0 < n) (hb : size ∣ bufsz) (hsize : size ∣ n) :
    size ∣ lastDiscard bufsz n := by
  have hsplit := Nat.div_add_mod (n - 1) bufsz
  have hlast : lastDiscard bufsz n = n - bufsz * ((n - 1) / bufsz) := by
    rw [lastDiscard]
    omega
  rw [hlast]
  exact Nat.dvd_sub hsize (Nat.dvd_mul_right_of_dvd hb _)

/-- Whole chunks are discarded where whole chunks shall be. -/
theorem dvd_discarded {bufsz n size : ℕ} (hb : size ∣ bufsz) (hsize : size ∣ n) :
    size ∣ discarded bufsz n := by
  unfold discarded
  split_ifs with hn
  · exact Nat.dvd_zero _
  · exact Nat.dvd_add (Nat.dvd_mul_left_of_dvd hb _)
      (Nat.dvd_sub hb (dvd_lastDiscard (Nat.pos_of_ne_zero hn) hb hsize))

/-- Discarding drops bytes from the front of the full blocks, if there are enough. -/
theorem discardBlocks_eq {bufsz : ℕ} (hb : 0 < bufsz) (blocks : List (List UInt8))
    (hfull : ∀ b ∈ blocks, b.length = bufsz) {n : ℕ} (hn : 0 < n) :
    (discardBlocks bufsz blocks n = none ↔ blocks.length * bufsz < n) ∧
      ∀ first rest, discardBlocks bufsz blocks n = some (first, rest) →
        first ++ rest.flatten = blocks.flatten.drop (discarded bufsz n) ∧
          first.length = lastDiscard bufsz n ∧ rest ⊆ blocks := by
  induction blocks generalizing n with
  | nil =>
    refine ⟨?_, fun first rest h => by simp [discardBlocks] at h⟩
    simp only [discardBlocks, List.length_nil, Nat.zero_mul, true_iff]
    exact hn
  | cons b blocks ih =>
    rw [List.forall_mem_cons] at hfull
    rw [discardBlocks]
    by_cases hlt : bufsz < n
    · rw [if_pos hlt]
      obtain ⟨hnone, hsome⟩ := ih hfull.2 (n := n - bufsz) (by omega)
      have hpred : n - 1 = (n - bufsz - 1) + bufsz := by omega
      have hdiv : (n - 1) / bufsz = (n - bufsz - 1) / bufsz + 1 := by
        rw [hpred, Nat.add_div_right _ hb]
      have hlast : lastDiscard bufsz n = lastDiscard bufsz (n - bufsz) := by
        rw [lastDiscard, lastDiscard, hpred, Nat.add_mod_right]
      constructor
      · rw [hnone, List.length_cons, Nat.succ_mul]
        omega
      · intro first rest h
        obtain ⟨hdrop, hlen, hsub⟩ := hsome first rest h
        refine ⟨?_, hlen.trans hlast.symm, List.subset_cons_of_subset _ hsub⟩
        have htotal : discarded bufsz n = b.length + discarded bufsz (n - bufsz) := by
          rw [discarded, discarded, if_neg (by omega), if_neg (by omega), hdiv, hlast, hfull.1, Nat.succ_mul]
          omega
        rw [hdrop, htotal, List.flatten_cons, List.drop_length_add_append]
    · rw [if_neg hlt]
      have hzero : (n - 1) / bufsz = 0 := Nat.div_eq_of_lt (by omega)
      have hlast : lastDiscard bufsz n = n := by
        rw [lastDiscard, Nat.mod_eq_of_lt (by omega)]
        omega
      constructor
      · refine iff_of_false (by simp) ?_
        rw [List.length_cons, Nat.succ_mul]
        omega
      · intro first rest h
        obtain ⟨rfl, rfl⟩ := Prod.mk.inj (Option.some.inj h)
        refine ⟨?_, ?_, List.subset_cons_self _ _⟩
        · rw [discarded, if_neg (by omega), hzero, hlast, Nat.zero_mul, Nat.zero_add, List.flatten_cons,
            List.drop_append_of_le_length (by rw [hfull.1]; omega)]
        · rw [List.length_drop, hfull.1, hlast]
          omega

/-- The chunks of data that consists of whole chunks and more. -/
theorem chunksOf_append {beyond : ℕ → UInt8} {size : ℕ} (hsize : 0 < size) {a : List UInt8}
    (ha : size ∣ a.length) (b : List UInt8) :
    chunksOf beyond size (a ++ b) = chunksOf beyond size a ++ chunksOf beyond size b := by
  induction hn : a.length using Nat.strong_induction_on generalizing a with
  | _ n ih =>
    rcases eq_or_ne a [] with rfl | hne
    · simp
    · have hpos := List.length_pos_iff.mpr hne
      have hle : size ≤ a.length := Nat.le_of_dvd hpos ha
      have hdrop : size ∣ (a.drop size).length := by
        rw [List.length_drop]
        exact Nat.dvd_sub ha (Nat.dvd_refl _)
      rw [chunksOf_ne_nil (List.append_ne_nil_of_left_ne_nil hne b) hsize, chunksOf_ne_nil hne hsize,
        List.append_assoc, List.take_append_of_le_length hle, List.take_append_of_le_length hle,
        List.drop_append_of_le_length hle, ih (a.drop size).length (by rw [List.length_drop]; omega) hdrop rfl,
        List.cons_append]

theorem flatMap_chunksOf {beyond : ℕ → UInt8} {size : ℕ} (hsize : 0 < size) {blocks : List (List UInt8)}
    (h : ∀ b ∈ blocks, size ∣ b.length) :
    blocks.flatMap (chunksOf beyond size) = chunksOf beyond size blocks.flatten := by
  induction blocks with
  | nil => simp
  | cons b blocks ih =>
    rw [List.forall_mem_cons] at h
    rw [List.flatMap_cons, List.flatten_cons, chunksOf_append hsize h.1, ih h.2]

/-- The chunks by their places. -/
theorem chunksOf_eq_map {beyond : ℕ → UInt8} {size : ℕ} (hsize : 0 < size) {data : List UInt8}
    (h : size ∣ data.length) :
    chunksOf beyond size data =
      (List.range (data.length / size)).map fun i => (data.drop (i * size)).take size := by
  induction hn : data.length using Nat.strong_induction_on generalizing data with
  | _ n ih =>
    subst hn
    rcases eq_or_ne data [] with rfl | hne
    · simp
    · have hpos := List.length_pos_iff.mpr hne
      have hle : size ≤ data.length := Nat.le_of_dvd hpos h
      have hdrop : size ∣ (data.drop size).length := by
        rw [List.length_drop]
        exact Nat.dvd_sub h (Nat.dvd_refl _)
      have hcount : data.length / size = (data.drop size).length / size + 1 := by
        rw [List.length_drop, Nat.div_eq_sub_div hsize hle]
      rw [chunksOf_ne_nil hne hsize, List.take_append_of_le_length hle, hcount, List.range_succ_eq_map,
        List.map_cons, List.map_map, ih _ (by rw [List.length_drop]; omega) hdrop rfl]
      refine congrArg₂ _ (by rw [Nat.zero_mul, List.drop_zero]) (List.map_congr_left fun i _ => ?_)
      show ((data.drop size).drop (i * size)).take size = (data.drop ((i + 1) * size)).take size
      rw [List.drop_drop, Nat.succ_mul, Nat.add_comm]

/-- Pairs of chunks, joined by their places. -/
theorem joinPairs_zip_map (f g : ℕ → List UInt8) (p q : ℕ) {n : ℕ} (hn : n ≤ min p q) :
    joinPairs ((((List.range p).map f).zip ((List.range q).map g)).take n) =
      (List.range n).flatMap fun i => f i ++ g i := by
  have hzip : (((List.range p).map f).zip ((List.range q).map g)).take n =
      (List.range n).map fun i => (f i, g i) := by
    refine List.ext_getElem (by simp; omega) fun i h₁ h₂ => ?_
    simp
  rw [hzip, joinPairs, List.flatMap_map]

/-! ## Times -/

theorem sampleDifference_swap (a b : ℤ) (tsampPsec : ℕ) :
    sampleDifference b a tsampPsec = -sampleDifference a b tsampPsec := by
  rw [sampleDifference, sampleDifference, ← Int.neg_tdiv, Int.neg_sub]

/-- A start that has been moved by the difference is the other one, up to less than a sample. -/
theorem sampleDifference_caughtUp {a b : ℤ} {tsampPsec : ℕ} (ht : 0 < tsampPsec)
    (h : 0 ≤ sampleDifference a b tsampPsec) :
    sampleDifference (a + sampleDifference a b tsampPsec * tsampPsec) b tsampPsec = 0 := by
  have ht' : (0 : ℤ) < tsampPsec := Int.natCast_pos.mpr ht
  rcases Int.lt_or_eq_of_le h with hpos | hzero
  swap
  · rw [← hzero, Int.zero_mul, Int.add_zero]
    exact hzero.symm
  · have hab : 0 ≤ b - a := by
      by_contra hneg
      have : (b - a).tdiv tsampPsec ≤ 0 := by
        rw [← Int.neg_neg (b - a), Int.neg_tdiv]
        have := Int.tdiv_nonneg (a := -(b - a)) (b := tsampPsec) (by omega) (by omega)
        omega
      rw [sampleDifference] at hpos
      omega
    have hmod := Int.mul_tdiv_add_tmod (b - a) tsampPsec
    have hlo : 0 ≤ (b - a).tmod tsampPsec := Int.tmod_nonneg _ hab
    have hhi : (b - a).tmod tsampPsec < tsampPsec := Int.tmod_lt_of_pos _ ht'
    have hrest : b - (a + sampleDifference a b tsampPsec * tsampPsec) = (b - a).tmod tsampPsec := by
      rw [sampleDifference, Int.mul_comm]
      omega
    show (b - (a + sampleDifference a b tsampPsec * tsampPsec)).tdiv tsampPsec = 0
    rw [hrest]
    exact Int.tdiv_eq_zero_of_lt hlo hhi

/-! ## The turns of the threads -/

/-- An input: `polb` for `true`. -/
def Merger.input (m : Merger) (polb : Bool) : DadaBlock := if polb then m.polb else m.pola

namespace DadaBlock

theorem mem_fullBlocks {db : DadaBlock} {b : List UInt8} (h : b ∈ db.fullBlocks) : b.length = db.bufsz := by
  simpa using List.mem_takeWhile_imp h

theorem length_flatten_fullBlocks (db : DadaBlock) :
    db.fullBlocks.flatten.length = db.fullBlocks.length * db.bufsz := by
  rw [List.length_flatten, List.map_congr_left (fun b => mem_fullBlocks), List.map_const',
    List.sum_replicate_nat]

/-- An input before its thread has started. -/
structure Fresh (db : DadaBlock) : Prop where
  /-- A block is not empty. -/
  bufsz_pos : 0 < db.bufsz
  /-- No block is open. -/
  closed : db.blockOpen = false
  /-- Nothing has been read. -/
  source : db.source = .between db.source.blocks
  /-- The header has not been read. -/
  utcStart : db.utcStart = none
  /-- The thread has not returned. -/
  thread : db.thread = .running

/-- The thread has read the header. -/
def started (db : DadaBlock) : DadaBlock := { db with utcStart := some db.headerStart }

/-- The thread has returned. -/
def returned (db : DadaBlock) : DadaBlock := { db with thread := .aligned }

/-- The thread has failed. -/
def aborted (db : DadaBlock) : DadaBlock := { db with thread := .failed }

theorem Fresh.tidy_started {db : DadaBlock} (h : db.Fresh) : db.started.Tidy :=
  ⟨h.bufsz_pos, fun _ => h.source, fun hopen => absurd (h.closed.symm.trans hopen) (by decide)⟩

/-- The chunks of an input from the first block on. -/
theorem Fresh.chunks {db : DadaBlock} (h : db.Fresh) {size : ℕ} (hsize : 0 < size) (hdvd : size ∣ db.bufsz)
    (beyond : ℕ → UInt8) : db.chunks beyond size = chunksOf beyond size db.fullBlocks.flatten := by
  rw [DadaBlock.chunks, h.closed, ← flatMap_chunksOf hsize]
  · rfl
  · intro b hb
    rwa [mem_fullBlocks hb]

/-- What is left of an input after whole chunks have been discarded. -/
theorem Fresh.discard_chunks {db : DadaBlock} (h : db.Fresh) {size n : ℕ} (hsize : 0 < size)
    (hdvd : size ∣ db.bufsz) (hn : size ∣ n) :
    (db.started.discard n = none ↔ ¬ n ≤ db.fullBlocks.length * db.bufsz) ∧
      ∀ db', db.started.discard n = some db' → db'.Tidy ∧ db.SameInput db' ∧
        size ∣ (db.fullBlocks.flatten.drop (discarded db.bufsz n)).length ∧
        ∀ beyond, db'.chunks beyond size =
          chunksOf beyond size (db.fullBlocks.flatten.drop (discarded db.bufsz n)) := by
  have hflat : size ∣ db.fullBlocks.flatten.length := by
    rw [length_flatten_fullBlocks]
    exact Nat.dvd_mul_left_of_dvd hdvd _
  have hdrop : size ∣ (db.fullBlocks.flatten.drop (discarded db.bufsz n)).length := by
    rw [List.length_drop]
    exact Nat.dvd_sub hflat (dvd_discarded hdvd hn)
  rcases Nat.eq_zero_or_pos n with rfl | hpos
  · rw [discard, if_pos rfl]
    refine ⟨iff_of_false (by simp) (by simp), fun db' hdb' => ?_⟩
    obtain rfl := Option.some.inj hdb'
    refine ⟨h.tidy_started, ⟨rfl, rfl, rfl⟩, hdrop, fun beyond => ?_⟩
    rw [discarded, if_pos rfl, List.drop_zero]
    exact h.chunks hsize hdvd beyond
  · obtain ⟨hnone, hsome⟩ := discard_spec _ h.tidy_started h.closed rfl hpos
    obtain ⟨hfew, hrest⟩ := discardBlocks_eq h.bufsz_pos db.fullBlocks (fun b => mem_fullBlocks) hpos
    cases hblocks : discardBlocks db.bufsz db.fullBlocks n with
    | none =>
      have hdiscard : db.started.discard n = none := hnone hblocks
      rw [hdiscard]
      exact ⟨iff_of_true rfl (Nat.not_le.mpr (hfew.mp hblocks)), fun db' h' => by cases h'⟩
    | some r =>
      obtain ⟨first, rest⟩ := r
      obtain ⟨db', hdb', htidy, hsame, hchunks⟩ := hsome first rest hblocks
      obtain ⟨hstream, hfirst, hsub⟩ := hrest first rest hblocks
      have hlast : size ∣ first.length := by
        rw [hfirst]
        exact dvd_lastDiscard hpos hdvd hn
      have hwhole : ∀ b ∈ rest, size ∣ b.length := fun b hb => by rwa [mem_fullBlocks (hsub hb)]
      have hmany : n ≤ db.fullBlocks.length * db.bufsz := by
        refine Nat.le_of_not_lt fun hlt => ?_
        rw [hfew.mpr hlt] at hblocks
        cases hblocks
      rw [hdb']
      refine ⟨iff_of_false (by simp) (not_not.mpr hmany), fun db'' h'' => ?_⟩
      obtain rfl := Option.some.inj h''
      refine ⟨htidy, ⟨hsame.bufsz, hsame.headerStart, hsame.thread⟩, hdrop, fun beyond => ?_⟩
      rw [hchunks, flatMap_chunksOf hsize hwhole, ← chunksOf_append hsize hlast, hstream]

end DadaBlock

section Rounds

variable (sampling : Sampling)

/-- The step of a thread, as the turn of a party. -/
def turn (polb : Bool) (m : Merger) : Merger := m.round sampling polb

variable {sampling} {db other : DadaBlock}

variable (sampling) in
theorem input_turn_same (b : Bool) (m : Merger) :
    (turn sampling b m).input b = inputThread sampling (m.input b) (m.input !b) := by
  cases b <;> rfl

variable (sampling) in
theorem input_turn_other (b : Bool) (m : Merger) : (turn sampling b m).input (!b) = m.input !b := by
  cases b <;> rfl

theorem inputThread_fresh (h : db.Fresh) : inputThread sampling db other = db.started := by
  obtain ⟨bufsz, headerStart, utcStart, source, bytes, blockOpen, currBuf, thread⟩ := db
  obtain rfl : utcStart = none := h.utcStart
  obtain rfl : thread = .running := h.thread
  rfl

theorem inputThread_idle (h : db.thread ≠ .running) : inputThread sampling db other = db := by
  unfold inputThread
  cases hthread : db.thread with
  | running => exact absurd hthread h
  | aligned => rfl
  | failed => rfl

/-- A thread waits while the other one has not started, or has failed with the mutex locked. -/
theorem inputThread_waits (hutc : db.utcStart ≠ none)
    (hother : other.thread = .failed ∨ other.utcStart = none) : inputThread sampling db other = db := by
  unfold inputThread
  cases db.thread with
  | running =>
    cases hu : db.utcStart with
    | none => exact absurd hu hutc
    | some t =>
      simp only []
      split_ifs with hfailed
      · rfl
      · rw [hother.resolve_left hfailed]
  | aligned => rfl
  | failed => rfl

/-- Two threads that have started compare their times. -/
theorem inputThread_compares {t t' : ℤ} (hrun : db.thread = .running) (hutc : db.utcStart = some t)
    (hother : other.thread ≠ .failed) (hutc' : other.utcStart = some t') :
    inputThread sampling db other =
      if sampleDifference t t' sampling.tsampPsec = 0 then db.returned
      else if sampleDifference t t' sampling.tsampPsec > 0 then
        if (sampleDifference t t' sampling.tsampPsec).toNat * sampling.bytesPerSample %
            sampling.resolution ≠ 0 then db.aborted
        else
          ((db.discard ((sampleDifference t t' sampling.tsampPsec).toNat * sampling.bytesPerSample)).map
            fun db => { db with
              utcStart := some (t + sampleDifference t t' sampling.tsampPsec * sampling.tsampPsec) }).getD
            db.aborted
      else db := by
  obtain ⟨bufsz, headerStart, utcStart, source, bytes, blockOpen, currBuf, thread⟩ := db
  obtain rfl : utcStart = some t := hutc
  obtain rfl : thread = .running := hrun
  simp only [inputThread, if_neg hother, hutc']
  split_ifs
  · rfl
  · rfl
  · cases DadaBlock.discard _ _ <;> rfl
  · rfl

/-- A thread that has started stays so. -/
theorem inputThread_started (h : db.utcStart.isSome) :
    (inputThread sampling db other).utcStart.isSome := by
  unfold inputThread
  cases hthread : db.thread with
  | running =>
    obtain ⟨t, ht⟩ := Option.isSome_iff_exists.mp h
    simp only [ht]
    split_ifs with hfailed
    · exact h
    · cases other.utcStart with
      | none => exact h
      | some t' =>
        simp only []
        split_ifs
        · rfl
        · rfl
        · cases DadaBlock.discard _ _ <;> rfl
        · exact h
  | aligned => exact h
  | failed => exact h

theorem turn_started {b : Bool} {m : Merger} (h : (m.input b).utcStart.isSome) (b' : Bool) :
    ((turn sampling b' m).input b).utcStart.isSome := by
  rcases Bool.eq_or_eq_not b b' with rfl | rfl
  · rw [input_turn_same]
    exact inputThread_started h
  · rwa [input_turn_other]

end Rounds

/-! ## The two inputs -/

/-- Two inputs whose threads have not started: the one that starts earlier, and the one that starts later
or, by less than a sample, does not. -/
structure Inputs (sampling : Sampling) where
  /-- The earlier one. -/
  early : DadaBlock
  /-- The later one. -/
  late : DadaBlock
  /-- The thread of the earlier one has not started. -/
  early_fresh : early.Fresh
  /-- The thread of the later one has not started. -/
  late_fresh : late.Fresh
  /-- The difference of the starts. -/
  order : 0 ≤ sampleDifference early.headerStart late.headerStart sampling.tsampPsec
  /-- The blocks of the earlier one consist of chunks. -/
  early_chunks : sampling.resolution ∣ early.bufsz
  /-- The blocks of the later one consist of chunks. -/
  late_chunks : sampling.resolution ∣ late.bufsz
  /-- The blocks of the output consist of pairs of chunks. -/
  pairs : sampling.resolution * 2 ∣ early.bufsz + late.bufsz

namespace Inputs

variable {sampling : Sampling} (x : Inputs sampling)

/-- `nsamp_diff`. -/
def nsampDiff : ℤ := sampleDifference x.early.headerStart x.late.headerStart sampling.tsampPsec

/-- `bytes_to_read`: what the earlier input is to lose. -/
def bytesToRead : ℕ := x.nsampDiff.toNat * sampling.bytesPerSample

/-- The earlier input with the data that is left, as the later one finds it. -/
def caughtUp : Option DadaBlock :=
  if x.nsampDiff = 0 then some x.early.started
  else if x.bytesToRead % sampling.resolution ≠ 0 then none
  else
    (x.early.started.discard x.bytesToRead).map fun db =>
      { db with utcStart := some (x.early.headerStart + x.nsampDiff * sampling.tsampPsec) }

/-- The inputs before the earlier one has discarded its data. -/
structure Before (polb : Bool) (m : Merger) : Prop where
  /-- The earlier input. -/
  early : m.input polb = x.early ∨ m.input polb = x.early.started
  /-- The later one. -/
  late : (m.input !polb) = x.late ∨ (m.input !polb) = x.late.started

/-- The inputs from then on. -/
structure After (polb : Bool) (caught : DadaBlock) (m : Merger) : Prop where
  /-- The earlier input. -/
  early : m.input polb = caught ∨ m.input polb = caught.returned
  /-- The later one. -/
  late : (m.input !polb) = x.late.started ∨ (m.input !polb) = x.late.started.returned

/-- The inputs when the thread of the earlier one has failed. -/
structure Stuck (polb : Bool) (m : Merger) : Prop where
  /-- The earlier input. -/
  early : m.input polb = x.early.started.aborted
  /-- The later one. -/
  late : (m.input !polb) = x.late.started

variable {x} {polb : Bool} {caught : DadaBlock} {m : Merger}

/-- The difference as the later input sees it. -/
theorem swap : sampleDifference x.late.headerStart x.early.headerStart sampling.tsampPsec = -x.nsampDiff :=
  sampleDifference_swap _ _ _

/-- The turn of the earlier input, when both have started. -/
theorem turn_early : inputThread sampling x.early.started x.late.started =
    if x.nsampDiff = 0 then x.early.started.returned else x.caughtUp.getD x.early.started.aborted := by
  have hcompare : inputThread sampling x.early.started x.late.started = _ :=
    inputThread_compares x.early_fresh.thread rfl
    (by rw [show x.late.started.thread = .running from x.late_fresh.thread]; decide) rfl
  rw [hcompare, caughtUp]
  have horder : 0 ≤ x.nsampDiff := x.order
  show (if x.nsampDiff = 0 then _ else if x.nsampDiff > 0 then _ else _) = _
  rcases Int.lt_or_eq_of_le horder with hpos | hzero
  · rw [if_neg (Int.ne_of_gt hpos), if_pos hpos, if_neg (Int.ne_of_gt hpos), if_neg (Int.ne_of_gt hpos)]
    show (if x.bytesToRead % sampling.resolution ≠ 0 then _ else _) = _
    split_ifs <;> rfl
  · rw [if_pos hzero.symm, if_pos hzero.symm]

/-- The turn of the later input, while the earlier one has not discarded its data. -/
theorem turn_late : inputThread sampling x.late.started x.early.started =
    if x.nsampDiff = 0 then x.late.started.returned else x.late.started := by
  have hcompare : inputThread sampling x.late.started x.early.started = _ :=
    inputThread_compares x.late_fresh.thread rfl
    (by rw [show x.early.started.thread = .running from x.early_fresh.thread]; decide) rfl
  rw [hcompare]
  have horder : 0 ≤ x.nsampDiff := x.order
  have hswap := x.swap
  simp only [hswap]
  split_ifs
  any_goals rfl
  all_goals omega

/-! ## One turn -/

/-- A turn before the earlier input has discarded its data. -/
theorem turn_before (h : x.Before polb m) (b : Bool) :
    x.Before polb (turn sampling b m) ∨
      (m.input polb = x.early.started ∧ m.input (!polb) = x.late.started) ∧
        ((turn sampling b m).input polb =
            (if x.nsampDiff = 0 then x.early.started.returned else x.caughtUp.getD x.early.started.aborted) ∧
          (turn sampling b m).input (!polb) = x.late.started ∨
        x.nsampDiff = 0 ∧ (turn sampling b m).input polb = x.early.started ∧
          (turn sampling b m).input (!polb) = x.late.started.returned) := by
  rcases Bool.eq_or_eq_not b polb with rfl | rfl
  · -- the turn of the earlier input
    have hsame := input_turn_same sampling b m
    have hother := input_turn_other sampling b m
    rcases h.early with hearly | hearly
    · rw [hearly, inputThread_fresh x.early_fresh] at hsame
      exact .inl ⟨.inr hsame, by rw [hother]; exact h.late⟩
    · rcases h.late with hlate | hlate
      · rw [hearly, inputThread_waits (by simp [DadaBlock.started])
          (.inr (by rw [hlate]; exact x.late_fresh.utcStart))] at hsame
        exact .inl ⟨.inr hsame, .inl (hother.trans hlate)⟩
      · rw [hearly, hlate, turn_early] at hsame
        exact .inr ⟨⟨hearly, hlate⟩, .inl ⟨hsame, hother.trans hlate⟩⟩
  · -- the turn of the later one
    have hsame := input_turn_same sampling (!polb) m
    have hother := input_turn_other sampling (!polb) m
    rw [Bool.not_not] at hsame hother
    rcases h.late with hlate | hlate
    · rw [hlate, inputThread_fresh x.late_fresh] at hsame
      exact .inl ⟨by rw [hother]; exact h.early, .inr hsame⟩
    · rcases h.early with hearly | hearly
      · rw [hlate, inputThread_waits (by simp [DadaBlock.started])
          (.inr (by rw [hearly]; exact x.early_fresh.utcStart))] at hsame
        exact .inl ⟨.inl (hother.trans hearly), .inr hsame⟩
      · rw [hlate, hearly, turn_late] at hsame
        by_cases hzero : x.nsampDiff = 0
        · rw [if_pos hzero] at hsame
          exact .inr ⟨⟨hearly, hlate⟩, .inr ⟨hzero, hother.trans hearly, hsame⟩⟩
        · rw [if_neg hzero] at hsame
          exact .inl ⟨.inr (hother.trans hearly), .inr hsame⟩

/-- The earlier input catches up. -/
theorem turn_before_some (hcaught : x.caughtUp = some caught) (h : x.Before polb m) (b : Bool) :
    x.Before polb (turn sampling b m) ∨ x.After polb caught (turn sampling b m) := by
  have hstarted : x.nsampDiff = 0 → caught = x.early.started := fun hzero => by
    rw [caughtUp, if_pos hzero] at hcaught
    exact (Option.some.inj hcaught).symm
  rcases x.turn_before h b with h | ⟨-, ⟨hearly, hlate⟩ | ⟨hzero, hearly, hlate⟩⟩
  · exact .inl h
  · refine .inr ⟨?_, .inl hlate⟩
    rw [hearly, hcaught]
    split_ifs with hzero
    · rw [hstarted hzero]
      exact .inr rfl
    · exact .inl rfl
  · refine .inr ⟨.inl ?_, .inr hlate⟩
    rw [hearly, hstarted hzero]

/-- The earlier input fails. -/
theorem turn_before_none (hcaught : x.caughtUp = none) (h : x.Before polb m) (b : Bool) :
    x.Before polb (turn sampling b m) ∨ x.Stuck polb (turn sampling b m) := by
  have hzero : x.nsampDiff ≠ 0 := fun hzero => by
    rw [caughtUp, if_pos hzero] at hcaught
    cases hcaught
  rcases x.turn_before h b with h | ⟨-, ⟨hearly, hlate⟩ | ⟨hz, -⟩⟩
  · exact .inl h
  · rw [if_neg hzero, hcaught] at hearly
    exact .inr ⟨hearly, hlate⟩
  · exact absurd hz hzero

/-- From then on the later input waits for the mutex. -/
theorem turn_stuck (h : x.Stuck polb m) (b : Bool) : x.Stuck polb (turn sampling b m) := by
  rcases Bool.eq_or_eq_not b polb with rfl | rfl
  · refine ⟨?_, by rw [input_turn_other]; exact h.late⟩
    rw [input_turn_same, h.early]
    exact inputThread_idle (by simp [DadaBlock.aborted])
  · have hsame := input_turn_same sampling (!polb) m
    have hother := input_turn_other sampling (!polb) m
    rw [Bool.not_not] at hsame hother
    refine ⟨hother.trans h.early, ?_⟩
    rw [hsame, h.late]
    exact inputThread_waits (by simp [DadaBlock.started]) (.inl (by rw [h.early]; rfl))

/-! ## What is merged -/

variable (x)

/-- The data of the earlier input that is merged. -/
def earlyStream : List UInt8 :=
  x.early.fullBlocks.flatten.drop (discarded x.early.bufsz x.bytesToRead)

/-- The data of the later input, all of which is merged. -/
def lateStream : List UInt8 := x.late.fullBlocks.flatten

/-- The threads align the inputs: the data up to the start of the later one consists of chunks, and is
there. -/
def Aligns : Prop :=
  x.nsampDiff = 0 ∨
    sampling.resolution ∣ x.bytesToRead ∧ x.bytesToRead ≤ x.early.fullBlocks.length * x.early.bufsz

/-- The number of pairs of chunks of an output block. -/
def nchunk : ℕ := (x.early.bufsz + x.late.bufsz) / (sampling.resolution * 2)

/-- The number of pairs of chunks that the inputs give. -/
def available : ℕ :=
  min (x.earlyStream.length / sampling.resolution) (x.lateStream.length / sampling.resolution)

/-- What is written to the output: the chunks of the two inputs in turn, those of `pola` first, as many as
fill whole blocks. -/
def merged (polb : Bool) : List UInt8 :=
  (List.range (x.available / x.nchunk * x.nchunk)).flatMap fun i =>
    let early := (x.earlyStream.drop (i * sampling.resolution)).take sampling.resolution
    let late := (x.lateStream.drop (i * sampling.resolution)).take sampling.resolution
    if polb then late ++ early else early ++ late

variable {x}

/-- The input that has caught up. -/
structure Caught (x : Inputs sampling) (db : DadaBlock) : Prop where
  /-- It is between two chunks. -/
  tidy : db.Tidy
  /-- Its thread has not returned. -/
  thread : db.thread = .running
  /-- The size of its blocks. -/
  bufsz : db.bufsz = x.early.bufsz
  /-- The data that is left consists of chunks. -/
  dvd : sampling.resolution ∣ x.earlyStream.length
  /-- The chunks. -/
  chunks : ∀ beyond, db.chunks beyond sampling.resolution = chunksOf beyond sampling.resolution x.earlyStream
  /-- The times agree. -/
  utcStart : ∃ t, db.utcStart = some t ∧ sampleDifference t x.late.headerStart sampling.tsampPsec = 0

/-- What is known of the earlier input when it has caught up. -/
theorem caughtUp_spec :
    (x.caughtUp = none ↔ ¬ x.Aligns) ∧ ∀ db, x.caughtUp = some db → x.Caught db := by
  have hstart := sampleDifference_caughtUp sampling.tsampPsec_pos x.order
  unfold caughtUp Aligns
  split_ifs with hzero hmod
  · -- the inputs start together
    refine ⟨by simp [hzero], fun db h => ?_⟩
    obtain rfl := Option.some.inj h
    have hn : x.bytesToRead = 0 := by simp [bytesToRead, hzero]
    have hspec := x.early_fresh.discard_chunks sampling.resolution_pos x.early_chunks (Nat.dvd_zero _)
    obtain ⟨htidy, -, hlen, hchunks⟩ := hspec.2 x.early.started (by rw [DadaBlock.discard, if_pos rfl])
    rw [← hn] at hlen hchunks
    exact ⟨htidy, x.early_fresh.thread, rfl, hlen, hchunks, _, rfl, hzero⟩
  · -- the difference is no multiple of the resolution
    refine ⟨iff_of_true rfl ?_, fun db h => by cases h⟩
    rintro (h | ⟨h, -⟩)
    · exact hzero h
    · exact hmod (Nat.mod_eq_zero_of_dvd h)
  · have hdvd : sampling.resolution ∣ x.bytesToRead := Nat.dvd_of_mod_eq_zero (not_not.mp hmod)
    obtain ⟨hnone, hsome⟩ := x.early_fresh.discard_chunks sampling.resolution_pos x.early_chunks hdvd
    refine ⟨?_, fun db h => ?_⟩
    · rw [Option.map_eq_none_iff, hnone]
      simp [hzero, hdvd]
    · obtain ⟨db', hdb', rfl⟩ := Option.map_eq_some_iff.mp h
      obtain ⟨htidy, hsame, hlen, hrest⟩ := hsome db' hdb'
      exact ⟨⟨htidy.bufsz_pos, htidy.closed, htidy.opened⟩, hsame.thread.trans x.early_fresh.thread,
        hsame.bufsz, hlen, hrest, _, rfl, hstart⟩

/-! ## Every order of turns -/

/-- A turn when the earlier input has caught up. -/
theorem turn_after (hcaught : x.Caught caught) (h : x.After polb caught m) (b : Bool) :
    x.After polb caught (turn sampling b m) ∧
      (b = polb → (turn sampling b m).input polb = caught.returned) ∧
      (b = !polb → (turn sampling b m).input (!polb) = x.late.started.returned) := by
  obtain ⟨t, ht, hdiff⟩ := hcaught.utcStart
  have hswap : sampleDifference x.late.headerStart t sampling.tsampPsec = 0 := by
    rw [sampleDifference_swap, hdiff, Int.neg_zero]
  rcases Bool.eq_or_eq_not b polb with rfl | rfl
  · have hsame : (turn sampling b m).input b = caught.returned := by
      rw [input_turn_same]
      rcases h.early with hearly | hearly
      · rw [hearly, @inputThread_compares sampling _ _ t x.late.headerStart hcaught.thread ht, if_pos hdiff]
        · rcases h.late with hlate | hlate
          · rw [hlate, show x.late.started.thread = .running from x.late_fresh.thread]
            decide
          · rw [hlate]
            exact (by decide : Thread.aligned ≠ .failed)
        · rcases h.late with hlate | hlate <;> rw [hlate] <;> rfl
      · rw [hearly]
        exact inputThread_idle (by simp [DadaBlock.returned])
    exact ⟨⟨.inr hsame, by rw [input_turn_other]; exact h.late⟩, fun _ => hsame,
      fun hb => absurd hb (by simp)⟩
  · have hother := input_turn_other sampling (!polb) m
    have hsame := input_turn_same sampling (!polb) m
    rw [Bool.not_not] at hother hsame
    have hlast : (turn sampling (!polb) m).input (!polb) = x.late.started.returned := by
      rw [hsame]
      rcases h.late with hlate | hlate
      · have hrun : x.late.started.thread = .running := x.late_fresh.thread
        rw [hlate, @inputThread_compares sampling _ _ x.late.headerStart t hrun rfl, if_pos hswap]
        · rcases h.early with hearly | hearly
          · rw [hearly, hcaught.thread]
            decide
          · rw [hearly]
            exact (by decide : Thread.aligned ≠ .failed)
        · rcases h.early with hearly | hearly <;> rw [hearly] <;> exact ht
      · rw [hlate]
        exact inputThread_idle (by simp [DadaBlock.returned])
    exact ⟨⟨by rw [hother]; exact h.early, .inr hlast⟩, fun hb => absurd hb (by simp),
      fun _ => hlast⟩

variable (x polb caught) in
/-- What is reached when the earlier input can catch up. -/
def Aligning (m : Merger) : Prop := x.Before polb m ∨ x.After polb caught m

theorem stable_aligning (hcaught : x.caughtUp = some caught) :
    Stable (turn sampling) (x.Aligning polb caught) := by
  intro b m h
  rcases h with h | h
  · exact turn_before_some hcaught h b
  · exact .inr (turn_after (caughtUp_spec.2 _ hcaught) h b).1

theorem stable_stuck (hcaught : x.caughtUp = none) :
    Stable (turn sampling) fun m => x.Before polb m ∨ x.Stuck polb m := by
  intro b m h
  rcases h with h | h
  · exact turn_before_none hcaught h b
  · exact .inr (turn_stuck h b)

theorem fresh_or_started (hcaught : x.Caught caught) (h : x.Aligning polb caught m) (b : Bool) :
    (m.input b).Fresh ∨ (m.input b).utcStart.isSome := by
  obtain ⟨t, ht, -⟩ := hcaught.utcStart
  have hcaughtUp : caught.utcStart.isSome := Option.isSome_iff_exists.mpr ⟨t, ht⟩
  rcases Bool.eq_or_eq_not b polb with rfl | rfl
  · rcases h with ⟨hb | hb, -⟩ | ⟨hb | hb, -⟩ <;> rw [hb]
    · exact .inl x.early_fresh
    · exact .inr rfl
    · exact .inr hcaughtUp
    · exact .inr hcaughtUp
  · rcases h with ⟨-, hb | hb⟩ | ⟨-, hb | hb⟩ <;> rw [hb]
    · exact .inl x.late_fresh
    · exact .inr rfl
    · exact .inr rfl
    · exact .inr rfl

/-- After its first turn a thread has started. -/
theorem turn_starts (hcaught : x.Caught caught) (h : x.Aligning polb caught m) (b : Bool) :
    ((turn sampling b m).input b).utcStart.isSome := by
  rcases fresh_or_started hcaught h b with hfresh | hstarted
  · rw [input_turn_same, inputThread_fresh hfresh]
    rfl
  · exact turn_started hstarted b

/-- Both have started: the next turn of the earlier input catches up. -/
theorem turn_catches (hcaught : x.caughtUp = some caught) (h : x.Aligning polb caught m)
    (hearly : (m.input polb).utcStart.isSome) (hlate : (m.input !polb).utcStart.isSome) :
    x.After polb caught (turn sampling polb m) := by
  rcases h with h | h
  · have hearly' : m.input polb = x.early.started := h.early.resolve_left fun heq => by
      rw [heq, x.early_fresh.utcStart] at hearly
      cases hearly
    have hlate' : (m.input !polb) = x.late.started := h.late.resolve_left fun heq => by
      rw [heq, x.late_fresh.utcStart] at hlate
      cases hlate
    refine ⟨?_, .inl ((input_turn_other _ polb m).trans hlate')⟩
    rw [input_turn_same, hearly', hlate', turn_early, hcaught]
    split_ifs with hzero
    · rw [caughtUp, if_pos hzero] at hcaught
      obtain rfl := Option.some.inj hcaught
      exact .inr rfl
    · exact .inl rfl
  · exact (turn_after (caughtUp_spec.2 _ hcaught) h polb).1

/-- **Alignment**: in every order in which both threads get their turns again and again, both return some
time. -/
theorem eventually_returned (hcaught : x.caughtUp = some caught) {w : ℕ → Bool} (hw : Fair w)
    (h : x.Before polb m) : ∃ n₀, ∀ n ≥ n₀,
      (run (turn sampling) w m n).input polb = caught.returned ∧
        (run (turn sampling) w m n).input (!polb) = x.late.started.returned := by
  have hspec := caughtUp_spec.2 _ hcaught
  have haligning : Stable (turn sampling) (x.Aligning polb caught) := stable_aligning hcaught
  have hafter : Stable (turn sampling) (x.After polb caught) := fun b m h => (turn_after hspec h b).1
  have hreturned (m : Merger) (b b' : Bool) (h : (m.input b).thread ≠ .running) :
      (turn sampling b' m).input b = m.input b := by
    rcases Bool.eq_or_eq_not b b' with rfl | rfl
    · rw [input_turn_same]
      exact inputThread_idle h
    · exact input_turn_other _ b' m
  -- the earlier input starts, then the later one
  obtain ⟨n₁, -, h₁⟩ := hw.leads (Q := fun m => x.Aligning polb caught m ∧ (m.input polb).utcStart.isSome)
    haligning (i := polb) (n := 0) (fun m h => ⟨haligning _ _ h, turn_starts hspec h polb⟩) (.inl h)
  obtain ⟨n₂, -, h₂⟩ := hw.leads (P := fun m => x.Aligning polb caught m ∧ (m.input polb).utcStart.isSome)
    (Q := fun m => (x.Aligning polb caught m ∧ (m.input polb).utcStart.isSome) ∧
      (m.input !polb).utcStart.isSome)
    (fun b m h => ⟨haligning _ _ h.1, turn_started h.2 b⟩) (i := !polb)
    (fun m h => ⟨⟨haligning _ _ h.1, turn_started h.2 _⟩, turn_starts hspec h.1 _⟩) h₁
  -- the earlier one catches up, and both return
  obtain ⟨n₃, -, h₃⟩ := hw.leads
    (P := fun m => (x.Aligning polb caught m ∧ (m.input polb).utcStart.isSome) ∧
      (m.input !polb).utcStart.isSome) (Q := x.After polb caught)
    (fun b m h => ⟨⟨haligning _ _ h.1.1, turn_started h.1.2 b⟩, turn_started h.2 b⟩) (i := polb)
    (fun m h => turn_catches hcaught h.1.1 h.1.2 h.2) h₂
  obtain ⟨n₄, -, h₄⟩ := hw.leads (Q := fun m => x.After polb caught m ∧ m.input polb = caught.returned)
    hafter (i := polb) (fun m h => ⟨hafter _ _ h, (turn_after hspec h polb).2.1 rfl⟩) h₃
  have hearly : Stable (turn sampling)
      fun m => x.After polb caught m ∧ m.input polb = caught.returned := fun b m h => by
    refine ⟨hafter _ _ h.1, (hreturned m polb b ?_).trans h.2⟩
    rw [h.2]
    exact (by decide : Thread.aligned ≠ .running)
  obtain ⟨n₅, -, h₅⟩ := hw.leads
    (Q := fun m => (x.After polb caught m ∧ m.input polb = caught.returned) ∧
      (m.input !polb) = x.late.started.returned)
    hearly (i := !polb) (fun m h => ⟨hearly _ _ h, (turn_after hspec h.1 _).2.2 rfl⟩) h₄
  have hboth : Stable (turn sampling) fun m => (x.After polb caught m ∧ m.input polb = caught.returned) ∧
      (m.input !polb) = x.late.started.returned := fun b m h => by
    refine ⟨hearly _ _ h.1, (hreturned m (!polb) b ?_).trans h.2⟩
    rw [h.2]
    exact (by decide : Thread.aligned ≠ .running)
  refine ⟨n₅, fun n hn => ?_⟩
  have hend := run_stable hboth hn h₅
  exact ⟨hend.1.2, hend.2⟩

/-- The output of two inputs whose threads have returned. -/
theorem dbmergedb_aligned {nchunk : ℕ} (hpos : 0 < nchunk) (hm : m.Tidy)
    (hblock : m.pola.bufsz + m.polb.bufsz = nchunk * (sampling.resolution * 2))
    (haligned : m.pola.thread = .aligned ∧ m.polb.thread = .aligned) {beyond : ℕ → UInt8}
    {f g : ℕ → List UInt8} {p q : ℕ}
    (hf : m.pola.chunks beyond sampling.resolution = (List.range p).map f)
    (hg : m.polb.chunks beyond sampling.resolution = (List.range q).map g) (fuel : ℕ) :
    (min p q / nchunk < fuel → (dbmergedb sampling beyond fuel m).isSome) ∧
      ∀ bytes, dbmergedb sampling beyond fuel m = some bytes →
        bytes = (List.range (min p q / nchunk * nchunk)).flatMap fun i => f i ++ g i := by
  have hpairs : m.pairs beyond sampling.resolution = ((List.range p).map f).zip ((List.range q).map g) := by
    rw [Merger.pairs, hf, hg]
  have hlength : (m.pairs beyond sampling.resolution).length = min p q := by
    rw [hpairs, List.length_zip, List.length_map, List.length_map, List.length_range, List.length_range]
  obtain ⟨hsome, hdata⟩ := @writeLoopBlock_pairs beyond _ _ _ hblock hpos fuel (mergerClient m) rfl hm 0
  change (m.pairs beyond sampling.resolution).length / nchunk < fuel → _ at hsome
  change ∀ r : WriteResult Merger, _ → r.data = joinPairs ((m.pairs beyond sampling.resolution).take
    ((m.pairs beyond sampling.resolution).length / nchunk * nchunk)) at hdata
  rw [hlength] at hsome hdata
  rw [dbmergedb, if_pos haligned, Option.isSome_map]
  refine ⟨hsome, fun bytes hbytes => ?_⟩
  obtain ⟨r, hr, rfl⟩ := Option.map_eq_some_iff.mp hbytes
  rw [hdata r hr, hpairs, joinPairs_zip_map f g p q (Nat.div_mul_le_self _ _)]

theorem nchunk_mul : x.nchunk * (sampling.resolution * 2) = x.early.bufsz + x.late.bufsz :=
  Nat.div_mul_cancel x.pairs

theorem nchunk_pos : 0 < x.nchunk := by
  have hmul := x.nchunk_mul
  have hpos := x.early_fresh.bufsz_pos
  rcases Nat.eq_zero_or_pos x.nchunk with hzero | hnchunk
  · rw [hzero] at hmul
    omega
  · exact hnchunk

/-- When both threads have returned, the output is that of the merged inputs. -/
theorem dbmergedb_returned (hcaught : x.Caught caught) (hearly : m.input polb = caught.returned)
    (hlate : (m.input !polb) = x.late.started.returned) (beyond : ℕ → UInt8) (fuel : ℕ) :
    (x.available / x.nchunk < fuel → (dbmergedb sampling beyond fuel m).isSome) ∧
      ∀ bytes, dbmergedb sampling beyond fuel m = some bytes → bytes = x.merged polb := by
  have hres := sampling.resolution_pos
  have hlateDvd : sampling.resolution ∣ x.lateStream.length := by
    rw [lateStream, DadaBlock.length_flatten_fullBlocks]
    exact Nat.dvd_mul_left_of_dvd x.late_chunks _
  have hchunksEarly : caught.returned.chunks beyond sampling.resolution =
      (List.range (x.earlyStream.length / sampling.resolution)).map fun i =>
        (x.earlyStream.drop (i * sampling.resolution)).take sampling.resolution :=
    (hcaught.chunks beyond).trans (chunksOf_eq_map hres hcaught.dvd)
  have hchunksLate : x.late.started.returned.chunks beyond sampling.resolution =
      (List.range (x.lateStream.length / sampling.resolution)).map fun i =>
        (x.lateStream.drop (i * sampling.resolution)).take sampling.resolution :=
    (x.late_fresh.chunks hres x.late_chunks beyond).trans (chunksOf_eq_map hres hlateDvd)
  have htidyEarly : caught.returned.Tidy := ⟨hcaught.tidy.bufsz_pos, hcaught.tidy.closed, hcaught.tidy.opened⟩
  have htidyLate : x.late.started.returned.Tidy :=
    ⟨x.late_fresh.bufsz_pos, x.late_fresh.tidy_started.closed, x.late_fresh.tidy_started.opened⟩
  have hbufsz : caught.returned.bufsz = x.early.bufsz := hcaught.bufsz
  obtain ⟨pola, polB⟩ := m
  cases polb with
  | false =>
    obtain rfl : pola = caught.returned := hearly
    obtain rfl : polB = x.late.started.returned := hlate
    have h := dbmergedb_aligned (m := ⟨_, _⟩) x.nchunk_pos ⟨htidyEarly, htidyLate⟩
      (by rw [x.nchunk_mul]; exact congrArg (· + x.late.bufsz) hbufsz) ⟨rfl, rfl⟩ hchunksEarly hchunksLate fuel
    exact h
  | true =>
    obtain rfl : polB = caught.returned := hearly
    obtain rfl : pola = x.late.started.returned := hlate
    have h := dbmergedb_aligned (m := ⟨_, _⟩) x.nchunk_pos ⟨htidyLate, htidyEarly⟩
      (by rw [x.nchunk_mul, Nat.add_comm]; exact congrArg (· + x.late.bufsz) hbufsz) ⟨rfl, rfl⟩ hchunksLate
      hchunksEarly fuel
    rw [Nat.min_comm] at h
    exact h

/-- Before both threads have returned there is no output. -/
theorem dbmergedb_running {b : Bool} (h : (m.input b).thread ≠ .aligned) (beyond : ℕ → UInt8) (fuel : ℕ) :
    dbmergedb sampling beyond fuel m = none := by
  refine if_neg fun haligned => h ?_
  cases b with
  | false => exact haligned.1
  | true => exact haligned.2

end Inputs

/-- A sample of two bytes in each picosecond. -/
def twoByteSampling : Sampling := ⟨2, Nat.zero_lt_two, 2, 1, Nat.one_pos⟩

/-- An input with blocks of four bytes. -/
def fourByteInput (headerStart : ℤ) (blocks : List (List UInt8)) : DadaBlock :=
  ⟨4, headerStart, none, .between blocks, 0, false, [], .running⟩

theorem fourByteInput_fresh (headerStart : ℤ) (blocks : List (List UInt8)) :
    (fourByteInput headerStart blocks).Fresh := ⟨Nat.succ_pos 3, rfl, rfl, rfl, rfl⟩

/-- Two inputs that start three samples apart. -/
def threeSamplesApart : Inputs twoByteSampling where
  early := fourByteInput 0 [[1, 2, 3, 4], [5, 6, 7, 8], [9, 10, 11, 12]]
  late := fourByteInput 3 [[21, 22, 23, 24]]
  early_fresh := fourByteInput_fresh _ _
  late_fresh := fourByteInput_fresh _ _
  order := by decide
  early_chunks := by decide
  late_chunks := by decide
  pairs := by decide

end Psrdada
