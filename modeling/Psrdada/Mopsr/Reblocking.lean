import Mathlib.Algebra.BigOperators.Ring.List
import Mathlib.Algebra.Order.BigOperators.Group.List
import Mathlib.Algebra.Order.Ring.Rat
import Mathlib.Tactic.NormNum
import Mathlib.Tactic.Ring
import Psrdada.Mopsr.Dbreblockdb

/-! # What `mopsr_dbreblockdb` publishes

As long as the sizes fit into `unsigned`, the blocks of a transfer fill one output block after the other; the
last one is published with what it has.  So a transfer is reblocked exactly when it ends with a full output
block, and the mean is set up for each input block. -/

namespace Psrdada

namespace Dbreblockdb

open Assign

variable {F : Type}

/-- What a transfer is made up of: signals, channels and samples of an input block, and the reblock factor,
with `OUT_16BIT` built and an output block of the size that `main` requires. -/
structure Config (F : Type) where
  nsig : ℕ
  nchan : ℕ
  nsamp : ℕ
  reblockFactor : ℕ
  bpCalibration : Bool
  bandpass : ℕ → F
  bwPositive : Bool

namespace Config

variable (c : Config F)

def ctx : Ctx F where
  nsig := c.nsig
  nchan := c.nchan
  ndim := 1
  nbitIn := 32
  nbitOut := 16
  bitrateFactor := 2
  blockSize := c.nsig * c.nchan * c.nsamp * 4 * c.reblockFactor / 2
  bpCalibration := c.bpCalibration
  bandpass := c.bandpass
  bwPositive := c.bwPositive

/-- The samples of input block `k` of a transfer of `total` samples. -/
def count (total k : ℕ) : ℕ := min c.nsamp (total - k * c.nsamp)

/-- The input blocks; the last one may be shorter. -/
def blocks (data : ℕ → Memory F) (total : ℕ) : List (Memory F × ℕ) :=
  (List.range ((total + c.nsamp - 1) / c.nsamp)).map fun k =>
    (data k, c.nsig * c.nchan * c.count total k * 4)

/-- Sample `t` of a channel of a signal. -/
def sample (data : ℕ → Memory F) (total isig ichan t : ℕ) : F :=
  let n := c.count total (t / c.nsamp)
  data (t / c.nsamp) (isig * (n * c.nchan) + (ichan * n + t % c.nsamp))

/-- The samples of an output block. -/
def nsampOut : ℕ := c.nsamp * c.reblockFactor

/-- **What output block `b` should have**: sample `t` of channel `x.2` of signal `x.1` of its time range. -/
def expected (f : F → ℕ → UInt16) (data : ℕ → Memory F) (total b : ℕ) : List Put :=
  (List.range (min c.nsampOut (total - b * c.nsampOut))).flatMap fun t =>
    (grid c.nsig c.nchan).map fun x =>
      { index := x.1 * (c.nsampOut * c.nchan) + t * c.nchan + (c.nchan - 1 - x.2)
        value := some (f (c.sample data total x.1 x.2 (b * c.nsampOut + t)) x.2) }

/-- **The transfer is reblocked**: the output blocks have what they should have, no element is written
twice, and all elements that are valid have been written. -/
def Reblocks (fl : Scaling F) (data : ℕ → Memory F) (total : ℕ) : Prop :=
  ∃ published f, transfer fl c.ctx (c.blocks data total) = some published ∧
    published.length = (total + c.nsampOut - 1) / c.nsampOut ∧
    ∀ (b : ℕ) (p : Published), published[b]? = some p →
      p.puts.Perm (c.expected f data total b) ∧ (p.puts.map Put.index).Nodup ∧
        ∀ e < p.bytes / 2, e ∈ p.puts.map Put.index

end Config

/-! ## How much is stored -/

section

variable {fl : Scaling F} {ctx : Ctx F}

/-- The number of elements stored. -/
def stored (published : List Published) : ℕ := (published.map fun p => p.puts.length).sum

theorem length_stores (scales : ℕ → F) (mean : Option F) (inp : Memory F) (nsampIn nsampOut out : ℕ) :
    (stores fl ctx scales mean inp nsampIn nsampOut out).length = ctx.nsig * ctx.nchan * nsampIn := by
  simp only [stores, List.length_flatMap, List.length_map, List.length_range, List.map_const',
    List.sum_replicate, Nat.nsmul_eq_mul]
  rw [Nat.mul_assoc]

theorem stored_quantiseBlock (inp : Memory F) (dataSize nsampIn nsampOut : ℕ) (s : State F) :
    stored (close (quantiseBlock fl ctx inp dataSize nsampIn nsampOut s)) =
      stored (close s) + ctx.nsig * ctx.nchan * nsampIn := by
  have hclose (scales : ℕ → F) (o : OpenBlock) (l : List Published) :
      stored (close ⟨scales, some o, l⟩) = stored l + o.puts.length := by
    simp only [close, stored, List.map_append, List.sum_append, List.map_singleton, List.sum_singleton]
  have hopen : stored (close s) = stored s.published + (s.block.getD ⟨[], 0, 0⟩).puts.length := by
    unfold close
    cases s.block with
    | none => rfl
    | some o => exact hclose s.scales o s.published
  simp only [quantiseBlock]
  split
  · rw [hopen]
    simp only [close, stored, List.map_append, List.sum_append, List.map_singleton, List.sum_singleton,
      List.length_append, length_stores, Nat.add_assoc]
  · rw [hclose, hopen, List.length_append, length_stores, Nat.add_assoc]

/-- **One block** stores as many elements as the size of a sample, computed in `unsigned`, lets it have. -/
theorem stored_writeBlock {inp : Memory F} {dataSize : ℕ} {s s' : State F}
    (h : writeBlock fl ctx inp dataSize s = some s') :
    ctx.nsig * ctx.ndim * ctx.nchan * (ctx.nbitIn / 8) % 2 ^ 32 ≠ 0 ∧
      dataSize / (ctx.nsig * ctx.ndim * ctx.nchan * (ctx.nbitIn / 8) % 2 ^ 32) < 2 ^ 32 ∧
      stored (close s') = stored (close s) + ctx.nsig * ctx.nchan *
        (dataSize / (ctx.nsig * ctx.ndim * ctx.nchan * (ctx.nbitIn / 8) % 2 ^ 32)) := by
  rw [writeBlock, Option.ite_none_left_eq_some, not_or, not_or, Nat.not_le, Option.some.injEq] at h
  obtain ⟨⟨hsize, -, hcount⟩, rfl⟩ := h
  exact ⟨hsize, hcount, stored_quantiseBlock _ _ _ _ _⟩

/-- **A transfer** stores what its blocks store. -/
theorem stored_foldlM {blocks : List (Memory F × ℕ)} {s s' : State F}
    (h : blocks.foldlM (fun s b => writeBlock fl ctx b.1 b.2 s) s = some s') :
    stored (close s') = stored (close s) + (blocks.map fun b => ctx.nsig * ctx.nchan *
      (b.2 / (ctx.nsig * ctx.ndim * ctx.nchan * (ctx.nbitIn / 8) % 2 ^ 32))).sum := by
  induction blocks generalizing s with
  | nil =>
    obtain rfl := Option.some.inj h
    rfl
  | cons b blocks ih =>
    rw [List.foldlM_cons] at h
    obtain ⟨t, ht, hrest⟩ := Option.bind_eq_some_iff.1 h
    rw [ih hrest, (stored_writeBlock ht).2.2, List.map_cons, List.sum_cons, Nat.add_assoc]

end

/-- The parts into which some samples are divided have all of them. -/
theorem sum_counts {n : ℕ} (hn : 0 < n) (total : ℕ) :
    ((List.range ((total + n - 1) / n)).map fun k => min n (total - k * n)).sum = total := by
  have hsum (m : ℕ) : ((List.range m).map fun k => min n (total - k * n)).sum = min (m * n) total := by
    induction m with
    | zero => simp
    | succ m ih =>
      rw [List.range_succ, List.map_append, List.sum_append, ih, List.map_singleton, List.sum_singleton,
        Nat.succ_mul]
      omega
  rw [hsum]
  have := Nat.lt_div_mul_add (a := total + n - 1) hn
  exact Nat.min_eq_right (by omega)

/-! ## Runs of full blocks -/

namespace Config

variable (fl : Scaling F) (c : Config F) (data : ℕ → Memory F)

/-- The mean that input block `k` is given. -/
def meanOf (k : ℕ) : Option F :=
  if k = 0 ∨ fl.isNegative (setScales fl c.ctx 0) = true then some fl.digiMean else none

/-- What input block `k` stores, if it has `n` samples and `r` others are before it. -/
def call (k n r : ℕ) : List Put :=
  stores fl c.ctx (setScales fl c.ctx) (c.meanOf fl k) (data k) n c.nsampOut (n * c.nchan * r)

/-- What the first `r` full blocks store in output block `a`. -/
def filled (a r : ℕ) : List Put :=
  (List.range r).flatMap fun i => c.call fl data (a * c.reblockFactor + i) c.nsamp i

/-- Output block `a` when it is full. -/
def full (a : ℕ) : Published := ⟨c.filled fl data a c.reblockFactor, c.nsig * c.nchan * c.nsampOut * 2⟩

/-- The state after `k` full blocks. -/
def stateAt (k : ℕ) : State F where
  scales := if k = 0 then fun _ => fl.minusOne else setScales fl c.ctx
  block :=
    if k % c.reblockFactor = 0 then none
    else some ⟨c.filled fl data (k / c.reblockFactor) (k % c.reblockFactor),
      c.nsig * c.nchan * (c.nsamp * (k % c.reblockFactor)) * 2, k % c.reblockFactor⟩
  published := (List.range (k / c.reblockFactor)).map (c.full fl data)

variable {fl c data}

theorem blockSize_eq : c.ctx.blockSize = c.nsig * c.nchan * c.nsampOut * 2 := by
  have h : c.nsig * c.nchan * c.nsamp * 4 * c.reblockFactor = c.nsig * c.nchan * c.nsampOut * 2 * 2 := by
    unfold nsampOut
    ring
  rw [ctx, h, Nat.mul_div_cancel _ (by decide)]

theorem sizeIn_eq : c.ctx.nsig * c.ctx.ndim * c.ctx.nchan * (c.ctx.nbitIn / 8) = c.nsig * c.nchan * 4 := by
  change c.nsig * 1 * c.nchan * (32 / 8) = _
  rw [Nat.mul_one]

theorem sizeOut_eq : c.ctx.nsig * c.ctx.ndim * c.ctx.nchan * (c.ctx.nbitOut / 8) = c.nsig * c.nchan * 2 := by
  change c.nsig * 1 * c.nchan * (16 / 8) = _
  rw [Nat.mul_one]

theorem getD_stateAt (k : ℕ) : (c.stateAt fl data k).block.getD ⟨[], 0, 0⟩ =
    ⟨c.filled fl data (k / c.reblockFactor) (k % c.reblockFactor),
      c.nsig * c.nchan * (c.nsamp * (k % c.reblockFactor)) * 2, k % c.reblockFactor⟩ := by
  unfold stateAt
  by_cases h : k % c.reblockFactor = 0
  · rw [if_pos h, h]
    rfl
  · rw [if_neg h]
    rfl

/-- Before the first block the first scale is negative, and it stays so only with such a bandpass. -/
theorem isNegative_stateAt (fl : Scaling F) (c : Config F) (data : ℕ → Memory F) (k : ℕ) :
    (if fl.isNegative ((c.stateAt fl data k).scales 0) then some fl.digiMean else none) = c.meanOf fl k ∧
      (if fl.isNegative ((c.stateAt fl data k).scales 0) then setScales fl c.ctx
        else (c.stateAt fl data k).scales) = setScales fl c.ctx := by
  rw [stateAt, meanOf]
  by_cases h : k = 0
  · simp only [h, fl.isNegative_minusOne, true_or, if_true, and_self]
  · simp only [h, if_false, false_or, ite_self, and_self]

/-- **One block** after `k` full ones. -/
theorem quantiseBlock_stateAt (hpos : 0 < c.nsig * c.nchan) (k n : ℕ) :
    quantiseBlock fl c.ctx (data k) (c.nsig * c.nchan * n * 4) n c.nsampOut (c.stateAt fl data k) =
      if c.nsampOut ≤ c.nsamp * (k % c.reblockFactor) + n then
        ⟨setScales fl c.ctx, none, (List.range (k / c.reblockFactor)).map (c.full fl data) ++
          [⟨c.filled fl data (k / c.reblockFactor) (k % c.reblockFactor) ++
            c.call fl data k n (k % c.reblockFactor),
            c.nsig * c.nchan * (c.nsamp * (k % c.reblockFactor) + n) * 2⟩]⟩
      else
        ⟨setScales fl c.ctx, some ⟨c.filled fl data (k / c.reblockFactor) (k % c.reblockFactor) ++
            c.call fl data k n (k % c.reblockFactor),
            c.nsig * c.nchan * (c.nsamp * (k % c.reblockFactor) + n) * 2, k % c.reblockFactor + 1⟩,
          (List.range (k / c.reblockFactor)).map (c.full fl data)⟩ := by
  obtain ⟨hmean, hscales⟩ := isNegative_stateAt fl c data k
  have hbytes : c.nsig * c.nchan * (c.nsamp * (k % c.reblockFactor)) * 2 +
      c.nsig * c.nchan * n * 4 / c.ctx.bitrateFactor =
        c.nsig * c.nchan * (c.nsamp * (k % c.reblockFactor) + n) * 2 := by
    have hhalf : c.nsig * c.nchan * n * 4 / c.ctx.bitrateFactor = c.nsig * c.nchan * n * 2 :=
      Nat.mul_div_assoc _ (by decide : 2 ∣ 4)
    rw [hhalf, ← Nat.add_mul, ← Nat.mul_add]
  have hfull : c.nsig * c.nchan * (c.nsamp * (k % c.reblockFactor) + n) * 2 ≥ c.ctx.blockSize ↔
      c.nsampOut ≤ c.nsamp * (k % c.reblockFactor) + n := by
    rw [blockSize_eq, ge_iff_le, Nat.mul_le_mul_right_iff (by decide), Nat.mul_le_mul_left_iff hpos]
  simp only [quantiseBlock, hmean, hscales, getD_stateAt, hbytes, hfull]
  rfl

/-- **A full block** leads to the next state. -/
theorem quantiseBlock_full (hpos : 0 < c.nsig * c.nchan) (hsamp : 0 < c.nsamp) (hfactor : 0 < c.reblockFactor)
    (k : ℕ) :
    quantiseBlock fl c.ctx (data k) (c.nsig * c.nchan * c.nsamp * 4) c.nsamp c.nsampOut (c.stateAt fl data k) =
      c.stateAt fl data (k + 1) := by
  obtain ⟨a, ha⟩ : ∃ a, k / c.reblockFactor = a := ⟨_, rfl⟩
  obtain ⟨r, hr⟩ : ∃ r, k % c.reblockFactor = r := ⟨_, rfl⟩
  have hlt : r < c.reblockFactor := hr ▸ Nat.mod_lt k hfactor
  have hk : a * c.reblockFactor + r = k := by
    rw [← ha, ← hr, Nat.mul_comm]
    exact Nat.div_add_mod k c.reblockFactor
  have hfilled : c.filled fl data a r ++ c.call fl data k c.nsamp r = c.filled fl data a (r + 1) := by
    rw [filled, filled, List.range_succ, List.flatMap_append, List.flatMap_singleton, hk]
  have hcond : c.nsampOut ≤ c.nsamp * r + c.nsamp ↔ c.reblockFactor ≤ r + 1 := by
    rw [← Nat.mul_succ, nsampOut, Nat.mul_le_mul_left_iff hsamp]
  rw [quantiseBlock_stateAt hpos, ha, hr, hfilled, ← Nat.mul_succ]
  by_cases hlast : c.reblockFactor ≤ r + 1
  · -- the output block is full
    have heq : r + 1 = c.reblockFactor := by omega
    have hdiv : (k + 1) / c.reblockFactor = a + 1 := by
      rw [← hk, Nat.add_assoc, heq, ← Nat.succ_mul, Nat.mul_div_cancel _ hfactor]
    have hmod : (k + 1) % c.reblockFactor = 0 := by
      rw [← hk, Nat.add_assoc, heq, ← Nat.succ_mul, Nat.mul_mod_left]
    rw [if_pos (by rw [Nat.mul_succ]; exact hcond.2 hlast), stateAt, hdiv, hmod, if_neg (Nat.succ_ne_zero k),
      if_pos rfl, List.range_succ, List.map_append, List.map_singleton, Nat.succ_eq_add_one, heq]
    rfl
  · have hdiv : (k + 1) / c.reblockFactor = a := by
      rw [← hk, Nat.add_assoc, Nat.mul_comm, Nat.mul_add_div hfactor, Nat.div_eq_of_lt (by omega), Nat.add_zero]
    have hmod : (k + 1) % c.reblockFactor = r + 1 := by
      rw [← hk, Nat.add_assoc, Nat.mul_comm, Nat.mul_add_mod, Nat.mod_eq_of_lt (by omega)]
    rw [if_neg (by rw [Nat.mul_succ]; exact fun h => hlast (hcond.1 h)), stateAt, hdiv, hmod,
      if_neg (Nat.succ_ne_zero k), if_neg (Nat.succ_ne_zero r)]

/-- The sizes that are computed when they fit. -/
theorem writeBlock_eq (hpos : 0 < c.nsig * c.nchan) (hfit : c.nsig * c.nchan * 4 < 2 ^ 32) {n : ℕ}
    (hn : n < 2 ^ 32) (inp : Memory F) (s : State F) :
    writeBlock fl c.ctx inp (c.nsig * c.nchan * n * 4) s =
      some (quantiseBlock fl c.ctx inp (c.nsig * c.nchan * n * 4) n c.nsampOut s) := by
  have hin : c.nsig * c.nchan * 4 % 2 ^ 32 = c.nsig * c.nchan * 4 := Nat.mod_eq_of_lt hfit
  have hout : c.nsig * c.nchan * 2 % 2 ^ 32 = c.nsig * c.nchan * 2 := Nat.mod_eq_of_lt (by omega)
  have hcount : c.nsig * c.nchan * n * 4 / (c.nsig * c.nchan * 4) = n := by
    rw [Nat.mul_right_comm, Nat.mul_div_cancel_left _ (by omega)]
  have hcountOut : c.ctx.blockSize / (c.nsig * c.nchan * 2) = c.nsampOut := by
    rw [blockSize_eq, Nat.mul_right_comm, Nat.mul_div_cancel_left _ (by omega)]
  simp only [writeBlock, sizeIn_eq, sizeOut_eq, hin, hout, hcount, hcountOut]
  exact if_neg (by omega)

variable (fl data) in
/-- **Full blocks** lead from the state that the transfer starts with to the one after them. -/
theorem foldlM_full (hpos : 0 < c.nsig * c.nchan) (hsamp : 0 < c.nsamp) (hfactor : 0 < c.reblockFactor)
    (hfit : c.nsig * c.nchan * 4 < 2 ^ 32) (k : ℕ) (hn : 0 < k → c.nsamp < 2 ^ 32) :
    ((List.range k).map fun i => (data i, c.nsig * c.nchan * c.nsamp * 4)).foldlM
      (fun s b => writeBlock fl c.ctx b.1 b.2 s) (start fl) = some (c.stateAt fl data k) := by
  induction k with
  | zero =>
    rw [stateAt, Nat.zero_mod, Nat.zero_div]
    rfl
  | succ k ih =>
    rw [List.range_succ, List.map_append, List.foldlM_append, ih fun _ => hn k.succ_pos]
    simp only [List.map_singleton, List.foldlM_cons, List.foldlM_nil, Option.bind_eq_bind, Option.bind_some,
      writeBlock_eq hpos hfit (hn k.succ_pos), quantiseBlock_full hpos hsamp hfactor]
    rfl

/-! ## Whole transfers -/

/-- The blocks of a transfer are full ones and what is left over. -/
theorem blocks_eq (hsamp : 0 < c.nsamp) (total : ℕ) :
    c.blocks data total =
      ((List.range (total / c.nsamp)).map fun i => (data i, c.nsig * c.nchan * c.nsamp * 4)) ++
        if total % c.nsamp = 0 then []
        else [(data (total / c.nsamp), c.nsig * c.nchan * (total % c.nsamp) * 4)] := by
  obtain ⟨k, hk⟩ : ∃ k, total / c.nsamp = k := ⟨_, rfl⟩
  obtain ⟨r, hr⟩ : ∃ r, total % c.nsamp = r := ⟨_, rfl⟩
  have hlt : r < c.nsamp := hr ▸ Nat.mod_lt total hsamp
  have htotal : k * c.nsamp + r = total := by
    rw [← hk, ← hr, Nat.mul_comm]
    exact Nat.div_add_mod total c.nsamp
  have hfull : (List.range k).map (fun i => (data i, c.nsig * c.nchan * c.count total i * 4)) =
      (List.range k).map fun i => (data i, c.nsig * c.nchan * c.nsamp * 4) := by
    refine List.map_congr_left fun i hi => ?_
    have hle : (i + 1) * c.nsamp ≤ k * c.nsamp := Nat.mul_le_mul_right _ (List.mem_range.1 hi)
    rw [Nat.succ_mul] at hle
    have hcount : c.count total i = c.nsamp := Nat.min_eq_left (by omega)
    rw [hcount]
  rw [blocks, hk, hr]
  by_cases hzero : r = 0
  · have hceil : (total + c.nsamp - 1) / c.nsamp = k := by
      rw [← htotal, hzero, Nat.add_zero, Nat.add_sub_assoc hsamp, Nat.mul_comm, Nat.mul_add_div hsamp,
        Nat.div_eq_of_lt (Nat.sub_lt hsamp Nat.one_pos), Nat.add_zero]
    rw [hceil, hfull, if_pos hzero, List.append_nil]
  · have hceil : (total + c.nsamp - 1) / c.nsamp = k + 1 := by
      have hsum : total + c.nsamp - 1 = (k + 1) * c.nsamp + (r - 1) := by
        rw [Nat.succ_mul]
        omega
      rw [hsum, Nat.mul_comm, Nat.mul_add_div hsamp, Nat.div_eq_of_lt (by omega), Nat.add_zero]
    have hcount : c.count total k = r := by
      rw [count, ← htotal, Nat.add_sub_cancel_left]
      exact Nat.min_eq_right hlt.le
    rw [hceil, List.range_succ, List.map_append, hfull, List.map_singleton, hcount, if_neg hzero]

variable (fl c data) in
/-- The output block that is not full at the end of the transfer. -/
def rest (total : ℕ) : Published where
  puts := c.filled fl data (total / c.nsampOut) (total / c.nsamp % c.reblockFactor) ++
    if total % c.nsamp = 0 then []
    else c.call fl data (total / c.nsamp) (total % c.nsamp) (total / c.nsamp % c.reblockFactor)
  bytes := c.nsig * c.nchan * (total % c.nsampOut) * 2

variable (fl data) in
/-- **What a transfer publishes** when its sizes fit. -/
theorem transfer_eq (hpos : 0 < c.nsig * c.nchan) (hsamp : 0 < c.nsamp) (hfactor : 0 < c.reblockFactor)
    (hfit : c.nsig * c.nchan * 4 < 2 ^ 32) {total : ℕ} (hn : min c.nsamp total < 2 ^ 32) :
    transfer fl c.ctx (c.blocks data total) =
      some ((List.range (total / c.nsampOut)).map (c.full fl data) ++
        if total % c.nsampOut = 0 then [] else [c.rest fl data total]) := by
  have hmod : total % c.nsampOut = total % c.nsamp + c.nsamp * (total / c.nsamp % c.reblockFactor) :=
    Nat.mod_mul
  have hdiv : total / c.nsampOut = total / c.nsamp / c.reblockFactor := (Nat.div_div_eq_div_mul _ _ _).symm
  have hrun := foldlM_full fl data hpos hsamp hfactor hfit (total / c.nsamp) fun hk => by
    have := (Nat.div_pos_iff.1 hk).2
    omega
  rw [transfer, blocks_eq hsamp, List.foldlM_append, hrun]
  by_cases hzero : total % c.nsamp = 0
  · rw [if_pos hzero]
    simp only [List.foldlM_nil, Option.bind_eq_bind, Option.bind_some, Option.pure_def, Option.map_some]
    rw [hmod, hzero, Nat.zero_add, hdiv]
    by_cases hopen : total / c.nsamp % c.reblockFactor = 0
    · rw [hopen, Nat.mul_zero, if_pos rfl, List.append_nil]
      simp only [close, stateAt, hopen, if_true]
    · rw [if_neg (Nat.mul_ne_zero (Nat.pos_iff_ne_zero.1 hsamp) hopen)]
      simp only [close, stateAt, if_neg hopen, rest, hdiv, hmod, hzero, if_true, List.append_nil, Nat.zero_add]
  · have hrest : total % c.nsamp < 2 ^ 32 := by
      have := Nat.mod_lt total hsamp
      have := Nat.mod_le total c.nsamp
      omega
    have hlt : ¬c.nsampOut ≤ c.nsamp * (total / c.nsamp % c.reblockFactor) + total % c.nsamp := by
      have hle : c.nsamp * (total / c.nsamp % c.reblockFactor + 1) ≤ c.nsampOut :=
        Nat.mul_le_mul_left _ (Nat.mod_lt _ hfactor)
      have := Nat.mod_lt total hsamp
      rw [Nat.mul_succ] at hle
      omega
    rw [if_neg hzero]
    simp only [List.foldlM_cons, List.foldlM_nil, Option.bind_eq_bind, Option.bind_some, Option.pure_def,
      writeBlock_eq hpos hfit hrest, quantiseBlock_stateAt hpos, if_neg hlt, Option.map_some, close]
    rw [if_neg (by omega), rest, hdiv, if_neg hzero, hmod, Nat.add_comm (total % c.nsamp)]

/-! ## What goes wrong -/

section

variable {total : ℕ}

theorem length_expected (f : F → ℕ → UInt16) (b : ℕ) :
    (c.expected f data total b).length = c.nsig * c.nchan * min c.nsampOut (total - b * c.nsampOut) := by
  simp only [expected, List.length_flatMap, List.length_map, length_grid, List.map_const', List.length_range,
    List.sum_replicate, Nat.nsmul_eq_mul]
  exact Nat.mul_comm _ _

theorem mem_expected {f : F → ℕ → UInt16} {b : ℕ} {p : Put} :
    p ∈ c.expected f data total b ↔
      ∃ t < min c.nsampOut (total - b * c.nsampOut), ∃ x : ℕ × ℕ, (x.1 < c.nsig ∧ x.2 < c.nchan) ∧
        { index := x.1 * (c.nsampOut * c.nchan) + t * c.nchan + (c.nchan - 1 - x.2)
          value := some (f (c.sample data total x.1 x.2 (b * c.nsampOut + t)) x.2) } = p := by
  simp only [expected, List.mem_flatMap, List.mem_map, List.mem_range, mem_grid]

theorem mem_call {k n r : ℕ} {p : Put} :
    p ∈ c.call fl data k n r ↔ ∃ s < c.nsig, ∃ ch < c.nchan, ∃ i < n,
      { index := n * c.nchan * r + s * (c.nsampOut * 1 * c.nchan) + (i * c.nchan + (c.nchan - 1 - ch)) % 2 ^ 32
        value := (c.meanOf fl k).map fun mean =>
          fl.quantise (data k (s * (n * 1 * c.nchan) + (ch * n + i)))
            (setScales fl c.ctx (if c.bwPositive then c.nchan - 1 - ch else ch)) mean } = p := by
  simp only [call, stores, List.mem_flatMap, List.mem_map, List.mem_range]
  exact Iff.rfl

/-- **If the bytes of a sample do not fit**, too many elements are stored. -/
theorem size_lt_of_reblocks (h : c.Reblocks fl data total) (hpos : 0 < c.nsig * c.nchan) (hsamp : 0 < c.nsamp)
    (hfactor : 0 < c.reblockFactor) (htotal : 0 < total) : c.nsig * c.nchan * 4 < 2 ^ 32 := by
  obtain ⟨published, f, htransfer, hlength, hpublished⟩ := h
  by_contra hge
  obtain ⟨s, hs, rfl⟩ := Option.map_eq_some_iff.1 htransfer
  have hcount (k : ℕ) (hk : k < (total + c.nsamp - 1) / c.nsamp) : 0 < c.count total k := by
    have hle : (k + 1) * c.nsamp ≤ total + c.nsamp - 1 := (Nat.le_div_iff_mul_le hsamp).1 hk
    rw [Nat.succ_mul] at hle
    exact Nat.lt_min.2 ⟨hsamp, by omega⟩
  -- as many elements are expected as the transfer has
  have hexpected : stored (close s) = c.nsig * c.nchan * total := by
    have hlengths : (close s).map (fun p => p.puts.length) =
        (List.range ((total + c.nsampOut - 1) / c.nsampOut)).map fun b =>
          c.nsig * c.nchan * min c.nsampOut (total - b * c.nsampOut) := by
      refine List.ext_getElem (by rw [List.length_map, List.length_map, List.length_range, hlength]) ?_
      intro b hb hb'
      rw [List.length_map] at hb
      rw [List.getElem_map, List.getElem_map, List.getElem_range]
      rw [(hpublished b _ (List.getElem?_eq_getElem hb)).1.length_eq, length_expected]
    have hout : 0 < c.nsampOut := Nat.mul_pos hsamp hfactor
    rw [stored, hlengths, List.sum_map_mul_left, sum_counts hout]
  -- but each block stores more than it has
  obtain ⟨m, hm⟩ : ∃ m, c.nsig * c.nchan * 4 % 2 ^ 32 = m := ⟨_, rfl⟩
  have hstored : stored (close s) =
      0 + ((c.blocks data total).map fun b => c.nsig * c.nchan * (b.2 / m)).sum := by
    rw [stored_foldlM hs, sizeIn_eq, hm]
    rfl
  have hblocks : c.blocks data total ≠ [] := by
    have hceil : 0 < (total + c.nsamp - 1) / c.nsamp := Nat.div_pos (by omega) hsamp
    rw [blocks, Ne, List.map_eq_nil_iff, List.range_eq_nil]
    omega
  have hm0 : 0 < m := by
    obtain ⟨b, bs, hcons⟩ := List.exists_cons_of_ne_nil hblocks
    rw [hcons, List.foldlM_cons] at hs
    obtain ⟨t, ht, -⟩ := Option.bind_eq_some_iff.1 hs
    have := (stored_writeBlock ht).1
    rw [sizeIn_eq, hm] at this
    exact Nat.pos_of_ne_zero this
  have hmore : c.nsig * c.nchan * total <
      ((c.blocks data total).map fun b => c.nsig * c.nchan * (b.2 / m)).sum := by
    have hsum : c.nsig * c.nchan * total =
        ((List.range ((total + c.nsamp - 1) / c.nsamp)).map fun k => c.nsig * c.nchan * c.count total k).sum := by
      rw [List.sum_map_mul_left]
      exact congrArg _ (sum_counts hsamp total).symm
    rw [hsum, blocks, List.map_map]
    refine List.sum_lt_sum_of_ne_nil ?_ _ _ fun k hk => ?_
    · intro hnil
      rw [blocks, hnil] at hblocks
      exact hblocks rfl
    · have hk0 := hcount k (List.mem_range.1 hk)
      refine Nat.mul_lt_mul_of_pos_left ?_ hpos
      change c.count total k < c.nsig * c.nchan * c.count total k * 4 / m
      refine (Nat.le_div_iff_mul_le hm0).2 ?_
      calc (c.count total k + 1) * m = c.count total k * m + m := Nat.succ_mul _ _
        _ ≤ c.count total k * m + c.count total k * (c.nsig * c.nchan * 4 - m) := by
          have : c.nsig * c.nchan * 4 - m ≤ c.count total k * (c.nsig * c.nchan * 4 - m) :=
            Nat.le_mul_of_pos_left _ hk0
          omega
        _ = c.nsig * c.nchan * c.count total k * 4 := by
          rw [← Nat.mul_add, Nat.add_sub_cancel' (by omega)]
          ring
  rw [hexpected] at hstored
  omega

/-- **If the transfer does not end with a full output block**, what is valid has gaps. -/
theorem dvd_of_reblocks (h : c.Reblocks fl data total) (hsig : 1 < c.nsig) (hchan : 0 < c.nchan)
    (hsamp : 0 < c.nsamp) (hfactor : 0 < c.reblockFactor) (hfit : c.nsig * c.nchan * 4 < 2 ^ 32)
    (hn : min c.nsamp total < 2 ^ 32) : c.nsampOut ∣ total := by
  have hpos : 0 < c.nsig * c.nchan := Nat.mul_pos (by omega) hchan
  have hout : 0 < c.nsampOut := Nat.mul_pos hsamp hfactor
  obtain ⟨published, f, htransfer, -, hpublished⟩ := h
  rw [transfer_eq fl data hpos hsamp hfactor hfit hn, Option.some.injEq] at htransfer
  refine Nat.dvd_of_mod_eq_zero ?_
  by_contra hrest
  obtain ⟨t, ht⟩ : ∃ t, total % c.nsampOut = t := ⟨_, rfl⟩
  have hlt : t < c.nsampOut := ht ▸ Nat.mod_lt total hout
  rw [if_neg hrest] at htransfer
  have hlast : published[total / c.nsampOut]? = some (c.rest fl data total) := by
    rw [← htransfer, List.getElem?_append_right (by rw [List.length_map, List.length_range]), List.length_map,
      List.length_range, Nat.sub_self]
    rfl
  obtain ⟨hperm, -, hwritten⟩ := hpublished _ _ hlast
  -- the first element of signal 0 that has not been written is valid
  have hvalid : t * c.nchan < (c.rest fl data total).bytes / 2 := by
    have htwo : 2 * (t * c.nchan) ≤ c.nsig * c.nchan * t := by
      rw [Nat.mul_comm t, Nat.mul_assoc]
      exact Nat.mul_le_mul_right _ hsig
    have : 0 < t * c.nchan := Nat.mul_pos (by omega) hchan
    change t * c.nchan < c.nsig * c.nchan * (total % c.nsampOut) * 2 / 2
    rw [ht]
    omega
  obtain ⟨p, hp, hindex⟩ := List.mem_map.1 (hwritten _ hvalid)
  obtain ⟨t', ht', ⟨s, ch⟩, ⟨-, hch⟩, rfl⟩ := mem_expected.1 (hperm.mem_iff.1 hp)
  have hdiv := Nat.div_add_mod total c.nsampOut
  rw [Nat.mul_comm] at hdiv
  have htt : t' < t := by
    have := Nat.lt_min.1 ht'
    omega
  have hle : t' * c.nchan + c.nchan ≤ t * c.nchan := by
    rw [← Nat.succ_mul]
    exact Nat.mul_le_mul_right _ htt
  rcases Nat.eq_zero_or_pos s with rfl | hs
  · simp only [Nat.zero_mul] at hindex
    omega
  · have hstride : c.nsampOut * c.nchan ≤ s * (c.nsampOut * c.nchan) := Nat.le_mul_of_pos_left _ hs
    have hbelow : t * c.nchan < c.nsampOut * c.nchan := Nat.mul_lt_mul_of_pos_right hlt hchan
    simp only at hindex
    omega

/-- What a transfer that ends with a full output block publishes. -/
theorem filled_perm_of_reblocks (h : c.Reblocks fl data total) (hpos : 0 < c.nsig * c.nchan) (hsamp : 0 < c.nsamp)
    (hfactor : 0 < c.reblockFactor) (hfit : c.nsig * c.nchan * 4 < 2 ^ 32) (hn : min c.nsamp total < 2 ^ 32)
    (hdvd : c.nsampOut ∣ total) :
    ∃ f, ∀ b < total / c.nsampOut,
      (c.filled fl data b c.reblockFactor).Perm (c.expected f data total b) := by
  obtain ⟨published, f, htransfer, -, hpublished⟩ := h
  rw [transfer_eq fl data hpos hsamp hfactor hfit hn, Nat.mod_eq_zero_of_dvd hdvd, if_pos rfl, List.append_nil,
    Option.some.injEq] at htransfer
  refine ⟨f, fun b hb => (hpublished b (c.full fl data b) ?_).1⟩
  rw [← htransfer, List.getElem?_map, List.getElem?_range hb]
  rfl

/-- **If the mean is set up for the first input block only**, what the second one stores is not determined. -/
theorem renewed_of_reblocks (h : c.Reblocks fl data total) (hpos : 0 < c.nsig * c.nchan) (hsamp : 0 < c.nsamp)
    (hfactor : 0 < c.reblockFactor) (hfit : c.nsig * c.nchan * 4 < 2 ^ 32) (hn : min c.nsamp total < 2 ^ 32)
    (hdvd : c.nsampOut ∣ total) (hmore : c.nsamp < total) :
    fl.isNegative (setScales fl c.ctx 0) = true := by
  obtain ⟨f, hperm⟩ := filled_perm_of_reblocks h hpos hsamp hfactor hfit hn hdvd
  by_contra hneg
  -- where the second input block is put
  have hlt : 1 / c.reblockFactor < total / c.nsampOut := by
    obtain ⟨q, rfl⟩ := hdvd
    have hout : 0 < c.nsampOut := Nat.mul_pos hsamp hfactor
    rw [Nat.mul_div_cancel_left _ hout]
    refine (Nat.div_lt_iff_lt_mul hfactor).2 ?_
    by_contra hle
    have : c.nsamp * (q * c.reblockFactor) ≤ c.nsamp * 1 := Nat.mul_le_mul_left _ (Nat.le_of_not_lt hle)
    rw [nsampOut, Nat.mul_assoc, Nat.mul_comm c.reblockFactor] at hmore
    omega
  have hcall : 1 / c.reblockFactor * c.reblockFactor + 1 % c.reblockFactor = 1 := by
    rw [Nat.mul_comm]
    exact Nat.div_add_mod 1 c.reblockFactor
  have hmean : c.meanOf fl 1 = none := if_neg fun h => h.elim (fun h => nomatch h) hneg
  have hmem : (⟨c.nsamp * c.nchan * (1 % c.reblockFactor) + 0 * (c.nsampOut * 1 * c.nchan) +
        (0 * c.nchan + (c.nchan - 1 - 0)) % 2 ^ 32, none⟩ : Put) ∈
      c.filled fl data (1 / c.reblockFactor) c.reblockFactor := by
    refine List.mem_flatMap.2 ⟨1 % c.reblockFactor, List.mem_range.2 (Nat.mod_lt _ hfactor), ?_⟩
    rw [hcall]
    refine mem_call.2 ⟨0, Nat.pos_of_mul_pos_right hpos, 0, Nat.pos_of_mul_pos_left hpos, 0, hsamp, ?_⟩
    rw [hmean]
    rfl
  obtain ⟨t, -, x, -, hput⟩ := mem_expected.1 ((hperm _ hlt).mem_iff.1 hmem)
  cases (Put.mk.injEq _ _ _ _).mp hput |>.2

/-- **If the indices within an input block do not fit**, its last element is not written. -/
theorem index_le_of_reblocks (h : c.Reblocks fl data total) (hpos : 0 < c.nsig * c.nchan) (hsamp : 0 < c.nsamp)
    (hfactor : 0 < c.reblockFactor) (hfit : c.nsig * c.nchan * 4 < 2 ^ 32) (hn : min c.nsamp total < 2 ^ 32)
    (hdvd : c.nsampOut ∣ total) (htotal : 0 < total) : c.nsamp * c.nchan ≤ 2 ^ 32 := by
  obtain ⟨f, hperm⟩ := filled_perm_of_reblocks h hpos hsamp hfactor hfit hn hdvd
  have hchan : 0 < c.nchan := Nat.pos_of_mul_pos_left hpos
  have hsig : 0 < c.nsig := Nat.pos_of_mul_pos_right hpos
  have hout : 0 < c.nsampOut := Nat.mul_pos hsamp hfactor
  have hle : c.nsampOut ≤ total := Nat.le_of_dvd htotal hdvd
  have hone : c.nsamp ≤ c.nsampOut := Nat.le_mul_of_pos_right _ hfactor
  by_contra hgt
  have hlast : (c.nsamp - 1) * c.nchan + c.nchan = c.nsamp * c.nchan := by
    rw [← Nat.succ_mul, Nat.succ_eq_add_one, Nat.sub_add_cancel hsamp]
  have hmem := (hperm 0 (Nat.div_pos hle hout)).mem_iff.2 (mem_expected.2
    ⟨c.nsamp - 1, Nat.lt_min.2 ⟨by omega, by omega⟩, (0, 0), ⟨hsig, hchan⟩, rfl⟩)
  obtain ⟨i, -, hcall⟩ := List.mem_flatMap.1 hmem
  obtain ⟨s, -, ch, -, j, -, hput⟩ := mem_call.1 hcall
  have hindex := ((Put.mk.injEq _ _ _ _).mp hput).1
  simp only [Nat.mul_one, Nat.zero_mul, Nat.zero_add] at hindex
  have hword : (j * c.nchan + (c.nchan - 1 - ch)) % 2 ^ 32 < 2 ^ 32 := Nat.mod_lt _ (Nat.two_pow_pos 32)
  -- other input blocks and other signals are behind it, and the indices of this one are too small
  rcases Nat.eq_zero_or_pos i with rfl | hi
  · rcases Nat.eq_zero_or_pos s with rfl | hs
    · omega
    · have hstride : c.nsamp * c.nchan ≤ s * (c.nsampOut * c.nchan) := by
        calc c.nsamp * c.nchan ≤ c.nsampOut * c.nchan := Nat.mul_le_mul_right _ hone
          _ ≤ s * (c.nsampOut * c.nchan) := Nat.le_mul_of_pos_left _ hs
      omega
  · have hbehind : c.nsamp * c.nchan ≤ c.nsamp * c.nchan * i := Nat.le_mul_of_pos_right _ hi
    omega

/-! ## What goes right -/

/-- The value that is stored for a sample of a channel. -/
def stored16 (fl : Scaling F) (c : Config F) (x : F) (ch : ℕ) : UInt16 :=
  fl.quantise x (setScales fl c.ctx (if c.bwPositive then c.nchan - 1 - ch else ch)) fl.digiMean

variable (fl data) in
/-- **A full output block has what it should have.** -/
theorem perm_filled (hsamp : 0 < c.nsamp) (hindex : c.nsamp * c.nchan ≤ 2 ^ 32)
    (hmean : total ≤ c.nsamp ∨ fl.isNegative (setScales fl c.ctx 0) = true)
    {b : ℕ} (hb : (b + 1) * c.nsampOut ≤ total) :
    (c.filled fl data b c.reblockFactor).Perm (c.expected (stored16 fl c) data total b) := by
  have hmin : min c.nsampOut (total - b * c.nsampOut) = c.reblockFactor * c.nsamp := by
    rw [Nat.succ_mul] at hb
    rw [Nat.min_eq_left (by omega), nsampOut, Nat.mul_comm]
  have hblock (i : ℕ) (hi : i < c.reblockFactor) : (b * c.reblockFactor + i + 1) * c.nsamp ≤ total := by
    refine Nat.le_trans ?_ hb
    rw [nsampOut, Nat.mul_comm c.nsamp, ← Nat.mul_assoc]
    refine Nat.mul_le_mul_right _ ?_
    rw [Nat.succ_mul]
    omega
  -- what one input block stores, one sample after the other
  have hcall (i : ℕ) (hi : i < c.reblockFactor) : (c.call fl data (b * c.reblockFactor + i) c.nsamp i).Perm
      ((List.range c.nsamp).flatMap fun j => (grid c.nsig c.nchan).map fun x =>
        { index := x.1 * (c.nsampOut * c.nchan) + (i * c.nsamp + j) * c.nchan + (c.nchan - 1 - x.2)
          value := some (stored16 fl c
            (c.sample data total x.1 x.2 (b * c.nsampOut + (i * c.nsamp + j))) x.2) }) := by
    have hsum := hblock i hi
    rw [Nat.succ_mul] at hsum
    have hset : c.meanOf fl (b * c.reblockFactor + i) = some fl.digiMean := by
      refine if_pos (hmean.imp_left fun hone => ?_)
      by_contra hk
      have : 1 * c.nsamp ≤ (b * c.reblockFactor + i) * c.nsamp := Nat.mul_le_mul_right _ (by omega)
      omega
    have hgrid : c.call fl data (b * c.reblockFactor + i) c.nsamp i =
        (grid c.nsig c.nchan).flatMap fun x => (List.range c.nsamp).map fun j =>
          { index := x.1 * (c.nsampOut * c.nchan) + (i * c.nsamp + j) * c.nchan + (c.nchan - 1 - x.2)
            value := some (stored16 fl c
              (c.sample data total x.1 x.2 (b * c.nsampOut + (i * c.nsamp + j))) x.2) } := by
      rw [call, stores, grid, List.flatMap_assoc]
      refine List.flatMap_congr fun s _ => ?_
      rw [List.flatMap_map]
      refine List.flatMap_congr fun ch hch => List.map_congr_left fun j hj => ?_
      have hch := List.mem_range.1 hch
      have hj := List.mem_range.1 hj
      rw [Put.mk.injEq]
      constructor
      · have hlt : j * c.nchan + (c.nchan - 1 - ch) < c.nsamp * c.nchan := by
          have : (j + 1) * c.nchan ≤ c.nsamp * c.nchan := Nat.mul_le_mul_right _ hj
          rw [Nat.succ_mul] at this
          have : 0 < c.nchan := Nat.lt_of_le_of_lt (Nat.zero_le ch) hch
          omega
        have hmod : (j * c.ctx.nchan + (c.ctx.nchan - 1 - ch)) % 2 ^ 32 = j * c.nchan + (c.nchan - 1 - ch) :=
          Nat.mod_eq_of_lt (Nat.lt_of_lt_of_le hlt hindex)
        rw [hmod]
        change c.nsamp * c.nchan * i + s * (c.nsampOut * 1 * c.nchan) + _ = _
        ring
      · have htime : b * c.nsampOut + (i * c.nsamp + j) = (b * c.reblockFactor + i) * c.nsamp + j := by
          unfold nsampOut
          ring
        have hdiv : (b * c.nsampOut + (i * c.nsamp + j)) / c.nsamp = b * c.reblockFactor + i := by
          rw [htime, Nat.mul_comm _ c.nsamp, Nat.mul_add_div hsamp, Nat.div_eq_of_lt hj, Nat.add_zero]
        have hmod : (b * c.nsampOut + (i * c.nsamp + j)) % c.nsamp = j := by
          rw [htime, Nat.mul_comm _ c.nsamp, Nat.mul_add_mod, Nat.mod_eq_of_lt hj]
        have hcount : c.count total (b * c.reblockFactor + i) = c.nsamp := Nat.min_eq_left (by omega)
        simp only [hset, Option.map_some, sample, hdiv, hmod, hcount, stored16]
        change some (fl.quantise (data _ (s * (c.nsamp * 1 * c.nchan) + _)) _ _) = _
        rw [Nat.mul_one]
        rfl
    rw [hgrid]
    exact flatMap_map_comm _ _ fun x j => _
  rw [expected, hmin, ← range_mul, List.flatMap_assoc]
  simp only [List.flatMap_map]
  exact List.Perm.flatMap_left _ fun i hi => hcall i (List.mem_range.1 hi)

/-- The indices of a full output block are all there are. -/
theorem perm_index (f : F → ℕ → UInt16) {b : ℕ} (hb : (b + 1) * c.nsampOut ≤ total) :
    ((c.expected f data total b).map Put.index).Perm (List.range (c.nsig * c.nchan * c.nsampOut)) := by
  have hmin : min c.nsampOut (total - b * c.nsampOut) = c.nsampOut := by
    rw [Nat.succ_mul] at hb
    exact Nat.min_eq_left (by omega)
  have hmap : (c.expected f data total b).map Put.index =
      (List.range c.nsampOut).flatMap fun t => (grid c.nsig c.nchan).map fun x =>
        x.1 * (c.nsampOut * c.nchan) + t * c.nchan + (c.nchan - 1 - x.2) := by
    rw [expected, hmin, List.map_flatMap]
    simp only [List.map_map]
    rfl
  rw [hmap]
  refine (flatMap_map_comm _ _ _).trans ?_
  rw [grid, List.flatMap_assoc, Nat.mul_assoc, ← range_mul]
  refine List.Perm.flatMap_left _ fun s _ => ?_
  rw [List.flatMap_map]
  -- within a signal, the channels are the columns, in reverse order
  have hcolumns := (map_grid_columns_reverse c.nchan c.nsampOut).map fun e => s * (c.nchan * c.nsampOut) + e
  rw [List.map_map, map_grid] at hcolumns
  refine List.Perm.trans (List.Perm.of_eq (List.flatMap_congr fun ch _ => List.map_congr_left fun t _ => ?_)) hcolumns
  change s * (c.nsampOut * c.nchan) + t * c.nchan + (c.nchan - 1 - ch) = _ + (t * c.nchan + (c.nchan - 1 - ch))
  rw [Nat.mul_comm c.nsampOut, Nat.add_assoc]

theorem count_lt_of_reblocks (h : c.Reblocks fl data total) (hpos : 0 < c.nsig * c.nchan) (hsamp : 0 < c.nsamp)
    (hfit : c.nsig * c.nchan * 4 < 2 ^ 32) (htotal : 0 < total) : min c.nsamp total < 2 ^ 32 := by
  obtain ⟨published, f, htransfer, -, -⟩ := h
  obtain ⟨s, hs, -⟩ := Option.map_eq_some_iff.1 htransfer
  have hceil : 0 < (total + c.nsamp - 1) / c.nsamp := Nat.div_pos (by omega) hsamp
  obtain ⟨n, hn⟩ := Nat.exists_eq_add_of_lt hceil
  rw [blocks, hn, Nat.zero_add, List.range_succ_eq_map, List.map_cons, List.foldlM_cons] at hs
  obtain ⟨t, ht, -⟩ := Option.bind_eq_some_iff.1 hs
  have hcount := (stored_writeBlock ht).2.1
  rw [sizeIn_eq, Nat.mod_eq_of_lt hfit, Nat.mul_right_comm, Nat.mul_div_cancel_left _ (by omega)] at hcount
  rwa [count, Nat.zero_mul, Nat.sub_zero] at hcount

/-- The first scale stays negative only with a calibration that makes it so. -/
theorem isNegative_setScales : fl.isNegative (setScales fl c.ctx 0) = true ↔
    c.bpCalibration = true ∧ fl.isNegative (fl.mul fl.digiScale (c.bandpass 0)) = true := by
  change fl.isNegative (if c.bpCalibration then fl.mul fl.digiScale (c.bandpass 0) else fl.digiScale) = true ↔ _
  cases c.bpCalibration with
  | true =>
    rw [if_pos rfl]
    exact ⟨fun h => ⟨rfl, h⟩, fun h => h.2⟩
  | false =>
    rw [if_neg Bool.false_ne_true, fl.isNegative_digiScale]
    exact iff_of_false Bool.false_ne_true fun h => Bool.false_ne_true h.1

theorem reblocks_zero (hsamp : 0 < c.nsamp) (hfactor : 0 < c.reblockFactor) : c.Reblocks fl data 0 := by
  have hout : 0 < c.nsampOut := Nat.mul_pos hsamp hfactor
  have hceil {n : ℕ} (hn : 0 < n) : (0 + n - 1) / n = 0 := Nat.div_eq_of_lt (by omega)
  refine ⟨[], fun _ _ => 0, ?_, (hceil hout).symm, fun b p hb => by cases hb⟩
  rw [blocks, hceil hsamp]
  rfl

end

end Config

/-! ## With rational numbers -/

theorem decide_minusOne_neg : decide ((-1 : ℚ) < 0) = true := decide_eq_true (by norm_num)

theorem decide_digiScale_neg : decide (((65535 : ℚ) - 32767.5) / 16 < 0) = false := decide_eq_false (by norm_num)

/-- The scaling in exact arithmetic. -/
def rationalScaling : Scaling ℚ where
  minusOne := -1
  isNegative x := decide (x < 0)
  mul x y := x * y
  digiScale := (65535 - 32767.5) / 16
  digiMean := 32767.5
  quantise x scale mean := UInt16.ofNat (min 65535 (x * scale + mean + 1 / 2).floor.toNat)
  isNegative_minusOne := decide_minusOne_neg
  isNegative_digiScale := decide_digiScale_neg

/-- Two signals of one channel, and two input blocks of one sample in an output block. -/
def twoSignals : Config ℚ := ⟨2, 1, 1, 2, false, fun _ => 0, true⟩

end Dbreblockdb

end Psrdada
