import Psrdada.Mopsr.Dbsplitdb

/-! # Each output of `mopsr_dbsplitdb` gets its signal

After some chunks the cached version has put as many samples of each signal as the chunks hold, and the
remainder completes them.  The other functions distribute the block, whatever its dimensions. -/

namespace Psrdada

namespace Dbsplitdb

open Assign

variable {α : Type*}

/-! ## The cached version -/

/-- The assignments between the caches write each element once. -/
theorem nodup_cacheMoves {nsamp nout count : ℕ} (hcount : count ≤ nsamp) :
    ((cacheMoves nsamp nout count).map Assign.dst).Nodup := by
  have hgrid : (cacheMoves nsamp nout count).map Assign.dst =
      (grid count nout).map fun x => x.2 * nsamp + x.1 := by
    rw [map_grid, cacheMoves, List.map_flatMap]
    simp only [List.map_map]
    rfl
  have hnodup : (grid count nout).Nodup := by
    refine List.Nodup.of_map (fun x => x.1 * nout + x.2) ?_
    rw [map_grid_rows]
    exact List.nodup_range
  rw [hgrid]
  refine hnodup.map_on fun x hx y hy heq => ?_
  obtain ⟨hx1, -⟩ := mem_grid.1 hx
  obtain ⟨hy1, -⟩ := mem_grid.1 hy
  -- the sample is the rest and the signal the quotient by the length of a row
  have hpos : 0 < nsamp := by omega
  have hmod : x.1 = y.1 := by
    have := congrArg (· % nsamp) heq
    simpa only [Nat.mul_add_mod_self_right, Nat.mod_eq_of_lt (Nat.lt_of_lt_of_le hx1 hcount),
      Nat.mod_eq_of_lt (Nat.lt_of_lt_of_le hy1 hcount)] using this
  have hdiv : x.2 = y.2 := by
    rw [hmod, Nat.add_right_cancel_iff] at heq
    exact Nat.eq_of_mul_eq_mul_right hpos heq
  exact Prod.ext hmod hdiv

/-- All accesses are within the caches. -/
theorem inside_cacheMoves {nsamp nout count : ℕ} (hcount : count ≤ nsamp) (hsize : nsamp * nout ≤ cacheSize) :
    Inside cacheSize (cacheMoves nsamp nout count) := by
  intro m hm
  simp only [cacheMoves, List.mem_flatMap, List.mem_map, List.mem_range] at hm
  obtain ⟨isamp, hs, iout, ho, rfl⟩ := hm
  refine ⟨Nat.lt_of_lt_of_le ?_ hsize, Nat.lt_of_lt_of_le ?_ hsize⟩
  · calc iout * nsamp + isamp < iout * nsamp + nsamp := by omega
      _ = (iout + 1) * nsamp := (Nat.succ_mul iout nsamp).symm
      _ ≤ nout * nsamp := Nat.mul_le_mul_right _ ho
      _ = nsamp * nout := Nat.mul_comm _ _
  · calc isamp * nout + iout < isamp * nout + nout := by omega
      _ = (isamp + 1) * nout := (Nat.succ_mul isamp nout).symm
      _ ≤ nsamp * nout := Nat.mul_le_mul_right _ (by omega)

/-- **What a chunk does to the output `i`**: it gets the samples of its signal. -/
theorem outs_chunk (input : Memory α) {nsamp nout inAt count outAt i : ℕ} (s : Cache α)
    (hcount : count ≤ nsamp) (hi : i < nout) (j : ℕ) :
    (chunk input nsamp nout (2 * inAt) (2 * (count * nout)) count (2 * outAt) (2 * count) s).outs i j =
      if outAt ≤ j ∧ j < outAt + count then input (inAt + ((j - outAt) * nout + i)) else s.outs i j := by
  have hhalf (n : ℕ) : 2 * n / 2 = n := by omega
  simp only [chunk, hhalf, if_pos hi]
  rw [Memory.slice, Memory.copy_map_range]
  split
  · next h =>
    obtain ⟨t, rfl⟩ : ∃ t, j = outAt + t := ⟨j - outAt, by omega⟩
    rw [Nat.add_sub_cancel_left]
    have ht : t < count := by omega
    have hmem : (⟨i * nsamp + t, t * nout + i⟩ : Assign) ∈ cacheMoves nsamp nout count := by
      simp only [cacheMoves, List.mem_flatMap, List.mem_map, List.mem_range]
      exact ⟨t, ht, i, hi, rfl⟩
    have hlt : t * nout + i < count * nout := by
      calc t * nout + i < t * nout + nout := by omega
        _ = (t + 1) * nout := (Nat.succ_mul t nout).symm
        _ ≤ count * nout := Nat.mul_le_mul_right _ ht
    have hin : s.inBuf.copy 0 (input.slice inAt (count * nout)) (t * nout + i) =
        input (inAt + (t * nout + i)) := by
      rw [Memory.slice, Memory.copy_map_range, if_pos ⟨Nat.zero_le _, by omega⟩, Nat.sub_zero]
    rw [Nat.mul_comm nsamp i, ← hin]
    exact run_of_mem (nodup_cacheMoves hcount) hmem
  · rfl

/-- After some chunks each output has the samples that they hold. -/
theorem outs_chunks (input : Memory α) {nsamp nout i : ℕ} (s : Cache α) (hi : i < nout) (k : ℕ)
    (hk : k * (2 * nsamp) < 2 ^ 32) (j : ℕ) :
    ((List.range k).foldl (fun s ichunk => chunk input nsamp nout (ichunk * (2 * (nsamp * nout)))
        (2 * (nsamp * nout)) nsamp (ichunk * (2 * nsamp) % 2 ^ 32) (2 * nsamp) s) s).outs i j =
      if j < k * nsamp then input (j * nout + i) else s.outs i j := by
  induction k with
  | zero => rw [Nat.zero_mul, if_neg (Nat.not_lt_zero j)]; rfl
  | succ k ih =>
    have hlt : k * (2 * nsamp) < 2 ^ 32 :=
      Nat.lt_of_le_of_lt (Nat.mul_le_mul_right _ (Nat.le_succ k)) hk
    have hout : k * (2 * nsamp) % 2 ^ 32 = 2 * (k * nsamp) := by
      rw [Nat.mod_eq_of_lt hlt, Nat.mul_left_comm]
    have hin : k * (2 * (nsamp * nout)) = 2 * (k * nsamp * nout) := by
      rw [Nat.mul_left_comm, Nat.mul_assoc]
    rw [List.range_succ, List.foldl_append, List.foldl_cons, List.foldl_nil, hout, hin,
      outs_chunk input _ (Nat.le_refl nsamp) hi, ih hlt, Nat.succ_mul]
    by_cases h : k * nsamp ≤ j ∧ j < k * nsamp + nsamp
    · rw [if_pos h, if_pos h.2, ← Nat.add_assoc, ← Nat.add_mul, Nat.add_sub_cancel' h.1]
    · rw [if_neg h]
      by_cases hj : j < k * nsamp
      · rw [if_pos hj, if_pos (by omega)]
      · rw [if_neg hj, if_neg (by omega)]

/-- The outputs that `dbsplitdb_write_block` leaves. -/
theorem run_dbsplitdbWriteBlock {ctx : Ctx} (hdim : ctx.ndim = 2) {s : ℕ} (hpos : 0 < ctx.nOutputs)
    (input output : Memory α) (i j : ℕ) :
    run input (dbsplitdbWriteBlock ctx (2 * ctx.nOutputs * s) i) output j =
      if j < s then input (j * ctx.nOutputs + i) else output j := by
  have hsplit : ctx.outDataSize (2 * ctx.nOutputs * s) / ctx.ndim = s := by
    rw [hdim, Ctx.outDataSize, Nat.mul_right_comm, Nat.mul_div_cancel _ hpos, Nat.mul_div_cancel_left _ (by decide)]
  have hmoves : dbsplitdbWriteBlock ctx (2 * ctx.nOutputs * s) i =
      (List.range s).map fun isplit => ⟨isplit, i + ctx.nOutputs * isplit⟩ := by
    rw [dbsplitdbWriteBlock, hsplit]
  have hdst : (dbsplitdbWriteBlock ctx (2 * ctx.nOutputs * s) i).map Assign.dst = List.range s := by
    rw [hmoves, List.map_map]
    exact List.map_id _
  by_cases hj : j < s
  · have hmem : (⟨j, i + ctx.nOutputs * j⟩ : Assign) ∈ dbsplitdbWriteBlock ctx (2 * ctx.nOutputs * s) i := by
      rw [hmoves]
      exact List.mem_map.2 ⟨j, List.mem_range.2 hj, rfl⟩
    rw [if_pos hj, Nat.mul_comm j, Nat.add_comm _ i]
    exact run_of_mem (by rw [hdst]; exact List.nodup_range) hmem
  · rw [if_neg hj, run_of_not_mem]
    rw [hdst]
    exact fun h => hj (List.mem_range.1 h)

/-- **The cached version leaves in each output what the plain one leaves there.** -/
theorem outs_dbsplitdbWriteBlock16 {ctx : Ctx} (hdim : ctx.ndim = 2) (hpos : 0 < ctx.nOutputs)
    (hle : ctx.nOutputs ≤ cacheSize) {s : ℕ} (hsize : 2 * ctx.nOutputs * s < 2 ^ 32) (input : Memory α)
    (cache : Cache α) {i : ℕ} (hi : i < ctx.nOutputs) :
    (dbsplitdbWriteBlock16 ctx (2 * ctx.nOutputs * s) input cache).outs i =
      run input (dbsplitdbWriteBlock ctx (2 * ctx.nOutputs * s) i) (cache.outs i) := by
  funext j
  obtain ⟨nout, hnout⟩ : ∃ nout, ctx.nOutputs = nout := ⟨_, rfl⟩
  obtain ⟨nsamp, hnsamp⟩ : ∃ nsamp, cacheSize / nout = nsamp := ⟨_, rfl⟩
  rw [run_dbsplitdbWriteBlock hdim hpos]
  rw [hnout] at hpos hle hsize hi ⊢
  have hN : 0 < nsamp := by
    rw [← hnsamp]
    exact Nat.div_pos hle hpos
  have hpos2 : 0 < 2 * nout := Nat.mul_pos (Nat.succ_pos 1) hpos
  have hin : nsamp * 2 * nout = 2 * nout * nsamp := by rw [Nat.mul_comm nsamp 2, Nat.mul_right_comm]
  -- the counts of chunks and of what is left over, which are in range
  have hchunks : 2 * nout * s / (2 * nout * nsamp) = s / nsamp := Nat.mul_div_mul_left s nsamp hpos2
  have hleft : 2 * nout * s % (2 * nout * nsamp) = 2 * nout * (s % nsamp) := Nat.mul_mod_mul_left _ _ _
  have hs : 2 * s < 2 ^ 32 := by
    refine Nat.lt_of_le_of_lt ?_ hsize
    rw [Nat.mul_right_comm]
    exact Nat.le_mul_of_pos_right _ hpos
  have hchunks32 : s / nsamp % 2 ^ 32 = s / nsamp := by
    have := Nat.div_le_self s nsamp
    exact Nat.mod_eq_of_lt (by omega)
  have hleft32 : 2 * nout * (s % nsamp) % 2 ^ 32 = 2 * nout * (s % nsamp) :=
    Nat.mod_eq_of_lt (Nat.lt_of_le_of_lt (Nat.mul_le_mul_left _ (Nat.mod_le s nsamp)) hsize)
  have hplace : s / nsamp * (2 * nsamp) < 2 ^ 32 := by
    have := Nat.div_mul_le_self s nsamp
    rw [Nat.mul_left_comm]
    omega
  have hsamples : 2 * nout * (s % nsamp) / (nout * 2) = s % nsamp := by
    rw [Nat.mul_comm nout 2, Nat.mul_div_cancel_left _ hpos2]
  have hfold := outs_chunks input cache hi (s / nsamp) hplace j
  have hdecomp : s / nsamp * nsamp + s % nsamp = s := by rw [Nat.mul_comm]; exact Nat.div_add_mod s nsamp
  simp only [dbsplitdbWriteBlock16, hdim, hnout, hnsamp, hin, hchunks, hleft, hchunks32, hleft32, hsamples]
  have hrow : 2 * nout * nsamp = 2 * (nsamp * nout) := by rw [Nat.mul_assoc, Nat.mul_comm nout]
  rw [hrow, Nat.mul_comm nsamp 2]
  by_cases hzero : s % nsamp = 0
  · rw [hzero, Nat.mul_zero, if_neg (not_not.2 rfl), hfold]
    rw [hzero, Nat.add_zero] at hdecomp
    rw [hdecomp]
  · rw [if_pos (Nat.mul_ne_zero (Nat.pos_iff_ne_zero.1 hpos2) hzero), Nat.mod_eq_of_lt hplace]
    have hat : s / nsamp * (2 * (nsamp * nout)) = 2 * (s / nsamp * nsamp * nout) := by
      rw [Nat.mul_left_comm, Nat.mul_assoc]
    have hcount : 2 * nout * (s % nsamp) = 2 * (s % nsamp * nout) := by
      rw [Nat.mul_assoc, Nat.mul_comm nout]
    rw [hat, hcount, Nat.mul_left_comm _ 2, Nat.mul_comm (s % nsamp) 2]
    rw [outs_chunk input _ (Nat.le_of_lt (Nat.mod_lt s hN)) hi, hfold, hdecomp]
    by_cases h : s / nsamp * nsamp ≤ j ∧ j < s
    · rw [if_pos h, if_pos h.2, ← Nat.add_assoc, ← Nat.add_mul, Nat.add_sub_cancel' h.1]
    · rw [if_neg h]
      by_cases hj : j < s / nsamp * nsamp
      · rw [if_pos hj, if_pos (by omega)]
      · rw [if_neg hj, if_neg (by omega)]

/-! ## The other orders -/

section

variable (ctx : Ctx) {nsamp : ℕ}

/-- The bytes of the samples of one output. -/
theorem outDataSize_mul (hpos : 0 < ctx.nOutputs) (k : ℕ) : ctx.outDataSize (ctx.nOutputs * k) = k := by
  rw [Ctx.outDataSize, Nat.mul_div_cancel_left _ hpos]

/-- The samples of all signals, channel by channel, are the elements of a block in FST order. -/
theorem perm_FST (nout nchan nsamp : ℕ) :
    ((List.range nout).flatMap fun i => (grid nchan nsamp).map fun x =>
      (x.1 * nout + i) * nsamp + x.2).Perm (List.range (nout * (nchan * nsamp))) := by
  have hrow (i : ℕ) : ((grid nchan nsamp).map fun x => (x.1 * nout + i) * nsamp + x.2) =
      (List.range nchan).flatMap fun c => (List.range nsamp).map fun t => (c * nout + i) * nsamp + t :=
    map_grid _ _ _
  simp only [hrow]
  have hcollect : ((List.range nout).flatMap fun i => (List.range nchan).flatMap fun c =>
        (List.range nsamp).map fun t => (c * nout + i) * nsamp + t) =
      (((List.range nout).flatMap fun i => (List.range nchan).map fun c => c * nout + i).flatMap fun k =>
        (List.range nsamp).map fun t => k * nsamp + t) := by
    rw [List.flatMap_assoc]
    congr 1
    funext i
    rw [List.flatMap_map]
  rw [hcollect, ← Nat.mul_assoc, ← range_mul, Nat.mul_comm nout]
  exact (range_mul_comm nchan nout).flatMap_right _

/-- **FST to TF**: channel `c` and sample `t` of signal `i`. -/
theorem distributes_FSTtoTF (hpos : 0 < ctx.nOutputs) (hchan : 0 < ctx.nchan) (hdim : ctx.ndim = 2) :
    Distributes (grid ctx.nchan nsamp) (fun i x => (x.1 * ctx.nOutputs + i) * nsamp + x.2)
      (fun x => x.2 * ctx.nchan + x.1) ctx.nOutputs (ctx.nchan * nsamp)
      (dbsplitdbWriteBlockFSTtoTF ctx (ctx.nOutputs * (ctx.nchan * nsamp * 2))) where
  moves_perm i _ := by
    have hsamp : ctx.outDataSize (ctx.nOutputs * (ctx.nchan * nsamp * 2)) / ctx.ndim / ctx.nchan = nsamp := by
      rw [outDataSize_mul ctx hpos, hdim, Nat.mul_div_cancel _ (by decide), Nat.mul_div_cancel_left _ hchan]
    rw [dbsplitdbWriteBlockFSTtoTF]
    simp only [hsamp]
    rw [strides_eq, map_grid]
    refine List.Perm.of_eq ?_
    congr 1
    funext c
    congr 1
    funext t
    rw [Assign.mk.injEq]
    refine ⟨by rw [Nat.zero_add, Nat.mul_one, Nat.add_comm], ?_⟩
    rw [Nat.add_mul, Nat.mul_assoc, Nat.mul_comm nsamp, Nat.add_comm (i * nsamp)]
  dst_perm := map_grid_columns _ _
  src_perm := perm_FST _ _ _

/-- The pointer into the block advances with the outputs. -/
theorem inputAt_eq (inDataSize i : ℕ) : inputAt ctx inDataSize i = i * ctx.outDataSize inDataSize := by
  induction i with
  | zero => rw [inputAt, Nat.zero_mul]
  | succ i ih => rw [inputAt, ih, Nat.succ_mul]

/-- **STF to TF**: byte `b` of signal `i`. -/
theorem distributes_STFtoTF (hpos : 0 < ctx.nOutputs) (size : ℕ) :
    Distributes (List.range size) (fun i b => i * size + b) (fun b => b) ctx.nOutputs size
      (dbsplitdbWriteBlockSTFtoTF ctx (ctx.nOutputs * size)) where
  moves_perm i _ := by
    rw [dbsplitdbWriteBlockSTFtoTF, inputAt_eq, outDataSize_mul ctx hpos]
  dst_perm := by rw [List.map_id']
  src_perm := by rw [range_mul]

/-- What **SFT to TF** does where the size of a sample fits. -/
theorem dbsplitdbWriteBlockSFTtoTF_eq (hpos : 0 < ctx.nOutputs) (hbit : ctx.nbit = 32) (hdim : ctx.ndim = 1)
    {k : ℕ} (hk : 4 * ctx.nchan % 2 ^ 32 = 4 * k) (hk0 : 0 < k) (i : ℕ) :
    dbsplitdbWriteBlockSFTtoTF ctx (ctx.nOutputs * (ctx.nchan * nsamp * 4)) i =
      some ((List.range ctx.nchan).flatMap fun ichan => (List.range (ctx.nchan * nsamp / k)).map fun isamp =>
        ⟨isamp * ctx.nchan + ichan, i * (ctx.nchan * nsamp) + (ichan * (ctx.nchan * nsamp / k) + isamp)⟩) := by
  have hsize : ctx.ndim * (ctx.nbit / 8) * ctx.nchan % 2 ^ 32 = 4 * k := by
    rw [hdim, hbit, Nat.one_mul, ← hk]
  have hin : inputAt ctx (ctx.nOutputs * (ctx.nchan * nsamp * 4)) i / 4 = i * (ctx.nchan * nsamp) := by
    rw [inputAt_eq, outDataSize_mul ctx hpos, ← Nat.mul_assoc, Nat.mul_div_cancel _ (by decide)]
  have hsamp : ctx.outDataSize (ctx.nOutputs * (ctx.nchan * nsamp * 4)) / (4 * k) = ctx.nchan * nsamp / k := by
    rw [outDataSize_mul ctx hpos, Nat.mul_comm _ 4, Nat.mul_div_mul_left _ _ (by decide)]
  rw [dbsplitdbWriteBlockSFTtoTF]
  simp only [hsize, hsamp, hin]
  rw [if_neg (Nat.pos_iff_ne_zero.1 (Nat.mul_pos (Nat.succ_pos 3) hk0)), if_pos ⟨hbit, hdim⟩]

/-- **SFT to TF**: channel `c` and sample `t` of signal `i`, exactly when the size of a sample of all channels
fits into `unsigned`. -/
theorem distributes_SFTtoTF_iff (hpos : 0 < ctx.nOutputs) (hchan : 0 < ctx.nchan) (hn : 0 < nsamp)
    (hbit : ctx.nbit = 32) (hdim : ctx.ndim = 1) :
    (∃ moves, (∀ i < ctx.nOutputs,
        dbsplitdbWriteBlockSFTtoTF ctx (ctx.nOutputs * (ctx.nchan * nsamp * 4)) i = some (moves i)) ∧
      Distributes (grid ctx.nchan nsamp) (fun i x => i * (ctx.nchan * nsamp) + (x.1 * nsamp + x.2))
        (fun x => x.2 * ctx.nchan + x.1) ctx.nOutputs (ctx.nchan * nsamp) moves) ↔ ctx.nchan < 2 ^ 30 := by
  obtain ⟨k, hk⟩ : ∃ k, 4 * ctx.nchan % 2 ^ 32 = 4 * k := ⟨ctx.nchan % 2 ^ 30, by omega⟩
  constructor
  · rintro ⟨moves, hsome, hdist⟩
    by_contra hge
    have hlt : k < 2 ^ 30 := by omega
    rcases Nat.eq_zero_or_pos k with rfl | hk0
    · have hsize : ctx.ndim * (ctx.nbit / 8) * ctx.nchan % 2 ^ 32 = 0 := by
        rw [hdim, hbit, Nat.one_mul]
        exact hk
      have := hsome 0 hpos
      rw [dbsplitdbWriteBlockSFTtoTF, if_pos hsize] at this
      cases this
    · -- the number of samples comes out too large
      have hmoves := hsome 0 hpos
      rw [dbsplitdbWriteBlockSFTtoTF_eq ctx hpos hbit hdim hk hk0, Option.some.injEq] at hmoves
      have hlen := (hdist.moves_perm 0 hpos).length_eq
      rw [← hmoves, map_grid] at hlen
      simp only [List.length_flatMap, List.length_map, List.length_range, List.map_const', List.sum_replicate,
        Nat.nsmul_eq_mul] at hlen
      have hle : (nsamp + 1) * k ≤ ctx.nchan * nsamp := by
        calc (nsamp + 1) * k = nsamp * k + k := Nat.succ_mul nsamp k
          _ ≤ nsamp * k + nsamp * (ctx.nchan - k) := by
            have : ctx.nchan - k ≤ nsamp * (ctx.nchan - k) := Nat.le_mul_of_pos_left _ hn
            omega
          _ = ctx.nchan * nsamp := by
            rw [← Nat.mul_add, Nat.add_sub_cancel' (by omega), Nat.mul_comm]
      have hmore : nsamp + 1 ≤ ctx.nchan * nsamp / k := (Nat.le_div_iff_mul_le hk0).2 hle
      have := Nat.eq_of_mul_eq_mul_left hchan hlen
      omega
  · intro hlt
    obtain rfl : k = ctx.nchan := by omega
    refine ⟨_, fun i _ => dbsplitdbWriteBlockSFTtoTF_eq ctx hpos hbit hdim hk hchan i, ?_, ?_, ?_⟩
    · intro i _
      rw [Nat.mul_div_cancel_left _ hchan, map_grid]
    · exact map_grid_columns _ _
    · have hrow (i : ℕ) : ((grid ctx.nchan nsamp).map fun x => i * (ctx.nchan * nsamp) + (x.1 * nsamp + x.2)) =
          (List.range (ctx.nchan * nsamp)).map fun k => i * (ctx.nchan * nsamp) + k := by
        rw [← map_grid_rows, List.map_map]
        rfl
      simp only [hrow]
      rw [range_mul]

/-- **TS to T**: sample `t` of signal `i`, exactly when the samples can be counted, and the index of the last
one computed, in `unsigned`. -/
theorem distributes_TStoT_iff (hpos : 0 < ctx.nOutputs) :
    (∃ moves, (∀ i < ctx.nOutputs, dbsplitdbWriteBlockTStoT ctx (ctx.nOutputs * (nsamp * 4)) i = some (moves i)) ∧
      Distributes (List.range nsamp) (fun i t => t * ctx.nOutputs + i) (fun t => t) ctx.nOutputs nsamp moves) ↔
      nsamp < 2 ^ 32 ∧ (nsamp - 1) * ctx.nOutputs < 2 ^ 32 := by
  have hsamp : ctx.outDataSize (ctx.nOutputs * (nsamp * 4)) / 4 = nsamp := by
    rw [outDataSize_mul ctx hpos, Nat.mul_div_cancel _ (by decide)]
  have hmoves (i : ℕ) : dbsplitdbWriteBlockTStoT ctx (ctx.nOutputs * (nsamp * 4)) i =
      if nsamp < 2 ^ 32 then
        some ((List.range nsamp).map fun isamp => ⟨isamp, i + isamp * ctx.nOutputs % 2 ^ 32⟩)
      else none := by
    rw [dbsplitdbWriteBlockTStoT]
    simp only [hsamp]
  constructor
  · rintro ⟨moves, hsome, hdist⟩
    have hzero := hsome 0 hpos
    rw [hmoves] at hzero
    split at hzero
    · next hlt =>
      refine ⟨hlt, ?_⟩
      rcases Nat.eq_zero_or_pos nsamp with rfl | hn
      · rw [Nat.zero_sub, Nat.zero_mul]
        exact Nat.two_pow_pos 32
      -- the last sample of the first signal is read from where it is
      have hlast : (⟨nsamp - 1, 0 + (nsamp - 1) * ctx.nOutputs % 2 ^ 32⟩ : Assign) ∈ moves 0 := by
        rw [← Option.some.inj hzero]
        exact List.mem_map.2 ⟨nsamp - 1, List.mem_range.2 (by omega), rfl⟩
      obtain ⟨t, -, ht⟩ := List.mem_map.1 ((hdist.moves_perm 0 hpos).mem_iff.1 hlast)
      obtain ⟨rfl, hsrc⟩ := (Assign.mk.injEq _ _ _ _).mp ht
      rw [Nat.add_zero, Nat.zero_add] at hsrc
      rw [hsrc]
      exact Nat.mod_lt _ (Nat.two_pow_pos 32)
    · cases hzero
  · rintro ⟨hlt, hindex⟩
    refine ⟨fun i => (List.range nsamp).map fun isamp => ⟨isamp, i + isamp * ctx.nOutputs % 2 ^ 32⟩,
      fun i _ => ?_, fun i _ => ?_, ?_, ?_⟩
    · rw [hmoves, if_pos hlt]
    · refine List.Perm.of_eq (List.map_congr_left fun t ht => ?_)
      have hle : t * ctx.nOutputs ≤ (nsamp - 1) * ctx.nOutputs :=
        Nat.mul_le_mul_right _ (Nat.le_sub_one_of_lt (List.mem_range.1 ht))
      rw [Nat.mod_eq_of_lt (Nat.lt_of_le_of_lt hle hindex), Nat.add_comm]
    · rw [List.map_id']
    · rw [Nat.mul_comm]
      exact range_mul_comm nsamp ctx.nOutputs

end

/-! ## All of them -/

/-- The parameters of a block of so many signals and channels, with elements of so many bits and parts. -/
def ctxOf (nOutputs nchan ndim nbit : ℕ) : Ctx := ⟨nOutputs, nchan, ndim, nbit⟩

/-- **Each output gets its signal.**  The cached version leaves what the plain one leaves, and the other
functions distribute a block of so many signals, channels and samples. -/
structure SplitsSignals (nOutputs nchan nsamp : ℕ) : Prop where
  cached : nOutputs ≤ cacheSize → ∀ inDataSize < 2 ^ 32, 2 * nOutputs ∣ inDataSize →
    ∀ (nchan nbit : ℕ) (α : Type) (input : Memory α) (cache : Cache α), ∀ i < nOutputs,
      (dbsplitdbWriteBlock16 (ctxOf nOutputs nchan 2 nbit) inDataSize input cache).outs i =
        run input (dbsplitdbWriteBlock (ctxOf nOutputs nchan 2 nbit) inDataSize i) (cache.outs i)
  /-- in elements of 16 bits, channel `x.1` and sample `x.2` -/
  fst : ∀ nbit, Distributes (grid nchan nsamp) (fun i x => (x.1 * nOutputs + i) * nsamp + x.2)
    (fun x => x.2 * nchan + x.1) nOutputs (nchan * nsamp)
    (dbsplitdbWriteBlockFSTtoTF (ctxOf nOutputs nchan 2 nbit) (nOutputs * (nchan * nsamp * 2)))
  /-- in bytes, which stay in the order that they have within the signal -/
  stf : ∀ ndim nbit bytes, Distributes (List.range (nsamp * nchan * bytes))
    (fun i b => i * (nsamp * nchan * bytes) + b) (fun b => b) nOutputs (nsamp * nchan * bytes)
    (dbsplitdbWriteBlockSTFtoTF (ctxOf nOutputs nchan ndim nbit) (nOutputs * (nsamp * nchan * bytes)))
  /-- in elements of 32 bits, channel `x.1` and sample `x.2` -/
  sft : ∃ moves, (∀ i < nOutputs, dbsplitdbWriteBlockSFTtoTF (ctxOf nOutputs nchan 1 32)
      (nOutputs * (nchan * nsamp * 4)) i = some (moves i)) ∧
    Distributes (grid nchan nsamp) (fun i x => i * (nchan * nsamp) + (x.1 * nsamp + x.2))
      (fun x => x.2 * nchan + x.1) nOutputs (nchan * nsamp) moves
  /-- in elements of 32 bits -/
  ts : ∀ ndim nbit, ∃ moves, (∀ i < nOutputs, dbsplitdbWriteBlockTStoT (ctxOf nOutputs nchan ndim nbit)
      (nOutputs * (nsamp * 4)) i = some (moves i)) ∧
    Distributes (List.range nsamp) (fun i t => t * nOutputs + i) (fun t => t) nOutputs nsamp moves

/-- **Exactly when `unsigned` holds the index of the last sample and the size of a sample**, each output gets its
signal. -/
theorem splitsSignals_iff {nOutputs nchan nsamp : ℕ} (hpos : 0 < nOutputs) (hchan : 0 < nchan)
    (hn : 0 < nsamp) : SplitsSignals nOutputs nchan nsamp ↔
      nchan < 2 ^ 30 ∧ nsamp < 2 ^ 32 ∧ (nsamp - 1) * nOutputs < 2 ^ 32 := by
  constructor
  · intro h
    exact ⟨(distributes_SFTtoTF_iff (ctxOf nOutputs nchan 1 32) hpos hchan hn rfl rfl).1 h.sft,
      (distributes_TStoT_iff (ctxOf nOutputs nchan 1 32) hpos).1 (h.ts 1 32)⟩
  · rintro ⟨hsize, hindex⟩
    constructor
    case cached =>
      rintro hle inDataSize hlt ⟨s, rfl⟩ nchan nbit α input cache i hi
      exact outs_dbsplitdbWriteBlock16 rfl hpos hle hlt input cache hi
    case fst =>
      intro nbit
      exact distributes_FSTtoTF (ctxOf nOutputs nchan 2 nbit) hpos hchan rfl
    case stf =>
      intro ndim nbit bytes
      exact distributes_STFtoTF (ctxOf nOutputs nchan ndim nbit) hpos _
    case sft =>
      exact (distributes_SFTtoTF_iff (ctxOf nOutputs nchan 1 32) hpos hchan hn rfl rfl).2 hsize
    case ts =>
      intro ndim nbit
      exact (distributes_TStoT_iff (ctxOf nOutputs nchan ndim nbit) hpos).2 hindex

/-- Two signals of three channels and five samples. -/
theorem splitsSignals_iff_five : SplitsSignals 2 3 5 ↔ 3 < 2 ^ 30 ∧ 5 < 2 ^ 32 ∧ (5 - 1) * 2 < 2 ^ 32 :=
  splitsSignals_iff (by decide) (by decide) (by decide)

/-- Sixteen signals of `2 ^ 28 + 1` samples are not split: the last sample is taken from where the first is. -/
theorem not_splitsSignals_sixteen : ¬SplitsSignals 16 1 (2 ^ 28 + 1) := by
  intro h
  have hindex := ((distributes_TStoT_iff (ctxOf 16 1 1 32) (by decide)).1 (h.ts 1 32)).2
  exact absurd hindex (by decide)

end Dbsplitdb

end Psrdada
