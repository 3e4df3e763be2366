import Psrdada.Memory.Assign

/-! # `mopsr_dbtransposedb.c`: signals, channels and samples transposed

Each function is the assignments it makes from the input to the output block, in elements of its own size.
The counter of the samples is `unsigned`, and so are the indices computed from it: as long as they are in
range, each function is a permutation of the block.  `SFT_to_STF` puts the channels in reverse order, and
goes through the signals without advancing `in`. -/

namespace Psrdada

namespace Dbtransposedb

open Assign

/-- The members of `mopsr_dbtransposedb_t` that say how a block is made up. -/
structure Ctx where
  /-- `nsig` -/
  nsig : ℕ
  /-- `nchan` -/
  nchan : ℕ
  /-- `ndim` -/
  ndim : ℕ
  /-- `nbit` -/
  nbit : ℕ
  deriving DecidableEq, Repr

variable (ctx : Ctx) (dataSize : ℕ)

/-- What a function does that divides by the `unsigned` size of a sample, and counts the samples in
`unsigned`: it ends only if there is something to divide by, and the samples can be counted. -/
def counted (sampleSize : ℕ) (moves : ℕ → List Assign) : Option (List Assign) :=
  let nsamp := dataSize / (sampleSize % 2 ^ 32)
  if sampleSize % 2 ^ 32 ≠ 0 ∧ nsamp < 2 ^ 32 then some (moves nsamp) else none

/-- `dbtransposedb_write_block_ST_to_TS`, in elements of 16 bits. -/
def writeBlockSTtoTS : Option (List Assign) :=
  counted dataSize (ctx.nsig * ctx.nchan * ctx.ndim) fun nsamp =>
    (List.range nsamp).flatMap fun isamp => (List.range ctx.nsig).map fun isig =>
      ⟨(isamp * ctx.nsig + isig) % 2 ^ 32, isig * nsamp + isamp⟩

/-- `dbtransposedb_write_block_SFT_to_STF`, in elements of 32 bits; `in` stays where it is. -/
def writeBlockSFTtoSTF : Option (List Assign) :=
  counted dataSize (ctx.nsig * ctx.ndim * ctx.nchan) fun nsamp =>
    let sigStride := nsamp * ctx.ndim * ctx.nchan
    strides (fun inp out => (List.range ctx.nchan).flatMap fun ichan =>
      let ochan := ctx.nchan - 1 - ichan
      (List.range nsamp).map fun isamp =>
        ⟨out + (isamp * ctx.nchan + ochan) % 2 ^ 32, inp + (ichan * nsamp + isamp)⟩) 0 sigStride ctx.nsig 0 0

/-- `dbtransposedb_write_block_FT_to_TF`, in elements of 64 bits. -/
def writeBlockFTtoTF : Option (List Assign) :=
  counted dataSize (ctx.ndim * ctx.nchan * (ctx.nbit / 8)) fun nsamp =>
    (List.range ctx.nchan).flatMap fun ichan => (List.range nsamp).map fun isamp =>
      ⟨(isamp * ctx.nchan + ichan) % 2 ^ 32, ichan * nsamp + isamp⟩

/-! ## What the functions do -/

/-- The samples of a block of whole samples. -/
theorem counted_mul {sampleSize nsamp : ℕ} (moves : ℕ → List Assign) (hpos : 0 < sampleSize)
    (hsize : sampleSize < 2 ^ 32) (hsamp : nsamp < 2 ^ 32) :
    counted (sampleSize * nsamp) sampleSize moves = some (moves nsamp) := by
  have hmod : sampleSize % 2 ^ 32 = sampleSize := Nat.mod_eq_of_lt hsize
  rw [counted, hmod, Nat.mul_div_cancel_left _ hpos]
  exact if_pos ⟨Nat.pos_iff_ne_zero.1 hpos, hsamp⟩

/-- **ST to TS**: sample `x.2` of signal `x.1`. -/
theorem rearranges_STtoTS {nsig nsamp : ℕ} (nbit : ℕ) (hpos : 0 < nsig) (hsize : nsig * 2 < 2 ^ 32)
    (hsamp : nsamp < 2 ^ 32) (hle : nsig * nsamp ≤ 2 ^ 32) :
    ∃ moves, writeBlockSTtoTS ⟨nsig, 1, 2, nbit⟩ (nsig * nsamp * 2) = some moves ∧
      Rearranges (grid nsig nsamp) (fun x => x.1 * nsamp + x.2) (fun x => x.2 * nsig + x.1) (nsig * nsamp)
        moves := by
  have hsample : nsig * 1 * 2 = nsig * 2 := by rw [Nat.mul_one]
  have hdata : nsig * nsamp * 2 = nsig * 2 * nsamp := Nat.mul_right_comm _ _ _
  have hmoves : writeBlockSTtoTS ⟨nsig, 1, 2, nbit⟩ (nsig * nsamp * 2) =
      some ((List.range nsamp).flatMap fun isamp => (List.range nsig).map fun isig =>
        ⟨(isamp * nsig + isig) % 2 ^ 32, isig * nsamp + isamp⟩) := by
    rw [writeBlockSTtoTS, hdata, hsample]
    exact counted_mul _ (Nat.mul_pos hpos (Nat.succ_pos 1)) hsize hsamp
  -- the loop over the samples is the outer one
  have hcomm := flatMap_map_comm (List.range nsamp) (List.range nsig) fun isamp isig =>
    (⟨(isamp * nsig + isig) % 2 ^ 32, isig * nsamp + isamp⟩ : Assign)
  exact ⟨_, hmoves, (rearranges_grid (map_grid_columns nsig nsamp) hle).perm hcomm⟩

/-- **SFT to STF** of one signal: sample `x.2` of channel `x.1`, and the channels in reverse order. -/
theorem rearranges_SFTtoSTF {nchan nsamp : ℕ} (nbit : ℕ) (hpos : 0 < nchan) (hsize : nchan * 4 < 2 ^ 32)
    (hsamp : nsamp < 2 ^ 32) (hle : nchan * nsamp ≤ 2 ^ 32) :
    ∃ moves, writeBlockSFTtoSTF ⟨1, nchan, 4, nbit⟩ (nchan * nsamp * 4) = some moves ∧
      Rearranges (grid nchan nsamp) (fun x => x.1 * nsamp + x.2) (fun x => x.2 * nchan + (nchan - 1 - x.1))
        (nchan * nsamp) moves := by
  have hsample : 1 * 4 * nchan = nchan * 4 := by rw [Nat.one_mul, Nat.mul_comm]
  have hdata : nchan * nsamp * 4 = nchan * 4 * nsamp := Nat.mul_right_comm _ _ _
  refine ⟨_, ?_, rearranges_grid (map_grid_columns_reverse nchan nsamp) hle⟩
  rw [writeBlockSFTtoSTF, hdata, hsample, counted_mul _ (Nat.mul_pos hpos (Nat.succ_pos 3)) hsize hsamp]
  simp only [strides, List.append_nil, Nat.zero_add]

/-- **FT to TF**: sample `x.2` of channel `x.1`. -/
theorem rearranges_FTtoTF {nsig nchan ndim nbit nsamp : ℕ} (hbit : ndim * (nbit / 8) = 8) (hpos : 0 < nchan)
    (hsize : nchan * 8 < 2 ^ 32) (hsamp : nsamp < 2 ^ 32) (hle : nchan * nsamp ≤ 2 ^ 32) :
    ∃ moves, writeBlockFTtoTF ⟨nsig, nchan, ndim, nbit⟩ (nchan * nsamp * 8) = some moves ∧
      Rearranges (grid nchan nsamp) (fun x => x.1 * nsamp + x.2) (fun x => x.2 * nchan + x.1)
        (nchan * nsamp) moves := by
  have hsample : ndim * nchan * (nbit / 8) = nchan * 8 := by rw [Nat.mul_right_comm, hbit, Nat.mul_comm]
  have hdata : nchan * nsamp * 8 = nchan * 8 * nsamp := Nat.mul_right_comm _ _ _
  refine ⟨_, ?_, rearranges_grid (map_grid_columns nchan nsamp) hle⟩
  rw [writeBlockFTtoTF, hdata, hsample]
  exact counted_mul _ (Nat.mul_pos hpos (Nat.succ_pos 7)) hsize hsamp

/-! ## All of them -/

/-- The coordinates of a block of so many signals, channels and samples. -/
def coords (nsig nchan nsamp : ℕ) : List (ℕ × ℕ × ℕ) :=
  (List.range nsig).flatMap fun s => (grid nchan nsamp).map fun x => (s, x)

/-- Each function keeps the signal, the channel and the sample of each element. -/
structure KeepsCoordinates (nsig nchan nsamp : ℕ) : Prop where
  st : ∀ nbit, nchan = 1 → ∃ moves, writeBlockSTtoTS ⟨nsig, nchan, 2, nbit⟩ (nsig * nsamp * 2) = some moves ∧
    Rearranges (grid nsig nsamp) (fun x => x.1 * nsamp + x.2) (fun x => x.2 * nsig + x.1) (nsig * nsamp) moves
  sft : ∀ ndim nbit, ndim * (nbit / 8) = 4 →
    ∃ moves, writeBlockSFTtoSTF ⟨nsig, nchan, ndim, nbit⟩ (nsig * nchan * nsamp * 4) = some moves ∧
      Rearranges (coords nsig nchan nsamp) (fun x => (x.1 * nchan + x.2.1) * nsamp + x.2.2)
        (fun x => (x.1 * nsamp + x.2.2) * nchan + x.2.1) (nsig * nchan * nsamp) moves
  ft : ∀ ndim nbit, ndim * (nbit / 8) = 8 →
    ∃ moves, writeBlockFTtoTF ⟨nsig, nchan, ndim, nbit⟩ (nchan * nsamp * 8) = some moves ∧
      Rearranges (grid nchan nsamp) (fun x => x.1 * nsamp + x.2) (fun x => x.2 * nchan + x.1) (nchan * nsamp)
        moves

/-- Two channels change places. -/
theorem not_keepsCoordinates_one : ¬KeepsCoordinates 1 2 1 := by
  intro h
  obtain ⟨moves, hmoves, hperm, -, -⟩ := h.sft 4 8 (by decide)
  have heq : writeBlockSFTtoSTF ⟨1, 2, 4, 8⟩ (1 * 2 * 1 * 4) = some [⟨1, 0⟩, ⟨0, 1⟩] := by decide
  rw [heq, Option.some.injEq] at hmoves
  subst hmoves
  have hmem := hperm.mem_iff.1 (List.mem_cons_self (a := (⟨1, 0⟩ : Assign)))
  exact absurd hmem (by decide)

/-- The index of sample `2 ^ 31` of two channels is that of the first one. -/
theorem not_keepsCoordinates_many : ¬KeepsCoordinates 1 2 (2 ^ 31 + 1) := by
  intro h
  obtain ⟨moves, hmoves, hperm, -, -⟩ := h.ft 2 32 (by decide)
  have hdata : 2 * (2 ^ 31 + 1) * 8 = 2 * 2 * (32 / 8) * (2 ^ 31 + 1) := by decide
  rw [writeBlockFTtoTF, hdata, counted_mul _ (by decide) (by decide) (by decide), Option.some.injEq] at hmoves
  have hmem : (⟨0, 2 ^ 31⟩ : Assign) ∈ moves := by
    rw [← hmoves]
    exact List.mem_flatMap.2 ⟨0, List.mem_range.2 (by decide), List.mem_map.2
      ⟨2 ^ 31, List.mem_range.2 (by decide), rfl⟩⟩
  obtain ⟨⟨c, t⟩, -, hx⟩ := List.mem_map.1 (hperm.mem_iff.1 hmem)
  obtain ⟨hdst, hsrc⟩ := (Assign.mk.injEq _ _ _ _).mp hx
  obtain ⟨rfl, rfl⟩ : c = 0 ∧ t = 0 := by omega
  exact absurd hsrc (by decide)

/-- Neither small nor large blocks are kept in order. -/
theorem not_keepsCoordinates : ¬KeepsCoordinates 1 2 1 ∧ ¬KeepsCoordinates 1 2 (2 ^ 31 + 1) :=
  ⟨not_keepsCoordinates_one, not_keepsCoordinates_many⟩

/-- **The transposes are permutations**, with `SFT_to_STF` reversing the channels: of all blocks whose elements
and samples `unsigned` can count, and the bytes of one sample. -/
theorem transposes {nsig nchan nsamp : ℕ} (hsig : 0 < nsig) (hchan : 0 < nchan) (hsamp : nsamp < 2 ^ 32) :
    (nsig * 2 < 2 ^ 32 → nsig * nsamp ≤ 2 ^ 32 → ∀ nbit,
      ∃ moves, writeBlockSTtoTS ⟨nsig, 1, 2, nbit⟩ (nsig * nsamp * 2) = some moves ∧
        Inside (nsig * nsamp) moves ∧
        Rearranges (grid nsig nsamp) (fun x => x.1 * nsamp + x.2) (fun x => x.2 * nsig + x.1)
          (nsig * nsamp) moves) ∧
    (nchan * 4 < 2 ^ 32 → nchan * nsamp ≤ 2 ^ 32 → ∀ nbit,
      ∃ moves, writeBlockSFTtoSTF ⟨1, nchan, 4, nbit⟩ (nchan * nsamp * 4) = some moves ∧
        Inside (nchan * nsamp) moves ∧
        Rearranges (grid nchan nsamp) (fun x => x.1 * nsamp + x.2)
          (fun x => x.2 * nchan + (nchan - 1 - x.1)) (nchan * nsamp) moves) ∧
    (nchan * 8 < 2 ^ 32 → nchan * nsamp ≤ 2 ^ 32 → ∀ ndim nbit, ndim * (nbit / 8) = 8 →
      ∃ moves, writeBlockFTtoTF ⟨nsig, nchan, ndim, nbit⟩ (nchan * nsamp * 8) = some moves ∧
        Inside (nchan * nsamp) moves ∧
        Rearranges (grid nchan nsamp) (fun x => x.1 * nsamp + x.2) (fun x => x.2 * nchan + x.1)
          (nchan * nsamp) moves) := by
  refine ⟨fun hsize hle nbit => ?_, fun hsize hle nbit => ?_, fun hsize hle ndim nbit hbit => ?_⟩
  · obtain ⟨moves, hmoves, h⟩ := rearranges_STtoTS nbit hsig hsize hsamp hle
    exact ⟨moves, hmoves, h.inside, h⟩
  · obtain ⟨moves, hmoves, h⟩ := rearranges_SFTtoSTF nbit hchan hsize hsamp hle
    exact ⟨moves, hmoves, h.inside, h⟩
  · obtain ⟨moves, hmoves, h⟩ := @rearranges_FTtoTF nsig _ _ _ _ hbit hchan hsize hsamp hle
    exact ⟨moves, hmoves, h.inside, h⟩

/-- Three signals or channels of five samples. -/
theorem transposes_three :
    (∃ moves, writeBlockSTtoTS ⟨3, 1, 2, 8⟩ (3 * 5 * 2) = some moves ∧ Inside (3 * 5) moves ∧
      Rearranges (grid 3 5) (fun x => x.1 * 5 + x.2) (fun x => x.2 * 3 + x.1) (3 * 5) moves) ∧
    (∃ moves, writeBlockFTtoTF ⟨3, 3, 2, 32⟩ (3 * 5 * 8) = some moves ∧ Inside (3 * 5) moves ∧
      Rearranges (grid 3 5) (fun x => x.1 * 5 + x.2) (fun x => x.2 * 3 + x.1) (3 * 5) moves) := by
  obtain ⟨hst, -, hft⟩ := @transposes 3 3 5 (by decide) (by decide) (by decide)
  exact ⟨hst (by decide) (by decide) 8, hft (by decide) (by decide) 2 32 (by decide)⟩

end Dbtransposedb

end Psrdada
