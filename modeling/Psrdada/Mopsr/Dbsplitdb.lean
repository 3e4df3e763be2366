import Psrdada.Memory.Assign

/-! # `mopsr_dbsplitdb.c`: one block split into signals

Each output block gets the elements of one signal.  The functions differ in the order of the input and in
the size of an element; all but one are the assignments that they make to the output `i`, from where its
data go.  `dbsplitdb_write_block_16` works through two caches of fixed size, chunk by chunk, and with what
is left over. -/

namespace Psrdada

namespace Dbsplitdb

/-- `DBSPLITDB_CACHE_SIZE`, in elements of 16 bits. -/
def cacheSize : ℕ := 4096

/-- The members of `mopsr_dbsplitdb_t` that say how a block is made up. -/
structure Ctx where
  /-- `n_outputs` -/
  nOutputs : ℕ
  /-- `nchan` -/
  nchan : ℕ
  /-- `ndim` -/
  ndim : ℕ
  /-- `nbit` -/
  nbit : ℕ
  deriving DecidableEq, Repr

variable (ctx : Ctx) (inDataSize : ℕ)

/-- `out_data_size` -/
def Ctx.outDataSize : ℕ := inDataSize / ctx.nOutputs

/-! ## TFS order -/

/-- `dbsplitdb_write_block`, for output `i`. -/
def dbsplitdbWriteBlock (i : ℕ) : List Assign :=
  let nsplit := ctx.outDataSize inDataSize / ctx.ndim
  (List.range nsplit).map fun isplit => ⟨isplit, i + ctx.nOutputs * isplit⟩

section

variable {α : Type*}

/-- The caches and the output blocks of `dbsplitdb_write_block_16`. -/
structure Cache (α : Type*) where
  /-- `in_buf` -/
  inBuf : Memory α
  /-- `out_buf` -/
  outBuf : Memory α
  /-- `outs` -/
  outs : ℕ → Memory α

/-- The assignments from `in_buf` to `out_buf`, for `count` samples. -/
def cacheMoves (nsamp nout count : ℕ) : List Assign :=
  (List.range count).flatMap fun isamp => (List.range nout).map fun iout =>
    ⟨iout * nsamp + isamp, isamp * nout + iout⟩

/-- One chunk: `sizeIn` bytes from `inAt` on are copied into the one cache, `count` samples are put in order
in the other, and `sizeOut` bytes of each signal are copied to `outAt`. -/
def chunk (input : Memory α) (nsamp nout inAt sizeIn count outAt sizeOut : ℕ) (s : Cache α) : Cache α :=
  let inBuf := s.inBuf.copy 0 (input.slice (inAt / 2) (sizeIn / 2))
  let outBuf := Assign.run inBuf (cacheMoves nsamp nout count) s.outBuf
  { inBuf := inBuf
    outBuf := outBuf
    outs := fun iout =>
      if iout < nout then (s.outs iout).copy (outAt / 2) (outBuf.slice (nsamp * iout) (sizeOut / 2))
      else s.outs iout }

/-- `dbsplitdb_write_block_16`; the counts and the places are `unsigned`. -/
def dbsplitdbWriteBlock16 (input : Memory α) (s : Cache α) : Cache α :=
  let nout := ctx.nOutputs
  let nsamp := cacheSize / nout
  let chunkSizeIn := nsamp * ctx.ndim * nout
  let chunkSizeOut := nsamp * ctx.ndim
  let nchunk := inDataSize / chunkSizeIn % 2 ^ 32
  let nchunkLeft := inDataSize % chunkSizeIn % 2 ^ 32
  let s := (List.range nchunk).foldl (fun s ichunk =>
    chunk input nsamp nout (ichunk * chunkSizeIn) chunkSizeIn nsamp (ichunk * chunkSizeOut % 2 ^ 32)
      chunkSizeOut s) s
  -- handle any remainder
  if nchunkLeft ≠ 0 then
    let nsampLeft := nchunkLeft / (nout * ctx.ndim)
    let chunkSizeOutLeft := nsampLeft * ctx.ndim
    chunk input nsamp nout (nchunk * chunkSizeIn) nchunkLeft nsampLeft (nchunk * chunkSizeOut % 2 ^ 32)
      chunkSizeOutLeft s
  else s

end

/-! ## The other orders -/

/-- `dbsplitdb_write_block_FST_to_TF`, for output `iant`, in elements of 16 bits. -/
def dbsplitdbWriteBlockFSTtoTF (iant : ℕ) : List Assign :=
  let nsplit := ctx.outDataSize inDataSize / ctx.ndim
  let nsamp := nsplit / ctx.nchan
  let chanStride := nsamp * ctx.nOutputs
  let antStride := nsamp
  Assign.strides (fun inp out => (List.range nsamp).map fun isamp => ⟨out + isamp * ctx.nchan, inp + isamp⟩)
    chanStride 1 ctx.nchan (iant * antStride) 0

/-- `in` of a loop over the outputs that advances it by `out_data_size` each time. -/
def inputAt : ℕ → ℕ
  | 0 => 0
  | iant + 1 => inputAt iant + ctx.outDataSize inDataSize

/-- `dbsplitdb_write_block_STF_to_TF`, for output `iant`, in bytes. -/
def dbsplitdbWriteBlockSTFtoTF (iant : ℕ) : List Assign :=
  (List.range (ctx.outDataSize inDataSize)).map fun byte => ⟨byte, inputAt ctx inDataSize iant + byte⟩

/-- `dbsplitdb_write_block_SFT_to_TF`, for output `iant`, in elements of 32 bits; other elements are refused.
The size of a sample of all channels is `unsigned`, and the program ends when it divides by 0. -/
def dbsplitdbWriteBlockSFTtoTF (iant : ℕ) : Option (List Assign) :=
  let sampleSize := ctx.ndim * (ctx.nbit / 8) * ctx.nchan % 2 ^ 32
  let nsamp := ctx.outDataSize inDataSize / sampleSize
  let inp := inputAt ctx inDataSize iant / 4
  if sampleSize = 0 then none
  else if ctx.nbit = 32 ∧ ctx.ndim = 1 then
    some ((List.range ctx.nchan).flatMap fun ichan => (List.range nsamp).map fun isamp =>
      ⟨isamp * ctx.nchan + ichan, inp + (ichan * nsamp + isamp)⟩)
  else none

/-- `dbsplitdb_write_block_TS_to_T`, for output `iout`, in elements of 32 bits.  The loop variable and the
product with `n_outputs` are `unsigned`; a loop to more samples than they can count does not end. -/
def dbsplitdbWriteBlockTStoT (iout : ℕ) : Option (List Assign) :=
  let nsamp := ctx.outDataSize inDataSize / 4
  if nsamp < 2 ^ 32 then
    some ((List.range nsamp).map fun isamp => ⟨isamp, iout + isamp * ctx.nOutputs % 2 ^ 32⟩)
  else none

end Dbsplitdb

end Psrdada
