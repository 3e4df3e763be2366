import Psrdada.Memory.Assign

/-! # `mopsr_dbreblockdb.c`: several input blocks quantised into one output block

`dbreblockdb_write_block_SFT_to_STF` puts each input block behind those that the open output block already
has, counting them with `reblock_curr`, and publishes the block when as many bytes have been counted as it
has.  `dbreblockdb_close` publishes what is open then.  The scales and the mean are set up when the first
scale is negative, as `dbreblockdb_open` leaves it; the mean is a local variable. -/

namespace Psrdada

namespace Dbreblockdb

/-- The arithmetic in `float`. -/
structure Scaling (F : Type) where
  /-- `-1`, what the scales are before the first block -/
  minusOne : F
  /-- `< 0` -/
  isNegative : F → Bool
  /-- `*` -/
  mul : F → F → F
  /-- `digi_scale` -/
  digiScale : F
  /-- what `digi_mean` is set to -/
  digiMean : F
  /-- a sample with its scale and the mean: `in * scale + mean + 0.5`, at most 65535, as `uint16_t` -/
  quantise : F → F → F → UInt16
  isNegative_minusOne : isNegative minusOne = true
  isNegative_digiScale : isNegative digiScale = false

/-- The members of `mopsr_dbreblockdb_t` that stay as they are during a transfer. -/
structure Ctx (F : Type) where
  /-- `nsig` -/
  nsig : ℕ
  /-- `nchan` -/
  nchan : ℕ
  /-- `ndim` -/
  ndim : ℕ
  /-- `nbit_in` -/
  nbitIn : ℕ
  /-- `nbit_out` -/
  nbitOut : ℕ
  /-- `bitrate_factor` -/
  bitrateFactor : ℕ
  /-- `output.block_size` -/
  blockSize : ℕ
  /-- `bp_calibration` -/
  bpCalibration : Bool
  /-- `bandpass` -/
  bandpass : ℕ → F
  /-- `BW > 0` -/
  bwPositive : Bool

/-- An element stored in the output block; its value is not determined when the mean is not. -/
structure Put where
  index : ℕ
  value : Option UInt16
  deriving DecidableEq, Repr

/-- The open output block: what has been stored, `output.bytes_written` and `reblock_curr`. -/
structure OpenBlock where
  puts : List Put
  bytesWritten : ℕ
  reblockCurr : ℕ
  deriving Repr

/-- A block handed back to the ring: what has been stored in it, and how many of its bytes are valid. -/
structure Published where
  puts : List Put
  bytes : ℕ
  deriving DecidableEq, Repr

/-- The members that change, and the blocks published so far. -/
structure State (F : Type) where
  /-- `scales` -/
  scales : ℕ → F
  /-- the open block if `output.block_open` is set -/
  block : Option OpenBlock
  published : List Published

variable {F : Type} (fl : Scaling F) (ctx : Ctx F)

/-- The state that `dbreblockdb_open` leaves. -/
def start : State F := ⟨fun _ => fl.minusOne, none, []⟩

/-- The scales that are set up before the first block. -/
def setScales (ichan : ℕ) : F :=
  if ctx.bpCalibration then fl.mul fl.digiScale (ctx.bandpass ichan) else fl.digiScale

/-- The loops over signals, channels and samples, from `out` as advanced to the current input block. -/
def stores (scales : ℕ → F) (mean : Option F) (inp : Memory F) (nsampIn nsampOut out : ℕ) : List Put :=
  let sigStrideIn := nsampIn * ctx.ndim * ctx.nchan
  let sigStrideOut := nsampOut * ctx.ndim * ctx.nchan
  (List.range ctx.nsig).flatMap fun isig => (List.range ctx.nchan).flatMap fun ichan =>
    let ochan := ctx.nchan - 1 - ichan
    (List.range nsampIn).map fun isamp =>
      { index := out + isig * sigStrideOut + (isamp * ctx.nchan + ochan) % 2 ^ 32
        value := mean.map fun mean =>
          fl.quantise (inp (isig * sigStrideIn + (ichan * nsampIn + isamp)))
            (scales (if ctx.bwPositive then ctx.nchan - 1 - ichan else ichan)) mean }

/-- `dbreblockdb_write_block_SFT_to_STF` from where it has the numbers of samples of the input block and of an
output block.  The mean is not kept from one block to the next. -/
def quantiseBlock (inp : Memory F) (dataSize nsampIn nsampOut : ℕ) (s : State F) : State F :=
  let mean := if fl.isNegative (s.scales 0) then some fl.digiMean else none
  let scales := if fl.isNegative (s.scales 0) then setScales fl ctx else s.scales
  let o := s.block.getD ⟨[], 0, 0⟩
  let puts := o.puts ++ stores fl ctx scales mean inp nsampIn nsampOut (nsampIn * ctx.nchan * o.reblockCurr)
  let bytesWritten := o.bytesWritten + dataSize / ctx.bitrateFactor
  -- check if the output block is now full
  if bytesWritten ≥ ctx.blockSize then ⟨scales, none, s.published ++ [⟨puts, bytesWritten⟩]⟩
  else ⟨scales, some ⟨puts, bytesWritten, o.reblockCurr + 1⟩, s.published⟩

/-- `dbreblockdb_write_block_SFT_to_STF`; `none` is a division by zero, or a loop that does not end since its
`unsigned` counter does not reach the number of samples. -/
def writeBlock (inp : Memory F) (dataSize : ℕ) (s : State F) : Option (State F) :=
  let sizeIn := ctx.nsig * ctx.ndim * ctx.nchan * (ctx.nbitIn / 8) % 2 ^ 32
  let sizeOut := ctx.nsig * ctx.ndim * ctx.nchan * (ctx.nbitOut / 8) % 2 ^ 32
  if sizeIn = 0 ∨ sizeOut = 0 ∨ 2 ^ 32 ≤ dataSize / sizeIn then none
  else some (quantiseBlock fl ctx inp dataSize (dataSize / sizeIn) (ctx.blockSize / sizeOut) s)

/-- `dbreblockdb_close`, and all blocks that have been published then. -/
def close (s : State F) : List Published :=
  match s.block with
  | some o => s.published ++ [⟨o.puts, o.bytesWritten⟩]
  | none => s.published

/-- A transfer of some input blocks with their sizes. -/
def transfer (blocks : List (Memory F × ℕ)) : Option (List Published) :=
  (blocks.foldlM (fun s b => writeBlock fl ctx b.1 b.2 s) (start fl)).map close

end Dbreblockdb

end Psrdada
