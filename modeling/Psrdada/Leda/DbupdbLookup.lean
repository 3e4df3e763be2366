import Psrdada.Concurrency.Runs
import Psrdada.Float.Rounding
import Psrdada.Memory.Assign

/-! # `leda_dbupdb_lookup.c`: samples of 4 bits promoted to 8 bits by several threads

`dbupdb_write_block` divides the packets of a block among the threads, with the arithmetic in `float`, sets
them to work and waits until all are idle again.  Each thread goes through its packets four at a time, one
antenna group from each packet, and looks up the two output bytes of each input byte. -/

namespace Psrdada

namespace DbupdbLookup

/-- `UDP_DATA` -/
def udpData : ℕ := 8192

/-- The members of `leda_dbupdb_t` that a block depends on. -/
structure Ctx where
  /-- `bit_p` -/
  bitP : ℕ
  /-- `nthreads` -/
  nthreads : ℕ
  /-- `nchan` -/
  nchan : ℕ
  /-- `npol` -/
  npol : ℕ
  /-- `ndim` -/
  ndim : ℕ
  deriving DecidableEq, Repr

variable (ctx : Ctx) (inDataSize : ℕ)

/-! ## Thread boundaries -/

/-- A value in `float`. -/
def float (q : ℚ) : ℚ := Rounding.roundTo 24 q

/-- `n_pkts` -/
def nPkts : ℚ := float (float inDataSize / float udpData)

/-- `pkts_per_thr` -/
def pktsPerThr : ℚ := float (nPkts inDataSize / float ctx.nthreads)

/-- `int_pkts_per_thr` -/
def intPktsPerThr : ℕ := ⌊pktsPerThr ctx inDataSize⌋.toNat % 2 ^ 32

/-- `mod_pkts_per_thr`: only complete time samples are processed. -/
def modPktsPerThr : ℕ := intPktsPerThr ctx inDataSize - intPktsPerThr ctx inDataSize % 4

/-- `bytes_to_write`, which is computed in `unsigned`. -/
def bytesToWrite : ℕ := modPktsPerThr ctx inDataSize * ctx.nthreads * udpData * ctx.bitP % 2 ^ 32

/-- `thr_start_packet` -/
def thrStartPacket (i : ℕ) : ℕ := i * modPktsPerThr ctx inDataSize % 2 ^ 32

/-- `thr_end_packet` -/
def thrEndPacket (i : ℕ) : ℕ := thrStartPacket ctx inDataSize i + modPktsPerThr ctx inDataSize

/-! ## The work of a thread -/

/-- `lookup` -/
def lookup : List UInt16 := [
  0x0000, 0x1000, 0x2000, 0x3000, 0x4000, 0x5000, 0x6000, 0x7000, 0x8000, 0x9000, 0xa000, 0xb000,
  0xc000, 0xd000, 0xe000, 0xf000, 0x1000, 0x1010, 0x2010, 0x3010, 0x4010, 0x5010, 0x6010, 0x7010,
  0x8010, 0x9010, 0xa010, 0xb010, 0xc010, 0xd010, 0xe010, 0xf010, 0x2000, 0x1020, 0x2020, 0x3020,
  0x4020, 0x5020, 0x6020, 0x7020, 0x8020, 0x9020, 0xa020, 0xb020, 0xc020, 0xd020, 0xe020, 0xf020,
  0x3000, 0x1030, 0x2030, 0x3030, 0x4030, 0x5030, 0x6030, 0x7030, 0x8030, 0x9030, 0xa030, 0xb030,
  0xc030, 0xd030, 0xe030, 0xf030, 0x4000, 0x1040, 0x2040, 0x3040, 0x4040, 0x5040, 0x6040, 0x7040,
  0x8040, 0x9040, 0xa040, 0xb040, 0xc040, 0xd040, 0xe040, 0xf040, 0x5000, 0x1050, 0x2050, 0x3050,
  0x4050, 0x5050, 0x6050, 0x7050, 0x8050, 0x9050, 0xa050, 0xb050, 0xc050, 0xd050, 0xe050, 0xf050,
  0x6000, 0x1060, 0x2060, 0x3060, 0x4060, 0x5060, 0x6060, 0x7060, 0x8060, 0x9060, 0xa060, 0xb060,
  0xc060, 0xd060, 0xe060, 0xf060, 0x7000, 0x1070, 0x2070, 0x3070, 0x4070, 0x5070, 0x6070, 0x7070,
  0x8070, 0x9070, 0xa070, 0xb070, 0xc070, 0xd070, 0xe070, 0xf070, 0x8000, 0x1080, 0x2080, 0x3080,
  0x4080, 0x5080, 0x6080, 0x7080, 0x8080, 0x9080, 0xa080, 0xb080, 0xc080, 0xd080, 0xe080, 0xf080,
  0x9000, 0x1090, 0x2090, 0x3090, 0x4090, 0x5090, 0x6090, 0x7090, 0x8090, 0x9090, 0xa090, 0xb090,
  0xc090, 0xd090, 0xe090, 0xf090, 0xa000, 0x10a0, 0x20a0, 0x30a0, 0x40a0, 0x50a0, 0x60a0, 0x70a0,
  0x80a0, 0x90a0, 0xa0a0, 0xb0a0, 0xc0a0, 0xd0a0, 0xe0a0, 0xf0a0, 0xb000, 0x10b0, 0x20b0, 0x30b0,
  0x40b0, 0x50b0, 0x60b0, 0x70b0, 0x80b0, 0x90b0, 0xa0b0, 0xb0b0, 0xc0b0, 0xd0b0, 0xe0b0, 0xf0b0,
  0xc000, 0x10c0, 0x20c0, 0x30c0, 0x40c0, 0x50c0, 0x60c0, 0x70c0, 0x80c0, 0x90c0, 0xa0c0, 0xb0c0,
  0xc0c0, 0xd0c0, 0xe0c0, 0xf0c0, 0xd000, 0x10d0, 0x20d0, 0x30d0, 0x40d0, 0x50d0, 0x60d0, 0x70d0,
  0x80d0, 0x90d0, 0xa0d0, 0xb0d0, 0xc0d0, 0xd0d0, 0xe0d0, 0xf0d0, 0xe000, 0x10e0, 0x20e0, 0x30e0,
  0x40e0, 0x50e0, 0x60e0, 0x70e0, 0x80e0, 0x90e0, 0xa0e0, 0xb0e0, 0xc0e0, 0xd0e0, 0xe0e0, 0xf0e0,
  0xf000, 0x10f0, 0x20f0, 0x30f0, 0x40f0, 0x50f0, 0x60f0, 0x70f0, 0x80f0, 0x90f0, 0xa0f0, 0xb0f0,
  0xc0f0, 0xd0f0, 0xe0f0, 0xf0f0
]

/-- The element of the table for a byte. -/
def lookupByte (b : UInt8) : UInt16 := lookup.getD b.toNat 0

/-- A store of 16 bits at an address in bytes; the low byte comes first. -/
structure Store where
  addr : ℕ
  value : UInt16
  deriving DecidableEq, Repr

/-- What a store does to the output block. -/
def Store.apply (st : Store) (out : Memory UInt8) : Memory UInt8 :=
  Function.update (Function.update out st.addr st.value.toUInt8) (st.addr + 1) (st.value >>> 8).toUInt8

/-- The loop over the bytes of four packets, eight of each at a time. -/
def packets (data : Memory UInt8) (inDat outDat : ℕ) : List Store :=
  (List.range (udpData / 8)).flatMap fun c =>
    let j := 8 * c
    (List.range 4).flatMap fun p => (List.range 8).map fun a =>
      ⟨outDat + 2 * (4 * j + 8 * p + a), lookupByte (data (inDat + (j + p * udpData + a)))⟩

/-- `out_time_sample_stride`, which is computed in `unsigned`. -/
def outTimeSampleStride : ℕ := 4 * ctx.nchan * 4 * ctx.ndim * ctx.npol % 2 ^ 32

/-- The loop over the packets from `ipkt` to `fin`. -/
def promote (data : Memory UInt8) (ipkt fin inDat outDat : ℕ) : List Store :=
  if ipkt < fin then
    packets data inDat outDat ++
      promote data (ipkt + 4) fin (inDat + udpData * 4) (outDat + outTimeSampleStride ctx)
  else []
termination_by fin - ipkt
decreasing_by omega

/-- What thread `ithread` of `leda_dbudpdb_bitpromote_thread` stores for a block. -/
def threadStores (data : Memory UInt8) (ithread : ℕ) : List Store :=
  let start := thrStartPacket ctx inDataSize ithread
  promote ctx data start (thrEndPacket ctx inDataSize ithread) (udpData * start) (udpData * start * 2)

/-! ## The threads and the block -/

/-- A thread waits while its state is `IDLE`, has been set `ACTIVE`, or has stores left to do. -/
inductive Worker
  | idle
  | active
  | working (stores : List Store)
  deriving DecidableEq, Repr

/-- One call of `dbupdb_write_block` while it goes on. -/
structure State where
  /-- the threads have been set to work -/
  activated : Bool
  workers : ℕ → Worker
  /-- the output block -/
  out : Memory UInt8
  /-- how many bytes `ipcio_close_block_write` is given -/
  closed : Option ℕ

/-- Who does what next. -/
inductive Label
  | activate
  | begin (ithread : ℕ)
  | store (ithread : ℕ)
  | finish (ithread : ℕ)
  | close
  deriving DecidableEq, Repr

/-- All threads are idle before the call. -/
def start (out : Memory UInt8) : State := ⟨false, fun _ => .idle, out, none⟩

/-- One step: the threads run at the same time, each of them one store after the other. -/
def step (data : Memory UInt8) (s : State) : Label → Option State
  | .activate =>
    if s.activated then none
    else some { s with activated := true, workers := fun i => if i < ctx.nthreads then .active else s.workers i }
  | .begin i =>
    match s.workers i with
    | .active => some { s with workers := Function.update s.workers i (.working (threadStores ctx inDataSize data i)) }
    | _ => none
  | .store i =>
    match s.workers i with
    | .working (st :: stores) =>
      some { s with workers := Function.update s.workers i (.working stores), out := st.apply s.out }
    | _ => none
  | .finish i =>
    match s.workers i with
    | .working [] => some { s with workers := Function.update s.workers i .idle }
    | _ => none
  | .close =>
    if s.activated ∧ s.closed = none ∧ ∀ i < ctx.nthreads, s.workers i = .idle then
      some { s with closed := some (bytesToWrite ctx inDataSize) }
    else none

/-- The states that a call for a block comes to, under any schedule of the threads. -/
abbrev Reaches (data out : Memory UInt8) (s : State) : Prop :=
  Concurrency.Reached (step ctx inDataSize data) (fun _ _ => True) (start out) s

end DbupdbLookup

end Psrdada
