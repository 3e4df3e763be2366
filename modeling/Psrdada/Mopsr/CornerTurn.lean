import Mathlib.Data.List.Perm.Basic
import Mathlib.Tactic.Ring
import Psrdada.Memory.Copy

/-! # `mopsr_dbib_SFT.c`, `mopsr_ibdb_SFT.c`: the corner turn of the beams

Each sender has some channels of all beams, each receiver gets all channels of some beams: every block of a
sender is written beam by beam into the blocks of the receivers.  Where a beam is read and written is
computed once, for whole blocks; how much is written of it comes from the block at hand.  `unsigned` values
are natural numbers below `2 ^ 32`; the sizes and offsets of 64 bits are natural numbers. -/

namespace Psrdada

namespace CornerTurn

/-! ## The configuration -/

/-- What the configuration file says. -/
structure Config where
  /-- `NDIM` -/
  ndim : ℕ
  /-- `NBIT` -/
  nbit : ℕ
  /-- `NPOL` -/
  npol : ℕ
  /-- `NCHAN_COARSE` -/
  nchanCoarse : ℕ
  /-- `NCHAN_FINE` -/
  nchanFine : ℕ
  /-- `NBEAM` -/
  nbeam : ℕ
  /-- `NSEND` -/
  nsend : ℕ
  /-- `NRECV` -/
  nrecv : ℕ
  /-- `CHAN_FIRST_SEND_%u` -/
  chanFirst : ℕ → ℕ
  /-- `CHAN_LAST_SEND_%u` -/
  chanLast : ℕ → ℕ
  /-- `BEAM_FIRST_RECV_%u` -/
  beamFirst : ℕ → ℕ
  /-- `BEAM_LAST_RECV_%u` -/
  beamLast : ℕ → ℕ

/-- `mopsr_bp_conn_t` -/
structure Conn where
  chanFirst : ℕ
  chanLast : ℕ
  nchan : ℕ
  isend : ℕ
  nsend : ℕ
  beamFirst : ℕ
  beamLast : ℕ
  nbeam : ℕ
  irecv : ℕ

/-- `mopsr_bp_ib_t` -/
structure Ctx where
  connInfo : ℕ → Conn
  nsend : ℕ
  nbeam : ℕ
  nchan : ℕ
  nconn : ℕ
  ndim : ℕ
  npol : ℕ
  nbit : ℕ

/-- `(last - first) + 1`, of `unsigned` values. -/
def count (first last : ℕ) : ℕ := ((last + 2 ^ 32 - first) % 2 ^ 32 + 1) % 2 ^ 32

namespace Config

variable (cfg : Config)

/-- The connection of a sender and a receiver, as both of them set it up. -/
def conn (isend irecv : ℕ) : Conn where
  chanFirst := cfg.chanFirst isend
  chanLast := cfg.chanLast isend
  nchan := count (cfg.chanFirst isend) (cfg.chanLast isend)
  isend := isend
  nsend := cfg.nsend
  beamFirst := cfg.beamFirst irecv
  beamLast := cfg.beamLast irecv
  nbeam := count (cfg.beamFirst irecv) (cfg.beamLast irecv)
  irecv := irecv

/-- `mopsr_setup_bp_read_config` -/
def readConfig (nconn : ℕ) (connInfo : ℕ → Conn) : Ctx where
  connInfo := connInfo
  nsend := cfg.nsend
  nbeam := cfg.nbeam
  nchan := cfg.nchanCoarse * cfg.nchanFine % 2 ^ 32
  nconn := nconn
  ndim := cfg.ndim
  npol := cfg.npol
  nbit := cfg.nbit

/-- `mopsr_setup_bp_cornerturn_send`: a connection to each receiver. -/
def setupSend (sendId : ℕ) : Ctx := cfg.readConfig cfg.nrecv fun iconn => cfg.conn sendId iconn

/-- `mopsr_setup_bp_cornerturn_recv`: a connection to each sender. -/
def setupRecv (recvId : ℕ) : Ctx := cfg.readConfig cfg.nsend fun iconn => cfg.conn iconn recvId

end Config

/-! ## The offsets and the transfer of a block -/

/-- `in_offsets` and `out_offsets`, for each connection and beam of it. -/
structure Offsets where
  inOffsets : ℕ → ℕ → ℕ
  outOffsets : ℕ → ℕ → ℕ

/-- An RDMA write: where it reads in the block of the sender, where it writes in the block of the receiver,
and the `length` of its one `sge`. -/
structure Write where
  src : ℕ
  dst : ℕ
  length : ℕ

namespace Ctx

variable (ctx : Ctx)

/-- `bytes_per_sample`, a product of `unsigned` values. -/
def bytesPerSample : ℕ := (ctx.connInfo 0).nchan * ctx.nbit * ctx.ndim % 2 ^ 32 / 8

/-- `setup_conn_offsets`; none where it divides by zero. -/
def setupConnOffsets (bufsz : ℕ) : Option Offsets :=
  if ctx.nbeam = 0 ∨ ctx.bytesPerSample = 0 then none
  else
    let srcBeamStride := bufsz / ctx.nbeam
    let nsamp := srcBeamStride / ctx.bytesPerSample
    -- of type `unsigned`
    let chanStride := nsamp * ctx.ndim * ctx.npol * ctx.nbit / 8 % 2 ^ 32
    let dstBeamStride := nsamp * ctx.nchan * ctx.ndim * ctx.nbit * ctx.npol / 8
    some
      { inOffsets := fun iconn obeam =>
          let ibeam := (obeam + (ctx.connInfo iconn).beamFirst) % 2 ^ 32
          ibeam * srcBeamStride
        outOffsets := fun iconn obeam =>
          let ichan := (ctx.connInfo iconn).chanFirst
          obeam * dstBeamStride + ichan * chanStride % 2 ^ 32 }

/-- `bytes_to_send_per_beam`, which `mopsr_dbib_send_block` tells each receiver. -/
def bytesToSendPerBeam (bytes : ℕ) : ℕ := bytes / ctx.nbeam

/-- What `mopsr_dbib_send_block` posts on a connection; the `length` of the `sge` is of 32 bits. -/
def sendBlock (offsets : Offsets) (bytes iconn : ℕ) : List Write :=
  (List.range (ctx.connInfo iconn).nbeam).map fun obeam =>
    { src := offsets.inOffsets iconn obeam
      dst := offsets.outOffsets iconn obeam
      length := ctx.bytesToSendPerBeam bytes % 2 ^ 32 }

/-- `bytes_received`, which `mopsr_ibdb_recv_block` returns, from what the senders tell it. -/
def recvBlock (bytesXferred : ℕ → ℕ) : ℕ :=
  ((List.range ctx.nconn).map bytesXferred).sum * (ctx.connInfo 0).nbeam

end Ctx

/-! ## What a corner turn is to do -/

/-- A corner turn: the senders have equal ranges of the channels, in order, and each beam goes to one of the
receivers.  A sample is of so many bytes, and a whole block of so many samples. -/
structure Turn extends Config where
  /-- Channels of a sender. -/
  nchanSend : ℕ
  /-- Bytes of a sample. -/
  nbyte : ℕ
  /-- Samples of a channel and beam in a whole block. -/
  nsamp : ℕ
  nsend_pos : 0 < nsend
  nchanSend_pos : 0 < nchanSend
  nbyte_pos : 0 < nbyte
  nsamp_pos : 0 < nsamp
  nbit_eq : nbit * ndim = 8 * nbyte
  npol_eq : npol = 1
  nchan_eq : nchanCoarse * nchanFine = nsend * nchanSend
  nchan_lt : nsend * nchanSend < 2 ^ 32
  nbeam_lt : nbeam < 2 ^ 32
  chanFirst_eq : ∀ s < nsend, chanFirst s = s * nchanSend
  chanLast_eq : ∀ s < nsend, chanLast s + 1 = (s + 1) * nchanSend
  beamFirst_le : ∀ r < nrecv, beamFirst r ≤ beamLast r
  beamLast_lt : ∀ r < nrecv, beamLast r < nbeam
  beam_mem : ∀ b < nbeam, ∃! r, r < nrecv ∧ beamFirst r ≤ b ∧ b ≤ beamLast r

namespace Turn

variable (turn : Turn)

/-- Channels of the full band. -/
def nchan : ℕ := turn.nsend * turn.nchanSend

/-- Beams of receiver `r`. -/
def nbeamRecv (r : ℕ) : ℕ := turn.beamLast r + 1 - turn.beamFirst r

/-- The bytes of a block of a sender. -/
def sendBytes (nsamp : ℕ) : ℕ := turn.nbeam * (turn.nchanSend * nsamp * turn.nbyte)

/-- The bytes of a block of receiver `r`. -/
def recvBytes (r nsamp : ℕ) : ℕ := turn.nbeamRecv r * (turn.nchan * nsamp * turn.nbyte)

/-- What sender `s` writes into the block of receiver `r` when it has read a block of `nsamp` samples. -/
def posted (nsamp r s : ℕ) : Option (List Write) :=
  let ctx := turn.setupSend s
  (ctx.setupConnOffsets (turn.sendBytes turn.nsamp)).map fun offsets =>
    ctx.sendBlock offsets (turn.sendBytes nsamp) r

/-- What receiver `r` takes to have been written. -/
def received (nsamp r : ℕ) : ℕ :=
  (turn.setupRecv r).recvBlock fun s => (turn.setupSend s).bytesToSendPerBeam (turn.sendBytes nsamp)

end Turn

/-- The bytes that a write covers. -/
def Write.Covers (w : Write) (i : ℕ) : Prop := w.dst ≤ i ∧ i < w.dst + w.length

/-- Two writes into the same block do not overlap. -/
def Write.Apart (w w' : Write) : Prop := w.dst + w.length ≤ w'.dst ∨ w'.dst + w'.length ≤ w.dst

/-- Writes of senders into a block, from what their own blocks hold. -/
def deliver (contents : ℕ → Memory UInt8) (writes : List (ℕ × Write)) (block : Memory UInt8) : Memory UInt8 :=
  block.copies (writes.map fun w => (w.2.dst, (contents w.1).slice w.2.src w.2.length))

/-- Byte `j` of sample `t` of channel `c` of beam `b`, in beam-channel-time order. -/
def position (nchan nsamp nbyte b c t j : ℕ) : ℕ := ((b * nchan + c) * nsamp + t) * nbyte + j

/-- The writes of the senders tile the block of receiver `r`, and in whatever order they are made, each value
of the full band comes from the sender of its channel. -/
structure Turn.TilesBy (turn : Turn) (nsamp r : ℕ) (posted : ℕ → List Write) : Prop where
  apart : ((List.range turn.nsend).flatMap posted).Pairwise Write.Apart
  inside : ∀ s < turn.nsend, ∀ w ∈ posted s, ∀ i, w.Covers i → i < turn.recvBytes r turn.nsamp
  covers : ∀ i, (∃ s < turn.nsend, ∃ w ∈ posted s, w.Covers i) ↔ i < turn.received nsamp r
  values : ∀ (contents : ℕ → Memory UInt8) (block : Memory UInt8) (writes : List (ℕ × Write)),
    writes.Perm ((List.range turn.nsend).flatMap fun s => (posted s).map (s, ·)) →
    ∀ s < turn.nsend, ∀ b < turn.nbeamRecv r, ∀ c, turn.chanFirst s ≤ c → c ≤ turn.chanLast s →
    ∀ t < nsamp, ∀ j < turn.nbyte,
      deliver contents writes block (position turn.nchan nsamp turn.nbyte b c t j) =
        contents s (position turn.nchanSend nsamp turn.nbyte (turn.beamFirst r + b) (c - turn.chanFirst s) t j)

/-- The blocks that the senders read in step, given by how many samples each has; the last one may be
shorter. -/
structure Turn.Run (turn : Turn) where
  blocks : List ℕ
  whole : ∀ nsamp ∈ blocks.dropLast, nsamp = turn.nsamp
  le : ∀ nsamp ∈ blocks, nsamp ≤ turn.nsamp

/-- Each block of the run tiles the block of every receiver. -/
def Turn.Tiles (turn : Turn) (run : turn.Run) : Prop :=
  ∀ nsamp ∈ run.blocks, ∀ r < turn.nrecv, ∃ posted : ℕ → List Write,
    (∀ s < turn.nsend, turn.posted nsamp r s = some (posted s)) ∧ turn.TilesBy nsamp r posted

/-! ## What the senders post -/

theorem count_eq {first last : ℕ} (hle : first ≤ last) (hlt : last + 1 < 2 ^ 32) :
    count first last = last + 1 - first := by
  obtain ⟨k, rfl⟩ := Nat.exists_eq_add_of_le hle
  have hsub : first + k + 2 ^ 32 - first = k + 2 ^ 32 := by omega
  have hk : k % 2 ^ 32 = k := Nat.mod_eq_of_lt (by omega)
  rw [count, hsub, Nat.add_mod_right, hk, Nat.mod_eq_of_lt (by omega)]
  omega

namespace Turn

variable {turn : Turn} {nsamp r s : ℕ}

theorem chanFirst_add_lt (hs : s < turn.nsend) : turn.chanFirst s + turn.nchanSend < 2 ^ 32 := by
  have hle : (s + 1) * turn.nchanSend ≤ turn.nsend * turn.nchanSend := Nat.mul_le_mul_right _ hs
  have hlt := turn.nchan_lt
  rw [turn.chanFirst_eq s hs]
  rw [Nat.succ_mul] at hle
  omega

theorem count_chan (hs : s < turn.nsend) : count (turn.chanFirst s) (turn.chanLast s) = turn.nchanSend := by
  have hlt := chanFirst_add_lt hs
  have hlast := turn.chanLast_eq s hs
  have hpos := turn.nchanSend_pos
  rw [Nat.succ_mul, ← turn.chanFirst_eq s hs] at hlast
  rw [count_eq (by omega) (by omega)]
  omega

theorem count_beam (hr : r < turn.nrecv) : count (turn.beamFirst r) (turn.beamLast r) = turn.nbeamRecv r := by
  have hlast := turn.beamLast_lt r hr
  have hbeam := turn.nbeam_lt
  exact count_eq (turn.beamFirst_le r hr) (by omega)

theorem beamFirst_add_le (hr : r < turn.nrecv) : turn.beamFirst r + turn.nbeamRecv r ≤ turn.nbeam := by
  have hfirst := turn.beamFirst_le r hr
  have hlast := turn.beamLast_lt r hr
  rw [nbeamRecv]
  omega

theorem nbeamRecv_pos (hr : r < turn.nrecv) : 0 < turn.nbeamRecv r :=
  Nat.sub_pos_of_lt (Nat.lt_succ_of_le (turn.beamFirst_le r hr))

theorem nchan_pos : 0 < turn.nchan := Nat.mul_pos turn.nsend_pos turn.nchanSend_pos

variable (turn) in
/-- The samples that the code takes a whole block to have: the bytes of a sample of a sender's channels
are counted with 32 bits. -/
def counted : ℕ :=
  turn.nchanSend * turn.nsamp * turn.nbyte / (turn.nchanSend * turn.nbyte % 2 ^ 29)

theorem bytesPerSample_eq (hs : s < turn.nsend) :
    (turn.setupSend s).bytesPerSample = turn.nchanSend * turn.nbyte % 2 ^ 29 := by
  have hbits : turn.nchanSend * turn.nbit * turn.ndim = 8 * (turn.nchanSend * turn.nbyte) := by
    rw [Nat.mul_assoc, turn.nbit_eq, Nat.mul_left_comm]
  show count (turn.chanFirst s) (turn.chanLast s) * turn.nbit * turn.ndim % (8 * 2 ^ 29) / 8 = _
  rw [count_chan hs, hbits, Nat.mul_mod_mul_left, Nat.mul_div_cancel_left _ (by decide)]

variable (turn) in
/-- What sender `s` writes into the block of receiver `r`, if its offsets can be computed. -/
def writes (nsamp r s : ℕ) : List Write :=
  (List.range (turn.nbeamRecv r)).map fun b =>
    { src := (turn.beamFirst r + b) * (turn.nchanSend * turn.nsamp * turn.nbyte)
      dst := b * (turn.nchan * turn.counted * turn.nbyte) +
        s * (turn.nchanSend * turn.counted * turn.nbyte) % 2 ^ 32
      length := turn.nchanSend * nsamp * turn.nbyte % 2 ^ 32 }

theorem posted_none (hs : s < turn.nsend) (h : turn.nchanSend * turn.nbyte % 2 ^ 29 = 0) :
    turn.posted nsamp r s = none := by
  have hnone : (turn.setupSend s).setupConnOffsets (turn.sendBytes turn.nsamp) = none :=
    if_pos (.inr ((bytesPerSample_eq hs).trans h))
  rw [posted, hnone, Option.map_none]

theorem posted_some (hr : r < turn.nrecv) (hs : s < turn.nsend)
    (h : turn.nchanSend * turn.nbyte % 2 ^ 29 ≠ 0) :
    turn.posted nsamp r s = some (turn.writes nsamp r s) := by
  have hbeams := beamFirst_add_le hr
  have hbeam : turn.nbeam ≠ 0 := by
    have := nbeamRecv_pos hr
    omega
  have hstride (nsamp : ℕ) : turn.sendBytes nsamp / turn.nbeam = turn.nchanSend * nsamp * turn.nbyte :=
    Nat.mul_div_cancel_left _ (Nat.pos_of_ne_zero hbeam)
  have hnone : ¬ ((turn.setupSend s).nbeam = 0 ∨ (turn.setupSend s).bytesPerSample = 0) := by
    rw [bytesPerSample_eq hs]
    exact not_or.mpr ⟨hbeam, h⟩
  rw [posted, Ctx.setupConnOffsets, if_neg hnone, Option.map_some, Ctx.sendBlock, bytesPerSample_eq hs]
  show some ((List.range (count (turn.beamFirst r) (turn.beamLast r))).map _) = _
  rw [count_beam hr, writes]
  refine congrArg some (List.map_congr_left fun b hb => ?_)
  rw [List.mem_range] at hb
  have hbits (x : ℕ) : x * turn.ndim * turn.npol * turn.nbit = 8 * (x * turn.nbyte) := by
    rw [turn.npol_eq, Nat.mul_one, Nat.mul_assoc, Nat.mul_comm turn.ndim, turn.nbit_eq, Nat.mul_left_comm]
  have hbits' (x : ℕ) : x * turn.ndim * turn.nbit * turn.npol = 8 * (x * turn.nbyte) := by
    rw [Nat.mul_right_comm, hbits]
  have hibeam : (b + turn.beamFirst r) % 2 ^ 32 = turn.beamFirst r + b := by
    have := turn.nbeam_lt
    rw [Nat.add_comm, Nat.mod_eq_of_lt (by omega)]
  have hnchan : turn.nchanCoarse * turn.nchanFine % 2 ^ 32 = turn.nchan := by
    rw [turn.nchan_eq, Nat.mod_eq_of_lt turn.nchan_lt, nchan]
  have hsrc : (turn.setupSend s).nbeam = turn.nbeam := rfl
  have hcounted : turn.sendBytes turn.nsamp / turn.nbeam / (turn.nchanSend * turn.nbyte % 2 ^ 29) =
      turn.counted := by
    rw [hstride, counted]
  rw [Write.mk.injEq]
  refine ⟨?_, ?_, ?_⟩
  · show (b + turn.beamFirst r) % 2 ^ 32 * (turn.sendBytes turn.nsamp / turn.nbeam) = _
    rw [hibeam, hstride]
  · show b * (turn.sendBytes turn.nsamp / turn.nbeam / (turn.nchanSend * turn.nbyte % 2 ^ 29) *
        (turn.nchanCoarse * turn.nchanFine % 2 ^ 32) * turn.ndim * turn.nbit * turn.npol / 8) +
      turn.chanFirst s * (turn.sendBytes turn.nsamp / turn.nbeam / (turn.nchanSend * turn.nbyte % 2 ^ 29) *
        turn.ndim * turn.npol * turn.nbit / 8 % 2 ^ 32) % 2 ^ 32 = _
    rw [hcounted, hnchan, hbits, hbits', Nat.mul_div_cancel_left _ (by decide),
      Nat.mul_div_cancel_left _ (by decide), turn.chanFirst_eq s hs, Nat.mul_mod_mod,
      Nat.mul_comm turn.counted turn.nchan, Nat.mul_assoc s, Nat.mul_assoc turn.nchanSend]
  · show turn.sendBytes nsamp / turn.nbeam % 2 ^ 32 = _
    rw [hstride]

theorem received_eq (hr : r < turn.nrecv) : turn.received nsamp r = turn.recvBytes r nsamp := by
  have hbeams := beamFirst_add_le hr
  have hpos := nbeamRecv_pos hr
  have hsent : turn.sendBytes nsamp / turn.nbeam = turn.nchanSend * nsamp * turn.nbyte :=
    Nat.mul_div_cancel_left _ (by omega)
  show ((List.range turn.nsend).map fun _ => turn.sendBytes nsamp / turn.nbeam).sum *
    count (turn.beamFirst r) (turn.beamLast r) = _
  rw [hsent, List.map_const', List.sum_replicate_nat, List.length_range, count_beam hr, recvBytes, nchan]
  ring

/-! ## Writes in their places -/

variable (turn) in
/-- The bytes of a beam of a block of a sender. -/
def beamBytes (nsamp : ℕ) : ℕ := turn.nchanSend * nsamp * turn.nbyte

theorem beamBytes_pos (h : 0 < nsamp) : 0 < turn.beamBytes nsamp :=
  Nat.mul_pos (Nat.mul_pos turn.nchanSend_pos h) turn.nbyte_pos

theorem beamBytes_mono {nsamp' : ℕ} (h : nsamp ≤ nsamp') : turn.beamBytes nsamp ≤ turn.beamBytes nsamp' :=
  Nat.mul_le_mul_right _ (Nat.mul_le_mul_left _ h)

theorem beamBytes_inj {nsamp' : ℕ} : turn.beamBytes nsamp = turn.beamBytes nsamp' ↔ nsamp = nsamp' := by
  rw [beamBytes, beamBytes, Nat.mul_left_inj turn.nbyte_pos.ne', Nat.mul_right_inj turn.nchanSend_pos.ne']

theorem recvBytes_eq : turn.recvBytes r nsamp = turn.nbeamRecv r * turn.nsend * turn.beamBytes nsamp := by
  rw [recvBytes, beamBytes, nchan]
  ring

/-- Each beam of each sender is read where it begins in the block, written where its channels begin in the
full band, and written whole. -/
structure Placed (turn : Turn) (nsamp r : ℕ) : Prop where
  length_lt : turn.beamBytes nsamp < 2 ^ 32
  src : ∀ b < turn.nbeamRecv r,
    (turn.beamFirst r + b) * turn.beamBytes turn.nsamp = (turn.beamFirst r + b) * turn.beamBytes nsamp
  dst : ∀ b < turn.nbeamRecv r, ∀ s < turn.nsend,
    b * (turn.nsend * turn.beamBytes turn.counted) + s * turn.beamBytes turn.counted % 2 ^ 32 =
      (b * turn.nsend + s) * turn.beamBytes nsamp

variable (turn nsamp r s) in
theorem writes_eq : turn.writes nsamp r s = (List.range (turn.nbeamRecv r)).map fun b =>
    { src := (turn.beamFirst r + b) * turn.beamBytes turn.nsamp
      dst := b * (turn.nsend * turn.beamBytes turn.counted) + s * turn.beamBytes turn.counted % 2 ^ 32
      length := turn.beamBytes nsamp % 2 ^ 32 } := by
  have hstride : turn.nchan * turn.counted * turn.nbyte = turn.nsend * turn.beamBytes turn.counted := by
    rw [beamBytes, nchan]
    ring
  rw [writes, hstride]
  rfl

/-- The writes of a block that has its beams in their places. -/
theorem Placed.writes_eq (h : turn.Placed nsamp r) (hs : s < turn.nsend) :
    turn.writes nsamp r s = (List.range (turn.nbeamRecv r)).map fun b =>
      { src := (turn.beamFirst r + b) * turn.beamBytes nsamp
        dst := (b * turn.nsend + s) * turn.beamBytes nsamp
        length := turn.beamBytes nsamp } := by
  rw [Turn.writes_eq]
  refine List.map_congr_left fun b hb => ?_
  rw [List.mem_range] at hb
  rw [h.src b hb, h.dst b hb s hs, Nat.mod_eq_of_lt h.length_lt]

theorem Placed.mem_writes (h : turn.Placed nsamp r) (hs : s < turn.nsend) {w : Write} :
    w ∈ turn.writes nsamp r s ↔ ∃ b < turn.nbeamRecv r,
      w = ⟨(turn.beamFirst r + b) * turn.beamBytes nsamp, (b * turn.nsend + s) * turn.beamBytes nsamp,
        turn.beamBytes nsamp⟩ := by
  rw [h.writes_eq hs]
  simp only [List.mem_map, List.mem_range, eq_comm]

/-- Two cells of a grid of so many columns are apart. -/
theorem cells_apart {ncol i j i' j' : ℕ} (size : ℕ) (hj : j < ncol) (hj' : j' < ncol) (h : i ≠ i' ∨ j ≠ j') :
    (i * ncol + j) * size + size ≤ (i' * ncol + j') * size ∨
      (i' * ncol + j') * size + size ≤ (i * ncol + j) * size := by
  have hcells : i * ncol + j < i' * ncol + j' ∨ i' * ncol + j' < i * ncol + j := by
    rcases Nat.lt_trichotomy i i' with hlt | rfl | hlt
    · have := Nat.mul_le_mul_right ncol (Nat.succ_le_of_lt hlt)
      rw [Nat.succ_mul] at this
      omega
    · omega
    · have := Nat.mul_le_mul_right ncol (Nat.succ_le_of_lt hlt)
      rw [Nat.succ_mul] at this
      omega
  rw [← Nat.succ_mul, ← Nat.succ_mul]
  exact hcells.imp (Nat.mul_le_mul_right size) (Nat.mul_le_mul_right size)

theorem Placed.apart (h : turn.Placed nsamp r) :
    ((List.range turn.nsend).flatMap (turn.writes nsamp r)).Pairwise Write.Apart := by
  rw [List.pairwise_flatMap]
  constructor
  · intro s hs
    rw [List.mem_range] at hs
    rw [h.writes_eq hs, List.pairwise_map]
    exact List.pairwise_lt_range.imp fun hlt => cells_apart _ hs hs (.inl (Nat.ne_of_lt hlt))
  · refine List.pairwise_lt_range.imp_of_mem fun {s s'} hs hs' hlt w hw w' hw' => ?_
    rw [List.mem_range] at hs hs'
    obtain ⟨b, -, rfl⟩ := (h.mem_writes hs).mp hw
    obtain ⟨b', -, rfl⟩ := (h.mem_writes hs').mp hw'
    exact cells_apart _ hs hs' (.inr (Nat.ne_of_lt hlt))

theorem Placed.covers (h : turn.Placed nsamp r) (i : ℕ) :
    (∃ s < turn.nsend, ∃ w ∈ turn.writes nsamp r s, w.Covers i) ↔ i < turn.recvBytes r nsamp := by
  have hsend := turn.nsend_pos
  rw [recvBytes_eq]
  constructor
  · rintro ⟨s, hs, w, hw, hcovers⟩
    obtain ⟨b, hb, rfl⟩ := (h.mem_writes hs).mp hw
    have hcell : b * turn.nsend + s + 1 ≤ turn.nbeamRecv r * turn.nsend := by
      have := Nat.mul_le_mul_right turn.nsend (Nat.succ_le_of_lt hb)
      rw [Nat.succ_mul] at this
      omega
    have := Nat.mul_le_mul_right (turn.beamBytes nsamp) hcell
    rw [Nat.succ_mul] at this
    exact hcovers.2.trans_le this
  · intro hi
    have hpos : 0 < turn.beamBytes nsamp := Nat.pos_of_lt_mul_left hi
    have hcell : i / turn.beamBytes nsamp < turn.nbeamRecv r * turn.nsend := Nat.div_lt_of_lt_mul (by
      rw [Nat.mul_comm]
      exact hi)
    have hbeam : i / turn.beamBytes nsamp / turn.nsend < turn.nbeamRecv r := Nat.div_lt_of_lt_mul (by
      rw [Nat.mul_comm]
      exact hcell)
    have hs : i / turn.beamBytes nsamp % turn.nsend < turn.nsend := Nat.mod_lt _ hsend
    refine ⟨_, hs, _, (h.mem_writes hs).mpr ⟨_, hbeam, rfl⟩, ?_⟩
    rw [Write.Covers, Nat.div_add_mod']
    exact ⟨Nat.div_mul_le_self _ _, Nat.lt_div_mul_add hpos⟩

/-- The writes, with their senders. -/
theorem Placed.apart_copies (h : turn.Placed nsamp r) (contents : ℕ → Memory UInt8)
    {writes : List (ℕ × Write)}
    (hperm : writes.Perm ((List.range turn.nsend).flatMap fun s => (turn.writes nsamp r s).map (s, ·))) :
    (writes.map fun w => (w.2.dst, (contents w.1).slice w.2.src w.2.length)).Pairwise Memory.Apart := by
  have hapart := h.apart
  have hsnd : ((List.range turn.nsend).flatMap fun s => (turn.writes nsamp r s).map (s, ·)).map Prod.snd =
      (List.range turn.nsend).flatMap (turn.writes nsamp r) := by
    rw [List.map_flatMap]
    refine List.flatMap_congr fun s _ => ?_
    rw [List.map_map]
    exact List.map_id _
  rw [← hsnd, List.pairwise_map] at hapart
  rw [List.pairwise_map]
  refine ((hperm.pairwise_iff fun hww' => Or.symm hww').mpr hapart).imp fun {w w'} hww' => ?_
  rw [Memory.Apart, Memory.length_slice, Memory.length_slice]
  exact hww'

/-- **The writes of a block that has its beams in their places tile it.** -/
theorem Placed.tilesBy (h : turn.Placed nsamp r) (hr : r < turn.nrecv) (hle : nsamp ≤ turn.nsamp) :
    turn.TilesBy nsamp r (turn.writes nsamp r) where
  apart := h.apart
  inside s hs w hw i hi := by
    have hin := (h.covers i).mp ⟨s, hs, w, hw, hi⟩
    rw [recvBytes_eq] at hin ⊢
    exact hin.trans_le (Nat.mul_le_mul_left _ (beamBytes_mono hle))
  covers i := by
    rw [received_eq hr]
    exact h.covers i
  values contents block writes hperm s hs b hb c hfirst hlast t ht j hj := by
    obtain ⟨c', rfl⟩ := Nat.exists_eq_add_of_le hfirst
    have hc' : c' < turn.nchanSend := by
      have hnext := turn.chanLast_eq s hs
      rw [Nat.succ_mul, ← turn.chanFirst_eq s hs] at hnext
      omega
    -- the byte within the beam of the sender
    have hin : (c' * nsamp + t) * turn.nbyte + j < turn.beamBytes nsamp := by
      have hsample : c' * nsamp + t + 1 ≤ turn.nchanSend * nsamp := by
        have := Nat.mul_le_mul_right nsamp (Nat.succ_le_of_lt hc')
        rw [Nat.succ_mul] at this
        omega
      have := Nat.mul_le_mul_right turn.nbyte hsample
      rw [Nat.succ_mul] at this
      rw [beamBytes]
      omega
    have hdst : position turn.nchan nsamp turn.nbyte b (turn.chanFirst s + c') t j =
        (b * turn.nsend + s) * turn.beamBytes nsamp + ((c' * nsamp + t) * turn.nbyte + j) := by
      rw [position, turn.chanFirst_eq s hs, nchan, beamBytes]
      ring
    have hsrc : position turn.nchanSend nsamp turn.nbyte (turn.beamFirst r + b) c' t j =
        (turn.beamFirst r + b) * turn.beamBytes nsamp + ((c' * nsamp + t) * turn.nbyte + j) := by
      rw [position, beamBytes]
      ring
    have hmem := List.mem_map_of_mem (f := fun w : ℕ × Write =>
        (w.2.dst, (contents w.1).slice w.2.src w.2.length))
      (hperm.mem_iff.mpr (List.mem_flatMap_of_mem (List.mem_range.mpr hs)
        (List.mem_map_of_mem ((h.mem_writes hs).mpr ⟨b, hb, rfl⟩))))
    have hvalue := Memory.copies_apply_of_mem (h.apart_copies contents hperm) hmem block
      (hin.trans_eq (Memory.length_slice _ _ _).symm)
    rw [hdst, Nat.add_sub_cancel_left, hsrc]
    refine hvalue.trans ?_
    simp only [Memory.slice, List.getElem_map, List.getElem_range]

/-! ## Where the writes have to be -/

/-- One byte of a sender's block is set, everything else is 0. -/
def marked (s i : ℕ) : ℕ → Memory UInt8 := fun s' i' => if s' = s ∧ i' = i then 1 else 0

/-- A byte of a beam of a sender is in the place it belongs only if one of the writes takes it there. -/
theorem TilesBy.exists_write (h : turn.TilesBy nsamp r (turn.writes nsamp r)) (hs : s < turn.nsend) {b : ℕ}
    (hb : b < turn.nbeamRecv r) {i : ℕ} (hi : i < turn.beamBytes nsamp) :
    ∃ b' < turn.nbeamRecv r, ∃ k < turn.beamBytes nsamp % 2 ^ 32,
      (turn.beamFirst r + b) * turn.beamBytes nsamp + i =
          (turn.beamFirst r + b') * turn.beamBytes turn.nsamp + k ∧
        (b * turn.nsend + s) * turn.beamBytes nsamp + i =
          b' * (turn.nsend * turn.beamBytes turn.counted) + s * turn.beamBytes turn.counted % 2 ^ 32 + k := by
  -- the channel, the sample and the byte of it
  obtain ⟨c, hc, t, ht, j, hj, rfl⟩ : ∃ c < turn.nchanSend, ∃ t < nsamp, ∃ j < turn.nbyte,
      i = (c * nsamp + t) * turn.nbyte + j := by
    have hsample : i / turn.nbyte < turn.nchanSend * nsamp := Nat.div_lt_of_lt_mul (by
      rw [Nat.mul_comm]
      exact hi)
    have hnsamp : 0 < nsamp := Nat.pos_of_lt_mul_left hsample
    refine ⟨i / turn.nbyte / nsamp, Nat.div_lt_of_lt_mul ?_, i / turn.nbyte % nsamp, Nat.mod_lt _ hnsamp,
      i % turn.nbyte, Nat.mod_lt i turn.nbyte_pos, ?_⟩
    · rw [Nat.mul_comm]
      exact hsample
    · rw [Nat.div_add_mod', Nat.div_add_mod']
  have hchan : turn.chanFirst s + c ≤ turn.chanLast s := by
    have hnext := turn.chanLast_eq s hs
    rw [Nat.succ_mul, ← turn.chanFirst_eq s hs] at hnext
    omega
  generalize hsrc : position turn.nchanSend nsamp turn.nbyte (turn.beamFirst r + b) c t j = src
  have hdst : position turn.nchan nsamp turn.nbyte b (turn.chanFirst s + c) t j =
      (b * turn.nsend + s) * turn.beamBytes nsamp + ((c * nsamp + t) * turn.nbyte + j) := by
    rw [position, turn.chanFirst_eq s hs, nchan, beamBytes]
    ring
  have hvalue := h.values (marked s src) (fun _ => 0) _ (List.Perm.refl _) s hs b hb _
    (Nat.le_add_right _ c) hchan t ht j hj
  rw [Nat.add_sub_cancel_left, hsrc, marked, if_pos ⟨rfl, rfl⟩, hdst] at hvalue
  obtain hbefore | ⟨_, hcopy, k, hk, hplace, hcopied⟩ := Memory.copies_apply (fun _ => 0)
    (((List.range turn.nsend).flatMap fun s => (turn.writes nsamp r s).map (s, ·)).map fun w =>
      (w.2.dst, (marked s src w.1).slice w.2.src w.2.length))
    ((b * turn.nsend + s) * turn.beamBytes nsamp + ((c * nsamp + t) * turn.nbyte + j))
  · exact absurd (hvalue.symm.trans hbefore) (by decide)
  · obtain ⟨⟨s', w⟩, hw, rfl⟩ := List.mem_map.mp hcopy
    obtain ⟨s'', -, hw⟩ := List.mem_flatMap.mp hw
    obtain ⟨w', hw', heq⟩ := List.mem_map.mp hw
    obtain ⟨rfl, rfl⟩ := Prod.mk.inj heq
    have hlength := hk.trans_eq (Memory.length_slice _ _ _)
    have hmark := hvalue.symm.trans hcopied
    simp only [Memory.slice, List.getElem_map, List.getElem_range, marked] at hmark
    obtain ⟨rfl, hread⟩ : s'' = s ∧ w'.src + k = src := by
      by_contra hne
      rw [if_neg hne] at hmark
      exact absurd hmark (by decide)
    rw [writes_eq] at hw'
    obtain ⟨b', hb', rfl⟩ := List.mem_map.mp hw'
    refine ⟨b', List.mem_range.mp hb', k, hlength, ?_, hplace⟩
    rw [hread, ← hsrc, position, beamBytes]
    ring

/-- **Where the writes of a block tile it, its beams are in their places.** -/
theorem TilesBy.placed (h : turn.TilesBy nsamp r (turn.writes nsamp r)) (hr : r < turn.nrecv)
    (hle : nsamp ≤ turn.nsamp) (hpos : 0 < nsamp) : turn.Placed nsamp r := by
  have hrecv := nbeamRecv_pos hr
  have hbeam : 0 < turn.beamBytes nsamp := beamBytes_pos hpos
  have hmono : turn.beamBytes nsamp ≤ turn.beamBytes turn.nsamp := beamBytes_mono hle
  have hsend := turn.nsend_pos
  have hwrite (s : ℕ) (hs : s < turn.nsend) (b : ℕ) (hb : b < turn.nbeamRecv r) (i : ℕ)
      (hi : i < turn.beamBytes nsamp) := h.exists_write hs hb hi
  generalize hp : turn.beamBytes nsamp = p at hwrite hbeam hmono
  generalize hwhole : turn.beamBytes turn.nsamp = whole at hwrite hmono
  -- the first byte of the first beam
  have hfirst : turn.beamFirst r * whole = turn.beamFirst r * p ∧ 0 < p % 2 ^ 32 := by
    obtain ⟨b', -, k, hk, hsrc, -⟩ := hwrite 0 hsend 0 hrecv 0 hbeam
    have hle := Nat.mul_le_mul_left (turn.beamFirst r) hmono
    simp only [Nat.add_zero, Nat.add_mul] at hsrc
    omega
  have hlength : p % 2 ^ 32 = p := by
    by_contra hne
    have hlt : p % 2 ^ 32 < p := Nat.lt_of_le_of_ne (Nat.mod_le _ _) hne
    -- the first byte that is not written of it
    obtain ⟨b', -, k, hk, hsrc, -⟩ := hwrite 0 hsend 0 hrecv _ hlt
    rw [Nat.add_zero, Nat.add_mul, hfirst.1, Nat.add_assoc, Nat.add_left_cancel_iff] at hsrc
    cases b' with
    | zero => omega
    | succ b' =>
      rw [Nat.succ_mul] at hsrc
      omega
  rw [hlength] at hwrite
  have hsrc (b : ℕ) (hb : b < turn.nbeamRecv r) :
      (turn.beamFirst r + b) * whole = (turn.beamFirst r + b) * p := by
    rw [Nat.add_mul, Nat.add_mul, hfirst.1, Nat.add_left_cancel_iff]
    cases b with
    | zero => rw [Nat.zero_mul, Nat.zero_mul]
    | succ b =>
      -- the second beam begins where the first one ends
      obtain ⟨b', -, k, hk, hsrc, -⟩ := hwrite 0 hsend 1 (by omega) 0 hbeam
      rw [Nat.add_mul, Nat.add_mul, hfirst.1, Nat.add_assoc, Nat.add_assoc, Nat.add_left_cancel_iff,
        Nat.one_mul] at hsrc
      cases b' with
      | zero => omega
      | succ b' =>
        rw [Nat.succ_mul] at hsrc
        rw [show whole = p by omega]
  refine ⟨hp ▸ hlength ▸ Nat.mod_lt _ (by decide), hp.symm ▸ hwhole.symm ▸ hsrc, fun b hb s hs => ?_⟩
  obtain ⟨b', hb', k, hk, hfrom, hto⟩ := hwrite s hs b hb 0 hbeam
  rw [hsrc b' hb', Nat.add_mul, Nat.add_mul, Nat.add_zero, Nat.add_assoc, Nat.add_left_cancel_iff] at hfrom
  obtain rfl : b = b' := by
    rcases Nat.lt_trichotomy b b' with hlt | heq | hlt
    · have := Nat.mul_le_mul_right p (Nat.succ_le_of_lt hlt)
      rw [Nat.succ_mul] at this
      omega
    · exact heq
    · have := Nat.mul_le_mul_right p (Nat.succ_le_of_lt hlt)
      rw [Nat.succ_mul] at this
      omega
  rw [hp]
  omega

/-! ## When the places are right -/

theorem le_counted (h : turn.nchanSend * turn.nbyte % 2 ^ 29 ≠ 0) : turn.nsamp ≤ turn.counted := by
  rw [counted, Nat.le_div_iff_mul_le (Nat.pos_of_ne_zero h)]
  calc turn.nsamp * (turn.nchanSend * turn.nbyte % 2 ^ 29)
      ≤ turn.nsamp * (turn.nchanSend * turn.nbyte) := Nat.mul_le_mul_left _ (Nat.mod_le _ _)
    _ = turn.nchanSend * turn.nsamp * turn.nbyte := by ring

/-- The samples are counted right when the bytes of a sample of a sender's channels fit into 29 bits. -/
theorem counted_eq (h : turn.nchanSend * turn.nbyte < 2 ^ 29) : turn.counted = turn.nsamp := by
  rw [counted, Nat.mod_eq_of_lt h, Nat.mul_right_comm]
  exact Nat.mul_div_cancel_left _ (Nat.mul_pos turn.nchanSend_pos turn.nbyte_pos)

/-- The rows of a grid begin where the rows of a tighter grid do, and its columns do so up to a modulus, only
where there is one row or no difference, and one column or a difference of so many moduli. -/
theorem strides_iff {rows cols m size stride : ℕ} (hrows : 0 < rows) (hcols : 0 < cols)
    (hm : 0 < m) (hle : size ≤ stride) :
    (∀ i < rows, ∀ j < cols, i * (cols * stride) + j * stride % m = (i * cols + j) * size) ↔
      (stride = size ∨ rows = 1) ∧
        (cols = 1 ∨ (cols - 1) * size < m ∧ m ∣ stride - size) := by
  constructor
  · intro h
    have hfirst (j : ℕ) (hj : j < cols) : j * stride % m = j * size := by
      have := h 0 hrows j hj
      rwa [Nat.zero_mul, Nat.zero_mul, Nat.zero_add, Nat.zero_add] at this
    refine ⟨(Nat.lt_or_ge 1 rows).imp (fun hrow => ?_) fun hrow => by omega,
      (Nat.eq_or_lt_of_le hcols).imp Eq.symm fun hcol => ⟨?_, ?_⟩⟩
    · have := h 1 hrow 0 hcols
      rw [Nat.zero_mul, Nat.zero_mod, Nat.add_zero, Nat.add_zero, Nat.one_mul, Nat.one_mul] at this
      exact Nat.eq_of_mul_eq_mul_left hcols this
    · rw [← hfirst _ (Nat.sub_one_lt hcols.ne')]
      exact Nat.mod_lt _ hm
    · have := hfirst 1 hcol
      rw [Nat.one_mul, Nat.one_mul] at this
      rw [← this]
      exact Nat.dvd_sub_mod stride
  · rintro ⟨hrow, hcol⟩ i hi j hj
    have hcolumn : j * stride % m = j * size := by
      rcases hcol with hone | ⟨hlt, hdvd⟩
      · obtain rfl : j = 0 := by omega
        rw [Nat.zero_mul, Nat.zero_mul, Nat.zero_mod]
      · obtain ⟨k, hk⟩ := hdvd
        have hstride : j * stride = j * size + m * (j * k) := by
          rw [show stride = size + m * k by omega]
          ring
        rw [hstride, Nat.add_mul_mod_self_left]
        exact Nat.mod_eq_of_lt ((Nat.mul_le_mul_right _ (Nat.le_sub_one_of_lt hj)).trans_lt hlt)
    rw [hcolumn]
    rcases hrow with rfl | hone
    · ring
    · obtain rfl : i = 0 := by omega
      ring

variable (turn) in
/-- When the writes of a block tile the block of receiver `r`.  A beam of the block fits into 32 bits; unless
the block is a whole one, the receiver has the first beam only; the samples of a whole block are counted as
those of this one, or the receiver has one beam only; and with more than one sender, the channels of the last
one begin within 32 bits and where whole blocks have them. -/
def CanTile (nsamp r : ℕ) : Prop :=
  turn.nchanSend * turn.nbyte % 2 ^ 29 ≠ 0 ∧
    (nsamp = 0 ∨
      turn.beamBytes nsamp < 2 ^ 32 ∧
      (nsamp = turn.nsamp ∨ turn.nbeamRecv r = 1 ∧ turn.beamFirst r = 0) ∧
      (turn.counted = nsamp ∨ turn.nbeamRecv r = 1) ∧
      (turn.nsend = 1 ∨ (turn.nsend - 1) * turn.beamBytes nsamp < 2 ^ 32 ∧
        2 ^ 32 ∣ turn.beamBytes turn.counted - turn.beamBytes nsamp))

theorem placed_iff (h : turn.nchanSend * turn.nbyte % 2 ^ 29 ≠ 0) (hr : r < turn.nrecv)
    (hle : nsamp ≤ turn.nsamp) : turn.Placed nsamp r ↔
      turn.beamBytes nsamp < 2 ^ 32 ∧
      (nsamp = turn.nsamp ∨ turn.nbeamRecv r = 1 ∧ turn.beamFirst r = 0) ∧
      (turn.counted = nsamp ∨ turn.nbeamRecv r = 1) ∧
      (turn.nsend = 1 ∨ (turn.nsend - 1) * turn.beamBytes nsamp < 2 ^ 32 ∧
        2 ^ 32 ∣ turn.beamBytes turn.counted - turn.beamBytes nsamp) := by
  have hrecv := nbeamRecv_pos hr
  have hsrc : (∀ b < turn.nbeamRecv r,
      (turn.beamFirst r + b) * turn.beamBytes turn.nsamp = (turn.beamFirst r + b) * turn.beamBytes nsamp) ↔
        (nsamp = turn.nsamp ∨ turn.nbeamRecv r = 1 ∧ turn.beamFirst r = 0) := by
    simp only [mul_eq_mul_left_iff, beamBytes_inj]
    constructor
    · intro hall
      rcases Nat.eq_or_lt_of_le hrecv with hone | hmany
      · have := hall 0 hrecv
        omega
      · have := hall 1 hmany
        omega
    · rintro (heq | ⟨hone, hzero⟩) b hb
      · exact .inl heq.symm
      · exact .inr (by omega)
  have hmono : turn.beamBytes nsamp ≤ turn.beamBytes turn.counted := beamBytes_mono (hle.trans (le_counted h))
  have hdst := strides_iff hrecv turn.nsend_pos (Nat.two_pow_pos 32) hmono
  rw [beamBytes_inj] at hdst
  rw [← hsrc, ← hdst]
  exact ⟨fun ⟨hlength, hsrc, hdst⟩ => ⟨hlength, hsrc, hdst⟩, fun ⟨hlength, hsrc, hdst⟩ => ⟨hlength, hsrc, hdst⟩⟩

theorem tilesBy_of_zero (hr : r < turn.nrecv) : turn.TilesBy 0 r (turn.writes 0 r) := by
  have hlength {s : ℕ} {w : Write} (hw : w ∈ turn.writes 0 r s) : w.length = 0 := by
    rw [writes_eq] at hw
    obtain ⟨b, -, rfl⟩ := List.mem_map.mp hw
    show turn.nchanSend * 0 * turn.nbyte % 2 ^ 32 = 0
    rw [Nat.mul_zero, Nat.zero_mul, Nat.zero_mod]
  have hcovers {s : ℕ} {w : Write} (hw : w ∈ turn.writes 0 r s) (i : ℕ) : ¬ w.Covers i := by
    rw [Write.Covers, hlength hw]
    omega
  refine ⟨?_, ?_, ?_, ?_⟩
  · refine (List.pairwise_of_forall fun _ _ => trivial).imp_of_mem fun {w w'} hw hw' _ => ?_
    obtain ⟨s, -, hw⟩ := List.mem_flatMap.mp hw
    obtain ⟨s', -, hw'⟩ := List.mem_flatMap.mp hw'
    rw [Write.Apart, hlength hw, hlength hw']
    omega
  · intro s _ w hw i hi
    exact absurd hi (hcovers hw i)
  · intro i
    rw [received_eq hr, recvBytes, Nat.mul_zero, Nat.zero_mul, Nat.mul_zero]
    exact iff_of_false (fun ⟨s, _, w, hw, hi⟩ => hcovers hw i hi) (Nat.not_lt_zero i)
  · intro contents block writes _ s _ b _ c _ _ t ht
    exact absurd ht (Nat.not_lt_zero t)

theorem TilesBy.congr {posted posted' : ℕ → List Write} (htiles : turn.TilesBy nsamp r posted)
    (h : ∀ s < turn.nsend, posted s = posted' s) : turn.TilesBy nsamp r posted' := by
  have hflat : (List.range turn.nsend).flatMap posted = (List.range turn.nsend).flatMap posted' :=
    List.flatMap_congr fun s hs => h s (List.mem_range.mp hs)
  have hpairs : ((List.range turn.nsend).flatMap fun s => (posted s).map (s, ·)) =
      (List.range turn.nsend).flatMap fun s => (posted' s).map (s, ·) :=
    List.flatMap_congr fun s hs => by rw [h s (List.mem_range.mp hs)]
  refine ⟨hflat ▸ htiles.apart, fun s hs => h s hs ▸ htiles.inside s hs, fun i => ?_, ?_⟩
  · rw [← htiles.covers i]
    refine exists_congr fun s => and_congr_right fun hs => ?_
    rw [h s hs]
  · intro contents block writes hperm
    exact htiles.values contents block writes (hperm.trans (.of_eq hpairs.symm))

/-- The writes of one block tile the block of a receiver when they can. -/
theorem tilesBlock_iff (hr : r < turn.nrecv) (hle : nsamp ≤ turn.nsamp) :
    (∃ posted : ℕ → List Write,
      (∀ s < turn.nsend, turn.posted nsamp r s = some (posted s)) ∧ turn.TilesBy nsamp r posted) ↔
      turn.CanTile nsamp r := by
  rw [CanTile]
  by_cases h : turn.nchanSend * turn.nbyte % 2 ^ 29 = 0
  · refine iff_of_false ?_ fun hcan => hcan.1 h
    rintro ⟨posted, hposted, -⟩
    have hnone := hposted 0 turn.nsend_pos
    rw [posted_none turn.nsend_pos h] at hnone
    cases hnone
  rw [← placed_iff h hr hle, and_iff_right h]
  constructor
  · rintro ⟨posted, hposted, htiles⟩
    have hwrites (s : ℕ) (hs : s < turn.nsend) : posted s = turn.writes nsamp r s :=
      Option.some.inj ((hposted s hs).symm.trans (posted_some hr hs h))
    exact (Nat.eq_zero_or_pos nsamp).imp id fun hpos => (htiles.congr hwrites).placed hr hle hpos
  · intro hplaced
    refine ⟨turn.writes nsamp r, fun s hs => posted_some hr hs h, ?_⟩
    rcases hplaced with rfl | hplaced
    · exact tilesBy_of_zero hr
    · exact hplaced.tilesBy hr hle

end Turn

/-- **The corner turn.** The blocks of a run tile the blocks of the receivers exactly when each of them can
tile each of theirs. -/
theorem Turn.tiles_iff_canTile (turn : Turn) (run : turn.Run) :
    turn.Tiles run ↔ ∀ nsamp ∈ run.blocks, ∀ r < turn.nrecv, turn.CanTile nsamp r :=
  forall_congr' fun nsamp => forall_congr' fun hnsamp => forall_congr' fun _ => forall_congr' fun hr =>
    Turn.tilesBlock_iff hr (run.le nsamp hnsamp)

/-! ## A shorter last block -/

theorem twoSenders_nchan_lt : 2 * 1 < 2 ^ 32 := by decide

theorem twoSenders_nbeam_lt : 1 < 2 ^ 32 := by decide

theorem twoSenders_chanLast (s : ℕ) (_ : s < 2) : s + 1 = (s + 1) * 1 := (Nat.mul_one _).symm

theorem twoSenders_beam (b : ℕ) (hb : b < 1) : ∃! r, r < 1 ∧ 0 ≤ b ∧ b ≤ 0 :=
  ⟨0, ⟨Nat.one_pos, Nat.zero_le _, Nat.le_of_lt_succ hb⟩, fun _ hr => Nat.lt_one_iff.mp hr.1⟩

/-- Two senders of a channel each and one receiver of the one beam; a block has two samples of a byte. -/
def twoSenders : Turn where
  ndim := 1
  nbit := 8
  npol := 1
  nchanCoarse := 2
  nchanFine := 1
  nbeam := 1
  nsend := 2
  nrecv := 1
  chanFirst s := s
  chanLast s := s
  beamFirst _ := 0
  beamLast _ := 0
  nchanSend := 1
  nbyte := 1
  nsamp := 2
  nsend_pos := Nat.two_pos
  nchanSend_pos := Nat.one_pos
  nbyte_pos := Nat.one_pos
  nsamp_pos := Nat.two_pos
  nbit_eq := rfl
  npol_eq := rfl
  nchan_eq := rfl
  nchan_lt := twoSenders_nchan_lt
  nbeam_lt := twoSenders_nbeam_lt
  chanFirst_eq s _ := (Nat.mul_one s).symm
  chanLast_eq := twoSenders_chanLast
  beamFirst_le _ _ := Nat.le_refl 0
  beamLast_lt _ _ := Nat.one_pos
  beam_mem := twoSenders_beam

/-- The last block has one sample. -/
def shorterLast : twoSenders.Run where
  blocks := [2, 1]
  whole := by decide
  le := by decide

/-- The second sender writes its sample to byte 2 of a block that has two bytes. -/
theorem not_tiles_shorterLast : ¬ twoSenders.Tiles shorterLast := by
  intro htiles
  obtain ⟨posted, hposted, htiles⟩ := htiles 1 (by decide) 0 (by decide)
  have hwrites (s : ℕ) (hs : s < 2) : posted s = twoSenders.writes 1 0 s :=
    Option.some.inj ((hposted s hs).symm.trans (Turn.posted_some Nat.one_pos hs (by decide)))
  have hsecond : posted 1 = [⟨0, 2, 1⟩] := hwrites 1 Nat.one_lt_two
  have hcovers : Write.Covers ⟨0, 2, 1⟩ 2 := ⟨Nat.le_refl 2, Nat.lt_succ_self 2⟩
  have hin := (htiles.covers 2).mp ⟨1, Nat.one_lt_two, _, hsecond ▸ List.mem_singleton_self _, hcovers⟩
  exact absurd hin (by decide)

end CornerTurn

end Psrdada
