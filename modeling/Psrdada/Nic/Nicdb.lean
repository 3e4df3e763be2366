import Psrdada.Client.Appending
import Psrdada.Nic.Dbnic

/-! # dada_nicdb

`dada_nicdb` accepts a connection, looks at the header without receiving it, and then receives the header
and the data, up to `TRANSFER_SIZE` bytes or the end of the stream.  `recv` may return fewer bytes than
were asked for; whatever it returns, the same is passed to the ring (`nicdb_receives`).

The program looks at as many bytes as a header block has, which is not always what the header has: as long
as the whole stream is shorter it looks again and again. -/

namespace Psrdada

open CString

/-- The program, with the connection that it has accepted. -/
structure Nicdb where
  /-- The bytes that have not been received, up to the end of the stream. -/
  stream : List UInt8
  /-- How often `recv` has been called. -/
  recvs : ℕ
  /-- `total_received`. -/
  totalReceived : ℕ
  /-- The header that has been sent back. -/
  acknowledged : Option Text

namespace Nicdb

/-- What `recv` returns: at most so many bytes for each call, but some if there are any, and none where
the call fails. -/
abbrev Arrivals := ℕ → Option ℕ

variable (arrivals : Arrivals)

/-- `recv` of `size` bytes. -/
def recv (d : Nicdb) (size : ℕ) : Option (List UInt8) × Nicdb :=
  match arrivals d.recvs with
  | none => (none, { d with recvs := d.recvs + 1 })
  | some n =>
    let bytes := d.stream.take (min size (max 1 n))
    (some bytes, { d with stream := d.stream.drop bytes.length, recvs := d.recvs + 1 })

/-- `sock_recv` of `size` bytes. -/
def sockRecv (d : Nicdb) (size : ℕ) : Option (List UInt8) × Nicdb :=
  if size = 0 then (some [], d)
  else
    match d.recv arrivals size with
    | (none, d) => (none, d)
    | (some bytes, d) =>
      if _h : bytes = [] then (some [], d)
      else
        let rest := sockRecv d (size - bytes.length)
        (rest.1.map (bytes ++ ·), rest.2)
termination_by size
decreasing_by
  have := List.length_pos_iff.mpr _h
  omega

/-- `sock_recv_function`.  The header has been put into its buffer before, when it was looked at. -/
def sockRecvFunction (c : Client Nicdb) (_ : Buffer) (dataSize : ℕ) : Fill Nicdb :=
  match c.context.sockRecv arrivals dataSize with
  | (none, d) => ⟨-1, [], { c with context := d }⟩
  | (some bytes, d) =>
    let total := d.totalReceived + bytes.length
    if bytes.length < dataSize then
      -- the transmission has been cut short
      let total := if total > c.headerSize then total - c.headerSize else 0
      ⟨bytes.length, bytes, { c with
        transferBytes := total
        context := { d with totalReceived := total } }⟩
    else ⟨bytes.length, bytes, { c with context := { d with totalReceived := total } }⟩

/-- `sock_close_function`. -/
def sockCloseFunction (c : Client Nicdb) (bytesWritten : ℕ) : ℤ × Client Nicdb :=
  let header := asciiHeaderSet c.header transferSizeKey (decimal bytesWritten)
  (0, { c with
    header := header
    context := { c.context with totalReceived := 0, acknowledged := some header } })

/-- `sock_open_function`, once it has looked at the bytes of a header block or found the stream ended. -/
def sockOpenFunction (c : Client Nicdb) : ℤ × Client Nicdb :=
  let peeked := c.context.stream.take c.headerSize
  let header := textOf peeked
  if peeked.length < c.headerSize then (-1, { c with header := header })
  else
    match asciiHeaderGetUnsigned header transferSizeKey, asciiHeaderGetUnsigned header "HDR_SIZE".toList with
    | some transferSize, some hdrSize =>
      if hdrSize > c.headerSize then (-1, { c with header := header })
      else (0, { c with
        header := header
        headerSize := hdrSize
        optimalBytes := 1024 * 1024
        transferBytes := transferSize })
    | _, _ => (-1, { c with header := header })

end Nicdb

/-- The functions of `dada_nicdb`. -/
def nicdb (arrivals : Nicdb.Arrivals) : WriteFunctions Nicdb where
  openFunction := Nicdb.sockOpenFunction
  ioFunction := Nicdb.sockRecvFunction arrivals
  ioBlockFunction := none
  closeFunction := Nicdb.sockCloseFunction

/-- The client of `dada_nicdb` with a connection. -/
def nicdbClient (stream : List UInt8) : Client Nicdb :=
  ⟨⟨stream, 0, 0, none⟩, [], 0, true, 0, 64 * 1024 * 1024, false⟩

/-- A transfer of `dada_nicdb` with the stream of a connection: none as well where the stream is shorter
than a header block, so that `sock_recv` looks at it for ever. -/
def dadaNicdb (arrivals : Nicdb.Arrivals) (headerBufsz blockSize fuel : ℕ) (stream : List UInt8) :
    Option (WriteTransfer Nicdb) :=
  if 0 < stream.length ∧ stream.length < headerBufsz then none
  else dadaClientWrite (nicdb arrivals) headerBufsz blockSize fuel (nicdbClient stream)

/-! ## Receiving -/

section Receiving

variable {arrivals : Nicdb.Arrivals}

/-- **However the bytes arrive**, `sock_recv` returns the bytes that it was asked for, or all there are. -/
theorem sockRecv_eq (h : ∀ k, (arrivals k).isSome) (d : Nicdb) (size : ℕ) :
    ∃ recvs, d.sockRecv arrivals size =
      (some (d.stream.take size), { d with stream := d.stream.drop size, recvs := recvs }) := by
  induction size using Nat.strong_induction_on generalizing d with
  | _ size ih =>
    rw [Nicdb.sockRecv]
    by_cases hzero : size = 0
    · subst hzero
      exact ⟨d.recvs, by simp⟩
    · obtain ⟨n, hn⟩ := Option.isSome_iff_exists.mp (h d.recvs)
      set m := min size (max 1 n) with hm
      have hpos : 0 < m := by omega
      have hle : m ≤ size := Nat.min_le_left _ _
      have hrecv : d.recv arrivals size = (some (d.stream.take m),
          { d with stream := d.stream.drop (d.stream.take m).length, recvs := d.recvs + 1 }) := by
        simp only [Nicdb.recv, hn, ← hm]
      rw [if_neg hzero, hrecv]
      simp only []
      by_cases hnil : d.stream.take m = []
      · have hstream : d.stream = [] := by
          rcases List.take_eq_nil_iff.mp hnil with hz | hs
          · omega
          · exact hs
        rw [dif_pos hnil, hstream]
        exact ⟨d.recvs + 1, by simp⟩
      · rw [dif_neg hnil]
        have hsome := List.length_pos_iff.mpr hnil
        set k := (d.stream.take m).length with hk
        have hklen : k = min m d.stream.length := List.length_take
        have htake : d.stream.take m = d.stream.take k := by
          rw [List.take_eq_take_iff]
          omega
        obtain ⟨recvs, hrest⟩ :=
          ih (size - k) (by omega) { d with stream := d.stream.drop k, recvs := d.recvs + 1 }
        refine ⟨recvs, ?_⟩
        have hwhole : d.stream.take k ++ (d.stream.drop k).take (size - k) = d.stream.take size := by
          rw [← List.take_add]
          congr 1
          omega
        have hdrop : (d.stream.drop k).drop (size - k) = d.stream.drop size := by
          rw [List.drop_drop]
          congr 1
          omega
        rw [hrest, htake]
        simp only [Option.map_some, hwhole, hdrop]

/-- The part of the data that is in a transfer of `transferSize` bytes. -/
def transferPart (transferSize : ℕ) (data : List UInt8) : List UInt8 :=
  if transferSize = 0 then data else data.take transferSize

/-- A call of `io_function`. -/
theorem sockRecvFunction_eq (h : ∀ k, (arrivals k).isSome) (c : Client Nicdb) (b : Buffer) (n : ℕ) :
    ∃ c', Nicdb.sockRecvFunction arrivals c b n = ⟨(c.context.stream.take n).length, c.context.stream.take n, c'⟩ ∧
      c'.context.stream = c.context.stream.drop n ∧ c'.header = c.header ∧ c'.headerSize = c.headerSize ∧
      c'.optimalBytes = c.optimalBytes ∧
      (n ≤ c.context.stream.length → c'.transferBytes = c.transferBytes ∧
        c'.context.totalReceived = c.context.totalReceived + n) ∧
      (c.context.stream.length < n → c'.transferBytes =
        c.context.totalReceived + c.context.stream.length - c.headerSize) := by
  obtain ⟨recvs, hrecv⟩ := sockRecv_eq h c.context n
  unfold Nicdb.sockRecvFunction
  simp only [hrecv, List.length_take]
  by_cases hshort : min n c.context.stream.length < n
  · rw [if_pos hshort]
    refine ⟨_, rfl, rfl, rfl, rfl, rfl, fun hle => by omega, fun _ => ?_⟩
    show (if _ > c.headerSize then _ else 0) = _
    split_ifs <;> omega
  · rw [if_neg hshort]
    refine ⟨_, rfl, rfl, rfl, rfl, rfl, fun hle => ⟨rfl, ?_⟩, fun hlt => by omega⟩
    show c.context.totalReceived + min n c.context.stream.length = _
    omega

/-- The I/O loop receives what is left of the transfer. -/
theorem writeLoop_receives (h : ∀ k, (arrivals k).isSome) {bufferSize : ℕ} (hb : 0 < bufferSize) (fuel : ℕ)
    (c : Client Nicdb) (done : ℕ) (htotal : c.context.totalReceived = c.headerSize + done)
    (hdone : c.transferBytes = 0 ∨ done ≤ c.transferBytes) :
    (c.context.stream.length + 1 < fuel → (writeLoop (nicdb arrivals) bufferSize fuel c done).isSome) ∧
      ∀ r, writeLoop (nicdb arrivals) bufferSize fuel c done = some r →
        r.data = (if c.transferBytes = 0 then c.context.stream
          else c.context.stream.take (c.transferBytes - done)) ∧
        r.count = done + r.data.length ∧ r.client.header = c.header := by
  induction fuel generalizing c done with
  | zero => exact ⟨fun hf => absurd hf (Nat.not_lt_zero _), fun r hr => by simp [writeLoop] at hr⟩
  | succ fuel ih =>
    rw [writeLoop]
    by_cases hwants : c.wants done
    · have hchunk := c.chunk_pos hb hwants
      have hchunkLe : c.transferBytes ≠ 0 → c.chunk bufferSize done ≤ c.transferBytes - done := by
        intro hne
        rw [Client.chunk, if_neg hne]
        split_ifs <;> omega
      obtain ⟨c', hcall, hstream, hheader, hsize, hoptimal, hfull, hshort⟩ :=
        sockRecvFunction_eq h c .data (c.chunk bufferSize done)
      have hfill : (nicdb arrivals).ioFunction c .data (c.chunk bufferSize done) = _ := hcall
      rw [if_pos hwants, hfill]
      simp only [if_neg (Int.not_lt.mpr (Int.natCast_nonneg _)), Int.toNat_natCast, List.take_length]
      by_cases hnil : c.context.stream = []
      · -- the end of the stream
        rw [hnil]
        simp only [List.take_nil, List.length_nil, Int.natCast_zero, if_true]
        refine ⟨fun _ => rfl, fun r hr => ?_⟩
        obtain rfl := Option.some.inj hr
        exact ⟨by simp, by simp, hheader⟩
      · have hpos := List.length_pos_iff.mpr hnil
        have hsome : ((c.context.stream.take (c.chunk bufferSize done)).length : ℤ) ≠ 0 := by
          rw [List.length_take]
          omega
        rw [if_neg hsome]
        set n := c.chunk bufferSize done with hn
        rcases Nat.lt_or_ge c.context.stream.length n with hlt | hge
        · -- the stream ends in this chunk, and with it the transfer
          have hall : c.context.stream.take n = c.context.stream := List.take_of_length_le (Nat.le_of_lt hlt)
          have htransfer : c'.transferBytes = done + c.context.stream.length := by
            rw [hshort hlt, htotal]
            omega
          have hstop : ¬ c'.wants (done + c.context.stream.length) := by
            unfold Client.wants
            omega
          rw [hall]
          cases fuel with
          | zero =>
            refine ⟨fun hf => by omega, fun r hr => ?_⟩
            simp [writeLoop] at hr
          | succ fuel =>
            rw [writeLoop, if_neg hstop]
            refine ⟨fun _ => rfl, fun r hr => ?_⟩
            obtain rfl := Option.some.inj hr
            refine ⟨?_, by simp, hheader⟩
            show c.context.stream ++ [] = _
            rw [List.append_nil]
            split_ifs with hz
            · rfl
            · rw [List.take_of_length_le]
              have := hchunkLe hz
              omega
        · obtain ⟨htransfer, hreceived⟩ := hfull hge
          have hlen : (c.context.stream.take n).length = n := List.length_take_of_le hge
          rw [hlen]
          obtain ⟨hterm, hrest⟩ := ih c' (done + n) (by rw [hreceived, htotal, hsize]; omega) (by
            rw [htransfer]
            rcases Nat.eq_zero_or_pos c.transferBytes with hz | hz
            · exact .inl hz
            · have := hchunkLe (Nat.pos_iff_ne_zero.mp hz)
              have := hwants
              unfold Client.wants at this
              omega)
          constructor
          · intro hf
            rw [Option.isSome_map]
            refine hterm ?_
            rw [hstream, List.length_drop]
            omega
          · intro r hr
            obtain ⟨rest, hr', rfl⟩ := Option.map_eq_some_iff.mp hr
            obtain ⟨hdata, hcount, hkept⟩ := hrest rest hr'
            rw [htransfer, hstream] at hdata
            refine ⟨?_, ?_, hkept.trans hheader⟩
            · show c.context.stream.take n ++ rest.data = _
              rw [hdata]
              split_ifs with hz
              · exact List.take_append_drop _ _
              · have := hchunkLe hz
                rw [← List.take_add]
                congr 1
                omega
            · show rest.count = done + ((c.context.stream.take n ++ rest.data).length : ℤ)
              rw [hcount, List.length_append, hlen]
              omega
    · -- the transfer is complete
      rw [if_neg hwants]
      refine ⟨fun _ => rfl, fun r hr => ?_⟩
      obtain rfl := Option.some.inj hr
      have hne : c.transferBytes ≠ 0 := fun hz => hwants (.inl hz)
      have hle : ¬ done < c.transferBytes := fun hlt => hwants (.inr hlt)
      rw [if_neg hne, Nat.sub_eq_zero_of_le (Nat.not_lt.mp hle)]
      exact ⟨rfl, rfl, rfl⟩

/-! ## A transfer -/

/-- A header that `dada_nicdb` can receive. -/
structure Receivable (t : Text) (hdrSize transferSize : ℕ) : Prop where
  /-- It is a text of ASCII characters. -/
  ascii : ∀ c ∈ t, 0 < c.toNat ∧ c.toNat < 128
  /-- It is shorter than its size. -/
  short : t.length < hdrSize
  /-- It has its size. -/
  hdrSize_eq : asciiHeaderGetUnsigned t "HDR_SIZE".toList = some hdrSize
  /-- It has the size of the transfer. -/
  transferSize_eq : asciiHeaderGetUnsigned t transferSizeKey = some transferSize

variable {t : Text} {hdrSize transferSize : ℕ}

/-- The bytes of a header that is shorter than its size. -/
theorem bytes_header (hshort : t.length < hdrSize) :
    Payload.bytes hdrSize (.header t) = toBytes t ++ List.replicate (hdrSize - t.length) 0 := by
  refine List.take_of_length_le ?_
  rw [List.length_append, List.length_replicate, toBytes, List.length_map]
  omega

theorem length_bytes_header (hshort : t.length < hdrSize) :
    (Payload.bytes hdrSize (.header t)).length = hdrSize := by
  rw [bytes_header hshort, List.length_append, List.length_replicate, toBytes, List.length_map]
  omega

/-- The header is read from the beginning of the stream. -/
theorem Receivable.textOf_take (h : Receivable t hdrSize transferSize) (data : List UInt8) {n : ℕ}
    (hn : hdrSize ≤ n) : textOf ((Payload.bytes hdrSize (.header t) ++ data).take n) = t := by
  have hshort := h.short
  have hlen : (toBytes t).length = t.length := List.length_map _
  obtain ⟨k, hk⟩ : ∃ k, hdrSize - t.length = k + 1 := ⟨hdrSize - t.length - 1, by omega⟩
  obtain ⟨j, hj⟩ : ∃ j, n - t.length = j + 1 := ⟨n - t.length - 1, by omega⟩
  rw [bytes_header hshort, hk, List.append_assoc, List.take_append, hlen, hj,
    List.take_of_length_le (by omega), List.replicate_succ, List.cons_append, List.take_succ_cons]
  refine textOf_toBytes h.ascii fun b hb => ?_
  exact (Option.some.inj hb).symm

/-- What is opened when the whole header block can be looked at. -/
theorem sockOpenFunction_eq {c : Client Nicdb} (hlen : c.headerSize ≤ c.context.stream.length)
    (htext : textOf (c.context.stream.take c.headerSize) = t) (h : Receivable t hdrSize transferSize)
    (hfits : hdrSize ≤ c.headerSize) :
    Nicdb.sockOpenFunction c = (0, { c with
      header := t
      headerSize := hdrSize
      optimalBytes := 1024 * 1024
      transferBytes := transferSize }) := by
  unfold Nicdb.sockOpenFunction
  simp only [List.length_take_of_le hlen, Nat.lt_irrefl, if_false, htext, h.transferSize_eq, h.hdrSize_eq,
    gt_iff_lt, Nat.not_lt.mpr hfits]

/-- A transfer, once the header has been looked at. -/
theorem transfer_receives (harrive : ∀ k, (arrivals k).isSome) (h : Receivable t hdrSize transferSize)
    {c : Client Nicdb} (hquit : c.quit = false) (htransfer : c.headerTransfer = true)
    (htotal : c.context.totalReceived = 0) {data : List UInt8}
    (hstream : c.context.stream = Payload.bytes hdrSize (.header t) ++ data)
    (hlen : c.headerSize ≤ c.context.stream.length) (hfits : hdrSize ≤ c.headerSize) (blockSize fuel : ℕ) :
    (data.length + 1 < fuel → (dadaClientTransferWrite (nicdb arrivals) blockSize fuel c).isSome) ∧
      ∀ r, dadaClientTransferWrite (nicdb arrivals) blockSize fuel c = some r →
        r.count = (transferPart transferSize data).length ∧ r.passed = some ⟨t, transferPart transferSize data⟩ ∧
        r.client.context.acknowledged =
          some (asciiHeaderSet t transferSizeKey (decimal (transferPart transferSize data).length)) := by
  have hopen : (nicdb arrivals).openFunction c = _ :=
    sockOpenFunction_eq hlen (by rw [hstream]; exact h.textOf_take data hfits) h hfits
  set c₀ : Client Nicdb := { c with
    header := t, headerSize := hdrSize, optimalBytes := 1024 * 1024, transferBytes := transferSize } with hc₀
  -- the header is received
  obtain ⟨c₁, hcall, hrest, hheader, hsize, hoptimal, hfull, -⟩ :=
    sockRecvFunction_eq harrive c₀ .header hdrSize
  have hhdr : hdrSize ≤ c₀.context.stream.length := Nat.le_trans hfits hlen
  obtain ⟨htransferBytes, hreceived⟩ := hfull hhdr
  have hcount : (c₀.context.stream.take hdrSize).length = hdrSize := List.length_take_of_le hhdr
  have hdata : c₁.context.stream = data := by
    rw [hrest]
    show c.context.stream.drop hdrSize = data
    rw [hstream, List.drop_left' (length_bytes_header h.short)]
  have hheaderCall : (nicdb arrivals).ioFunction c₀ .header hdrSize = _ := hcall
  have hmib : ¬ c₁.optimalBytes = 0 := by
    rw [hoptimal]
    exact (by decide : 1024 * 1024 ≠ 0)
  -- then the data
  have htotal₁ : c₁.context.totalReceived = c₁.headerSize + 0 := by
    rw [hreceived, hsize]
    show c.context.totalReceived + hdrSize = hdrSize + 0
    rw [htotal, Nat.zero_add, Nat.add_zero]
  obtain ⟨hterm, hloop⟩ := writeLoop_receives harrive (Nat.pos_of_ne_zero hmib) fuel c₁ 0 htotal₁
    (.inr (Nat.zero_le _))
  rw [hdata] at hterm hloop
  have hrun : dadaClientTransferWrite (nicdb arrivals) blockSize fuel c =
      (writeLoop (nicdb arrivals) c₁.optimalBytes fuel c₁ 0).map fun result =>
        ⟨result.count, some ⟨c₁.header, result.data⟩,
          (Nicdb.sockCloseFunction result.client (asUnsigned result.count)).2⟩ := by
    have hopened : (nicdb arrivals).openFunction c = (0, c₀) := hopen
    have hroom : ¬ asUnsigned (hdrSize : ℤ) < hdrSize := by
      rw [asUnsigned_natCast]
      exact Nat.lt_irrefl _
    have hquit₀ : ¬ c₀.quit = true := by
      show ¬ c.quit = true
      rw [hquit]
      decide
    have htransfer₀ : c₀.headerTransfer = true := htransfer
    unfold dadaClientTransferWrite
    simp only [hopened, Int.lt_irrefl, if_false, if_neg hquit₀, if_pos htransfer₀,
      show c₀.headerSize = hdrSize from rfl, hheaderCall, hcount, if_neg hroom, if_neg hmib]
    rfl
  rw [hrun, Option.isSome_map]
  refine ⟨hterm, fun r hr => ?_⟩
  obtain ⟨result, hresult, rfl⟩ := Option.map_eq_some_iff.mp hr
  obtain ⟨hpassed, hbytes, hkept⟩ := hloop result hresult
  have hsizeT : c₁.transferBytes = transferSize := htransferBytes
  have htext : c₁.header = t := hheader
  rw [hsizeT, Nat.sub_zero] at hpassed
  have hpassed' : result.data = transferPart transferSize data := hpassed
  have hbytes' : result.count = ((transferPart transferSize data).length : ℤ) := by
    rw [hbytes, hpassed', Int.natCast_zero, Int.zero_add]
  refine ⟨hbytes', by rw [htext, hpassed'], ?_⟩
  show some (asciiHeaderSet result.client.header transferSizeKey (decimal (asUnsigned result.count))) = _
  rw [hkept, htext, hbytes', asUnsigned_natCast]

/-- **Receiving**: a stream of a header and data is passed to the ring as far as the header says, however
the bytes arrive; but it has to be as long as a header block. -/
theorem dadaNicdb_receives (h : Receivable t hdrSize transferSize) (harrive : ∀ k, (arrivals k).isSome)
    {headerBufsz : ℕ} (hfits : hdrSize ≤ headerBufsz) (blockSize : ℕ) (data : List UInt8) (fuel : ℕ) :
    (hdrSize + data.length < headerBufsz → dadaNicdb arrivals headerBufsz blockSize fuel
      (Payload.bytes hdrSize (.header t) ++ data) = none) ∧
    (headerBufsz ≤ hdrSize + data.length →
      (data.length + 1 < fuel → (dadaNicdb arrivals headerBufsz blockSize fuel
        (Payload.bytes hdrSize (.header t) ++ data)).isSome) ∧
      ∀ r, dadaNicdb arrivals headerBufsz blockSize fuel (Payload.bytes hdrSize (.header t) ++ data) =
        some r → r.count = 0 ∧ r.passed = some ⟨t, transferPart transferSize data⟩ ∧
          r.client.context.acknowledged =
            some (asciiHeaderSet t transferSizeKey (decimal (transferPart transferSize data).length))) := by
  have hlength : (Payload.bytes hdrSize (.header t) ++ data).length = hdrSize + data.length := by
    rw [List.length_append, length_bytes_header h.short]
  have hsizePos : 0 < hdrSize := Nat.lt_of_le_of_lt (Nat.zero_le _) h.short
  rw [dadaNicdb, hlength]
  refine ⟨fun hshort => if_pos ⟨by omega, hshort⟩, fun hlong => ?_⟩
  rw [if_neg (by omega), dadaClientWrite, Option.isSome_map]
  obtain ⟨hterm, htransfer⟩ := transfer_receives harrive h
    (c := { nicdbClient (Payload.bytes hdrSize (.header t) ++ data) with headerSize := headerBufsz, header := [] })
    rfl rfl rfl rfl (hlong.trans (Nat.le_of_eq hlength.symm)) hfits blockSize fuel
  refine ⟨hterm, fun r hr => ?_⟩
  obtain ⟨r, hr', rfl⟩ := Option.map_eq_some_iff.mp hr
  obtain ⟨hcount, hrest⟩ := htransfer r hr'
  refine ⟨?_, hrest⟩
  show (if r.count < 0 then (-1 : ℤ) else 0) = 0
  rw [if_neg (by omega)]

end Receiving

end Psrdada
