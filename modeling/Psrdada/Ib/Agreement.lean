import Psrdada.Ib.Transfer

/-! # What a transfer over InfiniBand does

The two programs are run side by side, one sub-block at a time, up to the end of the transfer; that the
order of their steps does not matter then gives the same for every run. -/

namespace Psrdada.Ib

open CString Connection

/-! ## What is written -/

/-- The first values of a stretch. -/
theorem slice_of_le {α : Type*} (mem : Memory α) (offset : ℕ) {a b : ℕ} (h : a ≤ b) :
    mem.slice offset a = (mem.slice offset b).take a := by
  obtain ⟨c, rfl⟩ := Nat.exists_eq_add_of_le h
  rw [Memory.slice_add, List.take_append_of_le_length (by simp), List.take_of_length_le (by simp)]

/-- Chunks that are written one behind the other make up the buffer. -/
theorem slice_chunks (mem : Memory UInt8) (chunkSize raddr : ℕ) (buffer : List UInt8) (n : ℕ)
    (h : n * chunkSize ≤ buffer.length) :
    (mem.copies ((List.range n).map fun i =>
        (raddr + i * chunkSize, (buffer.drop (i * chunkSize)).take chunkSize))).slice raddr
      (n * chunkSize) = buffer.take (n * chunkSize) := by
  induction n with
  | zero => simp [Memory.slice]
  | succ n ih =>
    rw [Nat.succ_mul] at h ⊢
    have hlast : ((buffer.drop (n * chunkSize)).take chunkSize).length = chunkSize := by
      rw [List.length_take, List.length_drop]
      omega
    have hself (m : Memory UInt8) : (m.copy (raddr + n * chunkSize)
        ((buffer.drop (n * chunkSize)).take chunkSize)).slice (raddr + n * chunkSize) chunkSize =
          (buffer.drop (n * chunkSize)).take chunkSize := by
      conv_lhs => rw [← hlast]
      rw [hlast]
      have := Memory.slice_copy_self m (raddr + n * chunkSize) ((buffer.drop (n * chunkSize)).take chunkSize)
      rwa [hlast] at this
    rw [List.range_succ, List.map_append, List.map_singleton, Memory.copies, List.foldl_append]
    show (((mem.copies _).copy (raddr + n * chunkSize)
      ((buffer.drop (n * chunkSize)).take chunkSize))).slice raddr (n * chunkSize + chunkSize) = _
    rw [Memory.slice_add, hself, Memory.slice_copy_of_disjoint _ _ (.inl le_rfl), ih (by omega),
      List.take_add]

section PostSends

variable {chunkSize bufsz bytes : ℕ} {buffer : List UInt8}

/-- The number of chunks covers the data and stays in the sub-block. -/
theorem chunks_bounds (hpos : 0 < chunkSize) (hdvd : chunkSize ∣ bufsz) (hle : bytes ≤ bufsz) :
    bytes ≤ (bytes / chunkSize + if bytes % chunkSize ≠ 0 then 1 else 0) * chunkSize ∧
      (bytes / chunkSize + if bytes % chunkSize ≠ 0 then 1 else 0) * chunkSize ≤ bufsz := by
  obtain ⟨n, rfl⟩ := hdvd
  have hdiv := Nat.div_add_mod bytes chunkSize
  have hmod := Nat.mod_lt bytes hpos
  by_cases h : bytes % chunkSize = 0
  · have hexact : bytes / chunkSize * chunkSize = bytes := by
      rw [Nat.mul_comm]
      omega
    rw [if_neg (by simpa using h), Nat.add_zero, hexact]
    exact ⟨le_rfl, hle⟩
  · rw [if_pos h, Nat.succ_mul]
    have hlt : bytes / chunkSize < n := by
      by_contra hge
      have : chunkSize * n ≤ chunkSize * (bytes / chunkSize) := Nat.mul_le_mul_left _ (by omega)
      omega
    have hsucc : chunkSize * (bytes / chunkSize + 1) ≤ chunkSize * n := Nat.mul_le_mul_left _ hlt
    rw [Nat.mul_succ] at hsucc
    rw [Nat.mul_comm (bytes / chunkSize)]
    exact ⟨by omega, hsucc⟩

/-- What has been written at an address is what was in the sub-block. -/
theorem slice_postSends (mem : Memory UInt8) (hpos : 0 < chunkSize) (hdvd : chunkSize ∣ bufsz)
    (hbuffer : buffer.length = bufsz) (hle : bytes ≤ bufsz) (raddr : ℕ) :
    (mem.copies (postSends chunkSize buffer bytes raddr)).slice raddr bytes = buffer.take bytes := by
  obtain ⟨hcover, hwithin⟩ := chunks_bounds hpos hdvd hle
  rw [slice_of_le _ _ hcover, postSends, slice_chunks _ _ _ _ _ (by rwa [hbuffer]), List.take_take,
    min_eq_left hcover]

/-- No chunk is written beyond the sub-block. -/
theorem postSends_within (hpos : 0 < chunkSize) (hdvd : chunkSize ∣ bufsz) (hle : bytes ≤ bufsz)
    {raddr : ℕ} {c : Chunk} (hc : c ∈ postSends chunkSize buffer bytes raddr) :
    raddr ≤ c.1 ∧ c.1 + c.2.length ≤ raddr + bufsz := by
  obtain ⟨-, hwithin⟩ := chunks_bounds hpos hdvd hle
  obtain ⟨i, hi, rfl⟩ := List.mem_map.mp hc
  rw [List.mem_range] at hi
  have hstep : (i + 1) * chunkSize ≤ bufsz := (Nat.mul_le_mul_right _ hi).trans hwithin
  rw [Nat.succ_mul] at hstep
  have hlen : ((buffer.drop (i * chunkSize)).take chunkSize).length ≤ chunkSize := List.length_take_le _ _
  exact ⟨Nat.le_add_right _ _, by simp only; omega⟩

end PostSends

namespace Setup

variable {x : Setup}

/-! ## One exchange -/

/-- The reading end, with nothing on its way. -/
def reading (prog : Program) (posted : List Buffer) : Endpoint Buffer Chunk Message Event (Option ℤ) :=
  ⟨prog, posted, [], [], [], []⟩

/-- The writing end, with nothing on its way. -/
def writing (prog : Program) (posted : List Buffer) (written : List Chunk) (events : List Event) :
    Endpoint Buffer Chunk Message Event (Option ℤ) :=
  ⟨prog, posted, [], written, [], events⟩

/-- Chunks that are sent arrive. -/
theorem leads_writeAll (chunks : List Chunk) (next prog : Program) (posted posted' : List Buffer)
    (written : List Chunk) (events : List Event) :
    Net.Leads ⟨reading (writeAll chunks next) posted, writing prog posted' written events⟩
      ⟨reading next posted, writing prog posted' (written ++ chunks) events⟩ := by
  induction chunks generalizing written with
  | nil =>
    rw [List.append_nil]
    exact .refl _
  | cons c chunks ih =>
    have hone : Net.Leads ⟨reading (writeAll (c :: chunks) next) posted, writing prog posted' written events⟩
        ⟨reading (writeAll chunks next) posted, writing prog posted' (written ++ [c]) events⟩ :=
      .of_schedule [.actLeft, .toRight] rfl
    refine hone.trans ?_
    have := ih (written ++ [c])
    rwa [List.append_assoc, List.singleton_append] at this

/-- A sub-block is sent and received. -/
theorem leads_block (b : SubBlock x.bufsz) (hb : b.bytes ≠ 0) (blockId : ℕ) (ending : Bool)
    (next : ℤ → Program) (next' : ℤ → Bool → List Chunk → Program) (written : List Chunk)
    (events : List Event) :
    Net.Leads ⟨reading (x.dbibSendBlock b next) [.syncFrom],
        writing (x.ibdbRecvBlock blockId ending next') [.syncFrom] written events⟩
      ⟨reading (next b.bytes) [.syncFrom],
        writing (next' b.bytes ending
            (written ++ postSends x.chunkSize b.contents b.bytes (x.bufVa blockId)))
          [.syncFrom] (written ++ postSends x.chunkSize b.contents b.bytes (x.bufVa blockId)) events⟩ := by
  -- the number of bytes is agreed on
  have hbytes : Net.Leads ⟨reading (x.dbibSendBlock b next) [.syncFrom],
        writing (x.ibdbRecvBlock blockId ending next') [.syncFrom] written events⟩
      ⟨reading (recvMessage 0 fun r _ =>
          r.elim (next (-1)) fun m =>
            writeAll (postSends x.chunkSize b.contents b.bytes m.1) <|
              .post .syncFrom <| sendMessage bytesXferredKey b.bytes (next b.bytes)) [.syncFrom],
        writing (if b.bytes = 0 then next' 0 true written
          else
            .post .syncFrom <| sendMessage (x.bufVa blockId) (x.bufRkey blockId) <|
              recvMessage bytesXferredKey fun r written =>
                r.elim (next' (-1) ending written) fun m => .post .syncFrom (next' m.2 ending written))
          [] written events⟩ :=
    .of_schedule [.actRight, .toLeft, .actLeft, .actLeft, .actLeft, .toRight, .actRight] rfl
  rw [if_neg hb] at hbytes
  -- the address goes back, and the chunks are written
  refine hbytes.trans (Net.Leads.trans (.of_schedule [.actRight, .actRight, .toLeft, .actLeft] rfl)
    ((leads_writeAll _ _ _ _ _ _ _).trans
      (.of_schedule [.actLeft, .actLeft, .toRight, .actRight, .actRight] rfl)))

/-- The header is sent and received. -/
theorem leads_header (fuel : ℕ) :
    Net.Leads (x.start fuel)
      ⟨reading (x.dbibLoop (fun bytes => x.dbibClose bytes (result bytes)) (x.full ++ [x.last]) 0)
          [.syncFrom],
        writing (x.ibdbLoop (transferSize x.header)
            (fun bytes ending => ibdbClose (transferSize x.header) bytes ending (result bytes)) fuel 0 0
            false) [.syncFrom] [] [.header x.header]⟩ := by
  have hsize : ¬ asUnsigned x.headerSize < x.headerSize := by
    rw [asUnsigned, if_neg (by omega), Int.toNat_natCast]
    exact Nat.lt_irrefl _
  have hsend : x.dbibTransfer = recvMessage readyKey fun r _ =>
      r.elim (if asUnsigned (-1) < x.headerSize then .done (some (-1))
          else x.dbibLoop (fun bytes => x.dbibClose bytes (result bytes)) (x.full ++ [x.last]) 0)
        fun _ => .post .syncFrom (.send (.header x.header)
          (x.dbibLoop (fun bytes => x.dbibClose bytes (result bytes)) (x.full ++ [x.last]) 0)) := by
    rw [dbibTransfer, dbibSend, if_neg (by simp)]
    refine congrArg (recvMessage readyKey) ?_
    funext r written
    cases r with
    | none => rfl
    | some m =>
      exact congrArg (fun p : Program => Peer.post Buffer.syncFrom (.send (Message.header x.header) p))
        (if_neg hsize)
  have hrecv (text : Text) : (x.ibdbRecv x.headerSize fun r header transferBytes =>
      if asUnsigned r < x.headerSize then .done (some (-1))
      else
        .emit (.header header) <|
          x.ibdbLoop transferBytes
            (fun bytes ending => ibdbClose transferBytes bytes ending (result bytes)) fuel 0 0 false) =
      sendMessage readyKey 0 (.wait .headerMb fun m _ => Message.casesOn (motive := fun _ => Program) m
        (fun text => .post .syncFrom (.emit (.header text) <| x.ibdbLoop (transferSize text)
          (fun bytes ending => ibdbClose (transferSize text) bytes ending (result bytes)) fuel 0 0 false))
        fun _ _ => .post .syncFrom (.emit (.header []) <| x.ibdbLoop 0
          (fun bytes ending => ibdbClose 0 bytes ending (result bytes)) fuel 0 0 false)) := by
    rw [ibdbRecv, if_neg (by simp)]
    refine congrArg (sendMessage readyKey 0) (congrArg _ ?_)
    funext m written
    cases m with
    | sync key value => exact congrArg (Peer.post Buffer.syncFrom) (if_neg hsize)
    | header text => exact congrArg (Peer.post Buffer.syncFrom) (if_neg hsize)
  rw [start, hsend, ibdbTransfer, hrecv []]
  exact .of_schedule [.actRight, .actRight, .toLeft, .actLeft, .actLeft, .actLeft, .toRight, .actRight,
    .actRight, .actRight] rfl

/-! ## The end of a transfer -/

theorem dbibOpen_eq (x : Setup) : x.dbibOpen = transferSize x.header := by
  unfold dbibOpen
  obtain ⟨n, hn⟩ := Option.isSome_iff_exists.mp x.obsOffset_set
  rw [hn]

theorem result_ok (bytes : ℕ) : result bytes 0 = .done (some (bytes : ℤ)) := rfl

/-- The reading end sends end-of-data, unless exactly `TRANSFER_SIZE` bytes have been sent. -/
theorem dbibClose_eod (bytes : ℕ) (h : transferSize x.header = 0 ∨ bytes ≠ transferSize x.header) :
    x.dbibClose bytes (result bytes) = recvMessage readyKey fun r _ =>
      r.elim (result bytes (-1)) fun _ => sendMessage bytesToXferKey 0 (result bytes 0) := by
  rw [dbibClose, dbibOpen_eq, if_pos (by tauto)]
  refine congrArg (recvMessage readyKey) ?_
  funext r written
  cases r with
  | none => rfl
  | some m => rfl

/-- How a transfer ends: the reading end is done, the ring has got the sub-blocks and perhaps an empty
one, and the writing end is done exactly when the ends agree. -/
structure Ends (x : Setup) (written : List Chunk) (events : List Event) (bytes : ℕ) (agree : Prop)
    (t : Net Buffer Chunk Message Event (Option ℤ)) : Prop where
  final : Final Net.step t
  left : t.left.prog = .done (some (bytes : ℤ))
  right : (∃ r, t.right.prog = .done r) ↔ agree
  bytes : ∀ r, t.right.prog = .done r → r = some (bytes : ℤ)
  events : t.right.events = events ∨ t.right.events = events ++ [.block []]
  written : t.right.written = written

/-- Nothing happens when both programs have ended and nothing is under way. -/
theorem final_done (r r' : Option ℤ) (posted posted' : List Buffer) (written : List Chunk)
    (events : List Event) :
    Final Net.step (⟨reading (.done r) posted, writing (.done r') posted' written events⟩ :
      Net Buffer Chunk Message Event (Option ℤ)) := by
  intro a
  cases a <;> rfl

/-- Both ends are closed without end-of-data having been received: they agree, unless exactly
`TRANSFER_SIZE` bytes have been sent. -/
theorem ends_close (x : Setup) (bytes : ℕ) (written : List Chunk) (events : List Event) :
    ∃ t, Net.Leads ⟨reading (x.dbibClose bytes (result bytes)) [.syncFrom],
        writing (ibdbClose (transferSize x.header) bytes false (result bytes)) [.syncFrom] written
          events⟩ t ∧
      Ends x written events bytes (transferSize x.header = 0 ∨ bytes ≠ transferSize x.header) t := by
  by_cases hagree : transferSize x.header = 0 ∨ bytes ≠ transferSize x.header
  · -- end-of-data is sent
    rw [dbibClose_eod bytes hagree]
    refine ⟨⟨reading (.done (some (bytes : ℤ))) [], writing (.done (some (bytes : ℤ))) [] written events⟩,
      .of_schedule [.actRight, .toLeft, .actLeft, .actLeft, .toRight, .actRight] rfl, ?_⟩
    exact ⟨final_done _ _ _ _ _ _, rfl, ⟨fun _ => hagree, fun _ => ⟨_, rfl⟩⟩,
      fun r hr => by cases hr; rfl, .inl rfl, rfl⟩
  · -- the reading end has done what it was to do, and the writing end waits for more
    have hclose : x.dbibClose bytes (result bytes) = .done (some (bytes : ℤ)) := by
      rw [dbibClose, dbibOpen_eq, if_neg (by tauto), result_ok]
    rw [hclose]
    refine ⟨_, .of_schedule [.actRight, .toLeft] rfl, ?_, rfl, ⟨?_, fun h => absurd h hagree⟩, ?_, .inl rfl,
      rfl⟩
    · intro a
      cases a <;> rfl
    · rintro ⟨r, hr⟩
      cases hr
    · intro r hr
      cases hr

/-- End-of-data is sent in place of a sub-block. -/
theorem leads_eod (blockId : ℕ) (ending : Bool) (bytes : ℕ)
    (hend : transferSize x.header = 0 ∨ bytes ≠ transferSize x.header)
    (next' : ℤ → Bool → List Chunk → Program) (written : List Chunk) (events : List Event) :
    Net.Leads ⟨reading (x.dbibClose bytes (result bytes)) [.syncFrom],
        writing (x.ibdbRecvBlock blockId ending next') [.syncFrom] written events⟩
      ⟨reading (.done (some (bytes : ℤ))) [], writing (next' 0 true written) [] written events⟩ := by
  rw [dbibClose_eod bytes hend]
  exact .of_schedule [.actRight, .toLeft, .actLeft, .actLeft, .toRight, .actRight] rfl

/-- End-of-data comes where the writing end looks for a sub-block: the ends agree if `TRANSFER_SIZE` is
not set. -/
theorem ends_eod (x : Setup) (fuel opened bytes : ℕ) (written : List Chunk) (events : List Event)
    (h : transferSize x.header = 0 ∨ bytes < transferSize x.header) :
    ∃ t, Net.Leads ⟨reading (x.dbibClose bytes (result bytes)) [.syncFrom],
        writing (x.ibdbLoop (transferSize x.header)
          (fun bytes ending => ibdbClose (transferSize x.header) bytes ending (result bytes))
          (fuel + 1) opened bytes false) [.syncFrom] written events⟩ t ∧
      Ends x written events bytes (transferSize x.header = 0) t := by
  have hend : transferSize x.header = 0 ∨ bytes ≠ transferSize x.header := h.imp_right fun h => by omega
  have hempty (i : ℕ) (w : List Chunk) : x.blockData i (0 : ℤ).toNat w = [] := by
    simp [blockData, Memory.slice]
  have hloop : Net.Leads ⟨reading (x.dbibClose bytes (result bytes)) [.syncFrom],
        writing (x.ibdbLoop (transferSize x.header)
          (fun bytes ending => ibdbClose (transferSize x.header) bytes ending (result bytes))
          (fuel + 1) opened bytes false) [.syncFrom] written events⟩
      ⟨reading (.done (some (bytes : ℤ))) [],
        writing (ibdbClose (transferSize x.header) bytes true (result bytes)) [] written
          (events ++ [.block []])⟩ := by
    rw [ibdbLoop, if_pos h]
    refine (leads_eod _ _ _ hend _ _ _).trans ?_
    rw [if_neg (by omega), hempty, Int.toNat_zero, if_pos x.bufsz_pos, Nat.add_zero]
    exact .of_schedule [.actRight] rfl
  by_cases hzero : transferSize x.header = 0
  · have hdone : ibdbClose (transferSize x.header) bytes true (result bytes) = .done (some (bytes : ℤ)) := by
      rw [ibdbClose, if_neg (by simp [hzero]), result_ok]
    rw [hdone] at hloop
    exact ⟨_, hloop, final_done _ _ _ _ _ _, rfl, ⟨fun _ => hzero, fun _ => ⟨_, rfl⟩⟩,
      fun r hr => by cases hr; rfl, .inr rfl, rfl⟩
  · -- the writing end asks for end-of-data again
    have hagain : ibdbClose (transferSize x.header) bytes true (result bytes) =
        sendMessage readyKey 0 (recvMessage bytesToXferKey fun r _ =>
          r.elim (result bytes (-1)) fun _ => result bytes 0) := by
      rw [ibdbClose, if_pos (.inr ⟨hzero, by omega⟩)]
      refine congrArg (fun f => sendMessage readyKey 0 (recvMessage bytesToXferKey f)) ?_
      funext r written
      cases r with
      | none => rfl
      | some m => rfl
    rw [hagain] at hloop
    refine ⟨_, hloop.trans (.of_schedule [.actRight] rfl), ?_, rfl, ⟨?_, fun h => absurd h hzero⟩, ?_,
      .inr rfl, rfl⟩
    · intro a
      cases a <;> rfl
    · rintro ⟨r, hr⟩
      cases hr
    · intro r hr
      cases hr

/-! ## The loops -/

/-- Whether a chunk stays in a sub-block of the receiving ring. -/
def Inside (x : Setup) (c : Chunk) : Prop :=
  ∃ k, x.bufVa (k % x.nbufs) ≤ c.1 ∧ c.1 + c.2.length ≤ x.bufVa (k % x.nbufs) + x.bufsz

/-- What follows the loop of the writing end. -/
def afterLoop (x : Setup) (bytes : ℕ) (ending : Bool) : Program :=
  ibdbClose (transferSize x.header) bytes ending (result bytes)

/-- One round of both loops. -/
theorem leads_round (b : SubBlock x.bufsz) (blocks : List (SubBlock x.bufsz)) (hb : b.bytes ≠ 0)
    (fuel opened bytes : ℕ) (h : transferSize x.header = 0 ∨ bytes < transferSize x.header)
    (next : ℕ → Program) (written : List Chunk) (events : List Event) :
    Net.Leads ⟨reading (x.dbibLoop next (b :: blocks) bytes) [.syncFrom],
        writing (x.ibdbLoop (transferSize x.header) x.afterLoop (fuel + 1) opened bytes false)
          [.syncFrom] written events⟩
      ⟨reading (x.dbibLoop next blocks (bytes + b.bytes)) [.syncFrom],
        writing (if b.bytes < x.bufsz then x.afterLoop (bytes + b.bytes) false
          else x.ibdbLoop (transferSize x.header) x.afterLoop fuel (opened + 1) (bytes + b.bytes) false)
          [.syncFrom]
          (written ++ postSends x.chunkSize b.contents b.bytes
            (x.bufVa ((x.firstBlock + opened) % x.nbufs)))
          (events ++ [.block b.data])⟩ := by
  have hwants : x.dbibOpen = 0 ∨ bytes < x.dbibOpen := by rwa [dbibOpen_eq]
  rw [dbibLoop, if_pos hwants, if_pos hb, ibdbLoop, if_pos h]
  refine (leads_block b hb _ _ _ _ _ _).trans ?_
  have hdata : x.blockData ((x.firstBlock + opened) % x.nbufs) b.bytes
      (written ++ postSends x.chunkSize b.contents b.bytes
        (x.bufVa ((x.firstBlock + opened) % x.nbufs))) = b.data := by
    rw [blockData, Memory.copies, List.foldl_append]
    exact slice_postSends _ x.chunkSize_pos x.chunkSize_dvd b.length_contents b.bytes_le _
  rw [if_neg (by omega), if_neg (by omega), Int.toNat_natCast, hdata]
  exact .of_schedule [.actRight] rfl

/-- From a state in which so much has been received the transfer ends with these sub-blocks received as
well, written inside the sub-blocks of the ring. -/
def Comes (x : Setup) (n : Net Buffer Chunk Message Event (Option ℤ)) (written : List Chunk)
    (events : List Event) (bytes : ℕ) (blocks : List (SubBlock x.bufsz)) : Prop :=
  ∃ t chunks, Net.Leads n t ∧ (∀ c ∈ chunks, x.Inside c) ∧
    Ends x (written ++ chunks) (events ++ blocks.map fun b => .block b.data)
      (bytes + (blocks.map SubBlock.bytes).sum)
      (x.EndsAgree (bytes + (blocks.map SubBlock.bytes).sum)) t

/-- The transfer ends at once. -/
theorem Comes.of_ends {n : Net Buffer Chunk Message Event (Option ℤ)} {written : List Chunk}
    {events : List Event} {bytes : ℕ} {agree : Prop}
    (h : ∃ t, Net.Leads n t ∧ Ends x written events bytes agree t) (hagree : agree ↔ x.EndsAgree bytes) :
    Comes x n written events bytes [] := by
  obtain ⟨t, ht, hends⟩ := h
  refine ⟨t, [], ht, by simp, ?_⟩
  rw [List.map_nil, List.map_nil, List.sum_nil, List.append_nil, List.append_nil, Nat.add_zero, ← hagree]
  exact hends

/-- One sub-block more. -/
theorem Comes.cons {n n' : Net Buffer Chunk Message Event (Option ℤ)} {written chunks : List Chunk}
    {events : List Event} {bytes : ℕ} {b : SubBlock x.bufsz} {blocks : List (SubBlock x.bufsz)}
    (h : Net.Leads n n') (hinside : ∀ c ∈ chunks, x.Inside c)
    (h' : Comes x n' (written ++ chunks) (events ++ [.block b.data]) (bytes + b.bytes) blocks) :
    Comes x n written events bytes (b :: blocks) := by
  obtain ⟨t, chunks', ht, hinside', hends⟩ := h'
  refine ⟨t, chunks ++ chunks', h.trans ht, ?_, ?_⟩
  · intro c hc
    exact (List.mem_append.mp hc).elim (hinside c) (hinside' c)
  · rw [List.map_cons, List.map_cons, List.sum_cons, ← Nat.add_assoc, ← List.append_assoc]
    rwa [List.append_assoc events, List.singleton_append] at hends

/-- The state of the two loops between two sub-blocks. -/
def between (x : Setup) (blocks : List (SubBlock x.bufsz)) (fuel opened bytes : ℕ)
    (written : List Chunk) (events : List Event) : Net Buffer Chunk Message Event (Option ℤ) :=
  ⟨reading (x.dbibLoop (fun bytes => x.dbibClose bytes (result bytes)) blocks bytes) [.syncFrom],
    writing (x.ibdbLoop (transferSize x.header) x.afterLoop fuel opened bytes false) [.syncFrom]
      written events⟩

/-- `TRANSFER_SIZE` bytes have been sent, so both loops end. -/
theorem comes_complete (blocks : List (SubBlock x.bufsz)) (fuel opened bytes : ℕ)
    (h : ¬ (transferSize x.header = 0 ∨ bytes < transferSize x.header)) (written : List Chunk)
    (events : List Event) :
    Comes x (x.between blocks (fuel + 1) opened bytes written events) written events bytes
      (x.sentOf blocks bytes) := by
  have hread : x.dbibLoop (fun bytes => x.dbibClose bytes (result bytes)) blocks bytes =
      x.dbibClose bytes (result bytes) := by
    cases blocks with
    | nil => rfl
    | cons b blocks => rw [dbibLoop, if_neg (by rwa [dbibOpen_eq])]
  have hsent : x.sentOf blocks bytes = [] := by
    cases blocks with
    | nil => rfl
    | cons b blocks => rw [sentOf, if_neg h]
  rw [between, hread, hsent, ibdbLoop, if_neg h]
  apply Comes.of_ends (ends_close x bytes written events)
  rw [EndsAgree]
  omega

/-- There is nothing left to read. -/
theorem comes_eod (fuel opened bytes : ℕ) (hbytes : bytes % x.bufsz = 0) (written : List Chunk)
    (events : List Event) :
    Comes x (x.between [] (fuel + 1) opened bytes written events) written events bytes [] := by
  by_cases h : transferSize x.header = 0 ∨ bytes < transferSize x.header
  · apply Comes.of_ends (ends_eod x fuel opened bytes written events h)
    rw [EndsAgree]
    omega
  · exact comes_complete [] fuel opened bytes h written events

/-- The last sub-block is left. -/
theorem comes_last (last : SubBlock x.bufsz) (fuel opened bytes : ℕ) (hbytes : bytes % x.bufsz = 0)
    (written : List Chunk) (events : List Event) :
    Comes x (x.between [last] (fuel + 2) opened bytes written events) written events bytes
      (x.sentOf [last] bytes) := by
  by_cases h : transferSize x.header = 0 ∨ bytes < transferSize x.header
  case neg => exact comes_complete [last] (fuel + 1) opened bytes h written events
  case pos =>
    have hwants : x.dbibOpen = 0 ∨ bytes < x.dbibOpen := by rwa [dbibOpen_eq]
    rw [sentOf, if_pos h, sentOf]
    by_cases hlast : last.bytes = 0
    · -- an empty sub-block is not sent
      have hread : x.dbibLoop (fun bytes => x.dbibClose bytes (result bytes)) [last] bytes =
          x.dbibClose bytes (result bytes) := by
        rw [dbibLoop, if_pos hwants, if_neg (by simpa using hlast), dbibLoop]
      rw [if_neg (by simpa using hlast), between, hread]
      exact comes_eod (fuel + 1) opened bytes hbytes written events
    · have hround := leads_round last [] hlast (fuel + 1) opened bytes h
        (fun bytes => x.dbibClose bytes (result bytes)) written events
      have hinside : ∀ c ∈ postSends x.chunkSize last.contents last.bytes
          (x.bufVa ((x.firstBlock + opened) % x.nbufs)), x.Inside c := fun c hc =>
        ⟨x.firstBlock + opened, postSends_within x.chunkSize_pos x.chunkSize_dvd last.bytes_le hc⟩
      rw [if_pos hlast]
      refine Comes.cons hround hinside ?_
      rcases Nat.lt_or_ge last.bytes x.bufsz with hshort | hwhole
      · -- the writing end takes a short sub-block for the last
        have hmod : (bytes + last.bytes) % x.bufsz = last.bytes := by
          rw [Nat.add_mod, hbytes, Nat.zero_add, Nat.mod_mod, Nat.mod_eq_of_lt hshort]
        rw [if_pos hshort]
        apply Comes.of_ends (ends_close x _ _ _)
        rw [EndsAgree]
        omega
      · have hfull : last.bytes = x.bufsz := Nat.le_antisymm last.bytes_le hwhole
        rw [if_neg (by omega)]
        apply comes_eod
        rw [hfull, Nat.add_mod_right, hbytes]

/-- The two loops, from a place between two sub-blocks on. -/
theorem comes_loop (full : List (SubBlock x.bufsz)) (hfull : ∀ b ∈ full, b.bytes = x.bufsz)
    (last : SubBlock x.bufsz) (fuel opened bytes : ℕ) (hbytes : bytes % x.bufsz = 0)
    (written : List Chunk) (events : List Event) :
    Comes x (x.between (full ++ [last]) (full.length + fuel + 2) opened bytes written events) written
      events bytes (x.sentOf (full ++ [last]) bytes) := by
  induction full generalizing opened bytes written events with
  | nil =>
    rw [List.length_nil, Nat.zero_add]
    exact comes_last last fuel opened bytes hbytes written events
  | cons b full ih =>
    rw [List.forall_mem_cons] at hfull
    have hfuel : (b :: full).length + fuel + 2 = (full.length + fuel + 2) + 1 := by
      rw [List.length_cons]
      omega
    rw [hfuel]
    by_cases h : transferSize x.header = 0 ∨ bytes < transferSize x.header
    case neg => exact comes_complete _ _ opened bytes h written events
    case pos =>
      have hpos := x.bufsz_pos
      have hb : b.bytes ≠ 0 := by omega
      have hround := leads_round b (full ++ [last]) hb (full.length + fuel + 2) opened bytes h
        (fun bytes => x.dbibClose bytes (result bytes)) written events
      have hinside : ∀ c ∈ postSends x.chunkSize b.contents b.bytes
          (x.bufVa ((x.firstBlock + opened) % x.nbufs)), x.Inside c := fun c hc =>
        ⟨x.firstBlock + opened, postSends_within x.chunkSize_pos x.chunkSize_dvd b.bytes_le hc⟩
      have hmod : (bytes + b.bytes) % x.bufsz = 0 := by rw [hfull.1, Nat.add_mod_right, hbytes]
      rw [List.cons_append, sentOf, if_pos h, if_pos hb]
      refine Comes.cons hround hinside ?_
      rw [if_neg (by omega)]
      exact ih hfull.2 (opened + 1) _ hmod _ _

/-! ## One receive at a time -/

section Paced

variable {n : ℕ}

theorem paced_recvMessage {key : ℕ} {next : Option (ℕ × ℕ) → List Chunk → Program}
    (h : ∀ r written, (next r written).Paced 0) : (recvMessage key next).Paced n := by
  intro m written
  cases m with
  | header text => exact h none written
  | sync k value =>
    show Peer.Paced 0 (if 0 < key ∧ k ≠ key then next none written else next (some (k, value)) written)
    split
    · exact h none written
    · exact h _ written

theorem paced_sendMessage {key value : ℕ} {next : Program} (h : next.Paced n) :
    (sendMessage key value next).Paced n := h

theorem paced_writeAll (chunks : List Chunk) {next : Program} (h : next.Paced n) :
    (writeAll chunks next).Paced n := by
  induction chunks with
  | nil => exact h
  | cons c chunks ih => exact ih

theorem paced_result (bytes : ℕ) (r : ℤ) : (result bytes r).Paced n := by
  unfold result
  split
  · trivial
  · trivial

theorem paced_dbibClose (bytes : ℕ) : (x.dbibClose bytes (result bytes)).Paced n := by
  unfold dbibClose
  split
  · apply paced_recvMessage
    intro r written
    cases r with
    | none => exact paced_result bytes _
    | some p => exact paced_result bytes _
  · exact paced_result bytes _

theorem paced_dbibLoop (blocks : List (SubBlock x.bufsz)) (bytes : ℕ) :
    (x.dbibLoop (fun bytes => x.dbibClose bytes (result bytes)) blocks bytes).Paced n := by
  induction blocks generalizing bytes n with
  | nil => exact paced_dbibClose bytes
  | cons b blocks ih =>
    rw [dbibLoop]
    split
    · split
      · apply paced_recvMessage
        intro r written
        -- a call that fails leaves no receive outstanding, one that succeeds the next READY
        have hfail : Peer.Paced 0 (if (-1 : ℤ) < 0 then x.dbibClose bytes (result bytes)
            else x.dbibLoop (fun bytes => x.dbibClose bytes (result bytes)) blocks
              (bytes + (-1 : ℤ).toNat)) := by
          rw [if_pos (by omega)]
          exact paced_dbibClose bytes
        rcases r with - | ⟨_, value⟩
        · exact hfail
        · show Peer.Paced 0 (if value ≠ 0 then _ else _)
          split
          · exact hfail
          · refine ⟨rfl, ?_⟩
            apply paced_sendMessage
            apply paced_recvMessage
            intro r written
            rcases r with - | ⟨remoteBufVa, _⟩
            · exact hfail
            · apply paced_writeAll
              refine ⟨rfl, ?_⟩
              apply paced_sendMessage
              dsimp only
              rw [if_neg (by omega)]
              exact ih _
      · exact ih bytes
    · exact paced_dbibClose bytes

theorem paced_dbibTransfer (x : Setup) : x.dbibTransfer.Paced n := by
  rw [dbibTransfer, dbibSend, if_neg (by simp)]
  apply paced_recvMessage
  intro r written
  cases r with
  | none =>
    show Peer.Paced 0 (if asUnsigned (-1) < x.headerSize then _ else _)
    split
    · trivial
    · exact paced_dbibLoop _ 0
  | some p =>
    refine ⟨rfl, ?_⟩
    show Peer.Paced 1 (if asUnsigned (x.headerSize : ℤ) < x.headerSize then _ else _)
    split
    · trivial
    · exact paced_dbibLoop _ 0

theorem paced_ibdbClose (transferBytes bytes : ℕ) (ending : Bool) :
    (ibdbClose transferBytes bytes ending (result bytes)).Paced n := by
  unfold ibdbClose
  split
  · apply paced_sendMessage
    apply paced_recvMessage
    intro r written
    cases r with
    | none => exact paced_result bytes _
    | some p => exact paced_result bytes _
  · exact paced_result bytes _

theorem paced_ibdbLoop (transferBytes fuel opened bytes : ℕ) (ending : Bool) :
    (x.ibdbLoop transferBytes (fun bytes ending => ibdbClose transferBytes bytes ending (result bytes))
      fuel opened bytes ending).Paced n := by
  induction fuel generalizing opened bytes ending n with
  | zero => trivial
  | succ fuel ih =>
    rw [ibdbLoop]
    split
    · -- whatever the call returns, the loop goes on or ends
      have hafter (n : ℕ) (r : ℤ) (ending : Bool) (written : List Chunk) : Peer.Paced n
          (if r < 0 then ibdbClose transferBytes bytes ending (result bytes)
          else
            .emit (.block (x.blockData ((x.firstBlock + opened) % x.nbufs) r.toNat written)) <|
              if r.toNat < x.bufsz then
                ibdbClose transferBytes (bytes + r.toNat) ending (result (bytes + r.toNat))
              else x.ibdbLoop transferBytes
                (fun bytes ending => ibdbClose transferBytes bytes ending (result bytes)) fuel (opened + 1)
                (bytes + r.toNat) ending) := by
        split
        · exact paced_ibdbClose _ _ _
        · show Peer.Paced n (if r.toNat < x.bufsz then _ else _)
          split
          · exact paced_ibdbClose _ _ _
          · exact ih _ _ _
      apply paced_sendMessage
      apply paced_recvMessage
      intro r written
      rcases r with - | ⟨_, bytesToBeReceived⟩
      · exact hafter 0 (-1) ending written
      · show Peer.Paced 0 (if bytesToBeReceived = 0 then _ else _)
        split
        · exact hafter 0 0 true written
        · refine ⟨rfl, ?_⟩
          apply paced_sendMessage
          apply paced_recvMessage
          intro r written
          rcases r with - | ⟨_, bytesReceived⟩
          · exact hafter 0 (-1) ending written
          · exact ⟨rfl, hafter 1 bytesReceived ending written⟩
    · exact paced_ibdbClose _ _ _

theorem paced_ibdbTransfer (x : Setup) (fuel : ℕ) : (x.ibdbTransfer fuel).Paced 0 := by
  have hloop (n : ℕ) (r : ℤ) (header : Text) (transferBytes : ℕ) : Peer.Paced n
      (if asUnsigned r < x.headerSize then .done (some (-1))
      else
        .emit (.header header) <|
          x.ibdbLoop transferBytes
            (fun bytes ending => ibdbClose transferBytes bytes ending (result bytes)) fuel 0 0 false) := by
    split
    · trivial
    · exact paced_ibdbLoop _ _ _ _ _
  refine ⟨rfl, ?_⟩
  rw [ibdbRecv, if_neg (by simp)]
  show ∀ m written, Peer.Paced 0 _
  intro m written
  cases m with
  | header text => exact ⟨rfl, hloop 1 _ _ _⟩
  | sync k value => exact ⟨rfl, hloop 1 _ _ _⟩

end Paced

/-! ## Every run -/

/-- What holds in every state of every run: neither end has failed, the ring has got a part of what it is
to get, nothing has been written outside of its sub-blocks, and no receive buffer can be overwritten before
it has been read. -/
structure Sound (x : Setup) (s : Net Buffer Chunk Message Event (Option ℤ)) : Prop where
  reading : ∀ r, s.left.prog = .done r → r = some (x.total : ℤ)
  writing : ∀ r, s.right.prog = .done r → r = some (x.total : ℤ)
  events : s.right.events <+: x.received ++ [.block []]
  inside : ∀ c ∈ s.right.written, x.Inside c
  receives : s.left.outstanding ≤ 1 ∧ s.right.outstanding ≤ 1

/-- What holds where nothing can happen any more: the reading end has sent the transfer, the ring has got
it, and the writing end has noticed if both agree on how it ends; it waits for a message that will not come
if they do not. -/
structure Outcome (x : Setup) (t : Net Buffer Chunk Message Event (Option ℤ)) : Prop where
  final : Final Net.step t
  reading : t.left.prog = .done (some (x.total : ℤ))
  events : t.right.events = x.received ∨ t.right.events = x.received ++ [.block []]
  writing : (∃ r, t.right.prog = .done r) ↔ x.EndsAgree x.total

/-- There is a run to an outcome. -/
theorem leads_outcome (x : Setup) (fuel : ℕ) : ∃ t, Net.Leads (x.start (x.full.length + fuel + 2)) t ∧
    Outcome x t ∧ (∀ c ∈ t.right.written, x.Inside c) ∧
      ∀ r, t.right.prog = .done r → r = some (x.total : ℤ) := by
  obtain ⟨t, chunks, ht, hinside, hends⟩ := comes_loop (x := x) x.full x.bytes_full x.last fuel 0 0
    (Nat.zero_mod _) [] [.header x.header]
  rw [Nat.zero_add] at hends
  refine ⟨t, (leads_header _).trans ht, ⟨hends.final, hends.left, ?_, hends.right⟩, ?_, hends.bytes⟩
  · exact hends.events
  · rw [hends.written, List.nil_append]
    exact hinside

/-- Without `TRANSFER_SIZE` all data of the ring are sent. -/
theorem sent_all (x : Setup) (h : transferSize x.header = 0) :
    (x.sent.map SubBlock.data).flatten = ((x.full ++ [x.last]).map SubBlock.data).flatten := by
  have hgen (blocks : List (SubBlock x.bufsz)) (bytes : ℕ) :
      ((x.sentOf blocks bytes).map SubBlock.data).flatten = (blocks.map SubBlock.data).flatten := by
    induction blocks generalizing bytes with
    | nil => rfl
    | cons b blocks ih =>
      rw [sentOf, if_pos (.inl h)]
      split
      · rw [List.map_cons, List.map_cons, List.flatten_cons, List.flatten_cons, ih]
      · rename_i hb
        have hnil : b.data = [] := by
          rw [SubBlock.data, not_not.mp hb, List.take_zero]
        rw [ih, List.map_cons, List.flatten_cons, hnil, List.nil_append]
  exact hgen _ _

end Setup

/-- A header with a transfer size. -/
def sixBytesHeader : Text := "OBS_OFFSET 0\nTRANSFER_SIZE 6\n".toList

theorem obsOffset_sixBytesHeader : (asciiHeaderGetUnsigned sixBytesHeader obsOffsetKey).isSome := by
  decide +kernel

theorem sixBytes_bufsz_pos : 0 < 4 := by decide

/-- One full sub-block and a short one, between rings with sub-blocks of four bytes. -/
def sixBytes : Setup where
  bufsz := 4
  bufsz_pos := sixBytes_bufsz_pos
  chunkSize := 2
  chunkSize_pos := Nat.zero_lt_two
  chunkSize_dvd := ⟨2, rfl⟩
  headerSize := 64
  header := sixBytesHeader
  obsOffset_set := obsOffset_sixBytesHeader
  full := [⟨[1, 2, 3, 4], rfl, 4, le_rfl⟩]
  bytes_full := by simp
  last := ⟨[5, 6, 0, 0], rfl, 2, by decide⟩
  nbufs := 2
  bufVa := fun i => 100 + 4 * i
  bufRkey := fun _ => 7
  memory := fun _ => 0
  firstBlock := 1

end Psrdada.Ib
