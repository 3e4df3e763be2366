import Psrdada.Dbcopydb.Transfers

/-! # Copying whole sub-blocks

Every sub-block of the input goes to a block of each output.  A full one is closed, unless it ends a
transfer of a declared size: then its count is set, and `ipcio_close` waits for ever for the block to be
closed.  The last one may be short: then `dbdecidb_close` closes it, which ends the transfer. -/

namespace Psrdada

open CString

namespace Dbcopydb

/-! ## One output -/

section Output

variable {done : List (List UInt8)} {data chunk : List UInt8} {o o₀ : OutputHdu} {bufsz : ℕ}

/-- The block of an output that has been opened and written. -/
structure Written (done : List (List UInt8)) (data chunk : List UInt8) (bufsz : ℕ) (o o₀ : OutputHdu) :
    Prop where
  /-- The block holds the bytes. -/
  sink : o.sink.Holding (o₀.sink.transfers ++ done) data chunk
  /-- It is open. -/
  blockOpen : o.blockOpen = true
  /-- They are counted. -/
  bytesWritten : o.bytesWritten = chunk.length
  /-- The block size is that of the ring. -/
  blockSize : o.blockSize = bufsz
  /-- The rings agree in it. -/
  bufsz_eq : o.sink.bufsz = bufsz
  /-- One block can be opened. -/
  nbufs : 2 ≤ o.sink.nbufs

theorem Idle.lock_between (h : Idle done o o₀) (hwritten : o.bytesWritten = 0) (hsize : o.blockSize = bufsz)
    (hbufsz : o.sink.bufsz = bufsz) (hnbufs : 2 ≤ o.sink.nbufs) :
    (lockWrite o).1 = 0 ∧ Writing done [] (lockWrite o).2 o₀ ∧ Between bufsz (lockWrite o).2 := by
  obtain ⟨sink, hopen, hwriting, hcurbuf⟩ := h.sink.ipcioOpen
  obtain ⟨hbufsz', hnbufs'⟩ := Sink.size_ipcioOpen hopen
  rw [lockWrite, hopen]
  exact ⟨rfl, ⟨hwriting, h.blockOpen⟩, hcurbuf, hwritten, hsize, hbufsz'.trans hbufsz,
    hnbufs'.symm ▸ hnbufs⟩

theorem nbufs_lockWrite (o : OutputHdu) : (lockWrite o).2.sink.nbufs = o.sink.nbufs := by
  rw [lockWrite]
  split
  · rfl
  · rename_i hopen
    exact (Sink.size_ipcioOpen hopen).2

/-- A block is opened and the chunk is copied to its start. -/
theorem Writing.openBlock (h : Writing done data o o₀) (hb : Between bufsz o) (chunk : List UInt8) :
    ∃ o', Written done data chunk bufsz o' o₀ ∧ ∀ ends, writeBlock ends chunk o =
      if bufsz ≤ chunk.length then fullBlock ends o'
      else if chunk.length = 0 then (0, { o' with bytesWritten := 1 }) else (0, o') := by
  obtain ⟨sink, hopen, hholding, hbufsz⟩ := h.sink.ipcioOpenBlockWrite hb.curbuf hb.nbufs
  have hnbufs := Sink.nbufs_ipcioOpenBlockWrite hopen
  have hwritten := hb.bytesWritten
  have hblock : Dbcopydb.openBlock o = some (0, { o with sink, blockOpen := true }) := by
    rw [Dbcopydb.openBlock, if_neg (by rw [h.blockOpen]; exact Bool.false_ne_true), hopen]
    rfl
  refine ⟨{ o with
    sink := sink.memcpyTo 0 chunk, blockOpen := true, bytesWritten := o.bytesWritten + chunk.length },
    ⟨hholding.memcpyTo chunk, rfl, by simp only [hwritten, Nat.zero_add], hb.blockSize,
      hbufsz.trans hb.bufsz_eq, hnbufs.symm ▸ hb.nbufs⟩, fun ends => ?_⟩
  rw [writeBlock, hblock]
  simp only [hb.blockSize, hwritten, Nat.zero_add]

/-- A full block is closed. -/
theorem Writing.full (h : Writing done data o o₀) (hb : Between bufsz o) (hchunk : chunk.length = bufsz) :
    (writeBlock false chunk o).1 = 0 ∧ Writing done (data ++ chunk) (writeBlock false chunk o).2 o₀ ∧
      Between bufsz (writeBlock false chunk o).2 := by
  obtain ⟨o', hw, heq⟩ := h.openBlock hb chunk
  obtain ⟨sink, hclose, hwriting, hcurbuf, hbufsz, hnbufs⟩ :=
    hw.sink.close_full (hchunk.trans hw.bufsz_eq.symm)
  rw [heq, if_pos (Nat.le_of_eq hchunk.symm), fullBlock, if_neg Bool.false_ne_true, hw.bytesWritten, hclose]
  simp only [Int.lt_irrefl, if_false]
  exact ⟨trivial, ⟨hwriting, rfl⟩, hcurbuf, rfl, hw.blockSize, hbufsz.trans hw.bufsz_eq,
    hnbufs.symm ▸ hw.nbufs⟩

/-- A full block at the end of a transfer is not closed, and keeps the ring from being closed. -/
theorem Writing.full_ends (h : Writing done data o o₀) (hb : Between bufsz o) (hchunk : chunk.length = bufsz)
    (hpos : chunk ≠ []) : (writeBlock true chunk o).1 = 0 ∧ Stuck (writeBlock true chunk o).2 := by
  obtain ⟨o', hw, heq⟩ := h.openBlock hb chunk
  obtain ⟨sink, hupdate, hnever, -⟩ :=
    hw.sink.ipcioClose_never hpos (Nat.le_of_eq (hchunk.trans hw.bufsz_eq.symm))
  rw [heq, if_pos (Nat.le_of_eq hchunk.symm), fullBlock, if_pos rfl, hw.bytesWritten, hupdate]
  exact ⟨rfl, hnever, rfl⟩

/-- A short block stays open. -/
theorem Writing.short (h : Writing done data o o₀) (hb : Between bufsz o) (hchunk : chunk.length < bufsz)
    (hpos : chunk ≠ []) (ends : Bool) :
    (writeBlock ends chunk o).1 = 0 ∧ Short done data chunk (writeBlock ends chunk o).2 o₀ := by
  obtain ⟨o', hw, heq⟩ := h.openBlock hb chunk
  have hlen : chunk.length ≠ 0 := fun h0 => hpos (List.length_eq_zero_iff.mp h0)
  rw [heq, if_neg (Nat.not_le.mpr hchunk), if_neg hlen]
  exact ⟨rfl, hw.sink, hw.blockOpen, hw.bytesWritten, hw.bufsz_eq ▸ hchunk⟩

/-- A ring of one sub-block cannot be opened for direct access. -/
theorem writeBlock_neg (h : Writing done data o o₀) (hnbufs : o.sink.nbufs < 2) (ends : Bool)
    (chunk : List UInt8) : (writeBlock ends chunk o).1 < 0 := by
  have hrefused : o.sink.ipcioOpenBlockWrite = none := by
    rw [Sink.ipcioOpenBlockWrite]
    split_ifs with h1 h2 h3 h4
    · rfl
    · rfl
    · rfl
    · rfl
    · exact absurd (.inl (by omega)) h4
  have hblock : Dbcopydb.openBlock o = none := by
    rw [Dbcopydb.openBlock, if_neg (by rw [h.blockOpen]; exact Bool.false_ne_true), hrefused]
    rfl
  rw [writeBlock, hblock]
  exact minus_one_neg

end Output

/-! ## The loop over the sub-blocks -/

section Loop

variable {initial : List OutputHdu} {done : List (List UInt8)} {bufsz : ℕ}

/-- A sub-block that every output takes. -/
theorem dbdecidbWriteBlock_spec {R S : OutputHdu → OutputHdu → Prop} {c : Client Ctx}
    (chunk : List UInt8) (ends : Bool) (hends : ends = true ↔ c.transferBytes ≠ 0 ∧
      c.context.bytesIn + chunk.length = c.transferBytes)
    (hwrite : ∀ o o₀, R o o₀ → (writeBlock ends chunk o).1 = 0 ∧ S (writeBlock ends chunk o).2 o₀)
    (hR : List.Forall₂ R c.context.outputs initial) :
    ∃ c', dbdecidbWriteBlock c chunk = ((chunk.length : ℤ), c') ∧
      List.Forall₂ S c'.context.outputs initial ∧
      c'.context.bytesIn = c.context.bytesIn + chunk.length ∧
      c'.transferBytes = c.transferBytes ∧ c'.quit = c.quit := by
  obtain ⟨hok, hdone⟩ := eachOutput_forall₂ hwrite hR
  have hdecide : decide (c.transferBytes ≠ 0 ∧ c.context.bytesIn + chunk.length = c.transferBytes) = ends := by
    rw [← Bool.coe_iff_coe, decide_eq_true_iff]
    exact hends.symm
  refine ⟨{ c with context := { c.context with
    outputs := (eachOutput (writeBlock ends chunk) c.context.outputs).2
    bytesIn := c.context.bytesIn + chunk.length
    bytesOut := c.context.bytesOut + chunk.length } }, ?_, hdone, rfl, rfl, rfl⟩
  rw [dbdecidbWriteBlock]
  simp only [hdecide]
  exact if_neg (Int.not_lt.mpr (Int.le_of_eq hok.symm))

/-- All outputs are between two blocks of a transfer of which `data` has been written. -/
structure Ready (done : List (List UInt8)) (initial : List OutputHdu) (bufsz : ℕ) (data : List UInt8)
    (c : Client Ctx) : Prop where
  /-- Each is. -/
  outputs : List.Forall₂ (fun o o₀ => Writing done data o o₀ ∧ Between bufsz o) c.context.outputs initial
  /-- The bytes are counted. -/
  bytesIn : c.context.bytesIn = data.length

variable {data : List UInt8} {c : Client Ctx}

theorem wants_of_lt {n : ℕ} (h : c.transferBytes = 0 ∨ n < c.transferBytes) : c.wants n := h

/-- A full sub-block that does not end the transfer. -/
theorem Ready.round (h : Ready done initial bufsz data c) {b : List UInt8} (hb : b.length = bufsz)
    (hpos : b ≠ []) (blocks : List (List UInt8))
    (hlt : c.transferBytes = 0 ∨ data.length + b.length < c.transferBytes) :
    ∃ c', Ready done initial bufsz (data ++ b) c' ∧ c'.transferBytes = c.transferBytes ∧ c'.quit = c.quit ∧
      ioLoopBlock dbdecidbWriteBlock c (.between (b :: blocks)) data.length =
        { ioLoopBlock dbdecidbWriteBlock c' (.between blocks) (data ++ b).length with
          calls := (b, (b.length : ℤ)) ::
            (ioLoopBlock dbdecidbWriteBlock c' (.between blocks) (data ++ b).length).calls } := by
  have hbytes := h.bytesIn
  have hends : ¬ (c.transferBytes ≠ 0 ∧ c.context.bytesIn + b.length = c.transferBytes) := by omega
  obtain ⟨c', hcall, houtputs, hin, hsize, hquit⟩ :=
    dbdecidbWriteBlock_spec (S := fun o o₀ => Writing done (data ++ b) o o₀ ∧ Between bufsz o) b false
      (iff_of_false Bool.false_ne_true hends) (fun _ _ hw => hw.1.full hw.2 hb) h.outputs
  refine ⟨c', ⟨houtputs, ?_⟩, hsize, hquit, ?_⟩
  · rw [hin, hbytes, List.length_append]
  · have hlen : b.length ≠ 0 := fun h0 => hpos (List.length_eq_zero_iff.mp h0)
    rw [List.length_append]
    apply ioLoopBlock_consumed
    · apply wants_of_lt
      omega
    · rw [if_pos hlen, hcall]

/-- Full sub-blocks that do not reach the end of the transfer. -/
theorem Ready.rounds (h : Ready done initial bufsz data c) (hbufsz : 0 < bufsz)
    {used : List (List UInt8)} (hused : ∀ b ∈ used, b.length = bufsz) (rest : List (List UInt8))
    (hlt : c.transferBytes = 0 ∨ data.length + used.flatten.length < c.transferBytes) :
    ∃ c', Ready done initial bufsz (data ++ used.flatten) c' ∧ c'.transferBytes = c.transferBytes ∧
      c'.quit = c.quit ∧
      ioLoopBlock dbdecidbWriteBlock c (.between (used ++ rest)) data.length =
        { ioLoopBlock dbdecidbWriteBlock c' (.between rest) (data ++ used.flatten).length with
          calls := (used.map fun b => (b, (b.length : ℤ))) ++
            (ioLoopBlock dbdecidbWriteBlock c' (.between rest) (data ++ used.flatten).length).calls } := by
  induction used generalizing c data with
  | nil =>
    rw [List.flatten_nil, List.append_nil]
    exact ⟨c, h, rfl, rfl, rfl⟩
  | cons b used ih =>
    have hb := hused b List.mem_cons_self
    have hpos : b ≠ [] := List.length_pos_iff.mp (by omega)
    rw [List.flatten_cons, List.length_append] at hlt
    obtain ⟨c₁, h₁, hsize₁, hquit₁, hround⟩ := h.round hb hpos (used ++ rest) (by omega)
    obtain ⟨c₂, h₂, hsize₂, hquit₂, hrest⟩ := ih h₁ (fun b' hb' => hused b' (List.mem_cons_of_mem _ hb'))
      (by rw [List.length_append]; omega)
    rw [List.append_assoc] at h₂ hrest
    refine ⟨c₂, h₂, hsize₂.trans hsize₁, hquit₂.trans hquit₁, ?_⟩
    rw [List.cons_append, hround, hrest]
    rfl

/-- What rounds in which sub-blocks are consumed give to the target. -/
theorem givenBy_rounds (used : List (List UInt8)) (calls : List IoCall) :
    givenBy ((used.map fun b => (b, (b.length : ℤ))) ++ calls) = used.flatten ++ givenBy calls := by
  induction used with
  | nil => rfl
  | cons b used ih =>
    rw [List.map_cons, List.cons_append, givenBy, List.flatMap_cons, List.flatten_cons, List.append_assoc]
    exact congrArg _ ih

/-- The output can be closed, and has got the transfer then. -/
def Closes (done : List (List UInt8)) (o o₀ : OutputHdu) : Prop :=
  (closeOutput o).1 = 0 ∧ Idle done (closeOutput o).2 o₀

/-- When a transfer may be copied: it takes all that is left, and its size, if it is declared, is not that
of a number of full sub-blocks. -/
def TakesAll (d : DataStream) (transferBytes : ℕ) : Prop :=
  transferBytes = 0 ∨ d.data.length < transferBytes ∨
    d.data.length = transferBytes ∧ ¬ d.bufsz ∣ transferBytes

/-- The transfer does not end with the full sub-blocks. -/
theorem TakesAll.full_lt {d : DataStream} {transferBytes : ℕ} (h : TakesAll d transferBytes) :
    transferBytes = 0 ∨ d.full.flatten.length < transferBytes := by
  have hlength := d.length_data
  have hfull := length_flatten_full d.full_length
  rcases h with h | h | ⟨h, hndvd⟩
  · exact .inl h
  · omega
  · refine .inr (Nat.lt_of_not_le fun hle => hndvd ⟨d.full.length, ?_⟩)
    omega

/-- A stream that is copied in one transfer. -/
theorem ioLoopBlock_takesAll {d : DataStream} (h : Ready done initial d.bufsz [] c)
    (htakes : TakesAll d c.transferBytes) (hdata : d.data ≠ []) :
    ∃ r, ioLoopBlock dbdecidbWriteBlock c d.source 0 = r ∧ givenBy r.calls = d.data ∧
      r.count = d.data.length ∧ r.source = .between [] ∧ r.client.quit = c.quit ∧
      List.Forall₂ (Closes (done ++ [d.data])) r.client.context.outputs initial := by
  have hfull := htakes.full_lt
  have hlength := d.length_data
  have hfull' := length_flatten_full d.full_length
  obtain ⟨c₁, h₁, hsize, hquit, hrounds⟩ :=
    h.rounds d.bufsz_pos d.full_length [d.last] (by simpa using hfull)
  rw [List.nil_append] at h₁ hrounds
  rw [List.length_nil] at hrounds
  have hwants : c₁.wants d.full.flatten.length := wants_of_lt (hsize.symm ▸ hfull)
  have hdata' : d.data = d.full.flatten ++ d.last := rfl
  rw [DataStream.source, hrounds]
  refine ⟨_, rfl, ?_⟩
  simp only [givenBy_rounds]
  rcases Nat.eq_zero_or_pos d.last.length with hnil | hpos
  · -- the last sub-block is empty
    have hlast : d.last = [] := List.length_eq_zero_iff.mp hnil
    rw [hlast, List.append_nil] at hdata'
    rw [hlast, ioLoopBlock_consumed c₁ [] hwants (by simp), ioLoopBlock_nil, hdata']
    refine ⟨by simp [givenBy, IoCall.given], by simp, rfl, hquit, h₁.outputs.imp fun o o₀ hw => ?_⟩
    exact hw.1.close (hdata' ▸ hdata)
  rcases Nat.lt_or_ge d.last.length d.bufsz with hshort | hge
  · -- it is short, and stays open
    have hne : d.last ≠ [] := List.length_pos_iff.mp hpos
    obtain ⟨c₂, hcall, houtputs, -, -, hquit₂⟩ :=
      dbdecidbWriteBlock_spec (S := Short done d.full.flatten d.last) d.last (decide _) decide_eq_true_iff
        (fun _ _ hw => hw.1.short hw.2 hshort hne _) h₁.outputs
    rw [ioLoopBlock_consumed c₂ [] hwants (by rw [if_pos (by omega), hcall]), ioLoopBlock_nil, hdata']
    refine ⟨by simp [givenBy, IoCall.given], by simp, rfl, hquit₂.trans hquit, ?_⟩
    exact houtputs.imp fun o o₀ hw => hw.close
  · -- it is full, and does not end the transfer
    have heq : d.last.length = d.bufsz := Nat.le_antisymm d.last_length hge
    have hne : d.last ≠ [] := List.length_pos_iff.mp hpos
    have hdvd : d.bufsz ∣ d.data.length := ⟨d.full.length + 1, by rw [hlength, heq, Nat.mul_succ]⟩
    obtain ⟨c₂, h₂, -, hquit₂, hround⟩ := h₁.round heq hne [] (by
      rcases htakes with h0 | hlt | ⟨hexact, hndvd⟩
      · exact .inl (hsize.trans h0)
      · exact .inr (by omega)
      · exact absurd (hexact ▸ hdvd) hndvd)
    rw [hround, ioLoopBlock_nil, hdata']
    refine ⟨by simp [givenBy, IoCall.given], rfl, rfl, hquit₂.trans hquit, ?_⟩
    exact h₂.outputs.imp fun o o₀ hw => hw.1.close (hdata' ▸ hdata)

/-- The sub-block in which a transfer of a given size ends. -/
theorem exists_ending {blocks : List (List UInt8)} (size : ℕ) (hpos : 0 < size)
    (hle : size ≤ blocks.flatten.length) :
    ∃ used b rest, blocks = used ++ b :: rest ∧ used.flatten.length < size ∧
      size ≤ used.flatten.length + b.length := by
  induction blocks generalizing size with
  | nil =>
    rw [List.flatten_nil, List.length_nil] at hle
    omega
  | cons b blocks ih =>
    by_cases hb : size ≤ b.length
    · exact ⟨[], b, blocks, rfl, by simpa using hpos, by simpa using hb⟩
    · rw [List.flatten_cons, List.length_append] at hle
      obtain ⟨used, b', rest, rfl, hlt, hle'⟩ := ih (size - b.length) (by omega) (by omega)
      refine ⟨b :: used, b', rest, rfl, ?_, ?_⟩
      · rw [List.flatten_cons, List.length_append]
        omega
      · rw [List.flatten_cons, List.length_append]
        omega

/-- All sub-blocks before one of a stream are full, and so is this one, unless it is the last. -/
theorem full_before {d : DataStream} {used rest : List (List UInt8)} {b : List UInt8}
    (h : d.full ++ [d.last] = used ++ b :: rest) :
    (∀ b' ∈ used, b'.length = d.bufsz) ∧ (b.length = d.bufsz ∨ used = d.full ∧ b = d.last) := by
  rcases List.eq_nil_or_concat' rest with rfl | ⟨rest, last, rfl⟩
  · obtain ⟨rfl, hlast⟩ := List.append_inj' h rfl
    exact ⟨d.full_length, .inr ⟨rfl, (List.singleton_inj.mp hlast).symm⟩⟩
  · rw [← List.cons_append, ← List.append_assoc] at h
    obtain ⟨hfull, -⟩ := List.append_inj' h rfl
    refine ⟨fun b' hb' => d.full_length b' ?_, .inl (d.full_length b ?_)⟩
    · rw [hfull]
      exact List.mem_append_left _ hb'
    · rw [hfull]
      exact List.mem_append_right _ List.mem_cons_self

/-- A transfer that ends in front of the end of the stream, or with a full sub-block: either more than its
size is given to the target, or the ring cannot be closed. -/
theorem ioLoopBlock_not_takesAll {d : DataStream} (h : Ready done initial d.bufsz [] c)
    (htakes : ¬ TakesAll d c.transferBytes) :
    c.transferBytes < (givenBy (ioLoopBlock dbdecidbWriteBlock c d.source 0).calls).length ∨
      List.Forall₂ (fun o _ => Stuck o)
        (ioLoopBlock dbdecidbWriteBlock c d.source 0).client.context.outputs initial := by
  obtain ⟨hT, hle, hdvd⟩ : 0 < c.transferBytes ∧ c.transferBytes ≤ d.data.length ∧
      (d.data.length = c.transferBytes → d.bufsz ∣ c.transferBytes) := by
    unfold TakesAll at htakes
    refine ⟨by omega, by omega, fun heq => ?_⟩
    by_contra hndvd
    exact htakes (.inr (.inr ⟨heq, hndvd⟩))
  have hflatten : d.data = (d.full ++ [d.last]).flatten := by simp [DataStream.data]
  rw [hflatten] at hle
  obtain ⟨used, b, rest, hblocks, hlt, hle'⟩ := exists_ending _ hT hle
  obtain ⟨hused, hb⟩ := full_before hblocks
  obtain ⟨c₁, h₁, hsize, -, hrounds⟩ := h.rounds d.bufsz_pos hused (b :: rest) (.inr (by simpa using hlt))
  rw [List.nil_append] at h₁ hrounds
  rw [List.length_nil] at hrounds
  have hwants : c₁.wants used.flatten.length := wants_of_lt (.inr (hsize.symm ▸ hlt))
  rw [DataStream.source, hblocks, hrounds]
  simp only [givenBy_rounds, List.length_append]
  rcases Nat.lt_or_eq_of_le hle' with hover | hexact
  · -- the sub-block goes beyond the transfer
    obtain ⟨bytes, calls, hcalls⟩ := calls_ioLoopBlock (f := dbdecidbWriteBlock) c₁ b rest _ hwants
    rw [hcalls]
    refine .inl (Nat.lt_of_lt_of_le hover (Nat.add_le_add_left ?_ _))
    rw [givenBy, List.flatMap_cons, List.length_append]
    exact Nat.le_add_right _ _
  · -- the sub-block ends the transfer
    have hfull : b.length = d.bufsz := by
      rcases hb with hb | ⟨rfl, rfl⟩
      · exact hb
      · have hlength := d.length_data
        have hfull := length_flatten_full d.full_length
        have hlast := d.last_length
        have heq : d.data.length = c.transferBytes := by omega
        have h1 : d.bufsz ∣ d.bufsz * d.full.length + d.last.length := by
          rw [← hlength, heq]
          exact hdvd heq
        exact Nat.le_antisymm hlast
          (Nat.le_of_dvd (by omega) ((Nat.dvd_add_right (Nat.dvd_mul_right _ _)).mp h1))
    have hpos := d.bufsz_pos
    have hne : b ≠ [] := List.length_pos_iff.mp (by omega)
    have hin := h₁.bytesIn
    obtain ⟨c₂, hcall, houtputs, -, hsize₂, -⟩ :=
      dbdecidbWriteBlock_spec (S := fun o _ => Stuck o) b true
        (iff_of_true rfl ⟨by omega, by omega⟩) (fun _ _ hw => hw.1.full_ends hw.2 hfull hne) h₁.outputs
    rw [ioLoopBlock_consumed c₂ rest hwants (by rw [if_pos (by omega), hcall]),
      ioLoopBlock_sated (by unfold Client.wants; omega)]
    exact .inr houtputs

/-- Once a sub-block of the input has stayed open, every transfer fails. -/
theorem dadaClientTransfer_blocked {c : Client Ctx} (hquit : c.quit = false) {s : Source}
    (hcurbuf : s.curbuf ≠ none) (hbytes : s.bytes = 0) :
    (dadaClientTransfer (functions true) c s).count = -1 := by
  have hrefused : s.ipcioOpenBlockRead = none := by
    obtain ⟨b, hb⟩ := Option.ne_none_iff_exists'.mp hcurbuf
    rw [Source.ipcioOpenBlockRead, if_neg (not_not_intro hbytes), hb]
  have heod : ¬ s.eod = true := by
    obtain ⟨b, hb⟩ := Option.ne_none_iff_exists'.mp hcurbuf
    simp [Source.eod, hb]
  have hloop (c : Client Ctx) : ioLoopBlock dbdecidbWriteBlock c s 0 = ⟨-1, [], c, s⟩ := by
    have hwants : c.wants 0 := by
      unfold Client.wants
      omega
    rw [ioLoopBlock, if_pos hwants, if_neg heod]
    split
    · rfl
    · rename_i hopen
      rw [hrefused] at hopen
      exact absurd hopen (Option.some_ne_none _).symm
  by_cases hlocked : (eachOutput lockWrite c.context.outputs).1 < 0
  · have hopen : ((functions true).openFunction c).1 = -1 := by
      show (dbdecidbOpen c).1 = -1
      rw [dbdecidbOpen]
      exact congrArg Prod.fst (if_pos hlocked)
    rw [dadaClientTransfer]
    simp only [hopen]
    rw [if_pos minus_one_neg]
  · obtain ⟨c₁, hopen, hquit₁, hheader⟩ : ∃ c₁ : Client Ctx, (functions true).openFunction c = (0, c₁) ∧
        c₁.quit = false ∧ c₁.headerTransfer = false := ⟨_, if_neg hlocked, hquit, rfl⟩
    rw [dadaClientTransfer_of_open hopen hquit₁ hheader]
    show (if _ then (-1 : ℤ) else (ioLoopBlock dbdecidbWriteBlock c₁ s 0).count) = -1
    rw [hloop, ite_self]

theorem quit_dbdecidbWriteBlock (c : Client Ctx) (chunk : List UInt8) :
    (dbdecidbWriteBlock c chunk).2.quit = c.quit := by
  unfold dbdecidbWriteBlock
  dsimp only
  split
  · rfl
  · rfl

/-- When one of the rings has a single sub-block, the run fails. -/
theorem readLoop_single {c : Client Ctx} (hquit : c.quit = false) {b : List UInt8} (hb : b ≠ [])
    {blocks : List (List UInt8)}
    (hidle : List.Forall₂ (fun o o₀ => Idle done o o₀ ∧ o.sink.nbufs = o₀.sink.nbufs) c.context.outputs
      initial)
    (hnbufs : ∃ o ∈ initial, o.sink.nbufs < 2) {fuel n : ℕ} {r : ReadResult Ctx}
    (h : readLoop (functions true) fuel c (.between (b :: blocks)) n = some r) : r.status = -1 := by
  obtain - | fuel := fuel
  · exact absurd h (Option.some_ne_none _).symm
  rcases readLoop_cases h with ⟨heod, -⟩ | ⟨-, t, ht, ⟨-, rfl⟩ | ⟨hpos, rest, hrest, rfl⟩⟩
  · simp at heod
  · rfl
  -- the first transfer has left a sub-block open, so the second fails
  obtain ⟨c₁, hwriting, hquit₁, -, -, -, htransfer⟩ :=
    dadaClientTransfer_opened true
      (R := fun o o₀ => Idle done o o₀ ∧ o.sink.nbufs = o₀.sink.nbufs)
      (S := fun o o₀ => Writing done [] o o₀ ∧ o.sink.nbufs = o₀.sink.nbufs)
      (fun o o₀ hR => ⟨hR.1.lock.1, hR.1.lock.2, (nbufs_lockWrite o).trans hR.2⟩)
      (c := { c with header := asciiHeaderSet c.header obsOffsetKey (decimal n) }) hidle hquit
      (.between (b :: blocks))
  obtain ⟨o₀, ho₀, hfew⟩ := hnbufs
  have hwants : c₁.wants 0 := by
    unfold Client.wants
    omega
  have hneg : (dbdecidbWriteBlock c₁ b).1 < 0 := by
    have hloop := eachOutput_neg hwriting ho₀ fun o hS => writeBlock_neg hS.1 (hS.2.symm ▸ hfew)
      (decide (c₁.transferBytes ≠ 0 ∧ c₁.context.bytesIn + b.length = c₁.transferBytes)) b
    rw [dbdecidbWriteBlock]
    simp only [if_pos hloop]
    exact minus_one_neg
  have hrun : runLoop (functions true) c₁ (.between (b :: blocks)) =
      ⟨(0 : ℕ), [(b, (dbdecidbWriteBlock c₁ b).1)], (dbdecidbWriteBlock c₁ b).2,
        ⟨blocks, some b, 0, Nat.zero_le _⟩⟩ := ioLoopBlock_failed blocks hwants hb hneg
  rw [htransfer, hrun] at ht
  have hquit₂ : t.client.quit = false := by
    rw [← ht]
    exact (quit_dbdecidbWriteBlock c₁ b).trans hquit₁
  have hsource : t.source = ⟨blocks, some b, 0, Nat.zero_le _⟩ := by rw [← ht]
  obtain - | fuel := fuel
  · exact absurd hrest (Option.some_ne_none _).symm
  rcases readLoop_cases hrest with ⟨heod, -⟩ | ⟨-, t', ht', ⟨-, rfl⟩ | ⟨hpos', -⟩⟩
  · rw [hsource] at heod
    simp [Source.eod] at heod
  · rfl
  · rw [← ht', dadaClientTransfer_blocked] at hpos'
    · exact absurd hpos' (by decide)
    · exact hquit₂
    · rw [hsource]
      exact Option.some_ne_none _
    · rw [hsource]

/-- A stream without data leaves no trace. -/
theorem dadaClientTransfer_nil (zeroCopy : Bool) {c : Client Ctx}
    (hidle : List.Forall₂ (Idle done) c.context.outputs initial) (hquit : c.quit = false) {d : DataStream}
    (hdata : d.data = []) {t : TransferResult Ctx}
    (ht : dadaClientTransfer (functions zeroCopy) c d.source = t) :
    t.output.given = [] ∧ t.source.eod = true ∧
      List.Forall₂ (Idle done) t.client.context.outputs initial := by
  cases zeroCopy with
  | false =>
    have hpiece := dadaClientTransfer_bytes done hidle hquit d.eod_source
    rw [ht] at hpiece
    have hleft := hpiece.left
    rw [d.left_source, hdata] at hleft
    obtain ⟨hgiven, hleft⟩ := List.append_eq_nil_iff.mp hleft
    refine ⟨hgiven, hpiece.settled.mpr hleft, ?_⟩
    have houtputs := hpiece.outputs
    rwa [if_pos hgiven] at houtputs
  | true =>
    obtain ⟨hfull, hlast⟩ := List.append_eq_nil_iff.mp hdata
    have hnone : d.full = [] := by
      refine List.eq_nil_iff_forall_not_mem.mpr fun b hb => ?_
      have hlen := d.full_length b hb
      rw [List.flatten_eq_nil_iff.mp hfull b hb, List.length_nil] at hlen
      exact absurd hlen (Nat.ne_of_lt d.bufsz_pos)
    obtain ⟨c₁, hwriting, -, -, -, -, htransfer⟩ :=
      dadaClientTransfer_opened true (fun _ _ h => h.lock) hidle hquit d.source
    have hwants : c₁.wants 0 := by
      unfold Client.wants
      omega
    have hrun : runLoop (functions true) c₁ d.source = ⟨(0 : ℕ), [([], 0)], c₁, .between []⟩ := by
      show ioLoopBlock dbdecidbWriteBlock c₁ d.source 0 = _
      rw [DataStream.source, hnone, hlast, List.nil_append,
        ioLoopBlock_consumed c₁ [] hwants (by simp), ioLoopBlock_nil]
      rfl
    rw [htransfer, hrun] at ht
    rw [← ht]
    exact ⟨rfl, rfl, (dbdecidbClose_spec (fun _ _ h => h.close_nil) hwriting (asUnsigned (0 : ℕ))).2⟩

end Loop

/-! ## The run of the client -/

section Run

/-- The header of the first transfer. -/
def firstHeader (c : Client Ctx) : Text :=
  asciiHeaderSet c.header obsOffsetKey (decimal ((asciiHeaderGetUnsigned c.header obsOffsetKey).getD 0))

/-- The client as `main` sets it up for a stream: the rings have the same block size. -/
structure Prepared (c : Client Ctx) (d : DataStream) : Prop where
  /-- It is not told to quit. -/
  quit : c.quit = false
  /-- There is an output. -/
  outputs : c.context.outputs ≠ []
  /-- Every output is idle. -/
  ready : ∀ o ∈ c.context.outputs, o.Ready
  /-- The block sizes are the same. -/
  bufsz : ∀ o ∈ c.context.outputs, o.sink.bufsz = d.bufsz

/-- When the stream is copied: there is data, and with the function for sub-blocks every ring has two
sub-blocks or more and the first transfer takes all of the stream. -/
def CanCopy (zeroCopy : Bool) (c : Client Ctx) (d : DataStream) : Prop :=
  d.data ≠ [] ∧
    (zeroCopy = true → (∀ o ∈ c.context.outputs, 2 ≤ o.sink.nbufs) ∧ TakesAll d (transferSizeOf (firstHeader c)))

variable {zeroCopy : Bool} {c : Client Ctx} {d : DataStream}

theorem Prepared.idle (h : Prepared c d) : List.Forall₂ (Idle []) c.context.outputs c.context.outputs := by
  refine List.forall₂_same.mpr fun o ho => ?_
  have hready := h.ready o ho
  refine ⟨?_, hready.blockOpen⟩
  rw [List.append_nil]
  exact hready.idle

/-- What opening the client makes of it, for direct access. -/
theorem Prepared.opened (h : Prepared c d) (hnbufs : ∀ o ∈ c.context.outputs, 2 ≤ o.sink.nbufs) (n : ℕ)
    (s : Source) :
    ∃ c₁ : Client Ctx, Ready [] c.context.outputs d.bufsz [] c₁ ∧ c₁.quit = false ∧
      c₁.transferBytes = transferSizeOf (asciiHeaderSet c.header obsOffsetKey (decimal n)) ∧
      dadaClientTransfer (functions true)
          { c with header := asciiHeaderSet c.header obsOffsetKey (decimal n) } s =
        let result := ioLoopBlock dbdecidbWriteBlock c₁ s 0
        let closed := dbdecidbClose result.client (asUnsigned result.count)
        let output : Output := ⟨asciiHeaderSet c.header obsOffsetKey (decimal n), c₁.transferBytes,
          result.calls, some closed.1⟩
        ⟨if closed.1 < 0 then -1 else result.count, output, closed.2, result.source⟩ := by
  have hidle : List.Forall₂ (fun o o₀ => Idle [] o o₀ ∧ o.bytesWritten = 0 ∧ o.blockSize = d.bufsz ∧
      o.sink.bufsz = d.bufsz ∧ 2 ≤ o.sink.nbufs) c.context.outputs c.context.outputs := by
    refine List.forall₂_same.mpr fun o ho => ⟨List.forall₂_same.mp h.idle o ho, ?_⟩
    have hready := h.ready o ho
    have hbufsz := h.bufsz o ho
    exact ⟨hready.bytesWritten, hready.blockSize.trans hbufsz, hbufsz, hnbufs o ho⟩
  obtain ⟨c₁, houtputs, hquit, hsize, -, hin, htransfer⟩ :=
    dadaClientTransfer_opened true
      (S := fun o o₀ => Writing [] [] o o₀ ∧ Between d.bufsz o)
      (fun o o₀ ⟨hi, hw, hb, hs, hn⟩ => hi.lock_between hw hb hs hn)
      (c := { c with header := asciiHeaderSet c.header obsOffsetKey (decimal n) }) hidle h.quit s
  exact ⟨c₁, ⟨houtputs, hin⟩, hquit, hsize, hsize ▸ htransfer⟩

/-- The run succeeds when the stream can be copied. -/
theorem Prepared.copies (h : Prepared c d) (hcan : CanCopy zeroCopy c d) :
    ∃ fuel r, dadaClientRead (functions zeroCopy) fuel c d.source = some r ∧
      Copies [] c.context.outputs d.data r := by
  obtain ⟨hdata, hblocks⟩ := hcan
  cases zeroCopy with
  | false =>
    have hsettled : d.source.Settled :=
      iff_of_false (by rw [d.eod_source]; exact Bool.false_ne_true) (by rwa [d.left_source])
    obtain ⟨r, hr, -, hcopies⟩ :=
      readLoop_bytes (d.source.size + 1) ((asciiHeaderGetUnsigned c.header obsOffsetKey).getD 0)
        (Nat.lt_succ_self _) h.idle h.quit hsettled
    rw [d.left_source] at hcopies
    exact ⟨_, r, hr, hcopies⟩
  | true =>
    obtain ⟨hnbufs, htakes⟩ := hblocks rfl
    obtain ⟨c₁, hready, hquit, hsize, htransfer⟩ :=
      h.opened hnbufs ((asciiHeaderGetUnsigned c.header obsOffsetKey).getD 0) d.source
    rw [firstHeader, ← hsize] at htakes
    obtain ⟨r, hr, hgiven, hcount, hsource, -, hcloses⟩ := ioLoopBlock_takesAll hready htakes hdata
    obtain ⟨hclosed, houtputs⟩ := dbdecidbClose_spec (S := Idle [d.data]) (fun _ _ hc => hc) hcloses
      (asUnsigned r.count)
    rw [hr] at htransfer
    have hpos : ¬ (dbdecidbClose r.client (asUnsigned r.count)).1 < 0 :=
      Int.not_lt.mpr (Int.le_of_eq hclosed.symm)
    simp only [if_neg hpos] at htransfer
    have hend : (Source.between []).eod = true := rfl
    refine ⟨2, ?_⟩
    rw [dadaClientRead, readLoop, if_neg (by simp)]
    simp only [htransfer, hcount, hsource]
    rw [if_neg (by omega), readLoop, if_pos hend]
    refine ⟨_, rfl, rfl, ?_, ?_, ?_, ?_⟩
    · intro o ho
      obtain rfl := List.mem_singleton.mp ho
      exact hsize
    · have hcut : cut [c₁.transferBytes] d.data = [⟨d.data, d.data.length, true⟩] := by
        refine if_pos ?_
        unfold TakesAll at htakes
        omega
      show [givenBy r.calls] = (cut [c₁.transferBytes] d.data).map Delivery.bytes
      rw [hcut, hgiven]
      rfl
    · show givenBy r.calls ++ [] = d.data
      rw [hgiven, List.append_nil]
    · show List.Forall₂ (Idle [givenBy r.calls]) _ _
      rw [hgiven]
      exact houtputs

/-- An output has got one list of transfers only. -/
theorem done_unique {outputs initial : List OutputHdu} (hne : initial ≠ []) {done done' : List (List UInt8)}
    (h : List.Forall₂ (Idle done) outputs initial) (h' : List.Forall₂ (Idle done') outputs initial) :
    done = done' := by
  cases h with
  | nil => exact absurd rfl hne
  | cons ho _ =>
    cases h' with
    | cons ho' _ => exact List.append_cancel_left (ho.sink.transfers.symm.trans ho'.sink.transfers)

/-- The first sub-block of a stream with data is not empty. -/
theorem exists_first (hdata : d.data ≠ []) :
    ∃ b blocks, b ≠ [] ∧ d.source = .between (b :: blocks) := by
  rw [DataStream.source]
  rcases hfull : d.full with - | ⟨b, blocks⟩
  · refine ⟨d.last, [], fun hlast => hdata ?_, rfl⟩
    rw [DataStream.data, hfull, hlast]
    rfl
  · refine ⟨b, blocks ++ [d.last], List.length_pos_iff.mp ?_, rfl⟩
    rw [d.full_length b (hfull ▸ List.mem_cons_self)]
    exact d.bufsz_pos

/-- A stream that is copied has data. -/
theorem Prepared.data_ne_nil (h : Prepared c d) {fuel : ℕ} {r : ReadResult Ctx}
    (hr : dadaClientRead (functions zeroCopy) fuel c d.source = some r)
    (hcopies : Copies [] c.context.outputs d.data r) : d.data ≠ [] := by
  intro hnil
  obtain - | fuel := fuel
  · exact absurd hr (Option.some_ne_none _).symm
  rcases readLoop_cases hr with ⟨heod, -⟩ | ⟨-, t, ht, ⟨-, rfl⟩ | ⟨-, rest, hrest, rfl⟩⟩
  · rw [d.eod_source] at heod
    exact absurd heod Bool.false_ne_true
  · exact absurd hcopies.success (Int.ne_of_lt minus_one_neg)
  · obtain ⟨hgiven, heod, houtputs⟩ :=
      dadaClientTransfer_nil zeroCopy (by exact h.idle) (by exact h.quit) hnil ht
    obtain - | fuel := fuel
    · exact absurd hrest (Option.some_ne_none _).symm
    rw [readLoop, if_pos heod] at hrest
    obtain rfl := Option.some.inj hrest
    exact absurd (done_unique h.outputs houtputs hcopies.outputs) (List.cons_ne_nil _ _).symm

/-- The first transfer of a stream that is copied takes all of it. -/
theorem Prepared.takesAll (h : Prepared c d) (hnbufs : ∀ o ∈ c.context.outputs, 2 ≤ o.sink.nbufs) {fuel : ℕ}
    {r : ReadResult Ctx} (hr : dadaClientRead (functions true) fuel c d.source = some r)
    (hcopies : Copies [] c.context.outputs d.data r) : TakesAll d (transferSizeOf (firstHeader c)) := by
  by_contra htakes
  obtain - | fuel := fuel
  · exact absurd hr (Option.some_ne_none _).symm
  obtain ⟨c₁, hready, -, hsize, htransfer⟩ :=
    h.opened hnbufs ((asciiHeaderGetUnsigned c.header obsOffsetKey).getD 0) d.source
  rw [firstHeader, ← hsize] at htakes
  rcases readLoop_cases hr with ⟨heod, -⟩ | ⟨-, t, ht, ⟨-, rfl⟩ | ⟨hpos, rest, -, rfl⟩⟩
  · rw [d.eod_source] at heod
    exact absurd heod Bool.false_ne_true
  · exact absurd hcopies.success (Int.ne_of_lt minus_one_neg)
  rw [htransfer] at ht
  rcases ioLoopBlock_not_takesAll hready htakes with hover | hstuck
  · -- the first piece is longer than its size
    have hpieces := hcopies.pieces
    rw [← ht] at hpieces
    simp only [List.map_cons] at hpieces
    have hlong := hcopies.whole
    rw [← ht, givenIn, List.flatMap_cons] at hlong
    have hle := congrArg List.length hlong
    rw [List.length_append] at hle
    have hgiven : (givenBy (ioLoopBlock dbdecidbWriteBlock c₁ d.source 0).calls).length ≤ d.data.length := by
      rw [← hle]
      exact Nat.le_add_right _ _
    have hT : c₁.transferBytes ≠ 0 := fun h0 => htakes (.inl h0)
    rw [cut, if_neg (by omega), List.map_cons] at hpieces
    have hlen := congrArg List.length (List.head_eq_of_cons_eq hpieces)
    rw [List.length_take] at hlen
    have hlen' : (givenBy (ioLoopBlock dbdecidbWriteBlock c₁ d.source 0).calls).length =
        min c₁.transferBytes d.data.length := hlen
    omega
  · -- the rings cannot be closed
    obtain ⟨o, ho⟩ := List.exists_mem_of_ne_nil _ h.outputs
    have hneg := eachOutput_neg hstuck ho fun _ hs => hs.close
    have hcount : t.count = -1 := by
      rw [← ht]
      exact if_pos hneg
    rw [hcount] at hpos
    exact absurd hpos (Int.not_le.mpr minus_one_neg)

theorem ring_bufsz_pos : 0 < 4 := Nat.succ_pos 3

theorem ring_bytes_le : 0 ≤ 4 := Nat.zero_le 4

/-- A ring of two sub-blocks of four bytes. -/
def ring : Sink where
  bufsz := 4
  bufsz_pos := ring_bufsz_pos
  nbufs := 2
  stale _ _ := 0
  taken := 0
  state := .viewer
  rdwrt := .closed
  curbuf := none
  bytes := 0
  bytes_le := ring_bytes_le
  markedFilled := false
  opened := false
  filled := []
  transfers := []

/-- A client with two outputs of two sub-blocks each, for a stream with the given header. -/
def twoOutputs (header : Text) : Client Ctx where
  context := ⟨[⟨ring, 4, 0, false, false⟩, ⟨ring, 4, 0, false, false⟩], 0, 0, false⟩
  header := header
  headerSize := 4096
  headerTransfer := false
  transferBytes := 0
  optimalBytes := 0
  quit := false

theorem twoOutputs_prepared (header : Text) : Prepared (twoOutputs header) twoBlocks := by
  have hready : OutputHdu.Ready ⟨ring, 4, 0, false, false⟩ := ⟨⟨rfl, rfl, rfl, rfl, rfl⟩, rfl, rfl, rfl⟩
  refine ⟨rfl, List.cons_ne_nil _ _, ?_, ?_⟩
  · intro o ho
    rcases List.mem_pair.mp ho with rfl | rfl
    · exact hready
    · exact hready
  · intro o ho
    rcases List.mem_pair.mp ho with rfl | rfl
    · rfl
    · rfl

theorem twoOutputs_nbufs (header : Text) : ∀ o ∈ (twoOutputs header).context.outputs, 2 ≤ o.sink.nbufs := by
  intro o ho
  rcases List.mem_pair.mp ho with rfl | rfl
  · exact Nat.le_refl 2
  · exact Nat.le_refl 2

end Run

end Dbcopydb

end Psrdada
