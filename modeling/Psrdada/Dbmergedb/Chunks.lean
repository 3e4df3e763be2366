import Psrdada.Dbmergedb.Dbmergedb

/-! # The chunks of an input

From the place that the threads have left it at, an input gives a sequence of chunks (`DadaBlock.chunks`):
those of the block that is open and those of the full blocks that follow, up to the first block that is not
full.  A block whose length is not a multiple of the chunk size ends with a chunk that reaches over its end.
The output is made of pairs of chunks, as many as fill whole blocks (`dbmergedb_chunks`). -/

namespace Psrdada

/-- The chunks of a block, the last of which is completed by what lies `beyond` its end. -/
def chunksOf (beyond : ℕ → UInt8) (size : ℕ) (data : List UInt8) : List (List UInt8) :=
  if _h : data = [] ∨ size = 0 then []
  else (data ++ (List.range size).map beyond).take size :: chunksOf beyond size (data.drop size)
termination_by data.length
decreasing_by
  have hpos := List.length_pos_iff.mpr (fun hnil => _h (.inl hnil))
  rw [List.length_drop]
  omega

variable {beyond : ℕ → UInt8} {size : ℕ}

@[simp] theorem chunksOf_nil : chunksOf beyond size [] = [] := by
  rw [chunksOf, dif_pos (.inl rfl)]

theorem chunksOf_ne_nil {data : List UInt8} (h : data ≠ []) (hsize : 0 < size) :
    chunksOf beyond size data =
      (data ++ (List.range size).map beyond).take size :: chunksOf beyond size (data.drop size) := by
  rw [chunksOf, dif_neg (by simp [h]; omega)]

/-- All chunks have the same size. -/
theorem length_of_mem_chunksOf (hsize : 0 < size) (data : List UInt8) :
    ∀ c ∈ chunksOf beyond size data, c.length = size := by
  induction hn : data.length using Nat.strong_induction_on generalizing data with
  | _ n ih =>
    intro c hc
    rcases eq_or_ne data [] with rfl | hne
    · simp at hc
    · rw [chunksOf_ne_nil hne hsize] at hc
      rcases List.mem_cons.mp hc with rfl | hc
      · simp
      · have hpos := List.length_pos_iff.mpr hne
        exact ih (data.drop size).length (by rw [List.length_drop]; omega) _ rfl c hc

/-- The chunks of a multiple of the chunk size are the data. -/
theorem flatten_chunksOf (hsize : 0 < size) {data : List UInt8} (h : size ∣ data.length) :
    (chunksOf beyond size data).flatten = data := by
  induction hn : data.length using Nat.strong_induction_on generalizing data with
  | _ n ih =>
    rcases eq_or_ne data [] with rfl | hne
    · simp
    · have hpos := List.length_pos_iff.mpr hne
      have hle : size ≤ data.length := Nat.le_of_dvd hpos h
      have hdrop : size ∣ (data.drop size).length := by
        rw [List.length_drop]
        exact Nat.dvd_sub h (Nat.dvd_refl _)
      rw [chunksOf_ne_nil hne hsize, List.flatten_cons, List.take_append_of_le_length hle,
        ih (data.drop size).length (by rw [List.length_drop]; omega) hdrop rfl, List.take_append_drop]

namespace DadaBlock

/-- The state of an input between two chunks. -/
structure Tidy (db : DadaBlock) : Prop where
  /-- A block is not empty. -/
  bufsz_pos : 0 < db.bufsz
  /-- No block is open. -/
  closed : db.blockOpen = false → db.source = .between db.source.blocks
  /-- A full block is open, and some of it is left. -/
  opened : db.blockOpen = true → db.currBuf.length = db.bufsz ∧ db.bytes < db.bufsz ∧
    db.source = ⟨db.source.blocks, some db.currBuf, 0, Nat.zero_le _⟩

/-- The blocks up to the first one that is not full. -/
def fullBlocks (db : DadaBlock) : List (List UInt8) :=
  db.source.blocks.takeWhile fun b => b.length = db.bufsz

/-- The chunks that an input gives. -/
def chunks (db : DadaBlock) (beyond : ℕ → UInt8) (size : ℕ) : List (List UInt8) :=
  (if db.blockOpen then chunksOf beyond size (db.currBuf.drop db.bytes) else []) ++
    db.fullBlocks.flatMap (chunksOf beyond size)

theorem length_of_mem_chunks (hsize : 0 < size) (db : DadaBlock) :
    ∀ c ∈ db.chunks beyond size, c.length = size := by
  intro c hc
  rcases List.mem_append.mp hc with hc | hc
  · split at hc
    · exact length_of_mem_chunksOf hsize _ c hc
    · simp at hc
  · obtain ⟨b, -, hc⟩ := List.mem_flatMap.mp hc
    exact length_of_mem_chunksOf hsize _ c hc

/-- Opening a block where none is open keeps the chunks, and fails when there are none. -/
theorem openBlock_spec {db : DadaBlock} (h : db.Tidy) :
    (db.openBlock 0 = none ∧ db.chunks beyond size = []) ∨
      ∃ db', db.openBlock 0 = some db' ∧ db'.Tidy ∧ db'.blockOpen = true ∧ db'.bufsz = db.bufsz ∧
        db'.chunks beyond size = db.chunks beyond size := by
  cases hopen : db.blockOpen with
  | true => exact .inr ⟨db, if_pos hopen, h, hopen, rfl, rfl⟩
  | false =>
    have hsource := h.closed hopen
    cases hblocks : db.source.blocks with
    | nil =>
      rw [hblocks] at hsource
      have heod : db.source.eod = true := by
        rw [hsource]
        rfl
      refine .inl ⟨by simp [openBlock, hopen, heod], ?_⟩
      simp [chunks, hopen, fullBlocks, hblocks]
    | cons next blocks =>
      rw [hblocks] at hsource
      have heod : db.source.eod = false := by
        rw [hsource]
        rfl
      have hnext : db.source.ipcioOpenBlockRead = some (next, ⟨blocks, some next, 0, Nat.zero_le _⟩) := by
        rw [hsource]
        rfl
      by_cases hfull : next.length = db.bufsz
      · refine .inr ⟨{ db with
            currBuf := next
            source := ⟨blocks, some next, 0, Nat.zero_le _⟩
            bytes := 0
            blockOpen := true }, by simp [openBlock, hopen, heod, hnext, hfull], ?_, rfl, rfl, ?_⟩
        · exact ⟨h.bufsz_pos, fun hc => absurd hc (by simp), fun _ => ⟨hfull, h.bufsz_pos, rfl⟩⟩
        · simp [chunks, hopen, fullBlocks, hblocks, hfull]
      · refine .inl ⟨by simp [openBlock, hopen, heod, hnext, hfull], ?_⟩
        simp [chunks, hopen, fullBlocks, hblocks, hfull]

/-- Copying a chunk from the open block. -/
theorem copyChunk_spec {db : DadaBlock} (h : db.Tidy) (hopen : db.blockOpen = true) (hsize : 0 < size) :
    db.chunks beyond size = (db.copyChunk beyond size).1 :: (db.copyChunk beyond size).2.chunks beyond size ∧
      (db.copyChunk beyond size).2.Tidy ∧ (db.copyChunk beyond size).2.bufsz = db.bufsz := by
  obtain ⟨hfull, hlt, hsource⟩ := h.opened hopen
  have hne : db.currBuf.drop db.bytes ≠ [] := by
    intro hnil
    have := List.drop_eq_nil_iff.mp hnil
    omega
  have hchunks : db.chunks beyond size = (db.copyChunk beyond size).1 ::
      (chunksOf beyond size (db.currBuf.drop (db.bytes + size)) ++
        db.fullBlocks.flatMap (chunksOf beyond size)) := by
    rw [chunks, if_pos hopen, chunksOf_ne_nil hne hsize, List.drop_drop]
    rfl
  by_cases hend : db.bytes + size ≥ db.bufsz
  · -- the block is closed
    have hblocks : (db.source.ipcioCloseBlockRead db.bufsz).2 = .between db.source.blocks := by
      conv_lhs => rw [hsource, ← hfull]
      exact congrArg Prod.snd (Source.ipcioCloseBlockRead_whole db.currBuf db.source.blocks)
    have hrest : (db.copyChunk beyond size).2 =
        { db with bytes := db.bytes + size, source := .between db.source.blocks, blockOpen := false } := by
      simp only [copyChunk, if_pos hend, closeBlock, hblocks]
    have hnil : db.currBuf.drop (db.bytes + size) = [] := List.drop_eq_nil_iff.mpr (by omega)
    rw [hchunks, hrest, hnil]
    refine ⟨by simp [chunks, fullBlocks, Source.between], ?_, rfl⟩
    exact ⟨h.bufsz_pos, fun _ => rfl, fun hc => absurd hc (by simp)⟩
  · have hrest : (db.copyChunk beyond size).2 = { db with bytes := db.bytes + size } := by
      simp only [copyChunk, if_neg hend]
    rw [hchunks, hrest]
    refine ⟨by simp [chunks, fullBlocks, hopen], ?_, rfl⟩
    exact ⟨h.bufsz_pos, h.closed, fun _ => ⟨hfull, Nat.not_le.mp hend, hsource⟩⟩

end DadaBlock

/-! ## The output -/

namespace Merger

/-- Both inputs are between two chunks. -/
structure Tidy (m : Merger) : Prop where
  /-- One input. -/
  pola : m.pola.Tidy
  /-- The other one. -/
  polb : m.polb.Tidy

/-- The pairs of chunks that the inputs give. -/
def pairs (m : Merger) (beyond : ℕ → UInt8) (size : ℕ) : List (List UInt8 × List UInt8) :=
  (m.pola.chunks beyond size).zip (m.polb.chunks beyond size)

/-- The size of a block of the output. -/
def blockSize (m : Merger) : ℕ := m.pola.bufsz + m.polb.bufsz

end Merger

/-- Pairs of chunks, one after the other. -/
def joinPairs (pairs : List (List UInt8 × List UInt8)) : List UInt8 := pairs.flatMap fun p => p.1 ++ p.2

theorem joinPairs_append (ps qs : List (List UInt8 × List UInt8)) :
    joinPairs (ps ++ qs) = joinPairs ps ++ joinPairs qs := List.flatMap_append

/-- Pairs of chunks of one size. -/
def OfSize (size : ℕ) (pairs : List (List UInt8 × List UInt8)) : Prop :=
  ∀ p ∈ pairs, p.1.length = size ∧ p.2.length = size

theorem Merger.ofSize_pairs (m : Merger) (hsize : 0 < size) : OfSize size (m.pairs beyond size) := by
  intro p hp
  obtain ⟨ha, hb⟩ := List.of_mem_zip hp
  exact ⟨m.pola.length_of_mem_chunks hsize _ ha, m.polb.length_of_mem_chunks hsize _ hb⟩

theorem OfSize.take {pairs : List (List UInt8 × List UInt8)} (h : OfSize size pairs) (n : ℕ) :
    OfSize size (pairs.take n) := fun p hp => h p (List.mem_of_mem_take hp)

theorem length_joinPairs {pairs : List (List UInt8 × List UInt8)} (h : OfSize size pairs) :
    (joinPairs pairs).length = pairs.length * (size * 2) := by
  induction pairs with
  | nil => simp [joinPairs]
  | cons p pairs ih =>
    obtain ⟨h1, h2⟩ := h p List.mem_cons_self
    have hrest := ih fun q hq => h q (List.mem_cons_of_mem _ hq)
    rw [joinPairs, List.flatMap_cons, List.length_append, List.length_append, h1, h2, ← joinPairs, hrest,
      List.length_cons, Nat.succ_mul]
    omega

/-- The chunks of an output block. -/
theorem mergeChunks_spec (hsize : 0 < size) (nchunk : ℕ) {m : Merger} (h : m.Tidy) :
    (nchunk ≤ (m.pairs beyond size).length → ∃ m', mergeChunks beyond size nchunk m =
        some (joinPairs ((m.pairs beyond size).take nchunk), m') ∧ m'.Tidy ∧
        m'.blockSize = m.blockSize ∧ m'.pairs beyond size = (m.pairs beyond size).drop nchunk) ∧
      ((m.pairs beyond size).length < nchunk → mergeChunks beyond size nchunk m = none) := by
  induction nchunk generalizing m with
  | zero => exact ⟨fun _ => ⟨m, rfl, h, rfl, rfl⟩, fun hlt => absurd hlt (Nat.not_lt_zero _)⟩
  | succ nchunk ih =>
    rcases @DadaBlock.openBlock_spec beyond size _ h.pola with
      ⟨hnone, hnil⟩ | ⟨pola, hpola, htidya, hopena, hbufsza, hchunksa⟩
    · -- no chunk from the first input
      have hpairs : m.pairs beyond size = [] := by rw [Merger.pairs, hnil, List.zip_nil_left]
      rw [hpairs]
      exact ⟨fun hle => absurd hle (by simp), fun _ => by rw [mergeChunks, hnone]⟩
    rcases @DadaBlock.openBlock_spec beyond size _ h.polb with
      ⟨hnone, hnil⟩ | ⟨polb, hpolb, htidyb, hopenb, hbufszb, hchunksb⟩
    · -- no chunk from the second one
      have hpairs : m.pairs beyond size = [] := by rw [Merger.pairs, hnil, List.zip_nil_right]
      rw [hpairs]
      exact ⟨fun hle => absurd hle (by simp), fun _ => by rw [mergeChunks, hpola, hnone]⟩
    obtain ⟨ha, htidya', hbufsza'⟩ := @DadaBlock.copyChunk_spec beyond size _ htidya hopena hsize
    obtain ⟨hb, htidyb', hbufszb'⟩ := @DadaBlock.copyChunk_spec beyond size _ htidyb hopenb hsize
    set a := pola.copyChunk beyond size
    set b := polb.copyChunk beyond size
    have hpairs : m.pairs beyond size = (a.1, b.1) :: Merger.pairs ⟨a.2, b.2⟩ beyond size := by
      rw [Merger.pairs, ← hchunksa, ← hchunksb, ha, hb]
      rfl
    have hblock : Merger.blockSize ⟨a.2, b.2⟩ = m.blockSize := by
      show a.2.bufsz + b.2.bufsz = m.pola.bufsz + m.polb.bufsz
      rw [hbufsza', hbufszb', hbufsza, hbufszb]
    obtain ⟨hsome, hnone⟩ := ih (m := ⟨a.2, b.2⟩) ⟨htidya', htidyb'⟩
    rw [hpairs, mergeChunks, hpola, hpolb]
    constructor
    · intro hle
      obtain ⟨m', hm', htidy, hsize', hdrop⟩ := hsome (Nat.le_of_succ_le_succ hle)
      refine ⟨m', ?_, htidy, hsize'.trans hblock, hdrop⟩
      show (mergeChunks beyond size nchunk ⟨a.2, b.2⟩).map _ = _
      rw [hm', Option.map_some, List.take_succ_cons]
      show some (a.1 ++ (b.1 ++ _), m') = some ((a.1 ++ b.1) ++ _, m')
      rw [List.append_assoc]
      rfl
    · intro hlt
      show (mergeChunks beyond size nchunk ⟨a.2, b.2⟩).map _ = _
      rw [hnone (Nat.lt_of_succ_lt_succ hlt), Option.map_none]

/-- **The output** is made of the pairs of chunks that fill whole blocks. -/
theorem writeLoopBlock_pairs {sampling : Sampling} {blockSize nchunk : ℕ}
    (hblock : blockSize = nchunk * (sampling.resolution * 2)) (hpos : 0 < nchunk) (fuel : ℕ)
    {c : Client Merger} (htransfer : c.transferBytes = 0) (h : c.context.Tidy) (done : ℕ) :
    ((c.context.pairs beyond sampling.resolution).length / nchunk < fuel →
      (writeLoopBlock (dbmergedbWriteBlock sampling beyond) blockSize fuel c done).isSome) ∧
    ∀ r, writeLoopBlock (dbmergedbWriteBlock sampling beyond) blockSize fuel c done = some r →
      r.data = joinPairs ((c.context.pairs beyond sampling.resolution).take
        ((c.context.pairs beyond sampling.resolution).length / nchunk * nchunk)) := by
  have hres := sampling.resolution_pos
  have hmod : blockSize % (sampling.resolution * 2) = 0 := by rw [hblock, Nat.mul_mod_left]
  have hdiv : blockSize / (sampling.resolution * 2) = nchunk := by
    rw [hblock, Nat.mul_div_cancel _ (by omega)]
  have hhalf : sampling.resolution * 2 / 2 = sampling.resolution := Nat.mul_div_cancel _ (by decide)
  have hblock_pos : 0 < blockSize := by
    rw [hblock]
    exact Nat.mul_pos hpos (by omega)
  induction fuel generalizing c done with
  | zero => exact ⟨fun hf => absurd hf (Nat.not_lt_zero _), fun r hr => by simp [writeLoopBlock] at hr⟩
  | succ fuel ih =>
    have hwants : c.wants done := .inl htransfer
    have hchunk : c.chunk blockSize done = blockSize := by
      unfold Client.chunk
      rw [if_pos htransfer]
    obtain ⟨hsome, hnone⟩ := @mergeChunks_spec beyond _ hres nchunk _ h
    rw [writeLoopBlock, if_pos hwants, hchunk]
    rcases Nat.lt_or_ge (c.context.pairs beyond sampling.resolution).length nchunk with hlt | hge
    · -- one of the inputs has ended
      have hfill : dbmergedbWriteBlock sampling beyond c blockSize = ⟨0, [], c⟩ := by
        simp only [dbmergedbWriteBlock, hmod, ne_eq, not_true, if_false, hhalf, hdiv, hnone hlt]
      rw [hfill]
      simp only [Int.lt_irrefl, if_false, Int.natCast_pos.mpr hblock_pos, if_true]
      refine ⟨fun _ => rfl, fun r hr => ?_⟩
      obtain rfl := Option.some.inj hr
      rw [Nat.div_eq_of_lt hlt, Nat.zero_mul, List.take_zero]
      rfl
    · obtain ⟨m', hm', htidy, -, hdrop⟩ := hsome hge
      have hfill : dbmergedbWriteBlock sampling beyond c blockSize =
          ⟨blockSize, joinPairs ((c.context.pairs beyond sampling.resolution).take nchunk),
            { c with context := m' }⟩ := by
        simp only [dbmergedbWriteBlock, hmod, ne_eq, not_true, if_false, hhalf, hdiv, hm']
      have hlen : (joinPairs ((c.context.pairs beyond sampling.resolution).take nchunk)).length =
          blockSize := by
        rw [length_joinPairs ((c.context.ofSize_pairs hres).take nchunk), List.length_take_of_le hge,
          hblock]
      rw [hfill]
      simp only [Int.not_lt.mpr (Int.natCast_nonneg blockSize), if_false, Int.lt_irrefl,
        Int.toNat_natCast, List.take_of_length_le (Nat.le_of_eq hlen)]
      obtain ⟨hsome', hdata⟩ := ih (c := { c with context := m' }) htransfer htidy (done + blockSize)
      have hlength : (m'.pairs beyond sampling.resolution).length =
          (c.context.pairs beyond sampling.resolution).length - nchunk := by
        rw [hdrop, List.length_drop]
      have hquot : (c.context.pairs beyond sampling.resolution).length / nchunk =
          (m'.pairs beyond sampling.resolution).length / nchunk + 1 := by
        rw [hlength, Nat.div_eq_sub_div hpos hge]
      constructor
      · intro hf
        rw [Option.isSome_map]
        exact hsome' (by show (m'.pairs _ _).length / nchunk < fuel; omega)
      · intro r hr
        obtain ⟨r', hr', rfl⟩ := Option.map_eq_some_iff.mp hr
        have := hdata r' hr'
        show joinPairs _ ++ r'.data = _
        rw [this, ← joinPairs_append]
        show joinPairs (_ ++ (m'.pairs beyond sampling.resolution).take _) = _
        rw [hquot, Nat.succ_mul, Nat.add_comm, List.take_add, hdrop]

end Psrdada
