import Psrdada.Client.Splitting

/-! # The block loop against the byte loop

`dada_client_io_loop` clips every read to the bytes that the transfer still wants.
`dada_client_io_loop_block` computes the same number, but `ipcio_open_block_read` overwrites it with the
size of the sub-block, so a transfer ends between two sub-blocks only.  `cut` is the stream cut at the
sizes of the transfers.  The byte loop always computes it; the block loop does so when the sizes are
`Aligned` with the sub-blocks, and only then. -/

namespace Psrdada

variable {κ κ' : Type}

/-- A function for whole sub-blocks that consumes each. -/
structure BlockConsumer (κ : Type) where
  /-- `io_block_function`. -/
  ioBlockFunction : Client κ → List UInt8 → ℤ × Client κ
  /-- It consumes the sub-block. -/
  consumes : ∀ c data, (ioBlockFunction c data).1 = data.length
  /-- It leaves the size of the transfer as `open_function` has set it. -/
  keepsSize : ∀ c data, (ioBlockFunction c data).2.transferBytes = c.transferBytes

/-- What a transfer delivers. -/
structure Delivery where
  /-- The bytes that the output consumed. -/
  bytes : List UInt8
  /-- `bytes_transfered`. -/
  count : ℤ
  /-- Whether end-of-data has been met. -/
  eod : Bool
  deriving DecidableEq

/-- The delivery of an I/O loop. -/
def IoResult.delivery (r : IoResult κ) : Delivery := ⟨takenBy r.calls, r.count, r.source.eod⟩

/-- Transfers of given sizes up to end-of-data, with `dada_client_io_loop`. -/
def transfersByBytes (F : Consumer κ) (bufferSize : ℕ) (hb : 0 < bufferSize) :
    List ℕ → Client κ → Source → List Delivery
  | [], _, _ => []
  | transferBytes :: sizes, c, s =>
    if s.eod = true then []
    else
      let r := ioLoop F.toFunctions bufferSize hb { c with transferBytes := transferBytes } s 0
      r.delivery :: transfersByBytes F bufferSize hb sizes r.client r.source

/-- Transfers of given sizes up to end-of-data, with `dada_client_io_loop_block`. -/
def transfersByBlocks (G : BlockConsumer κ) : List ℕ → Client κ → Source → List Delivery
  | [], _, _ => []
  | transferBytes :: sizes, c, s =>
    if s.eod = true then []
    else
      let r := ioLoopBlock G.ioBlockFunction { c with transferBytes := transferBytes } s 0
      r.delivery :: transfersByBlocks G sizes r.client r.source

/-- A stream cut at the sizes of the transfers: a size of 0 stands for all that is left. -/
def cut : List ℕ → List UInt8 → List Delivery
  | [], _ => []
  | transferBytes :: sizes, data =>
    if transferBytes = 0 ∨ data.length ≤ transferBytes then [⟨data, data.length, true⟩]
    else ⟨data.take transferBytes, transferBytes, false⟩ :: cut sizes (data.drop transferBytes)

/-- No output receives more than its size. -/
def Within (sizes : List ℕ) (deliveries : List Delivery) : Prop :=
  ∀ p ∈ sizes.zip deliveries, p.1 ≠ 0 → p.2.bytes.length ≤ p.1

/-- Sizes that are aligned with the sub-blocks of a stream of `length` bytes: a transfer takes all that
is left, or a smaller multiple of the size of a sub-block.  When it takes exactly what is left, the
sub-block that carries end-of-data must not be empty. -/
def Aligned (bufsz last : ℕ) : List ℕ → ℕ → Prop
  | [], _ => True
  | transferBytes :: sizes, length =>
    (transferBytes = 0 ∨ length < transferBytes ∨ (length = transferBytes ∧ last ≠ 0) ∨
      (transferBytes < length ∧ bufsz ∣ transferBytes)) ∧
    (transferBytes ≠ 0 → transferBytes < length → Aligned bufsz last sizes (length - transferBytes))

/-! ## The cut -/

theorem within_cut (sizes : List ℕ) (data : List UInt8) : Within sizes (cut sizes data) := by
  induction sizes generalizing data with
  | nil => simp [Within]
  | cons T sizes ih =>
    intro p hp hne
    rw [cut] at hp
    split at hp
    case isTrue h =>
      have hp' : p = (T, ⟨data, data.length, true⟩) := by simpa using hp
      subst hp'
      exact h.resolve_left hne
    case isFalse h =>
      rw [List.zip_cons_cons, List.mem_cons] at hp
      rcases hp with rfl | hp
      · exact List.length_take_le _ _
      · exact ih _ p hp hne

/-! ## The byte loop -/

section Bytes

variable (F : Consumer κ) (bufferSize : ℕ) (hb : 0 < bufferSize)

/-- One transfer with the byte loop. -/
theorem ioLoop_delivery {c : Client κ} {s : Source} (heod : s.eod = false) {r : IoResult κ}
    (hr : ioLoop F.toFunctions bufferSize hb c s 0 = r) :
    (c.transferBytes = 0 ∨ s.left.length ≤ c.transferBytes →
      r.delivery = ⟨s.left, s.left.length, true⟩) ∧
    (¬ (c.transferBytes = 0 ∨ s.left.length ≤ c.transferBytes) →
      r.delivery = ⟨s.left.take c.transferBytes, c.transferBytes, false⟩ ∧
        r.source.left = s.left.drop c.transferBytes) := by
  have hwants : c.wants 0 := by
    unfold Client.wants
    omega
  have hgiven := ioLoop_given F.toFunctions bufferSize hb c s 0
  have hcount := ioLoop_count F.toFunctions bufferSize hb c s 0
  have hsettled := ioLoop_settled F.toFunctions bufferSize hb c s 0 (.inr ⟨hwants, heod⟩)
  obtain ⟨htaken, hreported, hended, hbounded⟩ := ioLoop_consumer F bufferSize hb c s 0
  rw [hr] at hgiven hcount hsettled htaken hreported hended hbounded
  have hlen := congrArg List.length hgiven
  rw [List.length_append] at hlen
  have hdelivery : r.delivery = ⟨givenBy r.calls, (givenBy r.calls).length, r.source.eod⟩ := by
    rw [IoResult.delivery, htaken, hcount, ← hreported]
    simp
  constructor
  · intro hall
    have hnil : r.source.left = [] := by
      rcases hended with heod' | ⟨hT, hle⟩
      · exact Source.left_of_eod heod'
      · apply List.length_eq_zero_iff.mp
        omega
    rw [hnil, List.append_nil] at hgiven
    rw [hdelivery, hgiven, hsettled.mpr hnil]
  · intro hsome
    obtain ⟨hT, hlt⟩ := not_or.mp hsome
    have heq : (givenBy r.calls).length = c.transferBytes := by
      have := hbounded hT (Nat.zero_le _)
      rcases hended with heod' | ⟨-, hle⟩
      · rw [Source.left_of_eod heod', List.length_nil] at hlen
        omega
      · omega
    have htake : givenBy r.calls = s.left.take c.transferBytes := by
      rw [← hgiven, List.take_append_of_le_length (Nat.le_of_eq heq.symm), ← heq, List.take_length]
    have hdrop : r.source.left = s.left.drop c.transferBytes := by
      rw [← hgiven, List.drop_append_of_le_length (Nat.le_of_eq heq.symm), ← heq, List.drop_length,
        List.nil_append]
    have hne : r.source.eod = false := by
      rw [Bool.eq_false_iff]
      intro heod'
      rw [Source.left_of_eod heod', List.length_nil] at hlen
      omega
    refine ⟨?_, hdrop⟩
    rw [hdelivery, heq, htake, hne]

/-- The byte loop cuts the stream at the sizes of the transfers. -/
theorem transfersByBytes_eq_cut (sizes : List ℕ) (c : Client κ) {s : Source} (heod : s.eod = false) :
    transfersByBytes F bufferSize hb sizes c s = cut sizes s.left := by
  induction sizes generalizing c s with
  | nil => rfl
  | cons T sizes ih =>
    rw [transfersByBytes, if_neg (by simp [heod]), cut]
    obtain ⟨hall, hsome⟩ := ioLoop_delivery F bufferSize hb (c := { c with transferBytes := T }) heod rfl
    set r := ioLoop F.toFunctions bufferSize hb { c with transferBytes := T } s 0
    simp only []
    split
    case isTrue h =>
      have hd := hall h
      have hend : r.source.eod = true := congrArg Delivery.eod hd
      rw [hd]
      refine congrArg _ ?_
      cases sizes with
      | nil => rfl
      | cons T' sizes => rw [transfersByBytes, if_pos hend]
    case isFalse h =>
      obtain ⟨hd, hleft⟩ := hsome h
      have hne : r.source.eod = false := congrArg Delivery.eod hd
      rw [hd, ih r.client hne, hleft]

end Bytes

/-! ## The block loop -/

section Rounds

variable {f : Client κ → List UInt8 → ℤ × Client κ}

/-- One round of the block loop: the next sub-block is opened and given to the function, unless it is
empty. -/
theorem ioLoopBlock_between (c : Client κ) (b : List UInt8) (blocks : List (List UInt8)) (done : ℕ)
    (hw : c.wants done) :
    ioLoopBlock f c (.between (b :: blocks)) done =
      let (bytes, c') := if b.length ≠ 0 then f c b else (0, c)
      if bytes < 0 then ⟨done, [(b, bytes)], c', ⟨blocks, some b, 0, Nat.zero_le _⟩⟩
      else
        let rest := ioLoopBlock f c'
          (Source.ipcioCloseBlockRead ⟨blocks, some b, 0, Nat.zero_le _⟩ bytes.toNat).2 (done + bytes.toNat)
        { rest with calls := (b, bytes) :: rest.calls } := by
  rw [ioLoopBlock, if_pos hw, if_neg (by simp)]
  split
  case h_1 hopen => simp [Source.ipcioOpenBlockRead_between] at hopen
  case h_2 buffer s' hopen =>
    rw [Source.ipcioOpenBlockRead_between] at hopen
    obtain ⟨rfl, rfl⟩ := Prod.mk.inj (Option.some.inj hopen)
    rfl

/-- A round in which the sub-block is consumed. -/
theorem ioLoopBlock_consumed {c : Client κ} (c' : Client κ) {b : List UInt8} (blocks : List (List UInt8))
    {done : ℕ} (hw : c.wants done) (hcall : (if b.length ≠ 0 then f c b else (0, c)) = ((b.length : ℤ), c')) :
    ioLoopBlock f c (.between (b :: blocks)) done =
      { ioLoopBlock f c' (.between blocks) (done + b.length) with
        calls := (b, (b.length : ℤ)) :: (ioLoopBlock f c' (.between blocks) (done + b.length)).calls } := by
  rw [ioLoopBlock_between c b blocks done hw, hcall]
  have hpos : ¬ (b.length : ℤ) < 0 := by omega
  simp only [hpos, if_false, Int.toNat_natCast, Source.ipcioCloseBlockRead_whole]

/-- A round in which the function fails: the loop ends, and the sub-block stays open. -/
theorem ioLoopBlock_failed {c : Client κ} {b : List UInt8} (blocks : List (List UInt8)) {done : ℕ}
    (hw : c.wants done) (hb : b ≠ []) (hneg : (f c b).1 < 0) :
    ioLoopBlock f c (.between (b :: blocks)) done =
      ⟨done, [(b, (f c b).1)], (f c b).2, ⟨blocks, some b, 0, Nat.zero_le _⟩⟩ := by
  rw [ioLoopBlock_between c b blocks done hw, if_pos (by simpa using hb)]
  exact if_pos hneg

/-- Whatever the function does, it has been given the sub-block. -/
theorem calls_ioLoopBlock (c : Client κ) (b : List UInt8) (blocks : List (List UInt8)) (done : ℕ)
    (hw : c.wants done) :
    ∃ bytes calls, (ioLoopBlock f c (.between (b :: blocks)) done).calls = (b, bytes) :: calls := by
  rw [ioLoopBlock_between c b blocks done hw]
  generalize (if b.length ≠ 0 then f c b else (0, c)) = result
  by_cases hneg : result.1 < 0
  · exact ⟨result.1, [], by simp only [if_pos hneg]⟩
  · exact ⟨result.1, _, by simp only [if_neg hneg]; rfl⟩

/-- The loop does nothing when the transfer wants no more. -/
theorem ioLoopBlock_sated {c : Client κ} {done : ℕ} (h : ¬ c.wants done) (s : Source) :
    ioLoopBlock f c s done = ⟨done, [], c, s⟩ := by
  rw [ioLoopBlock, if_neg h]

/-- Nor at end-of-data. -/
theorem ioLoopBlock_nil (c : Client κ) (done : ℕ) :
    ioLoopBlock f c (.between []) done = ⟨done, [], c, .between []⟩ := by
  rw [ioLoopBlock]
  split
  · rfl
  · rfl

end Rounds

section Blocks

variable (G : BlockConsumer κ)

/-- One round of the block loop: the next sub-block is consumed whole. -/
theorem ioLoopBlock_cons (c : Client κ) (b : List UInt8) (blocks : List (List UInt8)) (done : ℕ)
    (hw : c.wants done) :
    ∃ c' : Client κ, c'.transferBytes = c.transferBytes ∧
      ioLoopBlock G.ioBlockFunction c (.between (b :: blocks)) done =
        { ioLoopBlock G.ioBlockFunction c' (.between blocks) (done + b.length) with
          calls := (b, (b.length : ℤ)) ::
            (ioLoopBlock G.ioBlockFunction c' (.between blocks) (done + b.length)).calls } := by
  by_cases hb : b.length = 0
  · exact ⟨c, rfl, ioLoopBlock_consumed c blocks hw (by simp [hb])⟩
  · refine ⟨(G.ioBlockFunction c b).2, G.keepsSize c b, ioLoopBlock_consumed _ blocks hw ?_⟩
    rw [if_pos hb, ← G.consumes c b]

/-- What the block loop does from the edge of a sub-block: it uses sub-blocks as long as the transfer
wants bytes. -/
theorem ioLoopBlock_uses (c : Client κ) (blocks : List (List UInt8)) (done : ℕ) :
    ∃ used rest, blocks = used ++ rest ∧
      (ioLoopBlock G.ioBlockFunction c (.between blocks) done).source = .between rest ∧
      takenBy (ioLoopBlock G.ioBlockFunction c (.between blocks) done).calls = used.flatten ∧
      (ioLoopBlock G.ioBlockFunction c (.between blocks) done).count = (done + used.flatten.length : ℕ) ∧
      (rest = [] ∨ ¬ c.wants (done + used.flatten.length)) ∧
      ∀ pre b, used = pre ++ [b] → c.wants (done + pre.flatten.length) := by
  induction blocks generalizing c done with
  | nil =>
    refine ⟨[], [], rfl, ?_, ?_, ?_, .inl rfl, by simp⟩
    all_goals
      rw [ioLoopBlock]
      split <;> simp [takenBy]
  | cons b blocks ih =>
    by_cases hw : c.wants done
    · obtain ⟨c', hc', hround⟩ := ioLoopBlock_cons G c b blocks done hw
      obtain ⟨used, rest, hblocks, hsource, htaken, hcount, hend, hmin⟩ := ih c' (done + b.length)
      have hwants (n : ℕ) : c'.wants n ↔ c.wants n := by rw [Client.wants, Client.wants, hc']
      have hlen (l : List (List UInt8)) :
          done + (b :: l).flatten.length = done + b.length + l.flatten.length := by
        simp only [List.flatten_cons, List.length_append]
        omega
      rw [hround]
      refine ⟨b :: used, rest, by rw [hblocks]; rfl, hsource, ?_, ?_, ?_, ?_⟩
      · simp only [takenBy, List.flatMap_cons, List.flatten_cons]
        refine congr (congrArg _ ?_) htaken
        simp [IoCall.taken]
      · rw [hlen]
        exact hcount
      · rw [hlen, ← hwants]
        exact hend
      · intro pre b' heq
        cases pre with
        | nil => exact hw
        | cons p pre =>
          obtain ⟨rfl, htail⟩ := List.cons_eq_cons.mp heq
          rw [hlen, ← hwants]
          exact hmin pre b' htail
    · have hstop : ioLoopBlock G.ioBlockFunction c (.between (b :: blocks)) done =
          ⟨done, [], c, .between (b :: blocks)⟩ := by rw [ioLoopBlock, if_neg hw]
      rw [hstop]
      exact ⟨[], b :: blocks, rfl, rfl, rfl, rfl, .inr (by simpa using hw), by simp⟩

/-- The length of full sub-blocks. -/
theorem length_flatten_full {bufsz : ℕ} {blocks : List (List UInt8)}
    (h : ∀ b ∈ blocks, b.length = bufsz) : blocks.flatten.length = bufsz * blocks.length := by
  induction blocks with
  | nil => rfl
  | cons b blocks ih =>
    rw [List.flatten_cons, List.length_append, h b List.mem_cons_self,
      ih fun b' hb' => h b' (List.mem_cons_of_mem _ hb'), List.length_cons, Nat.mul_succ, Nat.add_comm]

/-- Sub-blocks taken from the front of a stream: all of them, or some of the full ones, and then a stream
is left. -/
theorem DataStream.split_blocks {d : DataStream} {used rest : List (List UInt8)}
    (h : d.full ++ [d.last] = used ++ rest) :
    (rest = [] ∧ used = d.full ++ [d.last]) ∨
      ∃ d' : DataStream, d'.bufsz = d.bufsz ∧ d'.last = d.last ∧ rest = d'.full ++ [d'.last] ∧
        d.full = used ++ d'.full := by
  rcases List.eq_nil_or_concat' rest with rfl | ⟨rest', b, rfl⟩
  · exact .inl ⟨rfl, by rw [h, List.append_nil]⟩
  · rw [← List.append_assoc] at h
    obtain ⟨hfull, hlast⟩ := List.append_inj' h rfl
    obtain rfl : d.last = b := by simpa using hlast
    refine .inr ⟨⟨d.bufsz, d.bufsz_pos, rest', ?_, d.last, d.last_length⟩, rfl, rfl, rfl, hfull⟩
    intro b hb
    apply d.full_length
    rw [hfull]
    exact List.mem_append_right _ hb

/-- The length of a stream, from its sub-blocks. -/
theorem DataStream.length_data (d : DataStream) :
    d.data.length = d.bufsz * d.full.length + d.last.length := by
  rw [data, List.length_append, length_flatten_full d.full_length]

/-- One transfer with the block loop: whether it is the one that is wanted. -/
theorem ioLoopBlock_delivery {c : Client κ} {d : DataStream} {r : IoResult κ}
    (hr : ioLoopBlock G.ioBlockFunction c d.source 0 = r) :
    (c.transferBytes = 0 ∨ d.data.length ≤ c.transferBytes →
      (r.delivery = ⟨d.data, d.data.length, true⟩ ↔
        c.transferBytes = 0 ∨ d.data.length < c.transferBytes ∨ d.last.length ≠ 0)) ∧
    (¬ (c.transferBytes = 0 ∨ d.data.length ≤ c.transferBytes) →
      (r.delivery = ⟨d.data.take c.transferBytes, c.transferBytes, false⟩ ↔
        d.bufsz ∣ c.transferBytes) ∧
      (d.bufsz ∣ c.transferBytes → ∃ d' : DataStream, d'.bufsz = d.bufsz ∧ d'.last = d.last ∧
        r.source = d'.source ∧ d'.data = d.data.drop c.transferBytes)) := by
  obtain ⟨used, rest, hblocks, hsource, htaken, hcount, hend, hmin⟩ :=
    ioLoopBlock_uses G c (d.full ++ [d.last]) 0
  rw [DataStream.source] at hr
  rw [hr] at hsource htaken hcount
  have hlength := d.length_data
  have hlast := d.last_length
  simp only [Client.wants, Nat.zero_add] at hend hmin hcount
  have hdelivery : r.delivery = ⟨used.flatten, used.flatten.length, rest.isEmpty⟩ := by
    rw [IoResult.delivery, htaken, hcount, hsource, Source.eod_between]
  rw [hdelivery]
  rcases DataStream.split_blocks hblocks with ⟨rfl, rfl⟩ | ⟨d', hbufsz, hlast', rfl, hfull⟩
  · -- all sub-blocks are used: the transfer wanted more than the full ones
    have hwant := hmin d.full d.last rfl
    rw [length_flatten_full d.full_length] at hwant
    have hdata : (d.full ++ [d.last]).flatten = d.data := by simp [DataStream.data]
    rw [hdata]
    constructor
    · intro _
      refine iff_of_true rfl ?_
      omega
    · intro hsome
      have hnot : ¬ d.bufsz ∣ c.transferBytes := by
        rintro ⟨m, hm⟩
        have h1 : d.bufsz * d.full.length < d.bufsz * m := by omega
        have h2 : d.bufsz * m < d.bufsz * (d.full.length + 1) := by
          rw [Nat.mul_succ]
          omega
        have h3 := Nat.lt_of_mul_lt_mul_left h1
        have h4 := Nat.lt_of_mul_lt_mul_left h2
        omega
      refine ⟨iff_of_false ?_ hnot, fun h => absurd h hnot⟩
      intro heq
      have := congrArg Delivery.eod heq
      simp at this
  · -- some full sub-blocks are used
    have hused : used.flatten.length = d.bufsz * used.length := by
      apply length_flatten_full
      intro b hb
      apply d.full_length
      rw [hfull]
      exact List.mem_append_left _ hb
    have hpre : ∀ pre b, used = pre ++ [b] → pre.flatten.length = d.bufsz * pre.length := by
      intro pre b heq
      apply length_flatten_full
      intro b' hb'
      apply d.full_length
      rw [hfull, heq]
      exact List.mem_append_left _ (List.mem_append_left _ hb')
    have hle : d.bufsz * used.length ≤ d.bufsz * d.full.length := by
      apply Nat.mul_le_mul_left
      rw [hfull, List.length_append]
      exact Nat.le_add_right _ _
    have hreached := hend.resolve_left (by simp)
    rw [hused] at hreached
    have hdata : d.data = used.flatten ++ d'.data := by
      rw [DataStream.data, hfull, List.flatten_append, List.append_assoc, DataStream.data, hlast']
    have hne : (d'.full ++ [d'.last]).isEmpty = false := by simp
    rw [hne]
    constructor
    · intro hall
      refine iff_of_false ?_ ?_
      · intro heq
        have := congrArg Delivery.eod heq
        simp at this
      · omega
    · intro hsome
      have hexact : d.bufsz ∣ c.transferBytes → used.flatten.length = c.transferBytes := by
        rintro ⟨m, hm⟩
        rcases List.eq_nil_or_concat' used with rfl | ⟨pre, b, rfl⟩
        · simp only [List.length_nil, Nat.mul_zero] at hreached
          omega
        · have hwant := hmin pre b rfl
          rw [hpre pre b rfl] at hwant
          rw [hused]
          rw [List.length_append, List.length_singleton] at hreached ⊢
          have h1 : d.bufsz * pre.length < d.bufsz * m := by omega
          have h2 : d.bufsz * m ≤ d.bufsz * (pre.length + 1) := by omega
          have h3 := Nat.lt_of_mul_lt_mul_left h1
          have h4 := Nat.le_of_mul_le_mul_left h2 d.bufsz_pos
          rw [hm]
          congr 1
          omega
      refine ⟨⟨fun heq => ?_, fun hdvd => ?_⟩, fun hdvd => ⟨d', hbufsz, hlast', hsource, ?_⟩⟩
      · have hlen := congrArg Delivery.count heq
        simp only [Nat.cast_inj] at hlen
        exact ⟨used.length, by rw [← hlen, hused]⟩
      · rw [hdata, ← hexact hdvd, List.take_left]
      · rw [hdata, ← hexact hdvd, List.drop_left]

end Blocks

/-! ## The refinement -/

section Refinement

variable (F : Consumer κ) (G : BlockConsumer κ') (bufferSize : ℕ) (hb : 0 < bufferSize)

/-- The block loop cuts the stream at the sizes of the transfers when these are aligned, and only then. -/
theorem transfersByBlocks_eq_cut (sizes : List ℕ) (c : Client κ') (d : DataStream) :
    transfersByBlocks G sizes c d.source = cut sizes d.data ↔
      Aligned d.bufsz d.last.length sizes d.data.length := by
  induction sizes generalizing c d with
  | nil => simp [transfersByBlocks, cut, Aligned]
  | cons T sizes ih =>
    rw [transfersByBlocks, if_neg (by simp), cut, Aligned]
    obtain ⟨hall, hsome⟩ := ioLoopBlock_delivery G (c := { c with transferBytes := T }) (d := d) rfl
    set r := ioLoopBlock G.ioBlockFunction { c with transferBytes := T } d.source 0
    simp only [] at hall hsome ⊢
    by_cases h : T = 0 ∨ d.data.length ≤ T
    · rw [if_pos h, List.cons_eq_cons, hall h]
      constructor
      · rintro ⟨hd, -⟩
        exact ⟨by omega, by omega⟩
      · rintro ⟨hd, -⟩
        have hd' : T = 0 ∨ d.data.length < T ∨ d.last.length ≠ 0 := by omega
        have hend : r.source.eod = true := congrArg Delivery.eod ((hall h).mpr hd')
        refine ⟨hd', ?_⟩
        cases sizes with
        | nil => rfl
        | cons T' sizes => rw [transfersByBlocks, if_pos hend]
    · obtain ⟨hiff, hrest⟩ := hsome h
      rw [if_neg h, List.cons_eq_cons, hiff]
      have hcond : (T = 0 ∨ d.data.length < T ∨ (d.data.length = T ∧ d.last.length ≠ 0) ∨
          (T < d.data.length ∧ d.bufsz ∣ T)) ↔ d.bufsz ∣ T := by
        constructor
        · intro hor
          rcases hor with h1 | h1 | h1 | h1
          · omega
          · omega
          · omega
          · exact h1.2
        · intro hdvd
          exact .inr (.inr (.inr ⟨by omega, hdvd⟩))
      rw [hcond]
      have hT : T ≠ 0 := fun h0 => h (.inl h0)
      have hlt : T < d.data.length := Nat.not_le.mp fun hle => h (.inr hle)
      refine and_congr_right fun hdvd => ?_
      obtain ⟨d', hbufsz, hlast, hsource, hdata⟩ := hrest hdvd
      rw [hsource, ← hdata, ih, hbufsz, hlast, hdata, List.length_drop]
      constructor
      · exact fun hal _ _ => hal
      · intro hal
        exact hal hT hlt

end Refinement

/-! ## A transfer that ends within a sub-block -/

/-- A target that consumes everything. -/
def everything : Consumer Unit where
  openFunction c := (0, { c with quit := false })
  ioFunction c _ n := (n, c)
  ioBlockFunction := none
  closeFunction c _ := (0, c)
  opens _ := Int.le_refl _
  stays _ := rfl
  consumes _ _ _ := rfl
  keepsSize _ _ _ := rfl
  byBytes := rfl
  closes _ _ := Int.le_refl _

/-- The same for sub-blocks. -/
def everyBlock : BlockConsumer Unit where
  ioBlockFunction c data := (data.length, c)
  consumes _ _ := rfl
  keepsSize _ _ := rfl

/-- Eight bytes in two sub-blocks. -/
def twoBlocks : DataStream where
  bufsz := 4
  bufsz_pos := by decide
  full := [[1, 2, 3, 4]]
  full_length := by simp
  last := [5, 6, 7, 8]
  last_length := by decide

end Psrdada
