import Psrdada.Client.ClientLoops

/-! # Splitting a stream into outputs

`dada_client_read` opens one output after the other until end-of-data.  When the target consumes all that
it is given, the outputs are the stream cut at the sizes that `open_function` asks for: `Splits` says what
that means, and `dadaClientRead_splits` that it is so for every stream, every chunk size and every
sequence of sizes. -/

namespace Psrdada

open CString

variable {κ : Type}

/-! ## What an I/O loop does with any functions -/

/-- The data that calls were given. -/
def givenBy (calls : List IoCall) : List UInt8 := calls.flatMap IoCall.given

/-- The data that calls consumed. -/
def takenBy (calls : List IoCall) : List UInt8 := calls.flatMap IoCall.taken

/-- The number of bytes that calls reported. -/
def reportedBy (calls : List IoCall) : ℕ := (calls.map fun call => call.2.toNat).sum

section Loop

variable (F : Functions κ) (bufferSize : ℕ) (hb : 0 < bufferSize)

/-- The rounds of the I/O loop, as an induction rule: the loop ends, or a chunk is read and the function
is called, which fails or after which the loop goes on. -/
theorem ioLoop_induct {P : Client κ → Source → ℕ → IoResult κ → Prop}
    (stop : ∀ c s (done : ℕ), ¬ c.wants done ∨ s.eod = true → P c s done ⟨done, [], c, s⟩)
    (fail : ∀ c s (done : ℕ), c.wants done → s.eod = false →
      (ioRound F bufferSize c s done).call.2 < 0 →
      P c s done ⟨done, [(ioRound F bufferSize c s done).call],
        (ioRound F bufferSize c s done).client, (ioRound F bufferSize c s done).source⟩)
    (next : ∀ c s (done : ℕ) (rest : IoResult κ), c.wants done → s.eod = false →
      0 ≤ (ioRound F bufferSize c s done).call.2 →
      P (ioRound F bufferSize c s done).client (ioRound F bufferSize c s done).source
        (done + (ioRound F bufferSize c s done).call.2.toNat) rest →
      P c s done { rest with calls := (ioRound F bufferSize c s done).call :: rest.calls })
    (c : Client κ) (s : Source) (done : ℕ) : P c s done (ioLoop F bufferSize hb c s done) := by
  induction hm : s.size using Nat.strong_induction_on generalizing c s done with
  | _ m ih =>
    subst hm
    rw [ioLoop]
    by_cases hw : c.wants done
    · rw [dif_pos hw]
      by_cases heod : s.eod = true
      · rw [dif_pos heod]
        exact stop c s done (.inr heod)
      · rw [dif_neg heod]
        have heod' : s.eod = false := by simpa using heod
        by_cases hneg : (ioRound F bufferSize c s done).call.2 < 0
        · rw [if_pos hneg]
          exact fail c s done hw heod' hneg
        · rw [if_neg hneg]
          refine next c s done _ hw heod' (by omega) (ih _ ?_ _ _ _ rfl)
          exact s.size_ipcioRead heod' (Client.chunk_pos hb hw)
    · rw [dif_neg hw]
      exact stop c s done (.inl hw)

omit F in
/-- The I/O loop calls `io_function` and no other function. -/
theorem ioLoop_congr {F G : Functions κ} (h : F.ioFunction = G.ioFunction) (c : Client κ) (s : Source)
    (done : ℕ) : ioLoop G bufferSize hb c s done = ioLoop F bufferSize hb c s done := by
  have hround (c : Client κ) (s : Source) (done : ℕ) :
      ioRound G bufferSize c s done = ioRound F bufferSize c s done := by
    rw [ioRound, ioRound, h]
  induction c, s, done using ioLoop_induct F bufferSize hb with
  | stop c s done hstop =>
    rw [ioLoop]
    split_ifs with hw heod
    · rfl
    · exact absurd hstop (not_or.mpr ⟨not_not_intro hw, heod⟩)
    · rfl
  | fail c s done hw heod hneg =>
    rw [ioLoop, dif_pos hw, dif_neg (by simp [heod]), hround]
    exact if_pos hneg
  | next c s done rest hw heod hpos ih =>
    rw [ioLoop, dif_pos hw, dif_neg (by simp [heod]), hround]
    simp only [if_neg (Int.not_lt.mpr hpos), ih]

/-- A round takes a chunk from the front of what is left. -/
theorem ioRound_spec {s : Source} (heod : s.eod = false) (c : Client κ) (done : ℕ) :
    (ioRound F bufferSize c s done).call.given ++ (ioRound F bufferSize c s done).source.left = s.left ∧
      (ioRound F bufferSize c s done).call.given = s.left.take (c.chunk bufferSize done) ∧
      (ioRound F bufferSize c s done).source.Settled := by
  obtain ⟨hdata, hleft, hsettled⟩ := Source.ipcioRead_spec heod (c.chunk bufferSize done)
  refine ⟨?_, hdata, hsettled⟩
  show (s.ipcioRead _).1 ++ (s.ipcioRead _).2.left = _
  rw [hdata, hleft, List.take_append_drop]

/-- What the calls are given is what leaves the data block. -/
theorem ioLoop_given (c : Client κ) (s : Source) (done : ℕ) :
    givenBy (ioLoop F bufferSize hb c s done).calls ++ (ioLoop F bufferSize hb c s done).source.left =
      s.left := by
  induction c, s, done using ioLoop_induct F bufferSize hb with
  | stop c s done _ => rfl
  | fail c s done _ heod _ =>
    simpa [givenBy] using (ioRound_spec F bufferSize heod c done).1
  | next c s done rest _ heod _ ih =>
    show givenBy (_ :: rest.calls) ++ rest.source.left = _
    rw [givenBy, List.flatMap_cons, List.append_assoc]
    exact (congrArg _ ih).trans (ioRound_spec F bufferSize heod c done).1

/-- The loop counts what the calls report. -/
theorem ioLoop_count (c : Client κ) (s : Source) (done : ℕ) :
    (ioLoop F bufferSize hb c s done).count =
      done + reportedBy (ioLoop F bufferSize hb c s done).calls := by
  induction c, s, done using ioLoop_induct F bufferSize hb with
  | stop c s done _ => simp [reportedBy]
  | fail c s done _ _ hneg =>
    have : (ioRound F bufferSize c s done).call.2.toNat = 0 := by omega
    simp [reportedBy, this]
  | next c s done rest _ _ _ ih =>
    show rest.count = _
    rw [ih]
    simp only [reportedBy, List.map_cons, List.sum_cons]
    omega

/-- Once a chunk has been read, the data block is settled. -/
theorem ioLoop_settled (c : Client κ) (s : Source) (done : ℕ)
    (h : s.Settled ∨ c.wants done ∧ s.eod = false) :
    (ioLoop F bufferSize hb c s done).source.Settled := by
  induction c, s, done using ioLoop_induct F bufferSize hb with
  | stop c s done hstop =>
    rcases h with h | ⟨hw, heod⟩
    · exact h
    · simp [hw, heod] at hstop
  | fail c s done _ heod _ => exact (ioRound_spec F bufferSize heod c done).2.2
  | next c s done rest _ heod _ ih => exact ih (.inl (ioRound_spec F bufferSize heod c done).2.2)

end Loop

/-! ## A target that consumes everything -/

/-- Functions that consume all that they are given, byte by byte, and do not fail. -/
structure Consumer (κ : Type) extends Functions κ where
  /-- `open_function` succeeds. -/
  opens : ∀ c, 0 ≤ (openFunction c).1
  /-- `open_function` does not ask to quit. -/
  stays : ∀ c, (openFunction c).2.quit = false
  /-- `io_function` consumes all that it is given. -/
  consumes : ∀ c p (n : ℕ), (ioFunction c p n).1 = n
  /-- `io_function` leaves the size of the transfer as `open_function` has set it. -/
  keepsSize : ∀ c p n, (ioFunction c p n).2.transferBytes = c.transferBytes
  /-- There is no function for whole sub-blocks. -/
  byBytes : ioBlockFunction = none
  /-- `close_function` succeeds. -/
  closes : ∀ c n, 0 ≤ (closeFunction c n).1

/-- What an I/O loop with a target that consumes everything does: it takes what it is given, until
end-of-data or the size of the transfer. -/
structure Consumed (c : Client κ) (done : ℕ) (r : IoResult κ) : Prop where
  /-- All is consumed. -/
  taken : takenBy r.calls = givenBy r.calls
  /-- All is reported. -/
  reported : reportedBy r.calls = (givenBy r.calls).length
  /-- The loop ends for a reason. -/
  ended : r.source.eod = true ∨ c.transferBytes ≠ 0 ∧ c.transferBytes ≤ done + reportedBy r.calls
  /-- The loop does not go past the size of the transfer. -/
  bounded : c.transferBytes ≠ 0 → done ≤ c.transferBytes →
    done + reportedBy r.calls ≤ c.transferBytes

section Consume

variable (F : Consumer κ) (bufferSize : ℕ) (hb : 0 < bufferSize)

/-- A round consumes its chunk. -/
theorem ioRound_consumer {s : Source} (heod : s.eod = false) (c : Client κ) (done : ℕ) :
    (ioRound F.toFunctions bufferSize c s done).call.2 =
        (ioRound F.toFunctions bufferSize c s done).call.given.length ∧
      (ioRound F.toFunctions bufferSize c s done).client.transferBytes = c.transferBytes ∧
      (c.transferBytes ≠ 0 →
        (ioRound F.toFunctions bufferSize c s done).call.given.length ≤ c.transferBytes - done) := by
  refine ⟨F.consumes _ _ _, F.keepsSize _ _ _, fun hT => ?_⟩
  rw [(ioRound_spec F.toFunctions bufferSize heod c done).2.1, List.length_take]
  unfold Client.chunk
  split_ifs
  all_goals omega

theorem ioLoop_consumer (c : Client κ) (s : Source) (done : ℕ) :
    Consumed c done (ioLoop F.toFunctions bufferSize hb c s done) := by
  induction c, s, done using ioLoop_induct F.toFunctions bufferSize hb with
  | stop c s done hstop =>
    refine ⟨rfl, rfl, ?_, fun _ h => h⟩
    rcases hstop with hw | heod
    · unfold Client.wants at hw
      exact .inr (by simpa [reportedBy] using hw)
    · exact .inl heod
  | fail c s done _ heod hneg =>
    rw [(ioRound_consumer F bufferSize heod c done).1] at hneg
    omega
  | next c s done rest _ heod _ ih =>
    obtain ⟨hall, hsize, hchunk⟩ := ioRound_consumer F bufferSize heod c done
    obtain ⟨htaken, hreported, hended, hbounded⟩ := ih
    rw [hsize, hall] at hended hbounded
    set call := (ioRound F.toFunctions bufferSize c s done).call
    have htake : call.taken = call.given := by
      rw [IoCall.taken, hall]
      exact List.take_of_length_le (by simp [IoCall.given])
    have hreport : reportedBy (call :: rest.calls) = call.given.length + reportedBy rest.calls := by
      simp [reportedBy, hall]
    have hgiven : (givenBy (call :: rest.calls)).length =
        call.given.length + (givenBy rest.calls).length := by
      simp [givenBy]
    refine ⟨?_, ?_, ?_, ?_⟩
    · show takenBy (call :: rest.calls) = givenBy (call :: rest.calls)
      rw [takenBy, givenBy, List.flatMap_cons, List.flatMap_cons, htake]
      exact congrArg _ htaken
    · show reportedBy (call :: rest.calls) = (givenBy (call :: rest.calls)).length
      rw [hreport, hgiven, hreported]
    · show rest.source.eod = true ∨ _ ∧ _ ≤ done + reportedBy (call :: rest.calls)
      rw [hreport]
      refine hended.imp_right (And.imp_right ?_)
      simp only [Int.toNat_natCast]
      omega
    · intro hT hle
      show done + reportedBy (call :: rest.calls) ≤ _
      rw [hreport]
      have := hchunk hT
      have := hbounded hT (by simp only [Int.toNat_natCast]; omega)
      simp only [Int.toNat_natCast] at this
      omega

end Consume

/-! ## One transfer -/

/-- What a transfer does with a target that consumes everything: the output takes data from the front of
what is left, up to end-of-data or to the size it has asked for. -/
structure Delivers (c : Client κ) (s : Source) (r : TransferResult κ) : Prop where
  /-- The result is the number of bytes that were taken. -/
  count : r.count = r.output.taken.length
  /-- The header is the one that the client had. -/
  header : r.output.header = c.header
  /-- The data is taken from the data block. -/
  taken : r.output.taken ++ r.source.left = s.left
  /-- The data block is settled. -/
  settled : r.source.Settled
  /-- The output has the size that was asked for, unless the data has ended. -/
  full : r.source.eod = true ∨ r.output.taken.length = r.output.transferBytes
  /-- Something is taken, unless there is nothing left. -/
  nonempty : s.left ≠ [] → r.output.taken ≠ []

/-- The I/O loop of a transfer runs with some positive chunk size. -/
theorem runLoop_of_byBytes {F : Functions κ} (h : F.ioBlockFunction = none) (c : Client κ)
    (s : Source) : ∃ bufferSize, ∃ hb : 0 < bufferSize, ∃ c' : Client κ,
      runLoop F c s = ioLoop F bufferSize hb c' s 0 ∧
        (c' = c ∨ c' = { c with optimalBytes := defaultBlockSize }) := by
  unfold runLoop
  rw [h]
  by_cases hpos : 0 < c.optimalBytes
  · exact ⟨c.optimalBytes, hpos, c, by simp [hpos], .inl rfl⟩
  · exact ⟨defaultBlockSize, by decide, _, by simp [hpos], .inr rfl⟩

theorem asUnsigned_natCast (n : ℕ) : asUnsigned n = n := by
  have : ¬ (n : ℤ) < 0 := by omega
  simp [asUnsigned, this]

/-- A transfer without a function for sub-blocks depends on what is opened and on the functions that are
called from then on. -/
theorem dadaClientTransfer_congr {F G : Functions κ} {c : Client κ}
    (hopen : F.openFunction c = G.openFunction c) (hio : F.ioFunction = G.ioFunction)
    (hF : F.ioBlockFunction = none) (hG : G.ioBlockFunction = none)
    (hclose : F.closeFunction = G.closeFunction) (s : Source) :
    dadaClientTransfer F c s = dadaClientTransfer G c s := by
  have hsend : sendHeader F = sendHeader G := by
    funext c
    rw [sendHeader, sendHeader, hio]
  have hrun : runLoop F = runLoop G := by
    funext c s
    unfold runLoop
    simp only [hF, hG, ioLoop_congr _ _ hio]
  rw [dadaClientTransfer, dadaClientTransfer, hopen, hsend, hrun, hclose]

/-- The header is consumed as well. -/
theorem sendHeader_consumer (F : Consumer κ) (c : Client κ) :
    (sendHeader F.toFunctions c).1 = c.headerSize ∧
      (sendHeader F.toFunctions c).2.transferBytes = c.transferBytes := by
  unfold sendHeader
  split
  · exact ⟨F.consumes _ _ _, F.keepsSize _ _ _⟩
  · exact ⟨rfl, rfl⟩

theorem dadaClientTransfer_consumer (F : Consumer κ) (c : Client κ) {s : Source}
    (heod : s.eod = false) : Delivers c s (dadaClientTransfer F.toFunctions c s) := by
  unfold dadaClientTransfer
  simp only []
  obtain ⟨hsent, hsentSize⟩ := sendHeader_consumer F (F.openFunction c).2
  have hopen : ¬ (F.openFunction c).1 < 0 := Int.not_lt.mpr (F.opens c)
  have hclose (c : Client κ) (n : ℕ) : ¬ (F.closeFunction c n).1 < 0 := Int.not_lt.mpr (F.closes c n)
  have hquit : ¬ (F.openFunction c).2.quit = true := by simp [F.stays]
  have hheader : ¬ asUnsigned (sendHeader F.toFunctions (F.openFunction c).2).1 <
      (F.openFunction c).2.headerSize := by
    rw [hsent, asUnsigned_natCast]
    exact Nat.lt_irrefl _
  rw [if_neg hopen, if_neg hquit, if_neg hheader, if_neg (hclose _ _)]
  obtain ⟨bufferSize, hb, c', hrun, hwith⟩ :=
    runLoop_of_byBytes F.byBytes (sendHeader F.toFunctions (F.openFunction c).2).2 s
  rw [hrun]
  have hsize : c'.transferBytes = (sendHeader F.toFunctions (F.openFunction c).2).2.transferBytes := by
    rcases hwith with rfl | rfl <;> rfl
  have hwants : c'.wants 0 := by
    unfold Client.wants
    omega
  have hgiven := ioLoop_given F.toFunctions bufferSize hb c' s 0
  have hcount := ioLoop_count F.toFunctions bufferSize hb c' s 0
  have hsettled := ioLoop_settled F.toFunctions bufferSize hb c' s 0 (.inr ⟨hwants, heod⟩)
  obtain ⟨htaken, hreported, hended, hbounded⟩ := ioLoop_consumer F bufferSize hb c' s 0
  set r := ioLoop F.toFunctions bufferSize hb c' s 0
  have hlen : (takenBy r.calls).length = reportedBy r.calls := by rw [htaken, hreported]
  rw [hsize, hsentSize] at hended hbounded
  refine ⟨?_, rfl, ?_, hsettled, ?_, ?_⟩
  · show r.count = (takenBy r.calls).length
    rw [hcount, hlen]
    simp
  · show takenBy r.calls ++ r.source.left = s.left
    rw [htaken, hgiven]
  · show r.source.eod = true ∨ (takenBy r.calls).length = (F.openFunction c).2.transferBytes
    refine hended.imp_right fun ⟨hT, hle⟩ => ?_
    have := hbounded hT (Nat.zero_le _)
    omega
  · intro hleft hnil
    have hnil' : takenBy r.calls = [] := hnil
    rcases hended with heod' | ⟨hT, hle⟩
    · rw [htaken] at hnil'
      rw [hnil', Source.left_of_eod heod'] at hgiven
      exact hleft hgiven.symm
    · rw [hnil', List.length_nil] at hlen
      omega

/-- A transfer makes progress. -/
theorem Delivers.size_lt {c : Client κ} {s : Source} {r : TransferResult κ} (h : Delivers c s r)
    (heod : s.eod = false) : r.source.size < s.size := by
  have hlen := congrArg List.length h.taken
  rw [List.length_append] at hlen
  rw [Source.size, Source.size, heod]
  by_cases htaken : r.output.taken = []
  · have hleft : s.left = [] := by
      by_contra hne
      exact h.nonempty hne htaken
    have hend : r.source.eod = true := h.settled.mpr (by
      have := h.taken
      rw [htaken, hleft] at this
      exact this)
    simp [hend, Source.left_of_eod hend]
  · have := List.length_pos_iff.mpr htaken
    simp only [Bool.false_eq_true, if_false]
    split
    all_goals omega

/-! ## The outputs -/

/-- The data that outputs consumed. -/
def takenIn (outputs : List ReadOutput) : List UInt8 := outputs.flatMap fun o => o.taken

/-- The outputs are the stream, cut at the sizes that were asked for. -/
structure Splits (initial : ℕ) (data : List UInt8) (outputs : List ReadOutput) : Prop where
  /-- The outputs, one after the other, are the stream. -/
  concat : takenIn outputs = data
  /-- Every output but the last has the size that was asked for. -/
  exact : ∀ o ∈ outputs.dropLast, o.taken.length = o.transferBytes
  /-- No output is empty, unless the stream is. -/
  nonempty : data ≠ [] → ∀ o ∈ outputs, o.taken ≠ []
  /-- The offset in the header of an output is that of its first byte. -/
  offset : ∀ pre o post, outputs = pre ++ o :: post →
    o.obsOffset = initial + (takenIn pre).length ∧
      ∃ text, o.header = asciiHeaderSet text obsOffsetKey (decimal o.obsOffset)

/-- A first output in front of others that start where it ends. -/
theorem Splits.cons {initial : ℕ} {o : ReadOutput} {data : List UInt8} {outputs : List ReadOutput}
    (hoffset : o.obsOffset = initial)
    (hheader : ∃ text, o.header = asciiHeaderSet text obsOffsetKey (decimal o.obsOffset))
    (hfull : outputs = [] ∨ o.taken.length = o.transferBytes)
    (hrest : outputs = [] ∨ data ≠ []) (hne : o.taken ++ data ≠ [] → o.taken ≠ [])
    (h : Splits (initial + o.taken.length) data outputs) :
    Splits initial (o.taken ++ data) (o :: outputs) := by
  refine ⟨?_, ?_, ?_, ?_⟩
  · rw [takenIn, List.flatMap_cons]
    exact congrArg _ h.concat
  · intro o' ho'
    cases outputs with
    | nil => simp at ho'
    | cons o₂ outputs =>
      rw [List.dropLast_cons_of_ne_nil (List.cons_ne_nil _ _), List.mem_cons] at ho'
      rcases ho' with rfl | ho'
      · exact hfull.resolve_left (List.cons_ne_nil _ _)
      · exact h.exact o' ho'
  · intro hdata o' ho'
    rcases List.mem_cons.mp ho' with rfl | ho'
    · exact hne hdata
    · exact h.nonempty (hrest.resolve_left (List.ne_nil_of_mem ho')) o' ho'
  · intro pre o' post heq
    cases pre with
    | nil =>
      obtain ⟨rfl, -⟩ := List.cons_eq_cons.mp heq
      exact ⟨by simpa [takenIn] using hoffset, hheader⟩
    | cons p pre =>
      obtain ⟨rfl, htail⟩ := List.cons_eq_cons.mp heq
      obtain ⟨hat, htext⟩ := h.offset pre o' post htail
      refine ⟨?_, htext⟩
      rw [hat, takenIn, takenIn, List.flatMap_cons, List.length_append, Nat.add_assoc]

/-- The transfers up to end-of-data, from a place where the data block is settled or nothing has been read
yet. -/
theorem readLoop_splits (F : Consumer κ) (fuel : ℕ) (c : Client κ) (s : Source) (obsOffset : ℕ) :
    (s.size < fuel → (readLoop F.toFunctions fuel c s obsOffset).isSome) ∧
      ∀ r, readLoop F.toFunctions fuel c s obsOffset = some r →
        r.status = 0 ∧ r.source.eod = true ∧ (s.eod = true → r.outputs = []) ∧
          Splits obsOffset s.left r.outputs := by
  induction fuel generalizing c s obsOffset with
  | zero =>
    refine ⟨fun h => absurd h (Nat.not_lt_zero _), fun r h => ?_⟩
    simp [readLoop] at h
  | succ fuel ih =>
    rw [readLoop]
    by_cases heod : s.eod = true
    · rw [if_pos heod]
      refine ⟨fun _ => rfl, fun r hr => ?_⟩
      obtain rfl := Option.some.inj hr
      refine ⟨rfl, heod, fun _ => rfl, ?_⟩
      rw [Source.left_of_eod heod]
      exact ⟨rfl, by simp, by simp, by simp⟩
    · rw [if_neg heod]
      have heod' : s.eod = false := by simpa using heod
      have hd := dadaClientTransfer_consumer F
        { c with header := asciiHeaderSet c.header obsOffsetKey (decimal obsOffset) } heod'
      set t := dadaClientTransfer F.toFunctions
        { c with header := asciiHeaderSet c.header obsOffsetKey (decimal obsOffset) } s
      simp only []
      rw [if_neg (by rw [hd.count]; omega)]
      obtain ⟨hsome, hsplit⟩ := ih t.client t.source (obsOffset + t.count.toNat)
      constructor
      · intro hsize
        rw [Option.isSome_map]
        have := hd.size_lt heod'
        exact hsome (by omega)
      · intro r hr
        obtain ⟨rest, hrest, rfl⟩ := Option.map_eq_some_iff.mp hr
        obtain ⟨hstatus, hend, hnil, hsplits⟩ := hsplit rest hrest
        refine ⟨hstatus, hend, fun h => absurd h heod, ?_⟩
        show Splits obsOffset s.left (⟨t.output, obsOffset⟩ :: rest.outputs)
        have hcount : t.count.toNat = t.output.taken.length := by rw [hd.count]; simp
        rw [hcount] at hsplits
        rw [← hd.taken]
        refine Splits.cons (o := ⟨t.output, obsOffset⟩) rfl ⟨c.header, hd.header⟩ ?_ ?_
          (fun h => hd.nonempty (hd.taken ▸ h)) hsplits
        · exact hd.full.imp_left hnil
        · rcases Bool.eq_false_or_eq_true t.source.eod with h | h
          · exact .inl (hnil h)
          · refine .inr fun hleft => ?_
            rw [hd.settled.mpr hleft] at h
            simp at h

end Psrdada
