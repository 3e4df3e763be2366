import Mathlib.Data.List.Forall2
import Psrdada.Client.BlockLoop
import Psrdada.Client.Offsets
import Psrdada.Dbcopydb.Dbcopydb

/-! # What the outputs of `dada_dbcopydb` get

All outputs go through the same states, so what is known of one is known of each in the loop over them.
With the function for bytes every output gets the stream cut at the sizes of the transfers.  With the
function for sub-blocks, a block that is full at the end of a declared transfer is only updated, and then
no call closes it; nor can a transfer end within a sub-block. -/

namespace Psrdada

open CString

namespace Dbcopydb

/-! ## The loop over the outputs -/

section Outputs

variable {R S : OutputHdu → OutputHdu → Prop} {body : OutputHdu → ℤ × OutputHdu}

/-- What a step does with one output, the loop does with all. -/
theorem eachOutput_forall₂ (h : ∀ o o₀, R o o₀ → (body o).1 = 0 ∧ S (body o).2 o₀)
    {outputs initial : List OutputHdu} (hR : List.Forall₂ R outputs initial) :
    (eachOutput body outputs).1 = 0 ∧ List.Forall₂ S (eachOutput body outputs).2 initial := by
  induction hR with
  | nil => exact ⟨rfl, .nil⟩
  | cons hhead _ ih =>
    obtain ⟨hok, hdone⟩ := h _ _ hhead
    have hpos : ¬ (body _).1 < 0 := Int.not_lt.mpr (Int.le_of_eq hok.symm)
    rw [eachOutput, if_neg hpos]
    exact ⟨ih.1, .cons hdone ih.2⟩

/-- The loop fails when the step with one output fails. -/
theorem eachOutput_neg {outputs initial : List OutputHdu} (hR : List.Forall₂ R outputs initial)
    {o₀ : OutputHdu} (ho₀ : o₀ ∈ initial) (h : ∀ o, R o o₀ → (body o).1 < 0) :
    (eachOutput body outputs).1 < 0 := by
  induction hR with
  | nil => exact absurd ho₀ List.not_mem_nil
  | @cons o o' outputs initial hhead _ ih =>
    by_cases hneg : (body o).1 < 0
    · rw [eachOutput, if_pos hneg]
      exact minus_one_neg
    · rw [eachOutput, if_neg hneg]
      rcases List.mem_cons.mp ho₀ with rfl | ho₀
      · exact absurd (h o hhead) hneg
      · exact ih ho₀

end Outputs

/-! ## The states of an output -/

section States

variable (done : List (List UInt8))

/-- Between two transfers, of which `done` have been made. -/
structure Idle (o o₀ : OutputHdu) : Prop where
  /-- The ring has got the transfers. -/
  sink : o.sink.Idle (o₀.sink.transfers ++ done)
  /-- No block is open. -/
  blockOpen : o.blockOpen = false

/-- In a transfer of which `data` has been written. -/
structure Writing (data : List UInt8) (o o₀ : OutputHdu) : Prop where
  /-- The ring has got the data. -/
  sink : o.sink.Writing (o₀.sink.transfers ++ done) data
  /-- No block is open. -/
  blockOpen : o.blockOpen = false

/-- A short block is open with the last bytes of a transfer. -/
structure Short (data chunk : List UInt8) (o o₀ : OutputHdu) : Prop where
  /-- The block holds the bytes. -/
  sink : o.sink.Holding (o₀.sink.transfers ++ done) data chunk
  /-- It is open. -/
  blockOpen : o.blockOpen = true
  /-- They are counted. -/
  bytesWritten : o.bytesWritten = chunk.length
  /-- They do not fill it. -/
  short : chunk.length < o.sink.bufsz

/-- Closing the output never returns. -/
structure Stuck (o : OutputHdu) : Prop where
  /-- Closing the ring does not. -/
  sink : o.sink.ipcioClose = none
  /-- No block is open for the program. -/
  blockOpen : o.blockOpen = false

/-- Between two blocks that are written directly. -/
structure Between (bufsz : ℕ) (o : OutputHdu) : Prop where
  /-- No block is open. -/
  curbuf : o.sink.curbuf = none
  /-- Nothing is counted. -/
  bytesWritten : o.bytesWritten = 0
  /-- The block size is that of the ring. -/
  blockSize : o.blockSize = bufsz
  /-- The rings agree in it. -/
  bufsz_eq : o.sink.bufsz = bufsz
  /-- One block can be opened. -/
  nbufs : 2 ≤ o.sink.nbufs

variable {done} {data chunk : List UInt8} {o o₀ : OutputHdu}

/-- An output whose block has been closed gives the ring back. -/
theorem closeOutput_of_closed {o' : OutputHdu} (h : closeBlock o = (0, o')) :
    closeOutput o = unlockWrite o' := by
  rw [closeOutput, h]
  exact if_neg (Int.lt_irrefl 0)

theorem closeBlock_of_closed (h : o.blockOpen = false) : closeBlock o = (0, o) :=
  if_neg (by rw [h]; exact Bool.false_ne_true)

theorem Idle.lock (h : Idle done o o₀) :
    (lockWrite o).1 = 0 ∧ Writing done [] (lockWrite o).2 o₀ := by
  obtain ⟨sink, hopen, hwriting, -⟩ := h.sink.ipcioOpen
  rw [lockWrite, hopen]
  exact ⟨rfl, hwriting, h.blockOpen⟩

theorem Writing.write (h : Writing done data o o₀) (more : List UInt8) :
    Writing done (data ++ more) { o with sink := (o.sink.ipcioWrite more).2 } o₀ :=
  ⟨h.sink.ipcioWrite more, h.blockOpen⟩

/-- Closing the ring ends the transfer. -/
theorem Writing.close (h : Writing done data o o₀) (hne : data ≠ []) :
    (closeOutput o).1 = 0 ∧ Idle (done ++ [data]) (closeOutput o).2 o₀ := by
  obtain ⟨sink, hclose, hidle⟩ := h.sink.ipcioClose hne
  rw [closeOutput_of_closed (closeBlock_of_closed h.blockOpen), unlockWrite, hclose]
  refine ⟨rfl, ?_, h.blockOpen⟩
  rwa [List.append_assoc] at hidle

/-- A transfer without data leaves no trace. -/
theorem Writing.close_nil (h : Writing done [] o o₀) :
    (closeOutput o).1 = 0 ∧ Idle done (closeOutput o).2 o₀ := by
  obtain ⟨sink, hclose, hidle⟩ := h.sink.ipcioClose_nil
  rw [closeOutput_of_closed (closeBlock_of_closed h.blockOpen), unlockWrite, hclose]
  exact ⟨rfl, hidle, h.blockOpen⟩

/-- A short block is closed, which ends the transfer. -/
theorem Short.close (h : Short done data chunk o o₀) :
    (closeOutput o).1 = 0 ∧ Idle (done ++ [data ++ chunk]) (closeOutput o).2 o₀ := by
  obtain ⟨ended, hshort, hended⟩ := h.sink.close_short h.short
  obtain ⟨sink, hclose, hidle⟩ := hended.ipcioClose
  have hblock : closeBlock o = (0, { o with sink := ended, blockOpen := false, bytesWritten := 0 }) := by
    rw [closeBlock, if_pos h.blockOpen, h.bytesWritten, hshort]
    exact if_neg (Int.lt_irrefl 0)
  rw [closeOutput_of_closed hblock, unlockWrite]
  simp only [hclose]
  refine ⟨trivial, ?_, rfl⟩
  rwa [List.append_assoc] at hidle

theorem Stuck.close (h : Stuck o) : (closeOutput o).1 < 0 := by
  rw [closeOutput_of_closed (closeBlock_of_closed h.blockOpen), unlockWrite, h.sink]
  exact minus_one_neg

end States

/-! ## The calls of the client -/

section Calls

variable (zeroCopy : Bool) {initial : List OutputHdu} {R S : OutputHdu → OutputHdu → Prop}

/-- A transfer whose header is not given to the target, once the target has been opened. -/
theorem dadaClientTransfer_of_open {κ : Type} {F : Functions κ} {c c₁ : Client κ}
    (hopen : F.openFunction c = (0, c₁)) (hquit : c₁.quit = false) (hheader : c₁.headerTransfer = false)
    (s : Source) :
    dadaClientTransfer F c s =
      let result := runLoop F c₁ s
      let closed := F.closeFunction result.client (asUnsigned result.count)
      let output : Output := ⟨c.header, c₁.transferBytes, result.calls, some closed.1⟩
      ⟨if closed.1 < 0 then -1 else result.count, output, closed.2, result.source⟩ := by
  have hsend : sendHeader F c₁ = ((c₁.headerSize : ℤ), c₁) := by
    rw [sendHeader, hheader]
    rfl
  rw [dadaClientTransfer]
  simp only [hopen, hsend, hquit, asUnsigned_natCast]
  rw [if_neg (Int.lt_irrefl 0), if_neg Bool.false_ne_true, if_neg (Nat.lt_irrefl _)]
  split
  · rfl
  · rfl

/-- A transfer, once the outputs have been opened. -/
theorem dadaClientTransfer_opened (hlock : ∀ o o₀, R o o₀ → (lockWrite o).1 = 0 ∧ S (lockWrite o).2 o₀)
    {c : Client Ctx} (hR : List.Forall₂ R c.context.outputs initial) (hquit : c.quit = false) (s : Source) :
    ∃ c₁ : Client Ctx, List.Forall₂ S c₁.context.outputs initial ∧ c₁.quit = false ∧
      c₁.transferBytes = transferSizeOf c.header ∧ 0 < c₁.optimalBytes ∧ c₁.context.bytesIn = 0 ∧
      dadaClientTransfer (functions zeroCopy) c s =
        let result := runLoop (functions zeroCopy) c₁ s
        let closed := dbdecidbClose result.client (asUnsigned result.count)
        let output : Output := ⟨c.header, transferSizeOf c.header, result.calls, some closed.1⟩
        ⟨if closed.1 < 0 then -1 else result.count, output, closed.2, result.source⟩ := by
  obtain ⟨hok, hlocked⟩ := eachOutput_forall₂ hlock hR
  obtain ⟨c₁, hopen, hS, hquit₁, hsize, hoptimal, hheader, hin⟩ : ∃ c₁ : Client Ctx,
      (functions zeroCopy).openFunction c = (0, c₁) ∧ List.Forall₂ S c₁.context.outputs initial ∧
        c₁.quit = false ∧ c₁.transferBytes = transferSizeOf c.header ∧
        c₁.optimalBytes = 64 * 1024 * 1024 ∧ c₁.headerTransfer = false ∧ c₁.context.bytesIn = 0 :=
    ⟨_, if_neg (Int.not_lt.mpr (Int.le_of_eq hok.symm)), hlocked, hquit, rfl, rfl, rfl, rfl⟩
  refine ⟨c₁, hS, hquit₁, hsize, by omega, hin, ?_⟩
  rw [dadaClientTransfer_of_open hopen hquit₁ hheader, hsize]
  rfl

/-- All outputs are closed. -/
theorem dbdecidbClose_spec (hclose : ∀ o o₀, R o o₀ → (closeOutput o).1 = 0 ∧ S (closeOutput o).2 o₀)
    {c : Client Ctx} (hR : List.Forall₂ R c.context.outputs initial) (bytesWritten : ℕ) :
    (dbdecidbClose c bytesWritten).1 = 0 ∧
      List.Forall₂ S (dbdecidbClose c bytesWritten).2.context.outputs initial :=
  eachOutput_forall₂ hclose hR

/-- A loop that keeps the size and the wish to go on writes to every output what it gives to the function
for bytes. -/
theorem ioLoop_writes (bufferSize : ℕ) (hb : 0 < bufferSize) (done : List (List UInt8)) (c : Client Ctx)
    (s : Source) (n : ℕ) :
    ∀ data, List.Forall₂ (Writing done data) c.context.outputs initial →
      List.Forall₂ (Writing done (data ++ givenBy (ioLoop (functions zeroCopy) bufferSize hb c s n).calls))
          (ioLoop (functions zeroCopy) bufferSize hb c s n).client.context.outputs initial ∧
        (ioLoop (functions zeroCopy) bufferSize hb c s n).client.quit = c.quit := by
  induction c, s, n using ioLoop_induct (functions zeroCopy) bufferSize hb with
  | stop c s n _ =>
    intro data h
    rw [givenBy, List.flatMap_nil, List.append_nil]
    exact ⟨h, rfl⟩
  | fail c s n _ _ hneg => exact absurd hneg (Int.not_lt.mpr (Int.natCast_nonneg _))
  | next c s n rest _ _ _ ih =>
    intro data h
    obtain ⟨hrest, hquit⟩ := ih (data ++ (ioRound (functions zeroCopy) bufferSize c s n).call.given)
      (List.forall₂_map_left_iff.mpr (h.imp fun _ _ h => h.write _))
    refine ⟨?_, hquit⟩
    rw [List.append_assoc] at hrest
    exact hrest

/-! ## The function for bytes -/

/-- A target that consumes everything, with the same function for bytes. -/
def consumer : Consumer Ctx where
  openFunction c := (0, { c with quit := false })
  ioFunction := (functions false).ioFunction
  ioBlockFunction := none
  closeFunction c _ := (0, c)
  opens _ := Int.le_refl _
  stays _ := rfl
  consumes _ p _ := by cases p <;> rfl
  keepsSize _ p _ := by cases p <;> rfl
  byBytes := rfl
  closes _ _ := Int.le_refl _

/-- What a transfer with the function for bytes does: the next piece of the stream is given to the target,
and every output has got it. -/
structure Piece (done : List (List UInt8)) (initial : List OutputHdu) (wanted : ℕ) (s : Source)
    (t : TransferResult Ctx) : Prop where
  /-- The client is not told to quit. -/
  quit : t.client.quit = false
  /-- The size that was asked for. -/
  transferBytes : t.output.transferBytes = wanted
  /-- It is the one in the header. -/
  header : transferSizeOf t.output.header = wanted
  /-- The result is what has been given. -/
  count : t.count = t.output.given.length
  /-- Something is given, unless there is nothing left. -/
  nonempty : s.left ≠ [] → t.output.given ≠ []
  /-- It has left the ring. -/
  left : t.output.given ++ t.source.left = s.left
  /-- The ring is settled. -/
  settled : t.source.Settled
  /-- It is the next piece. -/
  cut : ∀ sizes, (t.source.left = [] → sizes = []) →
    (Psrdada.cut (wanted :: sizes) s.left).map Delivery.bytes =
      t.output.given :: (Psrdada.cut sizes t.source.left).map Delivery.bytes
  /-- Every output has got it. -/
  outputs : List.Forall₂ (Idle (if t.output.given = [] then done else done ++ [t.output.given]))
    t.client.context.outputs initial

theorem dadaClientTransfer_bytes (done : List (List UInt8)) {c : Client Ctx}
    (hidle : List.Forall₂ (Idle done) c.context.outputs initial) (hquit : c.quit = false) {s : Source}
    (heod : s.eod = false) :
    Piece done initial (transferSizeOf c.header) s (dadaClientTransfer (functions false) c s) := by
  obtain ⟨c₁, hwriting, hquit₁, hsize, hoptimal, -, htransfer⟩ :=
    dadaClientTransfer_opened false (fun _ _ h => h.lock) hidle hquit s
  rw [htransfer, ← hsize]
  have hrun : runLoop (functions false) c₁ s = ioLoop (functions false) c₁.optimalBytes hoptimal c₁ s 0 :=
    dif_pos hoptimal
  have hloop : ioLoop consumer.toFunctions c₁.optimalBytes hoptimal c₁ s 0 =
      ioLoop (functions false) c₁.optimalBytes hoptimal c₁ s 0 :=
    ioLoop_congr (F := functions false) (G := consumer.toFunctions) _ _ rfl c₁ s 0
  have hwants : c₁.wants 0 := by
    unfold Client.wants
    omega
  have hgiven := ioLoop_given (functions false) c₁.optimalBytes hoptimal c₁ s 0
  have hsettled := ioLoop_settled (functions false) c₁.optimalBytes hoptimal c₁ s 0 (.inr ⟨hwants, heod⟩)
  obtain ⟨hwritten, hstays⟩ := ioLoop_writes false c₁.optimalBytes hoptimal done c₁ s 0 [] hwriting
  obtain ⟨hall, hsome⟩ := ioLoop_delivery consumer c₁.optimalBytes hoptimal heod hloop
  have htaken := (ioLoop_consumer consumer c₁.optimalBytes hoptimal c₁ s 0).taken
  rw [hloop] at htaken
  simp only [hrun]
  set r := ioLoop (functions false) c₁.optimalBytes hoptimal c₁ s 0
  obtain ⟨hclosed, houtputs⟩ : (dbdecidbClose r.client (asUnsigned r.count)).1 = 0 ∧
      List.Forall₂ (Idle (if givenBy r.calls = [] then done else done ++ [givenBy r.calls]))
        (dbdecidbClose r.client (asUnsigned r.count)).2.context.outputs initial := by
    rw [List.nil_append] at hwritten
    split
    case isTrue hnil =>
      rw [hnil] at hwritten
      exact dbdecidbClose_spec (fun _ _ h => h.close_nil) hwritten _
    case isFalse hne => exact dbdecidbClose_spec (fun _ _ h => h.close hne) hwritten _
  rw [if_neg (Int.not_lt.mpr (Int.le_of_eq hclosed.symm))]
  by_cases h : c₁.transferBytes = 0 ∨ s.left.length ≤ c₁.transferBytes
  · have hd := hall h
    have hleft : r.source.left = [] := Source.left_of_eod (congrArg Delivery.eod hd)
    have hdata : givenBy r.calls = s.left := by rwa [hleft, List.append_nil] at hgiven
    refine ⟨hstays.trans hquit₁, rfl, hsize.symm, ?_, ?_, hgiven, hsettled, fun sizes hsizes => ?_, houtputs⟩
    · show r.count = ((givenBy r.calls).length : ℤ)
      rw [hdata]
      exact congrArg Delivery.count hd
    · show _ → givenBy r.calls ≠ []
      rw [hdata]
      exact id
    · show _ = givenBy r.calls :: _
      rw [Psrdada.cut, if_pos h, hsizes hleft, hdata]
      rfl
  · obtain ⟨hd, hleft⟩ := hsome h
    have hdata : givenBy r.calls = s.left.take c₁.transferBytes := by
      rw [← htaken]
      exact congrArg Delivery.bytes hd
    have hlen : (givenBy r.calls).length = c₁.transferBytes := by
      rw [hdata, List.length_take]
      omega
    refine ⟨hstays.trans hquit₁, rfl, hsize.symm, ?_, fun _ hnil => ?_, hgiven, hsettled,
      fun sizes _ => ?_, houtputs⟩
    · show r.count = ((givenBy r.calls).length : ℤ)
      rw [hlen]
      exact congrArg Delivery.count hd
    · have hnil' : givenBy r.calls = [] := hnil
      rw [hnil', List.length_nil] at hlen
      omega
    · show _ = givenBy r.calls :: (Psrdada.cut sizes r.source.left).map _
      rw [Psrdada.cut, if_neg h, hdata, hleft]
      rfl

/-- What the run of the client shall do, after the transfers `done`: it succeeds, it opens its targets for
the pieces of the stream, cut at the sizes in the headers, and every output has got these as its transfers,
each of which has been closed. -/
structure Copies (done : List (List UInt8)) (initial : List OutputHdu) (data : List UInt8)
    (r : ReadResult Ctx) : Prop where
  /-- It succeeds. -/
  success : r.status = 0
  /-- The sizes are those in the headers. -/
  sizes : ∀ o ∈ r.outputs, o.transferBytes = transferSizeOf o.header
  /-- The pieces are cut at these sizes. -/
  pieces : (r.outputs.map fun o => o.given) =
    (cut (r.outputs.map fun o => o.transferBytes) data).map Delivery.bytes
  /-- They are the whole stream. -/
  whole : givenIn r.outputs = data
  /-- Every output has got the pieces as its transfers. -/
  outputs : List.Forall₂ (Idle (done ++ r.outputs.map fun o => o.given)) r.client.context.outputs initial

/-- A first piece in front of others. -/
theorem Copies.cons {done : List (List UInt8)} {wanted n : ℕ} {s : Source} {t : TransferResult Ctx}
    {r : ReadResult Ctx} (hpiece : Piece done initial wanted s t)
    (hnil : t.source.left = [] → r.outputs = [])
    (h : Copies (done ++ [t.output.given]) initial t.source.left r) :
    Copies done initial s.left { r with outputs := ⟨t.output, n⟩ :: r.outputs } := by
  refine ⟨h.success, ?_, ?_, ?_, ?_⟩
  · intro o ho
    rcases List.mem_cons.mp ho with rfl | ho
    · exact hpiece.transferBytes.trans hpiece.header.symm
    · exact h.sizes o ho
  · rw [List.map_cons, List.map_cons, h.pieces, hpiece.transferBytes]
    exact (hpiece.cut _ fun hleft => by rw [hnil hleft, List.map_nil]).symm
  · rw [← hpiece.left, ← h.whole]
    rfl
  · have houtputs := h.outputs
    rwa [List.append_assoc] at houtputs

/-- The transfers with the function for bytes, up to end-of-data. -/
theorem readLoop_bytes (fuel : ℕ) {done : List (List UInt8)} {c : Client Ctx} {s : Source} (n : ℕ)
    (hfuel : s.size < fuel) (hidle : List.Forall₂ (Idle done) c.context.outputs initial)
    (hquit : c.quit = false) (hsettled : s.Settled) :
    ∃ r, readLoop (functions false) fuel c s n = some r ∧ (s.left = [] → r.outputs = []) ∧
      Copies done initial s.left r := by
  induction fuel generalizing done c s n with
  | zero => exact absurd hfuel (Nat.not_lt_zero _)
  | succ fuel ih =>
    rw [readLoop]
    by_cases heod : s.eod = true
    · have hleft := Source.left_of_eod heod
      rw [if_pos heod, hleft]
      exact ⟨_, rfl, fun _ => rfl, rfl, by simp, rfl, rfl, by simpa using hidle⟩
    · rw [if_neg heod]
      have hleft : s.left ≠ [] := fun h => heod (hsettled.mpr h)
      have hpiece := dadaClientTransfer_bytes done
        (c := { c with header := asciiHeaderSet c.header obsOffsetKey (decimal n) }) hidle hquit
        (by simpa using heod)
      simp only []
      set t := dadaClientTransfer (functions false)
        { c with header := asciiHeaderSet c.header obsOffsetKey (decimal n) } s
      have hne := hpiece.nonempty hleft
      have hsize : t.source.size < fuel := by
        have hlen := congrArg List.length hpiece.left
        have := List.length_pos_iff.mpr hne
        rw [List.length_append] at hlen
        rw [Source.size, if_neg heod] at hfuel
        rw [Source.size]
        split
        all_goals omega
      have houtputs := hpiece.outputs
      rw [if_neg hne] at houtputs
      obtain ⟨r, hr, hnil, hcopies⟩ := ih (n + t.count.toNat) hsize houtputs hpiece.quit hpiece.settled
      rw [if_neg (by rw [hpiece.count]; omega), hr]
      exact ⟨_, rfl, fun h => absurd h hleft, hcopies.cons hpiece hnil⟩

end Calls

end Dbcopydb

end Psrdada
