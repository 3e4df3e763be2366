import Psrdada.Pwc.Agreement

/-! # Several data blocks

The loop for several data blocks keeps a ledger for each of them.  What remains of a buffer after a
change of state it takes to be as long as the part before: so it keeps to the ledgers when a change comes
in the middle of a buffer, and with one data block it then does what the loop for one data block does. -/

namespace Psrdada

/-- The rounds in which the loop for several data blocks keeps to the ledgers: those in which the loop
for one data block does, if a change comes in the middle of a buffer, or at once with no buffer got. -/
structure InStep (pwcm : PwcMain) (hdus : ℕ) (r : Round) (t : Transfer) : Prop where
  command : ∀ command, r.command = some command → InTime r hdus id t command
  now : ∀ command, r.command = some command → command.code.Changes →
    command.byteCount ≤ t.totalBytesWritten → t.bufBytes = 0
  half : ∀ command, r.command = some command ∨
      r.command = none ∧ t.transitByte ≠ 0 ∧ command = t.command →
    command.code.Changes → t.totalBytesWritten < command.byteCount →
    (command.byteCount : ℤ) ≤ t.totalBytesWritten + r.size →
    r.size = 2 * ((command.byteCount : ℤ) - t.totalBytesWritten)
  size : 0 ≤ r.size ∧ r.size < 2 ^ 64
  data : r.size = 0 → pwcm.errorFunction = true ∧ r.errorFunction ≠ 2

/-- The next buffer is halved by the change that is due; a change that comes at once finds none. -/
structure Halved (r : Round) (t : Transfer) : Prop where
  now : t.command.code.Changes → t.transitByte ≠ 0 → t.bytesToWrite = 0 → t.bufBytes = 0
  dated : t.command.code.Changes → t.bytesToWrite ≠ 0 → t.transitByte ≠ 0 →
    (t.bytesToWrite : ℤ) ≤ r.size → r.size = 2 * (t.bytesToWrite : ℤ)

/-- The change that comes now halves the buffer. -/
def HalvedNow (t : Transfer) : Prop :=
  t.command.code.Changes → t.transitByte ≠ 0 → t.transitByte = t.totalBytesWritten →
    t.bufferSize = 2 * (t.bufBytes : ℤ)

section Multi

open Outcome

variable {pwcm : PwcMain} {r : Round} {hdus i : ℕ} {t u w : Transfer} {l : Ledger}

/-! ## What the pieces leave alone -/

theorem forHdus_next {body : ℕ → Transfer → Outcome}
    (hbody : ∀ i u v, body i u = .next v → v = { u with log := v.log })
    (h : forHdus body hdus t = .next w) : w = { t with log := w.log } := by
  induction hdus generalizing w with
  | zero => cases h; rfl
  | succ n ih =>
    rw [forHdus, andThen_eq_next] at h
    obtain ⟨u, hu, hw⟩ := h
    rw [hbody n u w hw, ih hu]

theorem useBuffer_next (h : useBuffer r hdus t = .next w) :
    w.command = t.command ∧ w.transitByte = t.transitByte ∧ w.bufferSize = t.bufferSize ∧
      w.totalBytesWritten = t.totalBytesWritten + w.bufBytes ∧ w.bufBytes ≤ t.bufferSize.toNat := by
  unfold useBuffer at h
  split at h
  · cases h
  · dsimp only at h
    split at h
    · cases h
    · generalize hv : Transfer.mk _ _ _ _ _ _ _ _ _ _ _ _ _ = v at h
      obtain ⟨u, ho, h⟩ := andThen_eq_next.mp h
      have hu : u = { v with log := u.log } := by
        refine forHdus_next (fun j x y hxy => ?_) ho
        dsimp only at hxy
        split at hxy
        · cases hxy
        · split at hxy
          · cases hxy; rfl
          · cases hxy
      cases h
      rw [hu, ← hv]
      refine ⟨rfl, rfl, rfl, rfl, ?_⟩
      dsimp only
      split <;> omega

/-! ## Halves -/

theorem InStep.halved (h : InStep pwcm hdus r t) (hk : Kept t l)
    (hw : takeCommand pwcm r id t = .next w) : Halved r w := by
  unfold takeCommand at hw
  cases hc : r.command with
  | none =>
    rw [hc] at hw
    cases hw
    constructor
    · intro _ hbusy hbytes
      obtain ⟨-, hlt, hrest, -, -⟩ := hk.busy hbusy
      omega
    · intro hcode _ hbusy hle
      obtain ⟨-, hlt, hrest, hcount, -⟩ := hk.busy hbusy
      have hhalf := h.half t.command (.inr ⟨hc, hbusy, rfl⟩) hcode (by omega) (by omega)
      omega
  | some command =>
    rw [hc] at hw
    dsimp only at hw
    split at hw
    · rename_i hutc
      have hcode : w.command.code = .setUtcStart := by
        rw [(takeUtcStart_next hw).1]
        exact hutc
      constructor
      · rintro (hne | hne) <;> rw [hcode] at hne <;> cases hne
      · rintro (hne | hne) <;> rw [hcode] at hne <;> cases hne
    · split at hw
      · cases hw
      · split at hw
        · rename_i hdated
          have hdated : t.totalBytesWritten < command.byteCount := hdated
          cases hw
          constructor
          · intro _ _ hbytes
            have hbytes : command.byteCount - t.totalBytesWritten = 0 := hbytes
            omega
          · intro hcode _ _ hle
            have hle : ((command.byteCount - t.totalBytesWritten : ℕ) : ℤ) ≤ r.size := hle
            have hhalf := h.half command (.inl hc) hcode hdated (by omega)
            show r.size = 2 * ((command.byteCount - t.totalBytesWritten : ℕ) : ℤ)
            omega
        · rename_i hnow
          have hle : command.byteCount ≤ t.totalBytesWritten := Nat.not_lt.mp hnow
          cases hw
          constructor
          · intro hcode _ _
            exact h.now command hc hcode hle
          · intro _ hbytes
            exact absurd rfl hbytes

/-- A buffer has been got, be it an empty one. -/
def gotBuffer (r : Round) (t : Transfer) : Transfer :=
  { getBuffer r t with
    dataTransferErrorState :=
      if r.size = 0 then r.errorFunction else (getBuffer r t).dataTransferErrorState }

theorem InStep.transferBufferMulti_eq (h : InStep pwcm hdus r t)
    (hgets : u.transitByte = 0 ∨ u.bytesToWrite ≠ 0) :
    transferBufferMulti pwcm r hdus u = useBuffer r hdus (gotBuffer r u) := by
  have hsize : ((toUInt64 r.size : ℕ) : ℤ) = r.size := by
    rw [toUInt64, Int.emod_eq_of_lt h.size.1 h.size.2, Int.toNat_of_nonneg h.size.1]
  unfold transferBufferMulti
  rw [if_pos hgets, hsize]
  dsimp only [getBuffer]
  by_cases hzero : r.size = 0
  · obtain ⟨herr, htwo⟩ := h.data hzero
    simp [hzero, emptyBufferMulti, herr, htwo, andThen, gotBuffer, getBuffer, Transfer.note]
  · simp [hzero, andThen, gotBuffer, getBuffer, Transfer.note]

theorem InStep.transferBuffer_eq (h : InStep pwcm hdus r t) (hxfer : pwcm.xferPendingFunction = false)
    (hgets : u.transitByte = 0 ∨ u.bytesToWrite ≠ 0) :
    transferBuffer pwcm r u = useBuffer r 1 (gotBuffer r u) := by
  unfold transferBuffer
  rw [if_pos hgets]
  dsimp only [getBuffer]
  rw [if_neg (Int.not_lt.mpr h.size.1)]
  by_cases hzero : r.size = 0
  · obtain ⟨herr, htwo⟩ := h.data hzero
    simp [hzero, emptyBuffer, hxfer, herr, htwo, andThen, gotBuffer, getBuffer, Transfer.note]
  · simp [hzero, andThen, gotBuffer, getBuffer, Transfer.note]

theorem Halved.now_of_next (hh : Halved r u) (hin : InStep pwcm hdus r t)
    (hk : Kept u l ∨ Immediate r hdus u l) (hw : transferBufferMulti pwcm r hdus u = .next w) :
    HalvedNow w := by
  intro hcode hbusy hreach
  rcases hk with hk | him
  · rw [hin.transferBufferMulti_eq hk.gets] at hw
    obtain ⟨hcommand, htransit, hbuf, htotal, hle⟩ := useBuffer_next hw
    rw [hcommand] at hcode
    rw [htransit] at hbusy hreach
    obtain ⟨-, hlt, hbytes, -, -⟩ := hk.busy hbusy
    have hwritten : w.totalBytesWritten = u.totalBytesWritten + w.bufBytes := htotal
    have hreach : u.transitByte = w.totalBytesWritten := hreach
    have hsize : w.bufferSize = r.size := hbuf
    have hle : w.bufBytes ≤ r.size.toNat := hle
    have hpart : u.bytesToWrite = w.bufBytes := by omega
    have hpos := hin.size.1
    rw [hsize, ← hpart]
    exact hh.dated hcode (by omega) hbusy (by omega)
  · unfold transferBufferMulti at hw
    rw [if_neg him.not_gets] at hw
    cases hw
    have hnone := hh.now hcode hbusy him.bytes
    rcases him.code with hstop | ⟨-, -, -, -, hbuf⟩
    · rcases hcode with h | h <;> rw [hstop] at h <;> cases h
    · rw [hbuf, hnone]
      rfl

/-! ## The ledgers -/

theorem Kept.gotBuffer (hk : Kept t l) (hsize : 0 ≤ r.size) :
    Got (gotBuffer r t)
      { l with base := l.base + l.size, size := r.size.toNat, buffers := l.buffers + 1 } := by
  have hgot := hk.got hsize
  exact ⟨hgot.written, hgot.base, hgot.size, hgot.buffer, hgot.buffers, hgot.fetched, hgot.early,
    hgot.idle, hgot.busy⟩

theorem sat_transferBufferMulti (hin : InStep pwcm hdus r t) (hi : i < hdus)
    (hl : Ledger.run i u.log = some l) (hk : Kept u l ∨ Immediate r hdus u l) :
    (transferBufferMulti pwcm r hdus u).Sat i fun w m => PartWritten w m ∨ Immediate r hdus w m := by
  rcases hk with hk | him
  · rw [hin.transferBufferMulti_eq hk.gets]
    refine (sat_useBuffer hi ?_ (hk.gotBuffer hin.size.1)).mono fun _ _ => .inl
    exact run_getBuffer hl hk
  · unfold transferBufferMulti
    rw [if_neg him.not_gets]
    exact sat_next hl (.inr him)

/-- The second half of a buffer is written behind the first. -/
theorem sat_writeRemainderMulti (hi : i < hdus) (hl : Ledger.run i t.log = some l)
    (hdue : l.due = none) (hidle : t.transitByte = 0)
    (hearly : t.totalBytesWritten = 0 → t.command.code ∈ [.clock, .start, .setUtcStart])
    (hwritten : l.written = t.totalBytesWritten) (hbuffers : l.buffers = t.fetched)
    (hrest : t.bufBytes = 0 ∧ l.written = l.base + l.size ∨
      t.bufferSize = 2 * (t.bufBytes : ℤ) ∧ t.bufferSize = l.size ∧ l.base + t.bufBytes = l.written ∧
        0 < t.fetched) :
    (writeRemainderMulti r hdus t).Sat i Kept := by
  unfold writeRemainderMulti
  split
  · rename_i hpos
    rcases hrest with ⟨hnone, -⟩ | ⟨htwice, hsize, hpart, hfetched⟩
    · exact absurd hnone hpos
    · have hrest : usub t.bufferSize.toNat t.bufBytes = t.bufBytes := by
        rw [usub, if_pos (by omega)]
        omega
      refine Sat.andThen (sat_forHdus_once
        (fun j => .write j (t.fetched - 1) t.bufBytes t.bufBytes)
        { l with written := l.written + t.bufBytes } hi hl
        (fun j hj m => by simp [Ledger.step, hj]) ?_ fun j u hu => ?_) ?_
      · have hnum : t.fetched - 1 + 1 = l.buffers := by omega
        simp only [Ledger.step, ne_eq, not_true_eq_false, if_false, hdue]
        rw [if_pos ⟨hnum, hpart, by omega, by simp⟩]
      · rw [hu]
        dsimp only
        rw [hrest]
        split
        · exact .inr (.inr ⟨_, rfl⟩)
        · split
          · exact .inr (.inl ⟨_, rfl⟩)
          · exact .inl rfl
      · rintro u m hu ⟨hlog, rfl⟩
        rw [hlog]
        refine sat_next hu ⟨?_, ?_, hbuffers, fun _ htotal => ?_, fun _ => hdue,
          fun hbusy => absurd hidle hbusy⟩
        · exact congrArg (· + _) hwritten
        · dsimp only
          omega
        · exact hearly (Nat.eq_zero_of_add_eq_zero_right htotal)
  · rename_i hnone
    have hnone : t.bufBytes = 0 := not_not.mp hnone
    refine sat_next hl ⟨hwritten, ?_, hbuffers, fun _ => hearly, fun _ => hdue,
      fun hbusy => absurd hidle hbusy⟩
    rcases hrest with ⟨-, hsettled⟩ | ⟨htwice, hsize, hpart, -⟩
    · exact hsettled
    · omega

/-- A command that has been taken before the loop is entered changes nothing as long as nothing has been
written. -/
theorem changeState_early (hcode : t.command.code ∈ [CommandCode.clock, .start, .setUtcStart])
    (htotal : t.totalBytesWritten = 0) : changeState pwcm r hdus t = .next t := by
  simp only [List.mem_cons, List.not_mem_nil, or_false] at hcode
  unfold changeState
  rcases hcode with h | h | h
  · simp [h, htotal]
  · simp [h, htotal]
  · simp [h, htotal]

theorem sat_transitMulti (hi : i < hdus) (hl : Ledger.run i t.log = some l)
    (hk : PartWritten t l ∨ Immediate r hdus t l) (hhalf : HalvedNow t) :
    (transitMulti pwcm r hdus t).Sat i Kept := by
  unfold transitMulti
  by_cases hreach : t.transitByte = t.totalBytesWritten
  · rw [if_pos hreach]
    dsimp only
    by_cases hbusy : t.transitByte = 0
    · have htotal : t.totalBytesWritten = 0 := hreach.symm.trans hbusy
      rcases hk with hp | him
      · have hcode := hp.early hbusy htotal
        have hstop : t.command.code ≠ .stop := by
          intro h
          rw [h] at hcode
          cases hcode with
          | tail _ h => cases h with
            | tail _ h => cases h with
              | tail _ h => cases h
        rw [if_neg hstop, changeState_early (t := { t with transitByte := 0 }) hcode htotal]
        have hnone : t.bufBytes = 0 := by
          have hpart := hp.part
          have hwritten := hp.written
          omega
        refine sat_writeRemainderMulti hi hl (hp.idle hbusy).1 rfl (fun _ => hcode) hp.written
          hp.buffers (.inl ⟨hnone, ?_⟩)
        rw [← (hp.idle hbusy).2]
        exact hp.part.symm
      · exact absurd htotal him.pos
    · have hdue := dueNow_of_reached hk hbusy (Nat.le_of_eq hreach)
      have hpos : t.totalBytesWritten ≠ 0 := hreach ▸ hbusy
      split
      · rename_i hstop
        exact sat_ret (Ledger.run_left (t := { t with transitByte := 0 }) hl hdue (by simp [hstop]))
      · rename_i hstop
        have hcode := code_of_reached hk hbusy hstop
        by_cases hstart : t.command.code = .start
        · -- a start has been asked for with a duration
          have hleft : changeState pwcm r hdus { t with transitByte := 0 } =
              .ret dadaErrorHard (Transfer.note { t with transitByte := 0 } .left) := by
            simp [changeState, hstart, hpos]
          rw [hleft]
          exact sat_ret (Ledger.run_left (t := { t with transitByte := 0 }) hl hdue (by simp [hstart]))
        · have hchanges : t.command.code.Changes := by
            simp only [List.mem_cons, List.not_mem_nil, or_false] at hcode
            rcases hcode with h | h | h
            · exact .inl h
            · exact .inr h
            · exact absurd h hstart
          have htwice := hhalf hchanges hbusy hreach
          refine Sat.andThen (sat_changeState (t := { t with transitByte := 0 }) hi hl hdue hpos
            hcode) ?_
          rintro u m hu ⟨hsame, rfl⟩
          refine sat_writeRemainderMulti hi hu rfl hsame.transit (fun h => ?_) ?_ ?_ ?_
          · exact absurd (hsame.total.symm.trans h) hpos
          · rw [hsame.total]
            rcases hk with hp | him
            · exact hp.written
            · exact (him.code.resolve_left hstop).2.1
          · rw [hsame.fetched]
            rcases hk with hp | him
            · exact hp.buffers
            · exact (him.code.resolve_left hstop).2.2.2.1
          · rw [hsame.part, hsame.size, hsame.fetched]
            rcases hk with hp | him
            · exact .inr ⟨htwice, hp.size, hp.part, hp.fetched⟩
            · obtain ⟨-, -, hsettled, -, hsize⟩ := him.code.resolve_left hstop
              have hnone : t.bufBytes = 0 := by omega
              exact .inl ⟨hnone, hsettled⟩
  · rw [if_neg hreach]
    rcases hk with hp | him
    · refine sat_next hl (hp.kept fun h => ?_)
      obtain ⟨-, hle, -, -, -, -⟩ := hp.busy h.1
      omega
    · exact absurd him.transit hreach

/-- **One iteration** keeps to the ledger of every data block when it is in step. -/
theorem sat_dadaPwcMainMultiRound (hin : InStep pwcm hdus r t) (hi : i < hdus)
    (hl : Ledger.run i t.log = some l) (hk : Kept t l) :
    (dadaPwcMainMultiRound pwcm r hdus t).Sat i Kept := by
  unfold dadaPwcMainMultiRound
  split
  · exact sat_ret hl
  · refine Sat.andThen_next (P := fun t l => (PartWritten t l ∨ Immediate r hdus t l) ∧ HalvedNow t)
      ?_ fun w m hm hw _ => sat_transitMulti hi hm hw.1 hw.2
    refine Sat.andThen_next (sat_takeCommand (fun _ _ => rfl) hl hk hin.command)
      fun u m hm hu hnext => ?_
    obtain ⟨k, hk', hw⟩ := sat_transferBufferMulti hin hi hm hu
    exact ⟨k, hk', fun w hw' => ⟨hw w hw', (hin.halved hk hnext).now_of_next hin hu hw'⟩⟩

/-- Any number of iterations. -/
theorem sat_dadaPwcMainMultiTransferData {rounds : List Round}
    (hp : EachRound (fun r => dadaPwcMainMultiRound pwcm r hdus) (InStep pwcm hdus) rounds t)
    (hi : i < hdus) (hl : Ledger.run i t.log = some l) (hk : Kept t l) :
    (dadaPwcMainMultiTransferData pwcm hdus rounds t).Sat i Kept :=
  sat_of_eachRound (fun _ => rfl) (fun _ _ _ => rfl)
    (fun _ _ _ hr hl hk => sat_dadaPwcMainMultiRound hr hi hl hk) hp hl hk

/-! ## One data block of several -/

/-- All but the pointer into the buffer is the same. -/
def SameVariables (t u : Transfer) : Prop := ∃ b, u = { t with buffer := b }

/-- A command that comes in step is taken as the loop for one data block takes it. -/
theorem InStep.takeCommand_eq (hin : InStep pwcm hdus r t) :
    takeCommand pwcm r immediateTotal t = takeCommand pwcm r id t := by
  refine takeCommand_immediate fun command hc hcode hle => ?_
  have h := hin.command command hc
  rcases hcode with hstop | hstart | hstop
  · exact (h.change (.inr hstop) hle).1
  · exact (h.change (.inl hstart) hle).1
  · exact h.stop hstop hle

/-- A piece that leaves the scratch variables alone ends alike from alike variables. -/
theorem related_sameVariables {o : Outcome} {b : Option (ℕ × ℕ)}
    (hself : o = o.map fun v => v.withScratch t) :
    o.Related SameVariables SameVariables (o.map fun v => v.withScratch { t with buffer := b }) := by
  have hkept : ∀ v : Transfer, v = v.withScratch t →
      SameVariables v (v.withScratch { t with buffer := b }) := by
    intro v hv
    refine ⟨b, ?_⟩
    rw [hv]
    rfl
  cases o with
  | next v => exact hkept v (next.inj hself)
  | ret rval v => exact ⟨rfl, hkept v (ret.inj hself).2⟩
  | abort v => exact hkept v (abort.inj hself)

theorem changeState_alike (hsame : SameVariables t u) :
    (changeState pwcm r hdus t).Related SameVariables SameVariables (changeState pwcm r hdus u) := by
  obtain ⟨b, rfl⟩ := hsame
  have hmap : changeState pwcm r hdus { t with buffer := b } =
      (changeState pwcm r hdus t).map fun v => v.withScratch { t with buffer := b } :=
    changeState_map { t with buffer := b }
  rw [hmap]
  exact related_sameVariables changeState_self

theorem takeCommand_alike {immediate : ℕ → ℕ} (hsame : SameVariables t u) :
    (takeCommand pwcm r immediate t).Related SameVariables SameVariables (takeCommand pwcm r immediate u) := by
  obtain ⟨b, rfl⟩ := hsame
  have hmap : takeCommand pwcm r immediate { t with buffer := b } =
      (takeCommand pwcm r immediate t).map fun v => v.withScratch { t with buffer := b } :=
    takeCommand_map { t with buffer := b }
  rw [hmap]
  exact related_sameVariables takeCommand_self

/-- The second half of a buffer, or nothing. -/
theorem writeRemainder_alike (hsame : SameVariables t u)
    (hrest : t.bufBytes = 0 ∧ t.bufferSize = 0 ∨
      t.bufferSize = 2 * (t.bufBytes : ℤ) ∧ u.buffer = some (t.fetched - 1, 0)) :
    (writeRemainderMulti r 1 t).Related SameVariables SameVariables (writeRemainder r u) := by
  obtain ⟨b, rfl⟩ := hsame
  rcases hrest with ⟨hnone, hsize⟩ | ⟨htwice, hbuf⟩
  · have hrest : usub t.bufferSize.toNat t.bufBytes = 0 := by rw [hnone, hsize]; rfl
    rw [writeRemainderMulti, if_neg (not_not.mpr hnone),
      writeRemainder_nothing (t := { t with buffer := b }) hrest]
    exact ⟨b.map fun b => (b.1, b.2 + t.bufBytes), by rw [hnone]⟩
  · have hrest : usub t.bufferSize.toNat t.bufBytes = t.bufBytes := by
      rw [usub, if_pos (by omega)]
      omega
    by_cases hnone : t.bufBytes = 0
    · rw [writeRemainderMulti, if_neg (not_not.mpr hnone),
        writeRemainder_nothing (t := { t with buffer := b }) (hrest.trans hnone)]
      exact ⟨b.map fun b => (b.1, b.2 + t.bufBytes), by rw [hnone]⟩
    · rw [writeRemainderMulti, if_pos hnone,
        writeRemainder_rest (t := { t with buffer := b }) hbuf hrest hnone]
      simp only [forHdus, Outcome.andThen, Transfer.note, hrest, Nat.lt_irrefl, and_false, if_false]
      by_cases hfull : (!t.utcStartSet) = true ∧ r.spaceRest 0 < t.bufBytes
      · rw [if_pos hfull, if_pos hfull.symm]
        exact ⟨rfl, _, rfl⟩
      · rw [if_neg hfull, if_neg fun h => hfull h.symm]
        exact ⟨_, rfl⟩

theorem transit_alike (hxfer : pwcm.xferPendingFunction = false) (hl : Ledger.run 0 t.log = some l)
    (hkept : PartWritten t l ∧ u = t ∨ Immediate r 1 t l) (hhalf : HalvedNow t)
    (hsame : SameVariables t u) :
    (transitMulti pwcm r 1 t).Related SameVariables SameVariables (transit pwcm r u) := by
  have hk : PartWritten t l ∨ Immediate r 1 t l := hkept.imp_left And.left
  obtain ⟨b, rfl⟩ := hsame
  unfold transitMulti
  by_cases hreach : t.transitByte = t.totalBytesWritten
  · rw [if_pos hreach]
    by_cases hbusy : t.transitByte = 0
    · have hidle : ¬ (t.transitByte ≠ 0 ∧ t.transitByte ≤ t.totalBytesWritten) := fun h => h.1 hbusy
      rw [transit_not (t := { t with buffer := b }) hidle]
      have htotal : t.totalBytesWritten = 0 := hreach.symm.trans hbusy
      rcases hk with hp | him
      · have hcode := hp.early hbusy htotal
        have hstop : t.command.code ≠ .stop := fun h => by simp [h] at hcode
        have hnone : t.bufBytes = 0 := by
          have hpart := hp.part
          have hwritten := hp.written
          omega
        rw [if_neg hstop, changeState_early (t := { t with transitByte := 0 }) hcode htotal,
          Outcome.andThen, writeRemainderMulti, if_neg (not_not.mpr hnone)]
        refine ⟨b, ?_⟩
        dsimp only [Transfer.withScratch]
        rw [← hbusy]
      · exact absurd htotal him.pos
    · have hnow : t.transitByte ≠ 0 ∧ t.transitByte ≤ t.totalBytesWritten :=
        ⟨hbusy, Nat.le_of_eq hreach⟩
      rw [transit_reached (t := { t with buffer := b }) hxfer hnow]
      have hpos : t.totalBytesWritten ≠ 0 := hreach ▸ hbusy
      dsimp only
      split
      · exact ⟨rfl, b, rfl⟩
      · rename_i hstop
        have hdue := dueNow_of_reached hk hbusy (Nat.le_of_eq hreach)
        have hcode := code_of_reached hk hbusy hstop
        have hchange : (changeState pwcm r 1 { t with transitByte := 0 }).Sat 0 fun v m =>
            SameBuffer { t with transitByte := 0 } v ∧ m = { l with due := none } :=
          sat_changeState Nat.one_pos hl hdue hpos hcode
        refine (changeState_alike ⟨b, rfl⟩).andThen fun v w hv hw hvw => ?_
        rw [hv] at hchange
        obtain ⟨m, -, hm⟩ := hchange
        obtain ⟨hframe, -⟩ := hm v rfl
        have hchanges : t.command.code.Changes := by
          simp only [List.mem_cons, List.not_mem_nil, or_false] at hcode
          rcases hcode with h | h | h
          · exact .inl h
          · exact .inr h
          · simp [changeState, h, hpos] at hv
        have htwice := hhalf hchanges hbusy hreach
        refine writeRemainder_alike hvw ?_
        rw [hframe.part, hframe.size, hframe.fetched]
        rcases hkept with ⟨hp, hsame⟩ | him
        · -- the two loops hold the same buffer
          have hb : b = t.buffer := congrArg Transfer.buffer hsame
          rw [hb] at hw
          have hvw : v = w := Outcome.next.inj (hv.symm.trans hw)
          refine .inr ⟨htwice, ?_⟩
          rw [← hvw, hframe.buffer]
          exact hp.buffer
        · obtain ⟨-, -, -, -, hsize⟩ := him.code.resolve_left hstop
          refine .inl ⟨?_, ?_⟩
          · show t.bufBytes = 0
            omega
          · show t.bufferSize = 0
            omega
  · have hnot : ¬ (t.transitByte ≠ 0 ∧ t.transitByte ≤ t.totalBytesWritten) := by
      intro h
      rcases hk with hp | him
      · obtain ⟨-, hle, -, -, -, -⟩ := hp.busy h.1
        exact hreach (Nat.le_antisymm h.2 hle)
      · exact hreach him.transit
    rw [if_neg hreach, transit_not (t := { t with buffer := b }) hnot]
    exact ⟨b, rfl⟩

/-- **One iteration** does what that of the loop for one data block does. -/
theorem dadaPwcMainMultiRound_alike (hxfer : pwcm.xferPendingFunction = false)
    (hin : InStep pwcm 1 r t) (hl : Ledger.run 0 t.log = some l) (hk : Kept t l)
    (hsame : SameVariables t u) :
    (dadaPwcMainMultiRound pwcm r 1 t).Related SameVariables SameVariables (dadaPwcMainRound pwcm r u) := by
  obtain ⟨b, rfl⟩ := hsame
  unfold dadaPwcMainMultiRound
  by_cases hdone : r.quit = true ∨ t.dataTransferErrorState > 1
  · rw [if_pos hdone, dadaPwcMainRound_done (t := { t with buffer := b }) hdone]
    exact ⟨rfl, b, rfl⟩
  · rw [if_neg hdone, andThen_assoc, dadaPwcMainRound_pieces (t := { t with buffer := b }) hdone]
    have htake : (takeCommand pwcm r id t).Sat 0 fun t l => Kept t l ∨ Immediate r 1 t l :=
      sat_takeCommand (fun _ _ => rfl) hl hk hin.command
    have halike : (takeCommand pwcm r id t).Related SameVariables SameVariables
        (takeCommand pwcm r immediateTotal { t with buffer := b }) := by
      rw [← hin.takeCommand_eq]
      exact takeCommand_alike ⟨b, rfl⟩
    refine halike.andThen fun v w hv hw hvw => ?_
    obtain ⟨c, rfl⟩ := hvw
    rw [hv] at htake
    obtain ⟨m, hm, hkept⟩ := htake
    have hhalf := hin.halved hk hv
    have hkept := hkept v rfl
    have hwrite : (transferBufferMulti pwcm r 1 v).Sat 0 fun t l =>
        PartWritten t l ∨ Immediate r 1 t l := sat_transferBufferMulti hin Nat.one_pos hm hkept
    rcases hkept with hkept | him
    · -- a buffer is got, the same in both loops
      have hmulti := hin.transferBufferMulti_eq hkept.gets
      have hsingle := hin.transferBuffer_eq (u := { v with buffer := c }) hxfer hkept.gets
      rw [hmulti] at hwrite
      rw [hmulti, hsingle]
      have hgot : useBuffer r 1 (gotBuffer r { v with buffer := c }) =
        useBuffer r 1 (gotBuffer r v) := rfl
      rw [hgot]
      have hrefl : (useBuffer r 1 (gotBuffer r v)).Related SameVariables SameVariables
          (useBuffer r 1 (gotBuffer r v)) :=
        related_refl (fun x => ⟨x.buffer, rfl⟩) (fun x => ⟨x.buffer, rfl⟩) _
      refine hrefl.andThen fun x y hx hy _ => ?_
      have hxy : x = y := Outcome.next.inj (hx.symm.trans hy)
      rw [hx] at hwrite
      obtain ⟨k, hk, hpart⟩ := hwrite
      have hnow := hhalf.now_of_next (w := x) hin (.inl hkept) (hmulti.trans hx)
      rw [← hxy]
      exact transit_alike hxfer hk ((hpart x rfl).imp_left fun h => ⟨h, rfl⟩) hnow ⟨_, rfl⟩
    · have hget : transferBufferMulti pwcm r 1 v = .next v := if_neg him.not_gets
      have hget' : transferBuffer pwcm r { v with buffer := c } =
        .next { v with buffer := c } := if_neg him.not_gets
      rw [hget, hget']
      exact transit_alike hxfer hm (.inr him) (hhalf.now_of_next hin (.inr him) hget) ⟨c, rfl⟩

/-- Any number of iterations. -/
theorem dadaPwcMainMultiTransferData_alike (hxfer : pwcm.xferPendingFunction = false)
    {rounds : List Round}
    (hin : EachRound (fun r => dadaPwcMainMultiRound pwcm r 1) (InStep pwcm 1) rounds t)
    (hl : Ledger.run 0 t.log = some l) (hk : Kept t l) (hsame : SameVariables t u) :
    (dadaPwcMainMultiTransferData pwcm 1 rounds t).Related SameVariables SameVariables
      (dadaPwcMainTransferData pwcm rounds u) := by
  induction rounds generalizing t u l with
  | nil => exact hsame
  | cons r rounds ih =>
    obtain ⟨hr, hrest⟩ := hin
    have hsat := sat_dadaPwcMainMultiRound hr Nat.one_pos hl hk
    refine (dadaPwcMainMultiRound_alike hxfer hr hl hk hsame).andThen
      fun v w hv _ hvw => ?_
    rw [hv] at hsat
    obtain ⟨m, hm, hkept⟩ := hsat
    exact ih (hrest v hv) hm (hkept v rfl) hvw

/-- A round without a command, when nothing is due. -/
theorem inStep_smooth {n : ℕ} (hpos : n ≠ 0) (hlt : n < 2 ^ 64) (hidle : t.transitByte = 0) :
    InStep .plain hdus (.smooth none n) t := by
  constructor
  · intro command h
    cases h
  · intro command h
    cases h
  · rintro command (h | ⟨-, hbusy, -⟩)
    · cases h
    · exact absurd hidle hbusy
  · exact ⟨Int.natCast_nonneg n, show (n : ℤ) < 2 ^ 64 by omega⟩
  · intro h
    exact absurd (Int.ofNat.inj h) hpos

/-- A round with a dated command that halves the buffer. -/
theorem inStep_dated {command : PwcCommand} {n : ℕ} (hpos : n ≠ 0) (hlt : n < 2 ^ 64)
    (hcode : command.code ≠ .setUtcStart) (hdated : t.totalBytesWritten < command.byteCount)
    (hhalf : n = 2 * (command.byteCount - t.totalBytesWritten)) :
    InStep .plain hdus (.smooth (some command) n) t := by
  constructor
  · rintro c ⟨rfl⟩
    exact .of_dated hcode hdated
  · rintro c ⟨rfl⟩ _ hle
    omega
  · rintro c (⟨⟨rfl⟩⟩ | ⟨h, -⟩) _ _ _
    · show (n : ℤ) = _
      omega
    · cases h
  · exact ⟨Int.natCast_nonneg n, show (n : ℤ) < 2 ^ 64 by omega⟩
  · intro h
    exact absurd (Int.ofNat.inj h) hpos

end Multi

end Psrdada
