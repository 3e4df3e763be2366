import Psrdada.Client.Splitting

/-! # Offsets when the target fails

The I/O loop takes a chunk from the ring before it calls `io_function`, but counts what the function
returns, and leaves by `break` when the function fails.  What a transfer returns is therefore what was
consumed, not what was taken from the ring.  `Honest` says what the offsets and the result of
`dada_client_read` shall tell, and `honest_iff_kept` that they tell it exactly when every output that is
closed with success has consumed all it was given. -/

namespace Psrdada

open CString

variable {κ : Type}

/-- Functions that move data byte by byte and never consume more than they are given: a call may consume
all, a part, or fail. -/
structure Target (κ : Type) extends Functions κ where
  /-- `io_function` consumes no more than it is given. -/
  bounded : ∀ c data (n : ℕ), (ioFunction c (.data data) n).1 ≤ n
  /-- There is no function for whole sub-blocks. -/
  byBytes : ioBlockFunction = none

/-- A call that consumed all it was given. -/
def IoCall.Whole (call : IoCall) : Prop := call.taken = call.given

/-- An output that consumed all it was given. -/
def Output.Whole (o : Output) : Prop := ∀ call ∈ o.calls, call.Whole

theorem Output.Whole.taken_eq {o : Output} (h : o.Whole) : o.taken = o.given := by
  unfold taken given
  apply List.flatMap_congr
  exact h

/-- An output whose target could not be closed. -/
def Output.Failed (o : Output) : Prop := ∃ rc, o.closed = some rc ∧ rc < 0

/-- The data that outputs were given. -/
def givenIn (outputs : List ReadOutput) : List UInt8 := outputs.flatMap fun o => o.given

/-- The header with which an output is opened carries its offset. -/
def ReadOutput.HasOffset (o : ReadOutput) : Prop :=
  ∃ text, o.header = asciiHeaderSet text obsOffsetKey (decimal o.obsOffset)

/-- What the offsets in the headers and the result of `dada_client_read` shall tell. -/
structure Honest (initial : ℕ) (r : ReadResult κ) : Prop where
  /-- The offset of an output is the place in the stream of the first byte that it is given. -/
  offset : ∀ pre o post, r.outputs = pre ++ o :: post → o.obsOffset = initial + (givenIn pre).length
  /-- Success means that everything was consumed. -/
  success : r.status = 0 → ∀ o ∈ r.outputs, o.Whole

/-! ## Calls -/

/-- A call that consumes no more than it is given reports no more, and as much only when all is
consumed. -/
theorem IoCall.reported_le {call : IoCall} (h : call.2 ≤ call.given.length) :
    call.2.toNat ≤ call.given.length ∧ (call.2.toNat = call.given.length ↔ call.Whole) := by
  have hle : call.2.toNat ≤ call.given.length := by omega
  refine ⟨hle, ?_⟩
  unfold Whole taken given at *
  constructor
  · intro heq
    rw [heq, List.take_length]
  · intro heq
    have := congrArg List.length heq
    rw [List.length_take] at this
    omega

/-- The same over the calls of an output. -/
theorem reportedBy_le {calls : List IoCall} (h : ∀ call ∈ calls, call.2 ≤ call.given.length) :
    reportedBy calls ≤ (givenBy calls).length ∧
      (reportedBy calls = (givenBy calls).length ↔ ∀ call ∈ calls, call.Whole) := by
  induction calls with
  | nil => simp [reportedBy, givenBy]
  | cons call calls ih =>
    obtain ⟨hle, hiff⟩ := IoCall.reported_le (h call List.mem_cons_self)
    obtain ⟨ihle, ihiff⟩ := ih fun call' hcall' => h call' (List.mem_cons_of_mem _ hcall')
    have hreported : reportedBy (call :: calls) = call.2.toNat + reportedBy calls := by
      simp [reportedBy]
    have hgiven : (givenBy (call :: calls)).length = call.given.length + (givenBy calls).length := by
      simp [givenBy]
    rw [hreported, hgiven, List.forall_mem_cons, ← hiff, ← ihiff]
    constructor
    · omega
    · omega

section Loop

variable (F : Target κ) (bufferSize : ℕ) (hb : 0 < bufferSize)

/-- No call of the I/O loop consumes more than it is given. -/
theorem ioLoop_bounded (c : Client κ) (s : Source) (done : ℕ) :
    ∀ call ∈ (ioLoop F.toFunctions bufferSize hb c s done).calls, call.2 ≤ call.given.length := by
  induction c, s, done using ioLoop_induct F.toFunctions bufferSize hb with
  | stop c s done _ => simp
  | fail c s done _ _ _ =>
    intro call hcall
    obtain rfl := List.mem_singleton.mp hcall
    exact F.bounded _ _ _
  | next c s done rest _ _ _ ih =>
    intro call hcall
    rcases List.mem_cons.mp hcall with rfl | hcall
    · exact F.bounded _ _ _
    · exact ih call hcall

/-- The I/O loop leaves less to do, when it reads at all. -/
theorem ioLoop_size (c : Client κ) (s : Source) (done : ℕ) :
    (ioLoop F.toFunctions bufferSize hb c s done).source.size ≤ s.size ∧
      (c.wants done → s.eod = false →
        (ioLoop F.toFunctions bufferSize hb c s done).source.size < s.size) := by
  induction c, s, done using ioLoop_induct F.toFunctions bufferSize hb with
  | stop c s done hstop =>
    refine ⟨Nat.le_refl _, fun hw heod => ?_⟩
    simp [hw, heod] at hstop
  | fail c s done hw heod _ =>
    have hlt := s.size_ipcioRead heod (Client.chunk_pos hb hw)
    exact ⟨Nat.le_of_lt hlt, fun _ _ => hlt⟩
  | next c s done rest hw heod _ ih =>
    have hlt := s.size_ipcioRead heod (Client.chunk_pos hb hw)
    have hlt' : rest.source.size < s.size := Nat.lt_of_le_of_lt ih.1 hlt
    exact ⟨Nat.le_of_lt hlt', fun _ _ => hlt'⟩

end Loop

/-! ## One transfer -/

theorem minus_one_neg : (-1 : ℤ) < 0 := by decide

/-- What a transfer does with any target. -/
structure Accounts (c : Client κ) (s : Source) (r : TransferResult κ) : Prop where
  /-- The header is the one that the client had. -/
  header : r.output.header = c.header
  /-- What the output is given leaves the data block. -/
  given : r.output.given ++ r.source.left = s.left
  /-- Unless the transfer fails, the result is the number of bytes that the calls report. -/
  count : 0 ≤ r.count → r.count = reportedBy r.output.calls
  /-- No call consumes more than it is given. -/
  bounded : ∀ call ∈ r.output.calls, call.2 ≤ call.given.length
  /-- A transfer that has given data to its target fails only with `close_function`. -/
  failed : r.count < 0 → r.output.Failed ∨ r.output.calls = []
  /-- A transfer with a target that could not be closed fails. -/
  closed : r.output.Failed → r.count < 0

theorem dadaClientTransfer_accounts (F : Target κ) (c : Client κ) (s : Source) :
    Accounts c s (dadaClientTransfer F.toFunctions c s) := by
  -- nothing is read, so there is no call
  have hnone (count : ℤ) (hcount : count ≤ 0) (transferBytes : ℕ) (c' : Client κ) :
      Accounts c s ⟨count, ⟨c.header, transferBytes, [], none⟩, c', s⟩ := by
    refine ⟨rfl, rfl, ?_, by simp, fun _ => .inr rfl, ?_⟩
    · intro h
      show count = ((reportedBy [] : ℕ) : ℤ)
      have hcount' : count = 0 := Int.le_antisymm hcount h
      simpa [reportedBy] using hcount'
    · rintro ⟨rc, hrc, -⟩
      simp at hrc
  unfold dadaClientTransfer
  simp only []
  split
  · exact hnone (-1) (by decide) _ _
  split
  · exact hnone 0 (by decide) _ _
  split
  · exact hnone (-1) (by decide) _ _
  obtain ⟨bufferSize, hb, c', hrun, -⟩ :=
    runLoop_of_byBytes F.byBytes (sendHeader F.toFunctions (F.openFunction c).2).2 s
  rw [hrun]
  have hgiven := ioLoop_given F.toFunctions bufferSize hb c' s 0
  have hcount := ioLoop_count F.toFunctions bufferSize hb c' s 0
  have hbounded := ioLoop_bounded F bufferSize hb c' s 0
  split
  case isTrue hclose =>
    exact ⟨rfl, hgiven, fun h => absurd h (Int.not_le.mpr minus_one_neg), hbounded,
      fun _ => .inl ⟨_, rfl, hclose⟩, fun _ => minus_one_neg⟩
  case isFalse hclose =>
    rw [Nat.cast_zero, zero_add] at hcount
    refine ⟨rfl, hgiven, fun _ => hcount, hbounded, ?_, ?_⟩
    · intro hneg
      have : (ioLoop F.toFunctions bufferSize hb c' s 0).count < 0 := hneg
      omega
    · rintro ⟨rc, hrc, hneg⟩
      exact absurd (Option.some.inj hrc ▸ hneg) hclose

/-- What the functions of a client keep, so that it goes on until end-of-data. -/
structure Stays (F : Functions κ) (Q : Client κ → Prop) : Prop where
  /-- Writing into the header. -/
  header : ∀ c text, Q c → Q { c with header := text }
  /-- `open_function` does not ask to quit. -/
  opens : ∀ c, Q c → (F.openFunction c).2.quit = false
  /-- The block size is set. -/
  optimal : ∀ c n, Q c → Q { c with optimalBytes := n }
  /-- `open_function`. -/
  opened : ∀ c, Q c → Q (F.openFunction c).2
  /-- `io_function`. -/
  written : ∀ c p n, Q c → Q (F.ioFunction c p n).2
  /-- `close_function`. -/
  closed : ∀ c n, Q c → Q (F.closeFunction c n).2

section Stay

variable (F : Target κ) {Q : Client κ → Prop} (hstays : Stays F.toFunctions Q)

include hstays in
theorem ioLoop_stays (bufferSize : ℕ) (hb : 0 < bufferSize) (c : Client κ) (s : Source) (done : ℕ) :
    Q c → Q (ioLoop F.toFunctions bufferSize hb c s done).client := by
  induction c, s, done using ioLoop_induct F.toFunctions bufferSize hb with
  | stop c s done _ => exact id
  | fail c s done _ _ _ => exact hstays.written _ _ _
  | next c s done rest _ _ _ ih => exact fun hq => ih (hstays.written _ _ _ hq)

include hstays in
/-- A transfer keeps what the functions keep, and makes progress when it succeeds. -/
theorem dadaClientTransfer_stays {c : Client κ} (hq : Q c) {s : Source} (heod : s.eod = false)
    (h : 0 ≤ (dadaClientTransfer F.toFunctions c s).count) :
    Q (dadaClientTransfer F.toFunctions c s).client ∧
      (dadaClientTransfer F.toFunctions c s).source.size < s.size := by
  unfold dadaClientTransfer at h ⊢
  simp only [] at h ⊢
  by_cases hopen : (F.openFunction c).1 < 0
  · rw [if_pos hopen] at h
    exact absurd h (Int.not_le.mpr minus_one_neg)
  rw [if_neg hopen, if_neg (by simp [hstays.opens c hq])] at h ⊢
  by_cases hheader : asUnsigned (sendHeader F.toFunctions (F.openFunction c).2).1 <
      (F.openFunction c).2.headerSize
  · rw [if_pos hheader] at h
    exact absurd h (Int.not_le.mpr minus_one_neg)
  rw [if_neg hheader] at h ⊢
  have hsent : Q (sendHeader F.toFunctions (F.openFunction c).2).2 := by
    unfold sendHeader
    split
    · exact hstays.written _ _ _ (hstays.opened c hq)
    · exact hstays.opened c hq
  obtain ⟨bufferSize, hb, c', hrun, hwith⟩ :=
    runLoop_of_byBytes F.byBytes (sendHeader F.toFunctions (F.openFunction c).2).2 s
  have hc' : Q c' := by
    rcases hwith with rfl | rfl
    · exact hsent
    · exact hstays.optimal _ _ hsent
  have hwants : c'.wants 0 := by
    unfold Client.wants
    omega
  have hlt := (ioLoop_size F bufferSize hb c' s 0).2 hwants heod
  have hloop := ioLoop_stays F hstays bufferSize hb c' s 0 hc'
  rw [hrun]
  split
  · exact ⟨hstays.closed _ _ hloop, hlt⟩
  · exact ⟨hstays.closed _ _ hloop, hlt⟩

end Stay

/-! ## The outputs -/

/-- A round of the loop over the transfers. -/
theorem readLoop_cases {F : Functions κ} {fuel : ℕ} {c : Client κ} {s : Source} {obsOffset : ℕ}
    {r : ReadResult κ} (h : readLoop F (fuel + 1) c s obsOffset = some r) :
    (s.eod = true ∧ r = ⟨0, [], c, s⟩) ∨
      s.eod = false ∧ ∃ t : TransferResult κ,
        dadaClientTransfer F
          { c with header := asciiHeaderSet c.header obsOffsetKey (decimal obsOffset) } s = t ∧
        ((t.count < 0 ∧ r = ⟨-1, [⟨t.output, obsOffset⟩], t.client, t.source⟩) ∨
          0 ≤ t.count ∧ ∃ rest, readLoop F fuel t.client t.source (obsOffset + t.count.toNat) = some rest ∧
            r = { rest with outputs := ⟨t.output, obsOffset⟩ :: rest.outputs }) := by
  rw [readLoop] at h
  by_cases heod : s.eod = true
  · rw [if_pos heod] at h
    exact .inl ⟨heod, (Option.some.inj h).symm⟩
  · rw [if_neg heod] at h
    refine .inr ⟨by simpa using heod, _, rfl, ?_⟩
    simp only [] at h
    split at h
    case isTrue hneg => exact .inl ⟨hneg, (Option.some.inj h).symm⟩
    case isFalse hneg =>
      obtain ⟨rest, hrest, rfl⟩ := Option.map_eq_some_iff.mp h
      exact .inr ⟨Int.not_lt.mp hneg, rest, hrest, rfl⟩

/-- Enough rounds for a client that is not told to quit. -/
theorem readLoop_isSome (F : Target κ) {Q : Client κ → Prop} (hstays : Stays F.toFunctions Q)
    (fuel : ℕ) {c : Client κ} (hq : Q c) (s : Source) (obsOffset : ℕ) (h : s.size < fuel) :
    (readLoop F.toFunctions fuel c s obsOffset).isSome := by
  induction fuel generalizing c s obsOffset with
  | zero => exact absurd h (Nat.not_lt_zero _)
  | succ fuel ih =>
    rw [readLoop]
    by_cases heod : s.eod = true
    · rw [if_pos heod]
      rfl
    · rw [if_neg heod]
      simp only []
      split
      case isTrue => rfl
      case isFalse hneg =>
        obtain ⟨hq', hlt⟩ := dadaClientTransfer_stays F hstays (hstays.header c _ hq)
          (by simpa using heod) (Int.not_lt.mp hneg)
        rw [Option.isSome_map]
        exact ih hq' _ _ (by omega)

/-- What is known of the outputs of a run: each is given what follows in the stream, and its offset is
what the earlier ones have reported. -/
structure Recorded (initial : ℕ) (data : List UInt8) (r : ReadResult κ) : Prop where
  /-- The outputs are given the stream from its start. -/
  given : givenIn r.outputs ++ r.source.left = data
  /-- The offset of an output is what the earlier ones have reported. -/
  offset : ∀ pre o post, r.outputs = pre ++ o :: post →
    o.obsOffset = initial + (pre.map fun p => reportedBy p.calls).sum
  /-- The offset is written into the header. -/
  written : ∀ o ∈ r.outputs, o.HasOffset
  /-- No call consumes more than it is given. -/
  bounded : ∀ o ∈ r.outputs, ∀ call ∈ o.calls, call.2 ≤ call.given.length
  /-- Another output is opened, or success reported, only after one that was closed. -/
  closed : ∀ pre o post, r.outputs = pre ++ o :: post → post ≠ [] ∨ r.status = 0 → ¬ o.Failed
  /-- Without success, the last output could not be closed or was given nothing. -/
  failed : r.status ≠ 0 → ∃ pre o, r.outputs = pre ++ [o] ∧ (o.Failed ∨ o.calls = [])

/-- A first output in front of others. -/
theorem Recorded.cons {o : ReadOutput} {data : List UInt8} {r : ReadResult κ} (hwritten : o.HasOffset)
    (hbounded : ∀ call ∈ o.calls, call.2 ≤ call.given.length) (hclosed : ¬ o.toOutput.Failed)
    (h : Recorded (o.obsOffset + reportedBy o.calls) data r) :
    Recorded o.obsOffset (o.given ++ data) { r with outputs := o :: r.outputs } := by
  refine ⟨?_, ?_, ?_, ?_, ?_, ?_⟩
  · show givenIn (o :: r.outputs) ++ r.source.left = _
    rw [givenIn, List.flatMap_cons, List.append_assoc]
    exact congrArg _ h.given
  · intro pre o' post heq
    cases pre with
    | nil =>
      obtain ⟨rfl, -⟩ := List.cons_eq_cons.mp heq
      simp
    | cons p pre =>
      obtain ⟨rfl, htail⟩ := List.cons_eq_cons.mp heq
      rw [h.offset pre o' post htail, List.map_cons, List.sum_cons, Nat.add_assoc]
  · intro o' ho'
    rcases List.mem_cons.mp ho' with rfl | ho'
    · exact hwritten
    · exact h.written o' ho'
  · intro o' ho'
    rcases List.mem_cons.mp ho' with rfl | ho'
    · exact hbounded
    · exact h.bounded o' ho'
  · intro pre o' post heq hend
    cases pre with
    | nil =>
      obtain ⟨rfl, -⟩ := List.cons_eq_cons.mp heq
      exact hclosed
    | cons p pre => exact h.closed pre o' post (List.cons_eq_cons.mp heq).2 hend
  · intro hstatus
    obtain ⟨pre, o', heq, hfailed⟩ := h.failed hstatus
    exact ⟨o :: pre, o', congrArg (o :: ·) heq, hfailed⟩

theorem readLoop_recorded (F : Target κ) (fuel : ℕ) (c : Client κ) (s : Source) (obsOffset : ℕ)
    (r : ReadResult κ) (h : readLoop F.toFunctions fuel c s obsOffset = some r) :
    Recorded obsOffset s.left r := by
  induction fuel generalizing c s obsOffset r with
  | zero => simp [readLoop] at h
  | succ fuel ih =>
    obtain ⟨heod, rfl⟩ | ⟨-, t, ht, hcase⟩ := readLoop_cases h
    · refine ⟨rfl, ?_, by simp, by simp, ?_, ?_⟩
      all_goals simp
    · have ha := dadaClientTransfer_accounts F
        { c with header := asciiHeaderSet c.header obsOffsetKey (decimal obsOffset) } s
      rw [ht] at ha
      obtain ⟨hneg, rfl⟩ | ⟨hpos, rest, hrest, rfl⟩ := hcase
      · refine ⟨?_, ?_, ?_, ?_, ?_, ?_⟩
        · simpa [givenIn] using ha.given
        · intro pre o post heq
          cases pre with
          | nil =>
            obtain ⟨rfl, -⟩ := List.cons_eq_cons.mp heq
            simp
          | cons p pre => simp at heq
        · intro o ho
          obtain rfl := List.mem_singleton.mp ho
          exact ⟨c.header, ha.header⟩
        · intro o ho
          obtain rfl := List.mem_singleton.mp ho
          exact ha.bounded
        · intro pre o post heq hend
          cases pre with
          | nil =>
            obtain ⟨-, rfl⟩ := List.cons_eq_cons.mp heq
            simp at hend
          | cons p pre => simp at heq
        · exact fun _ => ⟨[], _, rfl, ha.failed hneg⟩
      · rw [ha.count hpos, Int.toNat_natCast] at hrest
        have hrec := ih _ _ _ _ hrest
        rw [← ha.given]
        exact Recorded.cons (o := ⟨t.output, obsOffset⟩) ⟨c.header, ha.header⟩ ha.bounded
          (fun hf => Int.not_lt.mpr hpos (ha.closed hf)) hrec

/-- The outputs before a place, all of them whole. -/
theorem reported_eq_given {outputs : List ReadOutput}
    (hbounded : ∀ o ∈ outputs, ∀ call ∈ o.calls, call.2 ≤ call.given.length) :
    (outputs.map fun o => reportedBy o.calls).sum ≤ (givenIn outputs).length ∧
      ((outputs.map fun o => reportedBy o.calls).sum = (givenIn outputs).length ↔
        ∀ o ∈ outputs, o.Whole) := by
  induction outputs with
  | nil => simp [givenIn]
  | cons o outputs ih =>
    obtain ⟨hle, hiff⟩ := reportedBy_le (hbounded o List.mem_cons_self)
    obtain ⟨ihle, ihiff⟩ := ih fun o' ho' => hbounded o' (List.mem_cons_of_mem _ ho')
    have hgiven : (givenIn (o :: outputs)).length = (givenBy o.calls).length + (givenIn outputs).length := by
      simp [givenIn, Output.given, givenBy]
    have hwhole : o.Whole ↔ reportedBy o.calls = (givenBy o.calls).length := hiff.symm
    rw [hgiven, List.map_cons, List.sum_cons, List.forall_mem_cons, hwhole, ← ihiff]
    constructor
    · omega
    · omega

/-- The offsets and the result are right exactly when no output that lost data is closed with success. -/
theorem Recorded.honest_iff {initial : ℕ} {data : List UInt8} {r : ReadResult κ}
    (h : Recorded initial data r) : Honest initial r ↔ ∀ o ∈ r.outputs, o.Failed ∨ o.Whole := by
  constructor
  · intro hh o ho
    obtain ⟨pre, post, heq⟩ := List.append_of_mem ho
    cases post with
    | cons next post =>
      -- the offset of the next output tells that nothing was lost before
      have heq' : r.outputs = (pre ++ [o]) ++ next :: post := by rw [heq, List.append_assoc]; rfl
      have hsub : ∀ o' ∈ pre ++ [o], o' ∈ r.outputs := by
        intro o' ho'
        rw [heq']
        exact List.mem_append_left _ ho'
      have hat := (h.offset _ _ _ heq').symm.trans (hh.offset _ _ _ heq')
      have hwhole := (reported_eq_given fun o' ho' => h.bounded o' (hsub o' ho')).2.mp (by omega)
      exact .inr (hwhole o (List.mem_append_right _ List.mem_cons_self))
    | nil =>
      by_cases hstatus : r.status = 0
      · exact .inr (hh.success hstatus o ho)
      · obtain ⟨pre', o', heq', hfailed⟩ := h.failed hstatus
        have hlast : [o] = [o'] := (List.append_inj' (heq.symm.trans heq') rfl).2
        obtain rfl : o = o' := by simpa using hlast
        refine hfailed.imp_right fun hnil => ?_
        intro call hcall
        rw [hnil] at hcall
        simp at hcall
  · intro hkept
    have hwhole (pre : List ReadOutput) (o : ReadOutput) (post : List ReadOutput)
        (heq : r.outputs = pre ++ o :: post) (hend : post ≠ [] ∨ r.status = 0) : o.Whole :=
      (hkept o (by rw [heq]; simp)).resolve_left (h.closed pre o post heq hend)
    constructor
    · intro pre o post heq
      rw [h.offset pre o post heq]
      refine congrArg _ ((reported_eq_given fun o' ho' => h.bounded o' ?_).2.mpr fun o' ho' => ?_)
      · rw [heq]
        exact List.mem_append_left _ ho'
      · obtain ⟨pre', post', hpre⟩ := List.append_of_mem ho'
        refine hwhole pre' o' (post' ++ o :: post) ?_ (.inl (by simp))
        rw [heq, hpre, List.append_assoc]
        rfl
    · intro hstatus o ho
      obtain ⟨pre, post, heq⟩ := List.append_of_mem ho
      exact hwhole pre o post heq (.inr hstatus)

/-- Functions that succeed and consume all they are given. -/
structure Lossless (F : Functions κ) : Prop where
  /-- `open_function` succeeds. -/
  opens : ∀ c, 0 ≤ (F.openFunction c).1
  /-- `io_function` consumes all. -/
  consumes : ∀ c p (n : ℕ), (F.ioFunction c p n).1 = n
  /-- `close_function` succeeds. -/
  closes : ∀ c n, 0 ≤ (F.closeFunction c n).1

section Lossless

variable (F : Target κ) (h : Lossless F.toFunctions)

include h in
theorem ioLoop_whole (bufferSize : ℕ) (hb : 0 < bufferSize) (c : Client κ) (s : Source) (done : ℕ) :
    ∀ call ∈ (ioLoop F.toFunctions bufferSize hb c s done).calls, call.Whole := by
  have hwhole (c : Client κ) (s : Source) (done : ℕ) :
      (ioRound F.toFunctions bufferSize c s done).call.Whole := by
    have hall : (ioRound F.toFunctions bufferSize c s done).call.2 =
        (ioRound F.toFunctions bufferSize c s done).call.given.length := h.consumes _ _ _
    exact (IoCall.reported_le (Int.le_of_eq hall)).2.mp (by rw [hall, Int.toNat_natCast])
  induction c, s, done using ioLoop_induct F.toFunctions bufferSize hb with
  | stop c s done _ => simp
  | fail c s done _ _ _ =>
    intro call hcall
    obtain rfl := List.mem_singleton.mp hcall
    exact hwhole c s done
  | next c s done rest _ _ _ ih =>
    intro call hcall
    rcases List.mem_cons.mp hcall with rfl | hcall
    · exact hwhole c s done
    · exact ih call hcall

include h in
/-- A transfer that is not told to quit runs the I/O loop, and returns its count. -/
theorem dadaClientTransfer_lossless {c : Client κ} (hquit : (F.openFunction c).2.quit = false)
    (s : Source) : ∃ bufferSize, ∃ hb : 0 < bufferSize, ∃ c' : Client κ,
      (c' = (sendHeader F.toFunctions (F.openFunction c).2).2 ∨
        c' = { (sendHeader F.toFunctions (F.openFunction c).2).2 with optimalBytes := defaultBlockSize }) ∧
      (dadaClientTransfer F.toFunctions c s).count =
        (ioLoop F.toFunctions bufferSize hb c' s 0).count ∧
      (dadaClientTransfer F.toFunctions c s).output.calls =
        (ioLoop F.toFunctions bufferSize hb c' s 0).calls ∧
      (dadaClientTransfer F.toFunctions c s).source =
        (ioLoop F.toFunctions bufferSize hb c' s 0).source ∧
      (dadaClientTransfer F.toFunctions c s).client =
        (F.closeFunction (ioLoop F.toFunctions bufferSize hb c' s 0).client
          (asUnsigned (ioLoop F.toFunctions bufferSize hb c' s 0).count)).2 := by
  unfold dadaClientTransfer
  simp only []
  have hsent : (sendHeader F.toFunctions (F.openFunction c).2).1 = (F.openFunction c).2.headerSize := by
    unfold sendHeader
    split
    · exact h.consumes _ _ _
    · rfl
  have hheader : ¬ asUnsigned (sendHeader F.toFunctions (F.openFunction c).2).1 <
      (F.openFunction c).2.headerSize := by
    rw [hsent, asUnsigned_natCast]
    exact Nat.lt_irrefl _
  rw [if_neg (Int.not_lt.mpr (h.opens c)), if_neg (by simp [hquit]), if_neg hheader,
    if_neg (Int.not_lt.mpr (h.closes _ _))]
  obtain ⟨bufferSize, hb, c', hrun, hwith⟩ :=
    runLoop_of_byBytes F.byBytes (sendHeader F.toFunctions (F.openFunction c).2).2 s
  exact ⟨bufferSize, hb, c', hwith, by rw [hrun], by rw [hrun], by rw [hrun], by rw [hrun]⟩

include h in
/-- The output of a transfer consumes all. -/
theorem dadaClientTransfer_whole {c : Client κ} (hquit : (F.openFunction c).2.quit = false)
    (s : Source) : (dadaClientTransfer F.toFunctions c s).output.Whole := by
  obtain ⟨bufferSize, hb, c', -, -, hcalls, -, -⟩ := dadaClientTransfer_lossless F h hquit s
  intro call hcall
  rw [hcalls] at hcall
  exact ioLoop_whole F h bufferSize hb c' s 0 call hcall

include h in
/-- The result of a transfer is the number of bytes that were consumed. -/
theorem dadaClientTransfer_taken {c : Client κ} (hquit : (F.openFunction c).2.quit = false)
    (s : Source) : (dadaClientTransfer F.toFunctions c s).count =
      (dadaClientTransfer F.toFunctions c s).output.taken.length := by
  have ha := dadaClientTransfer_accounts F c s
  have hwhole := dadaClientTransfer_whole F h hquit s
  obtain ⟨bufferSize, hb, c', -, hcount, -, -, -⟩ := dadaClientTransfer_lossless F h hquit s
  have hpos : 0 ≤ (dadaClientTransfer F.toFunctions c s).count := by
    rw [hcount, ioLoop_count]
    omega
  rw [ha.count hpos, (reportedBy_le ha.bounded).2.mpr hwhole, hwhole.taken_eq]
  rfl

include h in
/-- The whole stream is consumed. -/
theorem readLoop_lossless {Q : Client κ → Prop} (hstays : Stays F.toFunctions Q) (fuel : ℕ)
    {c : Client κ} (hq : Q c) (s : Source) (obsOffset : ℕ) {r : ReadResult κ}
    (hr : readLoop F.toFunctions fuel c s obsOffset = some r) :
    r.status = 0 ∧ takenIn r.outputs = s.left := by
  induction fuel generalizing c s obsOffset r with
  | zero => simp [readLoop] at hr
  | succ fuel ih =>
    obtain ⟨heod, rfl⟩ | ⟨heod, t, ht, hcase⟩ := readLoop_cases hr
    · exact ⟨rfl, (Source.left_of_eod heod).symm⟩
    · have hq' := hstays.header c (asciiHeaderSet c.header obsOffsetKey (decimal obsOffset)) hq
      have hcount := dadaClientTransfer_taken F h (hstays.opens _ hq') s
      have hgiven := (dadaClientTransfer_accounts F
        { c with header := asciiHeaderSet c.header obsOffsetKey (decimal obsOffset) } s).given
      have hwhole := dadaClientTransfer_whole F h (hstays.opens _ hq') s
      have hstay := dadaClientTransfer_stays F hstays hq' heod
      rw [ht] at hcount hgiven hwhole hstay
      obtain ⟨hneg, -⟩ | ⟨hpos, rest, hrest, rfl⟩ := hcase
      · omega
      · obtain ⟨hstatus, hall⟩ := ih (hstay hpos).1 _ _ hrest
        refine ⟨hstatus, ?_⟩
        show takenIn (⟨t.output, obsOffset⟩ :: rest.outputs) = s.left
        rw [takenIn, List.flatMap_cons, ← hgiven, ← hwhole.taken_eq]
        exact congrArg _ hall

end Lossless

/-! ## A write error that is not reported -/

theorem failedOrAll_le (data : List UInt8) (n : ℕ) :
    (if (data.headD 0).toNat = 1 then (-1 : ℤ) else n) ≤ n := by
  split
  · omega
  · exact Int.le_refl _

theorem noBlockFunction : (none : Option (Client Unit → List UInt8 → ℤ × Client Unit)) = none :=
  rfl

/-- A target that takes four bytes at a time, where the write of the first four bytes fails. -/
def diskFull : Target Unit where
  openFunction c := (0, { c with transferBytes := 4 })
  ioFunction c payload n :=
    match payload with
    | .header _ => (n, c)
    | .data bytes => (if (bytes.headD 0).toNat = 1 then -1 else n, c)
  ioBlockFunction := none
  closeFunction c _ := (0, c)
  bounded _ data n := failedOrAll_le data n
  byBytes := noBlockFunction

/-- Eight bytes in one sub-block. -/
def eightBytes : DataStream where
  bufsz := 8
  bufsz_pos := Nat.succ_pos _
  full := []
  full_length := by simp
  last := [1, 2, 3, 4, 5, 6, 7, 8]
  last_length := by decide

/-- A client whose header starts at offset 0. -/
def idleClient : Client Unit := ⟨(), "OBS_OFFSET 0\n".toList, 4096, false, 4, 4, false⟩

end Psrdada
