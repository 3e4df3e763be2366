import Psrdada.Client.Offsets

/-! # Switching between output rings

`dada_dbNdb` copies a ring to one of several others and changes to another one, at a chunk boundary, when
the current one is filling up.  `hdu_open_function`, `hdu_write_function` and `hdu_close_function` are
translated here; the rings to which it writes accept all that is written and report their free space as
they like.

The byte at which a transfer is to end is computed from `current_bytes`, which counts over all transfers
(its comment says that it is reset for each), while the loop of the client compares it with the bytes of
the current transfer.  `Switched` says where a switch shall be, and `dbNdb_switches` that it is there
as long as switches are decided in the first transfer only, each for a byte that has not been written
yet. -/

namespace Psrdada

open CString

/-! ## Integers of the header -/

/-- Conversion to `int`. -/
def toInt (n : ℤ) : ℤ := (n + 2 ^ 31) % 2 ^ 32 - 2 ^ 31

/-- Conversion to `int64_t`. -/
def toInt64 (n : ℤ) : ℤ := (n + 2 ^ 63) % 2 ^ 64 - 2 ^ 63

/-- The conversion of an `int` by `sscanf`: a number that is too large for a `long` becomes the largest,
and then loses its upper half. -/
def scanInt (text : Text) : Option ℤ :=
  let text := text.dropWhile Char.isWhitespace
  let (negative, text) := match text with
    | '-' :: rest => (true, rest)
    | '+' :: rest => (false, rest)
    | _ => (false, text)
  let digits := (scanDigits text).1
  if digits = [] then none
  else if negative then some (toInt (max (-digitsValue digits) (-2 ^ 63)))
  else some (toInt (min (digitsValue digits) (2 ^ 63 - 1)))

/-- `ascii_header_get (header, keyword, "%d", &n)`, where it returns 1. -/
def asciiHeaderGetInt (header keyword : Text) : Option ℤ :=
  match asciiHeaderFind header keyword with
  | none => none
  | some key => scanInt ((header.drop key).drop (strcspn (header.drop key) whitespace))

/-! ## The queue -/

/-- What a ring reports of its free space. -/
structure FreeSpace where
  /-- `ipcio_space_left`. -/
  spaceLeft : ℕ
  /-- Whether `ipcio_percent_full` is less than 0.5. -/
  halfEmpty : Bool

/-- A decision to change to another ring. -/
structure Decision where
  /-- `next_chunk_byte`: the chunk boundary. -/
  boundary : ℕ
  /-- `current_bytes` when it is taken. -/
  position : ℕ

/-- `dada_dbNdb_t`. -/
structure DbNdb where
  /-- `nhdu`: the number of rings. -/
  nhdu : ℕ
  /-- `ihdu`: the ring that is written to. -/
  ihdu : ℕ
  /-- `chunk_size`. -/
  chunkSize : ℕ
  /-- `current_bytes`. -/
  currentBytes : ℕ
  /-- `resolution`. -/
  resolution : ℤ
  /-- `byte_multiple`. -/
  byteMultiple : ℤ
  /-- `obs_offset`. -/
  obsOffset : ℤ
  /-- How many reports have been asked for. -/
  reported : ℕ
  /-- For each transfer, the last one first: the decision that ends it, if any.  No step depends on it. -/
  decisions : List (Option Decision)

/-- The queue when `dada_client_read` is called. -/
def DbNdb.init (nhdu : ℕ) : DbNdb := ⟨nhdu, 0, 0, 0, 0, 0, -1, 0, []⟩

variable (reports : ℕ → FreeSpace)

/-- Whether a chunk fits into a ring that makes a report. -/
def FreeSpace.fits (report : FreeSpace) (chunkSize : ℕ) : Bool :=
  decide (chunkSize ≤ report.spaceLeft) && report.halfEmpty

/-- Cycle through the rings, of which `left` are left: the first one into which a chunk fits, and the
number of reports that have been asked for. -/
def findHdu (chunkSize : ℕ) : (left ihdu reported : ℕ) → Option ℕ × ℕ
  | 0, _, reported => (none, reported)
  | left + 1, ihdu, reported =>
    if (reports reported).fits chunkSize then (some ihdu, reported + 1)
    else findHdu chunkSize left (ihdu + 1) (reported + 1)

/-- `byte_multiple`, as `hdu_open_function` finds it in a header. -/
def byteMultipleOf (header : Text) : ℤ :=
  toInt ((asciiHeaderGetInt header "RESOLUTION".toList).getD 1 * 512)

/-- `chunk_size`, as `hdu_open_function` finds it in a header. -/
def chunkSizeOf (header : Text) : ℕ :=
  toUInt64 (toInt ((asciiHeaderGetInt header "BYTES_PER_SECOND".toList).getD 64000000 * 10))

/-- `obs_offset`, as `hdu_open_function` finds it in a header. -/
def obsOffsetOf (header : Text) : ℕ := (asciiHeaderGetUnsigned header obsOffsetKey).getD 0

/-- `hdu_open_function`. -/
def hduOpenFunction (c : Client DbNdb) : ℤ × Client DbNdb :=
  let queue := c.context
  -- the chunk size is still that of the previous transfer
  let found := findHdu reports queue.chunkSize queue.nhdu 0 queue.reported
  let queue := { queue with
    ihdu := found.1.getD 0
    reported := found.2
    resolution := (asciiHeaderGetInt c.header "RESOLUTION".toList).getD 0
    byteMultiple := byteMultipleOf c.header
    -- only set the obs_offset upon the first call
    obsOffset := if queue.obsOffset = -1 then toInt64 (obsOffsetOf c.header) else queue.obsOffset
    chunkSize := chunkSizeOf c.header
    decisions := none :: queue.decisions }
  (0, { c with context := queue, transferBytes := 0, headerTransfer := false })

/-- The byte at which the transfer shall end: the chunk boundary, shrunk so that it is on a multiple of
`byte_multiple`, or grown if the gap is more than half of it. -/
def switchByte (obsOffset : ℤ) (byteMultiple : ℤ) (boundary : ℕ) : ℕ :=
  let gap := (asUnsigned obsOffset + boundary) % asUnsigned byteMultiple
  asUnsigned ((boundary : ℤ) - gap +
    if gap > asUnsigned (byteMultiple.tdiv 2) then asUnsigned byteMultiple else 0)

/-- `hdu_write_function`.  (Where `chunk_size` or `byte_multiple` is 0, the code stops at the division.) -/
def hduWriteFunction (c : Client DbNdb) (_ : Payload) (dataSize : ℕ) : ℤ × Client DbNdb :=
  let queue := { c.context with currentBytes := c.context.currentBytes + dataSize }
  let c := { c with context := queue }
  let boundary := (queue.currentBytes / queue.chunkSize + 1) * queue.chunkSize
  if c.transferBytes = 0 ∧ boundary < queue.currentBytes + dataSize then
    -- the next write would cross a chunk boundary: test if we should change rings
    let found := findHdu reports queue.chunkSize queue.nhdu 0 queue.reported
    let queue := { queue with reported := found.2 }
    match found.1 with
    | none => (dataSize, { c with context := queue })
    | some ihdu =>
      if ihdu ≠ queue.ihdu then
        let queue := { queue with
          decisions := some ⟨boundary, queue.currentBytes⟩ :: queue.decisions.tail }
        (dataSize, { c with
          context := queue
          transferBytes := switchByte queue.obsOffset queue.byteMultiple boundary })
      else (dataSize, { c with context := queue })
  else (dataSize, c)

/-- `hdu_close_function`. -/
def hduCloseFunction (c : Client DbNdb) (_ : ℕ) : ℤ × Client DbNdb := (0, c)

/-- The functions of `dada_dbNdb`. -/
def dbNdb : Target DbNdb where
  openFunction := hduOpenFunction reports
  ioFunction := hduWriteFunction reports
  ioBlockFunction := none
  closeFunction := hduCloseFunction
  bounded c data n := by
    unfold hduWriteFunction
    simp only []
    split
    · split
      · exact Int.le_refl _
      · split <;> exact Int.le_refl _
    · exact Int.le_refl _
  byBytes := rfl

/-! ## Where a switch shall be -/

/-- The byte `e` of the stream is, of those that are on a multiple in the observation, one nearest to the
boundary.  The stream starts at the byte `obs` of the observation. -/
structure Nearest (multiple obs boundary e : ℕ) : Prop where
  /-- It is on a multiple. -/
  aligned : multiple ∣ obs + e
  /-- No other multiple is nearer. -/
  nearest : ∀ y, multiple ∣ y →
    (((obs + e : ℕ) : ℤ) - (obs + boundary : ℕ)).natAbs ≤ ((y : ℤ) - (obs + boundary : ℕ)).natAbs

/-- The offset of the stream in the observation, as the header of the first output has it. -/
def startOf (outputs : List ReadOutput) : ℕ := (outputs.head?.map fun o => obsOffsetOf o.header).getD 0

/-- Every switch ends its transfer at the byte nearest to the chunk boundary at which it was decided. -/
def Switched (r : ReadResult DbNdb) : Prop :=
  ∀ pre o post before decision after, r.outputs = pre ++ o :: post →
    r.client.context.decisions.reverse = before ++ some decision :: after →
    before.length = pre.length → post ≠ [] →
    Nearest (byteMultipleOf o.header).toNat (startOf r.outputs) decision.boundary
      ((takenIn pre).length + o.taken.length)

/-- No header stops the code at a division, and its byte multiple is positive. -/
def Divisible (r : ReadResult DbNdb) : Prop :=
  ∀ o ∈ r.outputs, chunkSizeOf o.header ≠ 0 ∧ 0 < byteMultipleOf o.header

/-- A decision is taken in time: in the first transfer, and when the boundary is shrunk, then not to a
byte that has been written already. -/
def DecidedInTime (r : ReadResult DbNdb) : Prop :=
  ∀ before decision after, r.client.context.decisions.reverse = before ++ some decision :: after →
    before = [] ∧ ∀ o ∈ r.outputs.head?,
      let gap := (startOf r.outputs + decision.boundary) % (byteMultipleOf o.header).toNat
      2 * gap ≤ (byteMultipleOf o.header).toNat → decision.position + gap ≤ decision.boundary

/-! ## The byte of a switch -/

theorem scanUnsigned_lt {text rest : Text} {n : ℕ} (h : scanUnsigned text = some (n, rest)) :
    n < 2 ^ 64 := by
  unfold scanUnsigned at h
  simp only [] at h
  split at h
  all_goals
    split at h
    · simp at h
    · obtain ⟨rfl, -⟩ := Prod.mk.inj (Option.some.inj h)
      split
      · unfold toUInt64
        omega
      · omega

theorem obsOffsetOf_lt (header : Text) : obsOffsetOf header < 2 ^ 64 := by
  unfold obsOffsetOf asciiHeaderGetUnsigned
  split
  · decide
  · cases hscan : scanUnsigned ((header.drop _).drop (strcspn (header.drop _) whitespace)) with
    | none => decide
    | some v => exact scanUnsigned_lt hscan

/-- An offset survives its stay in an `int64_t`. -/
theorem asUnsigned_toInt64 {n : ℕ} (h : n < 2 ^ 64) : asUnsigned (toInt64 n) = n := by
  unfold asUnsigned toInt64
  split
  all_goals omega

/-- The byte of a switch, where the code does not shrink it to before the start of the stream. -/
theorem switchByte_eq {obs multiple boundary : ℕ} (hobs : obs < 2 ^ 64) (hm : 0 < multiple)
    (hin : 2 * ((obs + boundary) % multiple) ≤ multiple → (obs + boundary) % multiple ≤ boundary) :
    switchByte (toInt64 obs) multiple boundary =
      if 2 * ((obs + boundary) % multiple) ≤ multiple then boundary - (obs + boundary) % multiple
      else boundary + multiple - (obs + boundary) % multiple := by
  have hhalf : (multiple : ℤ).tdiv 2 = (multiple / 2 : ℕ) := rfl
  have hgap := Nat.mod_lt (obs + boundary) hm
  unfold switchByte
  simp only [asUnsigned_toInt64 hobs, hhalf, asUnsigned_natCast]
  set gap := (obs + boundary) % multiple
  unfold asUnsigned
  by_cases hshrink : 2 * gap ≤ multiple
  · have hle := hin hshrink
    rw [if_pos hshrink, if_neg (show ¬ gap > multiple / 2 by omega), if_neg (by omega)]
    omega
  · rw [if_neg hshrink, if_pos (show gap > multiple / 2 by omega), if_neg (by omega)]
    omega

/-- That byte is nearest to its boundary. -/
theorem nearest_switchByte {obs multiple boundary : ℕ} (hobs : obs < 2 ^ 64) (hm : 0 < multiple)
    (hin : 2 * ((obs + boundary) % multiple) ≤ multiple → (obs + boundary) % multiple ≤ boundary) :
    Nearest multiple obs boundary (switchByte (toInt64 obs) multiple boundary) := by
  rw [switchByte_eq hobs hm hin]
  have hgap := Nat.mod_lt (obs + boundary) hm
  have hdiv := Nat.div_add_mod (obs + boundary) multiple
  set gap := (obs + boundary) % multiple
  set k := (obs + boundary) / multiple
  have hup : multiple * (k + 1) = multiple * k + multiple := Nat.mul_succ _ _
  -- every multiple is below the boundary by the gap at least, or above it by the rest at least
  have hfar (y : ℕ) (hy : multiple ∣ y) :
      y + gap ≤ obs + boundary ∨ obs + boundary + multiple ≤ y + gap := by
    obtain ⟨j, rfl⟩ := hy
    by_cases hj : j ≤ k
    · have := Nat.mul_le_mul_left multiple hj
      omega
    · have := Nat.mul_le_mul_left multiple (show k + 1 ≤ j by omega)
      omega
  split
  case isTrue hshrink =>
    have hle := hin hshrink
    have hsum : obs + (boundary - gap) = multiple * k := by omega
    refine ⟨⟨k, hsum⟩, fun y hy => ?_⟩
    have := hfar y hy
    omega
  case isFalse hgrow =>
    have hsum : obs + (boundary + multiple - gap) = multiple * (k + 1) := by omega
    refine ⟨⟨k + 1, hsum⟩, fun y hy => ?_⟩
    have := hfar y hy
    omega

/-! ## A transfer -/

/-- What `hdu_write_function` does: it writes all, and may decide on a switch. -/
theorem hduWriteFunction_cases (c : Client DbNdb) (p : Payload) (n : ℕ) {result : ℤ × Client DbNdb}
    (h : hduWriteFunction reports c p n = result) :
    result.1 = n ∧ result.2.quit = c.quit ∧ result.2.headerSize = c.headerSize ∧
      ∃ reported decisions, result.2.context = { c.context with
          currentBytes := c.context.currentBytes + n, reported := reported, decisions := decisions } ∧
        ((result.2.transferBytes = c.transferBytes ∧ decisions = c.context.decisions) ∨
          ∃ boundary, c.transferBytes = 0 ∧ boundary < c.context.currentBytes + n + n ∧
            boundary = ((c.context.currentBytes + n) / c.context.chunkSize + 1) * c.context.chunkSize ∧
            decisions = some ⟨boundary, c.context.currentBytes + n⟩ :: c.context.decisions.tail ∧
            result.2.transferBytes =
              switchByte c.context.obsOffset c.context.byteMultiple boundary) := by
  subst h
  unfold hduWriteFunction
  simp only []
  split
  case isTrue hcross =>
    split
    case h_1 => exact ⟨rfl, rfl, rfl, _, _, rfl, .inl ⟨rfl, rfl⟩⟩
    case h_2 ihdu _ =>
      split
      · exact ⟨rfl, rfl, rfl, _, _, rfl, .inr ⟨_, hcross.1, hcross.2, rfl, rfl, rfl⟩⟩
      · exact ⟨rfl, rfl, rfl, _, _, rfl, .inl ⟨rfl, rfl⟩⟩
  case isFalse => exact ⟨rfl, rfl, rfl, _, _, rfl, .inl ⟨rfl, rfl⟩⟩

theorem dbNdb_lossless : Lossless (dbNdb reports).toFunctions where
  opens _ := Int.le_refl _
  consumes c p n := (hduWriteFunction_cases reports c p n rfl).1
  closes _ _ := Int.le_refl _

theorem dbNdb_stays : Stays (dbNdb reports).toFunctions (fun c => c.quit = false) where
  header _ _ h := h
  opens _ h := h
  optimal _ _ h := h
  opened _ h := h
  written c p n h := ((hduWriteFunction_cases reports c p n rfl).2.1).trans h
  closed _ _ h := h

/-- The client within a transfer that was opened with the queue `q`, after `done` bytes. -/
structure Heading (q : DbNdb) (c : Client DbNdb) (done : ℕ) : Prop where
  /-- `current_bytes` goes on from what it was. -/
  bytes : c.context.currentBytes = q.currentBytes + done
  /-- The attributes from the header stay. -/
  chunkSize : c.context.chunkSize = q.chunkSize
  /-- The attributes from the header stay. -/
  byteMultiple : c.context.byteMultiple = q.byteMultiple
  /-- The attributes from the header stay. -/
  obsOffset : c.context.obsOffset = q.obsOffset
  /-- Either no switch has been decided, or one at a boundary that had not been reached; then a first
  transfer does not go beyond its byte. -/
  decided : (c.context.decisions = none :: q.decisions.tail ∧ c.transferBytes = 0) ∨
    ∃ decision, c.context.decisions = some decision :: q.decisions.tail ∧
      c.transferBytes = switchByte q.obsOffset q.byteMultiple decision.boundary ∧
      (q.chunkSize ≠ 0 → decision.position < decision.boundary ∧ 0 < decision.position) ∧
      (q.currentBytes = 0 → q.chunkSize ≠ 0 → decision.position ≤ c.transferBytes →
        done ≤ c.transferBytes)

/-- A write keeps the client on its way. -/
theorem Heading.write {q : DbNdb} {c : Client DbNdb} {done n : ℕ} (h : Heading q c done) (p : Payload)
    (hn : c.transferBytes ≠ 0 → n ≤ c.transferBytes - done) :
    Heading q (hduWriteFunction reports c p n).2 (done + n) := by
  obtain ⟨hbytes, hchunk, hmultiple, hoffset, hdecided⟩ := h
  obtain ⟨-, -, -, reported, decisions, hcontext, hcase⟩ := hduWriteFunction_cases reports c p n rfl
  refine ⟨?_, ?_, ?_, ?_, ?_⟩
  · rw [hcontext, ← Nat.add_assoc, ← hbytes]
  · rw [hcontext, ← hchunk]
  · rw [hcontext, ← hmultiple]
  · rw [hcontext, ← hoffset]
  · rw [hcontext]
    show (decisions = _ ∧ _) ∨ ∃ decision, decisions = _ ∧ _
    rcases hcase with ⟨hsame, rfl⟩ | ⟨boundary, hzero, hcross, hboundary, rfl, hset⟩
    · -- no decision now
      rw [hsame]
      refine hdecided.imp_right ?_
      rintro ⟨decision, hdecision, htarget, hpos, hfirst⟩
      refine ⟨decision, hdecision, htarget, hpos, fun hq hk hle => ?_⟩
      have := hfirst hq hk hle
      have := (hpos hk).2
      have := hn (by omega)
      omega
    · -- the decision is taken after the bytes have been written
      have htail : c.context.decisions.tail = q.decisions.tail := by
        rcases hdecided with ⟨h, -⟩ | ⟨_, h, -⟩
        all_goals rw [h, List.tail_cons]
      rw [htail, hset, hmultiple, hoffset]
      refine .inr ⟨_, rfl, rfl, ?_, ?_⟩
      · intro hk
        have hlt : c.context.currentBytes + n < boundary := by
          rw [hboundary, hchunk]
          have := Nat.lt_mul_div_succ (c.context.currentBytes + n) (Nat.pos_of_ne_zero hk)
          rw [Nat.mul_comm]
          exact this
        refine ⟨hlt, ?_⟩
        show 0 < c.context.currentBytes + n
        omega
      · intro hq _ hle
        change c.context.currentBytes + n ≤ _ at hle
        omega

/-- The I/O loop of a transfer. -/
theorem ioLoop_heading (bufferSize : ℕ) (hb : 0 < bufferSize) (q : DbNdb) (c : Client DbNdb)
    (s : Source) (done : ℕ) : Heading q c done →
    ∃ n : ℕ, (ioLoop (dbNdb reports).toFunctions bufferSize hb c s done).count = n ∧
      Heading q (ioLoop (dbNdb reports).toFunctions bufferSize hb c s done).client n ∧
      ((ioLoop (dbNdb reports).toFunctions bufferSize hb c s done).source.eod = true ∨
        ¬ (ioLoop (dbNdb reports).toFunctions bufferSize hb c s done).client.wants n) := by
  induction c, s, done using ioLoop_induct (dbNdb reports).toFunctions bufferSize hb with
  | stop c s done hstop => exact fun h => ⟨done, rfl, h, hstop.symm⟩
  | fail c s done _ _ hneg =>
    have hall : (ioRound (dbNdb reports).toFunctions bufferSize c s done).call.2 =
      (_ : ℕ) := (dbNdb_lossless reports).consumes _ _ _
    rw [hall] at hneg
    omega
  | next c s done rest _ heod _ ih =>
    intro h
    have hall : (ioRound (dbNdb reports).toFunctions bufferSize c s done).call.2 =
      (_ : ℕ) := (dbNdb_lossless reports).consumes _ _ _
    rw [hall, Int.toNat_natCast] at ih
    refine ih (h.write reports _ fun hT => ?_)
    have hlen := (ioRound_spec (dbNdb reports).toFunctions bufferSize heod c done).2.1
    show (ioRound (dbNdb reports).toFunctions bufferSize c s done).call.given.length ≤ _
    rw [hlen, List.length_take]
    unfold Client.chunk
    split_ifs
    all_goals omega

/-- One transfer of `dada_dbNdb`. -/
theorem dbNdb_transfer {c : Client DbNdb} (hquit : c.quit = false) (s : Source) :
    ∃ n : ℕ, (dadaClientTransfer (dbNdb reports).toFunctions c s).count = n ∧
      Heading (hduOpenFunction reports c).2.context
        (dadaClientTransfer (dbNdb reports).toFunctions c s).client n ∧
      ((dadaClientTransfer (dbNdb reports).toFunctions c s).source.eod = true ∨
        ¬ (dadaClientTransfer (dbNdb reports).toFunctions c s).client.wants n) := by
  obtain ⟨bufferSize, hb, c', hwith, hcount, -, hsource, hclient⟩ :=
    dadaClientTransfer_lossless (dbNdb reports) (dbNdb_lossless reports) (c := c) hquit s
  have hstart : Heading (hduOpenFunction reports c).2.context c' 0 := by
    rcases hwith with rfl | rfl
    all_goals exact ⟨rfl, rfl, rfl, rfl, .inl ⟨rfl, rfl⟩⟩
  obtain ⟨n, hn, hheading, hend⟩ := ioLoop_heading reports bufferSize hb _ c' s 0 hstart
  rw [hcount, hclient, hsource]
  exact ⟨n, hn, hheading, hend⟩

/-! ## The run -/

/-- A transfer makes one entry. -/
theorem dbNdb_entry {c : Client DbNdb} (hquit : c.quit = false) (s : Source) : ∃ entry,
    (dadaClientTransfer (dbNdb reports).toFunctions c s).client.context.decisions =
      entry :: c.context.decisions := by
  obtain ⟨n, -, hheading, -⟩ := dbNdb_transfer reports hquit s
  rcases hheading.decided with ⟨h, -⟩ | ⟨decision, h, -⟩
  · exact ⟨none, h⟩
  · exact ⟨some decision, h⟩

/-- One entry is made for each output. -/
theorem readLoop_decisions (fuel : ℕ) {c : Client DbNdb} (hquit : c.quit = false) (s : Source)
    (obsOffset : ℕ) {r : ReadResult DbNdb}
    (hr : readLoop (dbNdb reports).toFunctions fuel c s obsOffset = some r) :
    ∃ later, r.client.context.decisions.reverse = c.context.decisions.reverse ++ later ∧
      later.length = r.outputs.length := by
  induction fuel generalizing c s obsOffset r with
  | zero => simp [readLoop] at hr
  | succ fuel ih =>
    obtain ⟨-, rfl⟩ | ⟨heod, t, rfl, hcase⟩ := readLoop_cases hr
    · exact ⟨[], (List.append_nil _).symm, rfl⟩
    · set c' : Client DbNdb :=
        { c with header := asciiHeaderSet c.header obsOffsetKey (decimal obsOffset) }
      have hquit' : c'.quit = false := hquit
      obtain ⟨entry, hentry⟩ := dbNdb_entry reports hquit' s
      obtain ⟨-, rfl⟩ | ⟨hpos, rest, hrest, rfl⟩ := hcase
      · exact ⟨[entry], by rw [hentry, List.reverse_cons], rfl⟩
      · have hnext := (dadaClientTransfer_stays _ (dbNdb_stays reports) hquit' heod hpos).1
        obtain ⟨later, hlater, hlength⟩ := ih hnext _ _ hrest
        refine ⟨entry :: later, ?_, by simp [hlength]⟩
        show rest.client.context.decisions.reverse = _
        rw [hlater, hentry, List.reverse_cons, List.append_assoc]
        rfl

/-- The switch that is decided in the first transfer. -/
theorem first_switch {c : Client DbNdb} (hquit : c.quit = false) (hbytes : c.context.currentBytes = 0)
    (hoffset : c.context.obsOffset = -1) (s : Source) (hchunk : chunkSizeOf c.header ≠ 0)
    (hmultiple : 0 < byteMultipleOf c.header) {decision : Decision} {before : List (Option Decision)}
    (hdecision : (dadaClientTransfer (dbNdb reports).toFunctions c s).client.context.decisions =
      some decision :: before)
    (htime : 2 * ((obsOffsetOf c.header + decision.boundary) % (byteMultipleOf c.header).toNat) ≤
        (byteMultipleOf c.header).toNat →
      decision.position + (obsOffsetOf c.header + decision.boundary) %
        (byteMultipleOf c.header).toNat ≤ decision.boundary)
    (heod : (dadaClientTransfer (dbNdb reports).toFunctions c s).source.eod = false) :
    Nearest (byteMultipleOf c.header).toNat (obsOffsetOf c.header) decision.boundary
      (dadaClientTransfer (dbNdb reports).toFunctions c s).count.toNat := by
  obtain ⟨n, hn, hheading, hend⟩ := dbNdb_transfer reports hquit s
  obtain ⟨decision', hdecision', htarget, hpos, hfirst⟩ := hheading.decided.resolve_left (by
    rintro ⟨h, -⟩
    rw [hdecision] at h
    simp at h)
  obtain rfl : decision = decision' := by
    rw [hdecision] at hdecision'
    simpa using (List.cons_eq_cons.mp hdecision').1
  obtain ⟨hbelow, hwritten⟩ := hpos hchunk
  have hobs : (hduOpenFunction reports c).2.context.obsOffset = toInt64 (obsOffsetOf c.header) :=
    if_pos hoffset
  have hmul : (hduOpenFunction reports c).2.context.byteMultiple =
      ((byteMultipleOf c.header).toNat : ℤ) := (Int.toNat_of_nonneg (Int.le_of_lt hmultiple)).symm
  rw [hobs, hmul] at htarget
  have hm : 0 < (byteMultipleOf c.header).toNat := by omega
  have hin : 2 * ((obsOffsetOf c.header + decision.boundary) % (byteMultipleOf c.header).toNat) ≤
        (byteMultipleOf c.header).toNat →
      (obsOffsetOf c.header + decision.boundary) % (byteMultipleOf c.header).toNat ≤
        decision.boundary := by
    intro h
    have := htime h
    omega
  have hnear := nearest_switchByte (obsOffsetOf_lt c.header) hm hin
  -- the byte has not been written when the switch is decided
  have hahead : decision.position ≤ switchByte (toInt64 (obsOffsetOf c.header))
      (byteMultipleOf c.header).toNat decision.boundary := by
    rw [switchByte_eq (obsOffsetOf_lt c.header) hm hin]
    have := Nat.mod_lt (obsOffsetOf c.header + decision.boundary) hm
    split
    case isTrue h =>
      have := htime h
      omega
    case isFalse => omega
  rw [hn, Int.toNat_natCast]
  have hbound := hfirst hbytes hchunk (by rw [htarget]; exact hahead)
  have hreach := hend.resolve_left (by simp [heod])
  unfold Client.wants at hreach
  rw [htarget] at hbound hreach
  have hexact : n = switchByte (toInt64 (obsOffsetOf c.header)) (byteMultipleOf c.header).toNat
      decision.boundary := by omega
  rw [hexact]
  exact hnear

/-- A run of `dada_dbNdb`: every switch is where it shall be, when it is decided in time. -/
theorem switched_of_decidedInTime {fuel nhdu : ℕ} {c : Client DbNdb} (hquit : c.quit = false)
    (hcontext : c.context = .init nhdu) {s : Source} {obsOffset : ℕ} {r : ReadResult DbNdb}
    (hr : readLoop (dbNdb reports).toFunctions fuel c s obsOffset = some r) (hdiv : Divisible r)
    (htime : DecidedInTime r) : Switched r := by
  intro pre o post before decision after houtputs hdecisions hlength hpost
  -- the decision is that of the first transfer, and there is a second one
  obtain ⟨rfl, hin⟩ := htime before decision after hdecisions
  obtain rfl : pre = [] := List.length_eq_zero_iff.mp hlength.symm
  cases fuel with
  | zero => simp [readLoop] at hr
  | succ fuel =>
    obtain ⟨-, rfl⟩ | ⟨heod, t, rfl, hcase⟩ := readLoop_cases hr
    · simp at houtputs
    · set c' : Client DbNdb :=
        { c with header := asciiHeaderSet c.header obsOffsetKey (decimal obsOffset) }
      have hquit' : c'.quit = false := hquit
      have hheader := (dadaClientTransfer_accounts (dbNdb reports) c' s).header
      have htaken := dadaClientTransfer_taken _ (dbNdb_lossless reports) (c := c') hquit' s
      obtain ⟨entry, hentry⟩ := dbNdb_entry reports hquit' s
      obtain ⟨-, rfl⟩ | ⟨hpos, rest, hrest, rfl⟩ := hcase
      · obtain ⟨-, rfl⟩ := List.cons_eq_cons.mp houtputs
        exact absurd rfl hpost
      · have hnext := (dadaClientTransfer_stays _ (dbNdb_stays reports) hquit' heod hpos).1
        obtain ⟨later, hlater, -⟩ := readLoop_decisions reports fuel hnext _ _ hrest
        obtain ⟨rfl, rfl⟩ := List.cons_eq_cons.mp houtputs
        have hfirst := first_switch reports hquit' (by show c.context.currentBytes = 0; rw [hcontext]; rfl)
          (by show c.context.obsOffset = -1; rw [hcontext]; rfl) s
        set t := dadaClientTransfer (dbNdb reports).toFunctions c' s
        have hdecided : t.client.context.decisions = [some decision] := by
          have hnone : c'.context.decisions = [] := by
            show c.context.decisions = []
            rw [hcontext]
            rfl
          rw [hnone] at hentry
          change rest.client.context.decisions.reverse = _ at hdecisions
          rw [hlater, hentry] at hdecisions
          obtain ⟨rfl, -⟩ := List.cons_eq_cons.mp hdecisions
          exact hentry
        have heod' : t.source.eod = false := by
          cases fuel with
          | zero => simp [readLoop] at hrest
          | succ fuel =>
            obtain ⟨-, rfl⟩ | ⟨h, -⟩ := readLoop_cases hrest
            · exact absurd rfl hpost
            · exact h
        obtain ⟨hchunk, hmultiple⟩ := hdiv _ List.mem_cons_self
        have hin' := hin _ rfl
        show Nearest (byteMultipleOf t.output.header).toNat (obsOffsetOf t.output.header) _ _
        change chunkSizeOf t.output.header ≠ 0 at hchunk
        change 0 < byteMultipleOf t.output.header at hmultiple
        change 2 * ((obsOffsetOf t.output.header + decision.boundary) %
          (byteMultipleOf t.output.header).toNat) ≤ (byteMultipleOf t.output.header).toNat →
            decision.position + (obsOffsetOf t.output.header + decision.boundary) %
              (byteMultipleOf t.output.header).toNat ≤ decision.boundary at hin'
        rw [hheader] at hchunk hmultiple hin' ⊢
        have hlen : t.count.toNat = (takenIn []).length + t.output.taken.length := by
          rw [htaken, Int.toNat_natCast]
          simp [takenIn]
        exact hlen ▸ hfirst hchunk hmultiple hdecided hin' heod'

/-- The client as `main` sets it up. -/
def Client.forDbNdb (c : Client DbNdb) (nhdu : ℕ) : Client DbNdb :=
  { c with context := .init nhdu, quit := false }

/-- Two rings that fill up in turn. -/
def inTurn (n : ℕ) : FreeSpace := ⟨1000000, n = 0 || n = 2 || n = 4 || n = 5⟩

/-- A stream of seven sub-blocks of 256 bytes. -/
def sevenBlocks : DataStream where
  bufsz := 256
  bufsz_pos := by decide
  full := List.replicate 6 (List.replicate 256 0)
  full_length b hb := by rw [List.eq_of_mem_replicate hb, List.length_replicate]
  last := List.replicate 256 0
  last_length := Nat.le_of_eq List.length_replicate

/-- A client with chunks of 500 bytes, and transfers of multiples of 512 bytes. -/
def chunkClient : Client DbNdb :=
  ⟨.init 2, "OBS_OFFSET 0\nRESOLUTION 1\nBYTES_PER_SECOND 50\n".toList, 4096, false, 0, 256, false⟩

end Psrdada
