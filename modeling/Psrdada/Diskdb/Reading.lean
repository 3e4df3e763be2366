import Psrdada.Diskdb.Contiguity

/-! # Reading a run of files

`file_read_function` goes on in the next file of a run when a read meets the end of the current one, but
once in a call only.  The byte loop reads on after a short result, so that it passes the whole run
(`writeLoop_reads`).  The block loop takes a short result for the end of the data, so that it passes the
whole run exactly when no two files of it begin in the same block after the first one
(`writeLoopBlock_reads`). -/

namespace Psrdada

open CString

variable {hdrSize : ℕ} (files : List (DiskFile hdrSize)) (sprintf : Sprintf)

/-- The client within a run: `cur` is left of the file that is open, `nexts` are the other files of the
run, `rest` those of the runs that follow. -/
structure Reading (c : Client Diskdb) (cur : List UInt8) (nexts rest : List (DiskFile hdrSize)) :
    Prop where
  /-- The header has been sent. -/
  headerRead : c.context.headerRead = true
  /-- The size of the headers. -/
  headerSize : c.headerSize = hdrSize
  /-- The last file has not been closed. -/
  quit : c.quit = false
  /-- Headers are transferred. -/
  headerTransfer : c.headerTransfer = true
  /-- The arrays are those of `check_contiguity`. -/
  marked : Marked files.length files c.context.continues c.context.fileSizes
  /-- What is left of the file that is open. -/
  openFile : ∃ offset f, c.context.fd = some (c.context.curFile, offset) ∧
    files[c.context.curFile]? = some f ∧ f.content.drop offset = cur
  /-- The files that follow. -/
  following : files.drop (c.context.curFile + 1) = nexts ++ rest
  /-- The files continue up to the last of the run. -/
  continues : ∀ j < nexts.length, c.context.continues[c.context.curFile + j]? = some true
  /-- The last file of the run does not continue. -/
  ends : c.context.continues[c.context.curFile + nexts.length]? = some false

/-- What is left of the run. -/
def leftOf (cur : List UInt8) (nexts : List (DiskFile hdrSize)) : List UInt8 := cur ++ dataOf nexts

theorem leftOf_cons (cur : List UInt8) (g : DiskFile hdrSize) (nexts : List (DiskFile hdrSize)) :
    leftOf cur (g :: nexts) = cur ++ leftOf g.data nexts := by
  simp [leftOf, dataOf]

/-- No file is empty. -/
theorem eq_nil_of_leftOf {cur : List UInt8} {nexts : List (DiskFile hdrSize)}
    (h : leftOf cur nexts = []) : cur = [] ∧ nexts = [] := by
  obtain ⟨rfl, hdata⟩ := List.append_eq_nil_iff.mp h
  cases nexts with
  | nil => exact ⟨rfl, rfl⟩
  | cons g nexts =>
    have := (List.append_eq_nil_iff.mp hdata).1
    exact absurd this g.nonempty

/-- What a read leaves behind: the bytes, and the client within the run. -/
structure Reads (c : Client Diskdb) (rest : List (DiskFile hdrSize)) (fill : Fill Diskdb)
    (bytes cur : List UInt8) (nexts : List (DiskFile hdrSize)) : Prop where
  /-- The result. -/
  count : fill.count = bytes.length
  /-- The bytes. -/
  bytes : fill.bytes = bytes
  /-- The client is still within the run. -/
  reading : Reading files fill.client cur nexts rest
  /-- The size of the transfer stays. -/
  transferBytes : fill.client.transferBytes = c.transferBytes

variable {files}

/-- A read within the file that is open. -/
theorem read_within {c : Client Diskdb} {cur : List UInt8} {nexts rest : List (DiskFile hdrSize)}
    (h : Reading files c cur nexts rest) {n : ℕ} (hn : n ≤ cur.length) :
    Reads files c rest (fileReadFunction files sprintf c .data n) (cur.take n) (cur.drop n) nexts := by
  obtain ⟨offset, f, hfd, hf, hcur⟩ := h.openFile
  have hread : readFd files c.context n = (cur.take n,
      { c.context with fd := some (c.context.curFile, offset + (cur.take n).length) }) := by
    simp only [readFd, hfd, hf, hcur]
  have hlen : (cur.take n).length = n := List.length_take_of_le hn
  unfold fileReadFunction
  rw [h.headerRead, hread]
  simp only [Bool.not_true, Bool.false_eq_true, if_false, hlen, Nat.lt_irrefl, false_and]
  refine ⟨by rw [hlen], rfl, ⟨h.headerRead, h.headerSize, h.quit, h.headerTransfer, h.marked, ?_,
    h.following, h.continues, h.ends⟩, rfl⟩
  exact ⟨_, f, rfl, hf, by rw [← List.drop_drop, hcur]⟩

/-- A read that goes on in the next file. -/
theorem read_across {c : Client Diskdb} {cur : List UInt8} {g : DiskFile hdrSize}
    {nexts rest : List (DiskFile hdrSize)} (h : Reading files c cur (g :: nexts) rest) {n : ℕ}
    (hn : cur.length < n) :
    Reads files c rest (fileReadFunction files sprintf c .data n)
      (cur ++ g.data.take (n - cur.length)) (g.data.drop (n - cur.length)) nexts := by
  obtain ⟨offset, f, hfd, hf, hcur⟩ := h.openFile
  have hlen : (cur.take n).length = cur.length := by
    rw [List.take_of_length_le (Nat.le_of_lt hn)]
  have hread : readFd files c.context n = (cur,
      { c.context with fd := some (c.context.curFile, offset + cur.length) }) := by
    simp only [readFd, hfd, hf, hcur, List.take_of_length_le (Nat.le_of_lt hn)]
  have hg : files[c.context.curFile + 1]? = some g := by
    have := congrArg List.head? h.following
    simpa [List.head?_drop] using this
  have hcont : c.context.continues[c.context.curFile]? = some true := by
    simpa using h.continues 0 (by simp)
  have hmore : c.context.curFile + 1 < files.length := (List.getElem?_eq_some_iff.mp hg).1
  unfold fileReadFunction
  rw [h.headerRead, hread]
  simp only [Bool.not_true, Bool.false_eq_true, if_false, hn, true_and, hcont, if_true,
    openNextContiguousFile, fileCloseFunction, Nat.not_le.mpr hmore, hg, readFd, h.headerSize,
    g.drop_content, Int.lt_irrefl]
  refine ⟨rfl, rfl, ⟨h.headerRead, rfl, h.quit, h.headerTransfer, h.marked, ?_, ?_, ?_, ?_⟩, rfl⟩
  · refine ⟨_, g, rfl, hg, ?_⟩
    rw [← List.drop_drop, g.drop_content, List.length_take, List.drop_eq_drop_iff]
    omega
  · have := congrArg List.tail h.following
    simpa [List.tail_drop] using this
  · intro j hj
    have := h.continues (j + 1) (by simpa using hj)
    rwa [← Nat.add_assoc, Nat.add_right_comm] at this
  · have := h.ends
    rwa [List.length_cons, ← Nat.add_assoc, Nat.add_right_comm] at this

/-! ## The byte loop -/

/-- A read takes something from the front of what is left of the run. -/
theorem read_some {c : Client Diskdb} {cur : List UInt8} {nexts rest : List (DiskFile hdrSize)}
    (h : Reading files c cur nexts rest) {n : ℕ} (hpos : 0 < n)
    (hn : n ≤ (leftOf cur nexts).length) :
    ∃ m cur' nexts', 0 < m ∧ m ≤ n ∧
      Reads files c rest (fileReadFunction files sprintf c .data n) ((leftOf cur nexts).take m) cur'
        nexts' ∧
      leftOf cur' nexts' = (leftOf cur nexts).drop m := by
  by_cases hcur : n ≤ cur.length
  · refine ⟨n, cur.drop n, nexts, hpos, Nat.le_refl _, ?_, ?_⟩
    · rw [leftOf, List.take_append_of_le_length hcur]
      exact read_within sprintf h hcur
    · rw [leftOf, leftOf, List.drop_append_of_le_length hcur]
  · cases nexts with
    | nil =>
      have : leftOf cur ([] : List (DiskFile hdrSize)) = cur := by simp [leftOf, dataOf]
      rw [this] at hn
      exact absurd hn hcur
    | cons g nexts =>
      have hg := List.length_pos_iff.mpr g.nonempty
      have hread := read_across sprintf h (Nat.not_le.mp hcur)
      have hlen : (g.data.take (n - cur.length)).length = min (n - cur.length) g.data.length :=
        List.length_take
      refine ⟨cur.length + (g.data.take (n - cur.length)).length, g.data.drop (n - cur.length), nexts,
        by omega, by omega, ?_, ?_⟩
      · rw [leftOf_cons, List.take_length_add_append, leftOf, hlen,
          List.take_append_of_le_length (Nat.min_le_right _ _)]
        rw [List.take_eq_take_min] at hread
        exact hread
      · rw [leftOf_cons, List.drop_length_add_append, leftOf, leftOf, hlen]
        by_cases hle : n - cur.length ≤ g.data.length
        · rw [Nat.min_eq_left hle, List.drop_append_of_le_length hle]
        · rw [Nat.min_eq_right (by omega), List.drop_append_of_le_length (Nat.le_refl _),
            List.drop_length, List.drop_eq_nil_of_le (by omega)]

/-- The byte loop passes what is left of the run. -/
theorem writeLoop_reads {bufferSize : ℕ} (hb : 0 < bufferSize) (zeroCopy : Bool) (fuel : ℕ)
    {c : Client Diskdb} {cur : List UInt8} {nexts rest : List (DiskFile hdrSize)}
    (h : Reading files c cur nexts rest) {done : ℕ}
    (hsize : c.transferBytes = done + (leftOf cur nexts).length) (hpos : 0 < c.transferBytes) :
    ((leftOf cur nexts).length < fuel →
      (writeLoop (diskdb files sprintf zeroCopy) bufferSize fuel c done).isSome) ∧
    ∀ r, writeLoop (diskdb files sprintf zeroCopy) bufferSize fuel c done = some r →
      r.data = leftOf cur nexts ∧ 0 ≤ r.count ∧ Reading files r.client [] [] rest := by
  induction fuel generalizing c cur nexts done with
  | zero => exact ⟨fun hf => absurd hf (Nat.not_lt_zero _), fun r hr => by simp [writeLoop] at hr⟩
  | succ fuel ih =>
    rw [writeLoop]
    by_cases hleft : leftOf cur nexts = []
    · -- all has been passed
      have hstop : ¬ c.wants done := by
        rw [hleft, List.length_nil] at hsize
        unfold Client.wants
        omega
      obtain ⟨rfl, rfl⟩ := eq_nil_of_leftOf hleft
      rw [if_neg hstop]
      refine ⟨fun _ => rfl, fun r hr => ?_⟩
      obtain rfl := Option.some.inj hr
      exact ⟨rfl, Int.natCast_nonneg _, h⟩
    · have hlen := List.length_pos_iff.mpr hleft
      have hwants : c.wants done := by
        unfold Client.wants
        omega
      have hchunk : c.chunk bufferSize done ≤ (leftOf cur nexts).length := by
        unfold Client.chunk
        split_ifs
        all_goals omega
      obtain ⟨m, cur', nexts', hm, hmn, hreads, hrest⟩ :=
        read_some sprintf h (Client.chunk_pos hb hwants) hchunk
      rw [if_pos hwants]
      have hfill : (diskdb files sprintf zeroCopy).ioFunction c .data (c.chunk bufferSize done) =
          fileReadFunction files sprintf c .data (c.chunk bufferSize done) := rfl
      rw [hfill]
      set fill := fileReadFunction files sprintf c .data (c.chunk bufferSize done)
      have hcount : fill.count = m := by
        rw [hreads.count, List.length_take_of_le (Nat.le_trans hmn hchunk)]
      simp only [hcount, Int.toNat_natCast, hreads.bytes]
      rw [if_neg (by omega), if_neg (by omega)]
      have hsize' : fill.client.transferBytes = done + m + (leftOf cur' nexts').length := by
        rw [hreads.transferBytes, hsize, hrest, List.length_drop]
        omega
      obtain ⟨hsome, hdata⟩ := ih hreads.reading hsize' (by rw [hreads.transferBytes]; exact hpos)
      constructor
      · intro hf
        rw [Option.isSome_map]
        refine hsome ?_
        rw [hrest, List.length_drop]
        omega
      · intro r hr
        obtain ⟨r', hr', rfl⟩ := Option.map_eq_some_iff.mp hr
        obtain ⟨hd, hc, hreading⟩ := hdata r' hr'
        refine ⟨?_, hc, hreading⟩
        show ((leftOf cur nexts).take m).take m ++ r'.data = _
        rw [List.take_take, Nat.min_self, hd, hrest, List.take_append_drop]

/-! ## The block loop -/

/-- Where files begin, the first of them at `p`. -/
def startsAt (p : ℕ) : List (DiskFile hdrSize) → List ℕ
  | [] => []
  | g :: files => p :: startsAt (p + g.data.length) files

/-- No two of these places are in the same block. -/
def OnePerBlock (blockSize : ℕ) (starts : List ℕ) : Prop :=
  starts.Pairwise fun a b => a / blockSize < b / blockSize

theorem le_of_mem_startsAt {p q : ℕ} {files : List (DiskFile hdrSize)} (h : q ∈ startsAt p files) :
    p ≤ q := by
  induction files generalizing p with
  | nil => simp [startsAt] at h
  | cons g files ih =>
    rcases List.mem_cons.mp h with rfl | h
    · exact Nat.le_refl _
    · have := ih h
      omega

/-- A file that ends with its block, or goes on in the next one. -/
theorem onePerBlock_cons {blockSize k p : ℕ} (hk : p / blockSize = k) {g : DiskFile hdrSize}
    {files : List (DiskFile hdrSize)} (hg : blockSize * (k + 1) ≤ p + g.data.length) (hb : 0 < blockSize) :
    OnePerBlock blockSize (startsAt p (g :: files)) ↔
      OnePerBlock blockSize (startsAt (p + g.data.length) files) := by
  rw [startsAt, OnePerBlock, List.pairwise_cons]
  refine and_iff_right ?_
  intro q hq
  have hle := le_of_mem_startsAt hq
  rw [hk, Nat.lt_iff_add_one_le, Nat.le_div_iff_mul_le hb, Nat.mul_comm]
  omega

/-- A read for a block, the `k`-th one: it fills the block or gets all that is left, or it is short because
two files begin in the block. -/
theorem read_block {blockSize k : ℕ} (hb : 0 < blockSize) {c : Client Diskdb} {cur : List UInt8}
    {nexts rest : List (DiskFile hdrSize)} (h : Reading files c cur nexts rest) {n : ℕ}
    (hn : n = min blockSize (leftOf cur nexts).length) :
    ∃ m cur' nexts',
      Reads files c rest (fileReadFunction files sprintf c .data n) ((leftOf cur nexts).take m) cur'
        nexts' ∧
      leftOf cur' nexts' = (leftOf cur nexts).drop m ∧ m ≤ n ∧
      (m = blockSize → (OnePerBlock blockSize (startsAt (blockSize * k + cur.length) nexts) ↔
        OnePerBlock blockSize (startsAt (blockSize * (k + 1) + cur'.length) nexts'))) ∧
      (m < blockSize → (m = (leftOf cur nexts).length ↔
        OnePerBlock blockSize (startsAt (blockSize * k + cur.length) nexts))) := by
  have hnext : blockSize * (k + 1) = blockSize * k + blockSize := Nat.mul_succ _ _
  by_cases hcur : n ≤ cur.length
  · -- within the file that is open
    refine ⟨n, cur.drop n, nexts, ?_, ?_, Nat.le_refl _, ?_, ?_⟩
    · rw [leftOf, List.take_append_of_le_length hcur]
      exact read_within sprintf h hcur
    · rw [leftOf, leftOf, List.drop_append_of_le_length hcur]
    · intro hfull
      have hp : blockSize * k + cur.length = blockSize * (k + 1) + (cur.drop n).length := by
        rw [List.length_drop]
        omega
      rw [hp]
    · intro hshort
      have hall : (leftOf cur nexts).length = cur.length + (dataOf nexts).length :=
        List.length_append
      have hnil : leftOf [] nexts = [] := List.eq_nil_of_length_eq_zero (by
        show (dataOf nexts).length = 0
        omega)
      obtain ⟨-, rfl⟩ := eq_nil_of_leftOf hnil
      exact iff_of_true (by omega) (by simp [startsAt, OnePerBlock])
  · cases nexts with
    | nil =>
      have : leftOf cur ([] : List (DiskFile hdrSize)) = cur := by simp [leftOf, dataOf]
      rw [this] at hn
      omega
    | cons g nexts =>
      have hread := read_across sprintf h (Nat.not_le.mp hcur)
      have hall : (leftOf cur (g :: nexts)).length =
          cur.length + (g.data.length + (dataOf nexts).length) := by
        rw [leftOf_cons, leftOf, List.length_append, List.length_append]
      have hk : (blockSize * k + cur.length) / blockSize = k := by
        rw [Nat.mul_add_div hb, Nat.div_eq_of_lt (by omega), Nat.add_zero]
      by_cases hg : n - cur.length ≤ g.data.length
      · -- the next file fills the block, or is the last one
        refine ⟨n, g.data.drop (n - cur.length), nexts, ?_, ?_, Nat.le_refl _, ?_, ?_⟩
        · have hm : n = cur.length + (n - cur.length) := by omega
          rw [leftOf_cons, leftOf]
          conv in List.take n _ => rw [hm]
          rw [List.take_length_add_append, List.take_append_of_le_length hg]
          exact hread
        · have hm : n = cur.length + (n - cur.length) := by omega
          rw [leftOf_cons, leftOf, leftOf]
          conv_rhs => rw [hm]
          rw [List.drop_length_add_append, List.drop_append_of_le_length hg]
        · intro hfull
          rw [onePerBlock_cons hk (by omega) hb]
          have hp : blockSize * k + cur.length + g.data.length =
              blockSize * (k + 1) + (g.data.drop (n - cur.length)).length := by
            rw [List.length_drop]
            omega
          rw [hp]
        · intro hshort
          have hnil : leftOf [] nexts = [] := List.eq_nil_of_length_eq_zero (by
            show (dataOf nexts).length = 0
            omega)
          obtain ⟨-, rfl⟩ := eq_nil_of_leftOf hnil
          exact iff_of_true (by omega) (by simp [startsAt, OnePerBlock])
      · -- the next file ends within the block, and another one follows
        refine ⟨cur.length + g.data.length, [], nexts, ?_, ?_, by omega, by omega, ?_⟩
        · rw [leftOf_cons, leftOf, List.take_length_add_append, List.take_left]
          rw [List.take_of_length_le (by omega), List.drop_eq_nil_of_le (by omega)] at hread
          exact hread
        · rw [leftOf_cons, leftOf, leftOf, List.drop_length_add_append, List.drop_left]
          rfl
        · intro hshort
          refine iff_of_false (by omega) ?_
          cases nexts with
          | nil =>
            simp only [dataOf, List.flatMap_nil, List.length_nil] at hall
            omega
          | cons g' nexts =>
            intro hone
            have hlt : (blockSize * k + cur.length) / blockSize <
                (blockSize * k + cur.length + g.data.length) / blockSize :=
              List.rel_of_pairwise_cons hone List.mem_cons_self
            have hk' : (blockSize * k + cur.length + g.data.length) / blockSize = k := by
              rw [Nat.add_assoc, Nat.mul_add_div hb, Nat.div_eq_of_lt (by omega), Nat.add_zero]
            rw [hk, hk'] at hlt
            exact Nat.lt_irrefl _ hlt

/-- The block loop passes what is left of the run exactly when no two of the files that follow begin in
the same block. -/
theorem writeLoopBlock_reads {blockSize : ℕ} (hb : 0 < blockSize) (fuel : ℕ) {c : Client Diskdb}
    {cur : List UInt8} {nexts rest : List (DiskFile hdrSize)} (h : Reading files c cur nexts rest)
    {k : ℕ} (hsize : c.transferBytes = blockSize * k + (leftOf cur nexts).length)
    (hpos : 0 < c.transferBytes) :
    ((leftOf cur nexts).length < fuel →
      (writeLoopBlock (fun c n => fileReadFunction files sprintf c .data n) blockSize fuel c
        (blockSize * k)).isSome) ∧
    ∀ r, writeLoopBlock (fun c n => fileReadFunction files sprintf c .data n) blockSize fuel c
        (blockSize * k) = some r →
      (r.data = leftOf cur nexts ↔
        OnePerBlock blockSize (startsAt (blockSize * k + cur.length) nexts)) ∧
      0 ≤ r.count ∧ (r.data = leftOf cur nexts → Reading files r.client [] [] rest) := by
  induction fuel generalizing c cur nexts k with
  | zero => exact ⟨fun hf => absurd hf (Nat.not_lt_zero _), fun r hr => by simp [writeLoopBlock] at hr⟩
  | succ fuel ih =>
    rw [writeLoopBlock]
    by_cases hleft : leftOf cur nexts = []
    · -- all has been passed
      have hstop : ¬ c.wants (blockSize * k) := by
        rw [hleft, List.length_nil] at hsize
        unfold Client.wants
        omega
      obtain ⟨rfl, rfl⟩ := eq_nil_of_leftOf hleft
      rw [if_neg hstop]
      refine ⟨fun _ => rfl, fun r hr => ?_⟩
      obtain rfl := Option.some.inj hr
      exact ⟨iff_of_true rfl (by simp [startsAt, OnePerBlock]), Int.natCast_nonneg _, fun _ => h⟩
    · have hlen := List.length_pos_iff.mpr hleft
      have hwants : c.wants (blockSize * k) := by
        unfold Client.wants
        omega
      have hchunk : c.chunk blockSize (blockSize * k) = min blockSize (leftOf cur nexts).length := by
        unfold Client.chunk
        split_ifs
        all_goals omega
      obtain ⟨m, cur', nexts', hreads, hrest, hmn, hfull, hshort⟩ := read_block sprintf (k := k) hb h hchunk
      have hcount : (fileReadFunction files sprintf c .data (c.chunk blockSize (blockSize * k))).count =
          m := by
        rw [hreads.count, List.length_take_of_le (by omega)]
      rw [if_pos hwants]
      simp only [hcount, Int.toNat_natCast, hreads.bytes, List.take_take, Nat.min_self]
      rw [if_neg (by omega)]
      by_cases hm : m < blockSize
      · -- a short block ends the loop
        have hall : (leftOf cur nexts).take m = leftOf cur nexts ↔ m = (leftOf cur nexts).length := by
          rw [List.take_eq_self_iff]
          omega
        rw [if_pos (by omega)]
        refine ⟨fun _ => rfl, fun r hr => ?_⟩
        obtain rfl := Option.some.inj hr
        refine ⟨hall.trans (hshort hm), Int.add_nonneg (Int.natCast_nonneg _) (Int.natCast_nonneg _),
          fun hd => ?_⟩
        have hnil : leftOf cur' nexts' = [] := by
          rw [hrest, List.drop_eq_nil_iff]
          exact Nat.le_of_eq (hall.mp hd).symm
        obtain ⟨rfl, rfl⟩ := eq_nil_of_leftOf hnil
        exact hreads.reading
      · have hm' : m = blockSize := by omega
        have hnext : blockSize * k + m = blockSize * (k + 1) := by rw [hm', Nat.mul_succ]
        have hlen' : (leftOf cur' nexts').length = (leftOf cur nexts).length - m := by
          rw [hrest, List.length_drop]
        rw [if_neg (by omega), hnext]
        obtain ⟨hsome, hdata⟩ := ih (k := k + 1) hreads.reading
          (by rw [hreads.transferBytes, hsize, hlen', ← hnext]; omega)
          (by rw [hreads.transferBytes]; exact hpos)
        constructor
        · intro hf
          rw [Option.isSome_map]
          exact hsome (by omega)
        · intro r hr
          obtain ⟨r', hr', rfl⟩ := Option.map_eq_some_iff.mp hr
          obtain ⟨hiff, hc, hreading⟩ := hdata r' hr'
          have hsplit : (leftOf cur nexts).take m ++ r'.data = leftOf cur nexts ↔
              r'.data = leftOf cur' nexts' := by
            rw [hrest]
            conv_lhs => rhs; rw [← List.take_append_drop m (leftOf cur nexts)]
            exact List.append_right_inj _
          exact ⟨hsplit.trans (hiff.trans (hfull hm').symm), hc, fun hd => hreading (hsplit.mp hd)⟩

end Psrdada
