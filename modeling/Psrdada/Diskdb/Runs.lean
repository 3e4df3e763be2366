import Psrdada.Client.Splitting
import Psrdada.Diskdb.Reading

/-! # The runs that dada_diskdb passes

For each maximal run of contiguous files `dada_diskdb` is to pass a header whose `FILE_SIZE` is the total
of the run, and the data of its files.  The flag `header_read`, which makes the first call of
`file_read_function` leave the header as `file_open_function` has prepared it, is never reset: from the
second run on the header is read from the first file again, with that file's own size. -/

namespace Psrdada

open CString

variable {hdrSize : ℕ}

/-- Where the files of a run begin, other than the first. -/
def fileStarts : List (DiskFile hdrSize) → List ℕ
  | [] => []
  | f :: fs => startsAt f.data.length fs

/-- The maximal runs of a list of files, in order. -/
structure Runs (runs : List (List (DiskFile hdrSize))) : Prop where
  /-- No run is empty. -/
  nonempty : [] ∉ runs
  /-- The files of a run continue one another. -/
  continued : ∀ run ∈ runs, Continued run
  /-- The next run does not continue the one before it. -/
  breaks : runs.IsChain fun a b => ∃ ha hb, (a.getLast ha).continuedBy (b.head hb) = false

theorem runs_contiguousRuns (files : List (DiskFile hdrSize)) :
    (contiguousRuns files).flatten = files ∧ Runs (contiguousRuns files) :=
  ⟨List.flatten_splitBy _ _, List.nil_notMem_splitBy _ _, fun _ => List.isChain_of_mem_splitBy,
    List.isChain_getLast_head_splitBy _ _⟩

/-- The first run ends where the others begin. -/
theorem Runs.ends {run : List (DiskFile hdrSize)} {runs : List (List (DiskFile hdrSize))}
    (h : Runs (run :: runs)) :
    ∀ f ∈ run.getLast?, ∀ g ∈ runs.flatten.head?, f.continuedBy g = false := by
  intro f hf g hg
  cases runs with
  | nil => simp at hg
  | cons next runs =>
    obtain ⟨ha, hb, hbreak⟩ := (List.isChain_cons_cons.mp h.breaks).1
    have hlast : run.getLast ha = f := by simpa [List.getLast?_eq_getLast_of_ne_nil ha] using hf
    have hhead : next.head hb = g := by
      rw [List.flatten_cons, List.head?_append_of_ne_nil _ hb, List.head?_eq_some_head hb] at hg
      simpa using hg
    rwa [hlast, hhead] at hbreak

theorem Runs.tail {run : List (DiskFile hdrSize)} {runs : List (List (DiskFile hdrSize))}
    (h : Runs (run :: runs)) : Runs runs :=
  ⟨fun hm => h.nonempty (List.mem_cons_of_mem _ hm),
    fun r hr => h.continued r (List.mem_cons_of_mem _ hr), h.breaks.tail⟩

/-! ## One run -/

section Transfer

variable (files : List (DiskFile hdrSize)) (sprintf : Sprintf)

/-- The client between two runs. -/
structure Ready (c : Client Diskdb) (runs : List (List (DiskFile hdrSize))) : Prop where
  /-- The arrays are those of `check_contiguity`. -/
  marked : Marked files.length files c.context.continues c.context.fileSizes
  /-- Headers are transferred. -/
  headerTransfer : c.headerTransfer = true
  /-- The files of these runs are left. -/
  following : files.drop c.context.curFile = runs.flatten
  /-- The client quits after the last run. -/
  quit : c.quit = runs.isEmpty

variable {files}

/-- The files that are left, by their places. -/
theorem Ready.getElem? {c : Client Diskdb} {run : List (DiskFile hdrSize)}
    {runs : List (List (DiskFile hdrSize))} (h : Ready files c (run :: runs)) (i : ℕ) :
    files[c.context.curFile + i]? = (run ++ runs.flatten)[i]? := by
  rw [← List.getElem?_drop, h.following, List.flatten_cons]

/-- Where the files of the run that is next continue. -/
theorem Ready.continues {c : Client Diskdb} {run : List (DiskFile hdrSize)}
    {runs : List (List (DiskFile hdrSize))} (h : Ready files c (run :: runs))
    (hruns : Runs (run :: runs)) {i : ℕ} (hi : i < run.length) :
    c.context.continues[c.context.curFile + i]? = some (decide (i + 1 < run.length)) := by
  have hthis : files[c.context.curFile + i]? = some run[i] := by
    rw [h.getElem?, List.getElem?_append_left hi, List.getElem?_eq_getElem hi]
  have hlt : c.context.curFile + i < files.length := (List.getElem?_eq_some_iff.mp hthis).1
  rw [h.marked.continues_get _ hlt, joined, hthis, Nat.add_assoc, h.getElem?]
  by_cases hnext : i + 1 < run.length
  · have hcont : run[i].continuedBy run[i + 1] = true :=
      List.isChain_iff_getElem.mp (hruns.continued run List.mem_cons_self) i hnext
    rw [List.getElem?_append_left hnext, List.getElem?_eq_getElem hnext]
    simp only [hcont, hnext, decide_true]
  · have hlast : run.getLast? = some run[i] := by
      rw [List.getLast?_eq_getElem?, show run.length - 1 = i by omega, List.getElem?_eq_getElem hi]
    have hhead : (run ++ runs.flatten)[i + 1]? = runs.flatten.head? := by
      rw [List.getElem?_append_right (by omega), show i + 1 - run.length = 0 by omega,
        List.head?_eq_getElem?]
    rw [hhead]
    cases hg : runs.flatten.head? with
    | none => simp only [hnext, decide_false]
    | some g => simp only [hruns.ends _ hlast g hg, hnext, decide_false]

/-- The total of the run that is next. -/
theorem Ready.total {c : Client Diskdb} {run : List (DiskFile hdrSize)}
    {runs : List (List (DiskFile hdrSize))} (h : Ready files c (run :: runs))
    (hruns : Runs (run :: runs)) :
    c.context.fileSizes.getD c.context.curFile 0 = (dataOf run).length := by
  have hne : run ≠ [] := by
    rintro rfl
    exact hruns.nonempty List.mem_cons_self
  have hlt : c.context.curFile < files.length := by
    by_contra hge
    have := h.following
    rw [List.drop_eq_nil_of_le (by omega), List.flatten_cons, eq_comm] at this
    exact hne (List.append_eq_nil_iff.mp this).1
  rw [List.getD_eq_getElem?_getD, h.marked.sizes_get _ hlt, h.following, List.flatten_cons]
  exact runTotal_run (hruns.continued run List.mem_cons_self) hruns.ends hne

/-- The header that `file_open_function` prepares for a run. -/
def preparedHeader : List (DiskFile hdrSize) → Text
  | [] => []
  | f :: fs => asciiHeaderSet f.header fileSizeKey (decimal (dataOf (f :: fs)).length)

/-- The client when the first file of a run has been opened. -/
def Client.opened (c : Client Diskdb) (run : List (DiskFile hdrSize)) : Client Diskdb :=
  { c with
    header := preparedHeader run
    headerSize := hdrSize
    optimalBytes := 1024 * 1024
    transferBytes := (dataOf run).length
    context := { c.context with fd := some (c.context.curFile, 0) } }

/-- Opening the first file of a run, which is to have as many bytes as a header block. -/
theorem Ready.open {c : Client Diskdb} {f : DiskFile hdrSize} {fs : List (DiskFile hdrSize)}
    {runs : List (List (DiskFile hdrSize))} (h : Ready files c ((f :: fs) :: runs))
    (hruns : Runs ((f :: fs) :: runs)) {headerBufsz : ℕ} (hb : hdrSize ≤ headerBufsz) :
    (headerBufsz ≤ f.content.length →
      fileOpenFunction files { c with headerSize := headerBufsz, header := [] } =
        (0, c.opened (f :: fs))) ∧
    (f.content.length < headerBufsz →
      (fileOpenFunction files { c with headerSize := headerBufsz, header := [] }).1 < 0) := by
  have hf : files[c.context.curFile]? = some f := h.getElem? 0
  have htext : textOf (f.content.take headerBufsz) = f.header :=
    f.textOf_content (Nat.lt_of_lt_of_le f.short hb)
  constructor
  · intro hlen
    simp only [fileOpenFunction, hf, List.length_take_of_le hlen, Nat.lt_irrefl, if_false, htext,
      f.hdrSize_eq, Option.getD_some, gt_iff_lt, Nat.not_lt.mpr hb, h.total hruns]
    rfl
  · intro hlen
    have hshort : (f.content.take headerBufsz).length < headerBufsz := by
      rw [List.length_take]
      omega
    simp only [fileOpenFunction, hf, hshort, if_true]
    exact Int.negSucc_lt_zero 0

/-- The first file of a run is open, and its header has been sent. -/
theorem Ready.reading {c : Client Diskdb} {f : DiskFile hdrSize} {fs : List (DiskFile hdrSize)}
    {runs : List (List (DiskFile hdrSize))} (h : Ready files c ((f :: fs) :: runs))
    (hruns : Runs ((f :: fs) :: runs)) {c' : Client Diskdb} (hread : c'.context.headerRead = true)
    (hsize : c'.headerSize = hdrSize) (hquit : c'.quit = c.quit)
    (htransfer : c'.headerTransfer = c.headerTransfer)
    (hcontinues : c'.context.continues = c.context.continues)
    (hsizes : c'.context.fileSizes = c.context.fileSizes)
    (hcur : c'.context.curFile = c.context.curFile)
    (hfd : c'.context.fd = some (c.context.curFile, hdrSize)) :
    Reading files c' f.data fs runs.flatten := by
  refine ⟨hread, hsize, by rw [hquit, h.quit]; rfl, by rw [htransfer, h.headerTransfer],
    by rw [hcontinues, hsizes]; exact h.marked, ?_, ?_, ?_, ?_⟩
  · exact ⟨hdrSize, f, by rw [hcur, hfd], by rw [hcur]; exact h.getElem? 0, f.drop_content⟩
  · have := congrArg List.tail h.following
    simpa [List.tail_drop, hcur] using this
  · intro j hj
    have hlt : j < (f :: fs).length := Nat.lt_succ_of_lt hj
    rw [hcontinues, hcur, h.continues hruns hlt]
    simp [hj]
  · have hlt : fs.length < (f :: fs).length := Nat.lt_succ_self _
    rw [hcontinues, hcur, h.continues hruns hlt]
    simp

/-- The header that is sent for a run. -/
def sentHeader (headerRead : Bool) (run : List (DiskFile hdrSize)) : Text :=
  match run, headerRead with
  | [], _ => []
  | f :: _, true => f.header
  | run, false => sprintf.run (preparedHeader run)

/-- Sending the header of a run. -/
theorem Ready.send {c : Client Diskdb} {f : DiskFile hdrSize} {fs : List (DiskFile hdrSize)}
    {runs : List (List (DiskFile hdrSize))} (h : Ready files c ((f :: fs) :: runs))
    (hruns : Runs ((f :: fs) :: runs)) :
    (fileReadFunction files sprintf (c.opened (f :: fs)) .header hdrSize).count = hdrSize ∧
    (fileReadFunction files sprintf (c.opened (f :: fs)) .header hdrSize).client.header =
      sentHeader sprintf c.context.headerRead (f :: fs) ∧
    (fileReadFunction files sprintf (c.opened (f :: fs)) .header hdrSize).client.transferBytes =
      (dataOf (f :: fs)).length ∧
    (fileReadFunction files sprintf (c.opened (f :: fs)) .header hdrSize).client.optimalBytes =
      1024 * 1024 ∧
    Reading files (fileReadFunction files sprintf (c.opened (f :: fs)) .header hdrSize).client f.data fs
      runs.flatten := by
  have hf : files[c.context.curFile]? = some f := h.getElem? 0
  by_cases hread : c.context.headerRead = true
  · -- the header of the file itself
    have hlen : (f.content.take hdrSize).length = hdrSize :=
      List.length_take_of_le (by rw [f.length_content]; omega)
    have hfd : readFd files (c.opened (f :: fs)).context hdrSize = (f.content.take hdrSize,
        { c.context with fd := some (c.context.curFile, hdrSize) }) := by
      simp only [readFd, Client.opened, hf, List.drop_zero, hlen, Nat.zero_add]
    have hread' : (c.opened (f :: fs)).context.headerRead = true := hread
    unfold fileReadFunction
    rw [hread', hfd]
    simp only [Bool.not_true, Bool.false_eq_true, if_false, hlen, Nat.lt_irrefl, false_and,
      f.textOf_content f.short]
    refine ⟨trivial, ?_, rfl, rfl, h.reading hruns hread rfl rfl rfl rfl rfl rfl rfl⟩
    rw [hread]
    rfl
  · have hread'' : c.context.headerRead = false := by simpa using hread
    have hread' : (c.opened (f :: fs)).context.headerRead = false := hread''
    unfold fileReadFunction
    rw [hread']
    simp only [Bool.not_false, if_true]
    refine ⟨trivial, ?_, rfl, rfl, h.reading hruns rfl rfl rfl rfl rfl rfl rfl rfl⟩
    rw [hread'']
    rfl

/-- The I/O loop of a run. -/
theorem runWriteLoop_reads {blockSize fuel : ℕ} (hb : 0 < blockSize) (zeroCopy : Bool)
    {c : Client Diskdb} {f : DiskFile hdrSize} {fs rest : List (DiskFile hdrSize)}
    (h : Reading files c f.data fs rest) (hsize : c.transferBytes = (dataOf (f :: fs)).length)
    (hopt : 0 < c.optimalBytes) (hfuel : (dataOf (f :: fs)).length < fuel) :
    ∃ r, runWriteLoop (diskdb files sprintf zeroCopy) blockSize fuel c = some r ∧
      (r.data = dataOf (f :: fs) ↔
        (zeroCopy = true → OnePerBlock blockSize (fileStarts (f :: fs)))) ∧
      0 ≤ r.count ∧ (r.data = dataOf (f :: fs) → Reading files r.client [] [] rest) := by
  have hleft : dataOf (f :: fs) = leftOf f.data fs := rfl
  have hpos : 0 < c.transferBytes := by
    have := List.length_pos_iff.mpr f.nonempty
    rw [hsize, hleft, leftOf, List.length_append]
    omega
  rw [hleft] at hsize hfuel ⊢
  cases zeroCopy with
  | false =>
    have hstart : c.transferBytes = 0 + (leftOf f.data fs).length := by rw [hsize, Nat.zero_add]
    obtain ⟨hsome, hreads⟩ := writeLoop_reads sprintf hopt false fuel h hstart hpos
    obtain ⟨r, hr⟩ := Option.isSome_iff_exists.mp (hsome hfuel)
    obtain ⟨hdata, hcount, hreading⟩ := hreads r hr
    exact ⟨r, hr, iff_of_true hdata (by simp), hcount, fun _ => hreading⟩
  | true =>
    obtain ⟨hsome, hreads⟩ := writeLoopBlock_reads sprintf hb fuel h (k := 0)
      (by rw [hsize, Nat.mul_zero, Nat.zero_add]) hpos
    obtain ⟨r, hr⟩ := Option.isSome_iff_exists.mp (hsome hfuel)
    obtain ⟨hdata, hcount, hreading⟩ := hreads r hr
    refine ⟨r, hr, ?_, hcount, hreading⟩
    rw [hdata, Nat.mul_zero, Nat.zero_add, fileStarts]
    exact ⟨fun h _ => h, fun h => h rfl⟩

theorem fileCloseFunction_fst (c : Client Diskdb) (n : ℕ) : (fileCloseFunction files c n).1 = 0 := by
  simp only [fileCloseFunction]
  split_ifs
  all_goals rfl

/-- Closing the last file of a run. -/
theorem Reading.close {c : Client Diskdb} {runs : List (List (DiskFile hdrSize))}
    (h : Reading files c [] [] runs.flatten) (hne : [] ∉ runs) (n : ℕ) :
    Ready files (fileCloseFunction files c n).2 runs ∧
      (fileCloseFunction files c n).2.context.headerRead = true := by
  have hfollowing : files.drop (c.context.curFile + 1) = runs.flatten := h.following
  unfold fileCloseFunction
  by_cases hend : c.context.curFile + 1 ≥ files.length
  · have hnil : runs = [] := by
      rw [List.drop_eq_nil_of_le hend, eq_comm, List.flatten_eq_nil_iff] at hfollowing
      cases runs with
      | nil => rfl
      | cons run runs => exact absurd (hfollowing run List.mem_cons_self ▸ List.mem_cons_self) hne
    simp only [hend, if_true]
    exact ⟨⟨h.marked, h.headerTransfer, hfollowing, by rw [hnil]; rfl⟩, h.headerRead⟩
  · have hsome : runs.isEmpty = false := by
      cases runs with
      | nil =>
        rw [List.flatten_nil, List.drop_eq_nil_iff] at hfollowing
        exact absurd hfollowing hend
      | cons run runs => rfl
    simp only [hend, if_false]
    exact ⟨⟨h.marked, h.headerTransfer, hfollowing, by rw [hsome]; exact h.quit⟩, h.headerRead⟩

/-- The transfer of a run. -/
theorem Ready.transfer {c : Client Diskdb} {f : DiskFile hdrSize} {fs : List (DiskFile hdrSize)}
    {runs : List (List (DiskFile hdrSize))} (h : Ready files c ((f :: fs) :: runs))
    (hruns : Runs ((f :: fs) :: runs)) {headerBufsz blockSize fuel : ℕ} (hh : hdrSize ≤ headerBufsz)
    (hb : 0 < blockSize) (zeroCopy : Bool) (hlen : headerBufsz ≤ f.content.length)
    (hfuel : (dataOf (f :: fs)).length < fuel) :
    ∃ t p, dadaClientWrite (diskdb files sprintf zeroCopy) headerBufsz blockSize fuel c = some t ∧
      t.count = 0 ∧ t.passed = some p ∧ p.header = sentHeader sprintf c.context.headerRead (f :: fs) ∧
      (p.data = dataOf (f :: fs) ↔
        (zeroCopy = true → OnePerBlock blockSize (fileStarts (f :: fs)))) ∧
      (p.data = dataOf (f :: fs) →
        Ready files t.client runs ∧ t.client.context.headerRead = true) := by
  have hopen := (h.open hruns hh).1 hlen
  obtain ⟨hcount, hheader, htransfer, hoptimal, hreading⟩ := h.send sprintf hruns
  have hquit : (c.opened (f :: fs)).quit = false := h.quit
  have hheaders : (c.opened (f :: fs)).headerTransfer = true := h.headerTransfer
  have hsize : (c.opened (f :: fs)).headerSize = hdrSize := rfl
  have hsend : (diskdb files sprintf zeroCopy).ioFunction (c.opened (f :: fs)) .header hdrSize =
      fileReadFunction files sprintf (c.opened (f :: fs)) .header hdrSize := rfl
  have hopen' : (diskdb files sprintf zeroCopy).openFunction
      { c with headerSize := headerBufsz, header := [] } = (0, c.opened (f :: fs)) := hopen
  rw [dadaClientWrite, dadaClientTransferWrite, hopen']
  simp only [Int.lt_irrefl, if_false, hquit, hheaders, hsize, if_true, hsend, Bool.false_eq_true]
  set sent := fileReadFunction files sprintf (c.opened (f :: fs)) .header hdrSize
  obtain ⟨r, hr, hdata, hrcount, hend⟩ := runWriteLoop_reads sprintf hb zeroCopy hreading
    htransfer (by rw [hoptimal]; decide) hfuel
  have hclose : ((diskdb files sprintf zeroCopy).closeFunction r.client (asUnsigned r.count)).1 = 0 :=
    fileCloseFunction_fst r.client (asUnsigned r.count)
  rw [hcount, asUnsigned_natCast, if_neg (Nat.lt_irrefl _), hoptimal, if_neg (by decide), hr]
  simp only [Option.map_some, hclose, Int.lt_irrefl, if_false, Int.not_lt.mpr hrcount]
  refine ⟨_, ⟨sent.client.header, r.data⟩, rfl, rfl, rfl, hheader, hdata, fun hd => ?_⟩
  exact (hend hd).close (fun hm => hruns.nonempty (List.mem_cons_of_mem _ hm)) (asUnsigned r.count)

/-- The transfer of a run whose first file has less bytes than a header block. -/
theorem Ready.transfer_short {c : Client Diskdb} {f : DiskFile hdrSize}
    {fs : List (DiskFile hdrSize)} {runs : List (List (DiskFile hdrSize))}
    (h : Ready files c ((f :: fs) :: runs)) (hruns : Runs ((f :: fs) :: runs))
    {headerBufsz : ℕ} (hh : hdrSize ≤ headerBufsz) (hlen : f.content.length < headerBufsz)
    (zeroCopy : Bool) (blockSize fuel : ℕ) :
    ∃ t, dadaClientWrite (diskdb files sprintf zeroCopy) headerBufsz blockSize fuel c = some t ∧
      t.count < 0 := by
  have hopen : ((diskdb files sprintf zeroCopy).openFunction
      { c with headerSize := headerBufsz, header := [] }).1 < 0 := (h.open hruns hh).2 hlen
  rw [dadaClientWrite, dadaClientTransferWrite]
  simp only [hopen, if_true, Option.map_some]
  exact ⟨_, rfl, show (if (-1 : ℤ) < 0 then (-1 : ℤ) else 0) < 0 by decide⟩

/-! ## All runs -/

/-- What shall be passed to the ring for a run. -/
structure RunPassed (headerBufsz : ℕ) (run : List (DiskFile hdrSize)) (p : Passed) : Prop where
  /-- The header fits in its block. -/
  room : p.header.length < headerBufsz
  /-- `FILE_SIZE` is the total of the run. -/
  fileSize : asciiHeaderGetUnsigned p.header fileSizeKey = some (dataOf run).length
  /-- The data is that of the files. -/
  data : p.data = dataOf run

/-- The transfer of a run passes what it shall. -/
structure Transferable (zeroCopy : Bool) (headerBufsz blockSize : ℕ) (headerRead : Bool)
    (run : List (DiskFile hdrSize)) : Prop where
  /-- The first file has as many bytes as a header block. -/
  opens : ∀ f ∈ run.head?, headerBufsz ≤ f.content.length
  /-- The header fits in its block. -/
  room : (sentHeader sprintf headerRead run).length < headerBufsz
  /-- `FILE_SIZE` is the total of the run. -/
  fileSize : asciiHeaderGetUnsigned (sentHeader sprintf headerRead run) fileSizeKey =
    some (dataOf run).length
  /-- With whole blocks, no two files begin in one block. -/
  blocks : zeroCopy = true → OnePerBlock blockSize (fileStarts run)

/-- The loop of the program passes what it shall for the runs that are left exactly when each of their
transfers does. -/
theorem diskdbLoop_runs {zeroCopy : Bool} {headerBufsz blockSize loopFuel : ℕ}
    (hh : hdrSize ≤ headerBufsz) (hb : 0 < blockSize) (runs : List (List (DiskFile hdrSize)))
    (hloop : ∀ run ∈ runs, (dataOf run).length < loopFuel) (hruns : Runs runs) {c : Client Diskdb}
    (h : Ready files c runs) {fuel : ℕ} (hfuel : runs.length < fuel) :
    (∃ passed, diskdbLoop (diskdb files sprintf zeroCopy) headerBufsz blockSize loopFuel fuel c =
        some (0, passed) ∧ List.Forall₂ (RunPassed headerBufsz) runs passed) ↔
      (∀ run ∈ runs.head?,
        Transferable sprintf zeroCopy headerBufsz blockSize c.context.headerRead run) ∧
      ∀ run ∈ runs.tail, Transferable sprintf zeroCopy headerBufsz blockSize true run := by
  induction runs generalizing c fuel with
  | nil =>
    obtain ⟨fuel, rfl⟩ := Nat.exists_eq_add_of_lt hfuel
    have hquit : c.quit = true := h.quit
    rw [List.length_nil, Nat.zero_add, diskdbLoop, if_pos hquit]
    exact iff_of_true ⟨[], rfl, List.Forall₂.nil⟩ (by simp)
  | cons run runs ih =>
    obtain ⟨f, fs, rfl⟩ : ∃ f fs, run = f :: fs := List.exists_cons_of_ne_nil fun hnil =>
      hruns.nonempty (hnil ▸ List.mem_cons_self)
    obtain ⟨fuel, rfl⟩ := Nat.exists_eq_add_of_lt (Nat.zero_lt_of_lt hfuel)
    have hquit : c.quit = false := h.quit
    rw [Nat.zero_add, diskdbLoop, if_neg (by simp [hquit])]
    rw [List.length_cons] at hfuel
    rcases Nat.lt_or_ge f.content.length headerBufsz with hshort | hlen
    · -- the first file cannot be opened
      obtain ⟨t, ht, hcount⟩ := h.transfer_short sprintf hruns hh hshort zeroCopy blockSize loopFuel
      rw [ht]
      simp only [if_pos hcount]
      refine iff_of_false ?_ fun hall => ?_
      · rintro ⟨passed, hp, -⟩
        simp at hp
      · have := (hall.1 _ rfl).opens f rfl
        omega
    · obtain ⟨t, p, ht, hcount, hpassed, hheader, hdata, hnext⟩ := h.transfer sprintf hruns hh hb zeroCopy
        hlen (hloop _ List.mem_cons_self)
      have ih' (hd : p.data = dataOf (f :: fs)) := ih (fun r hr => hloop r (List.mem_cons_of_mem _ hr))
        hruns.tail (hnext hd).1 (show runs.length < fuel by omega)
      rw [ht]
      simp only [hcount, Int.lt_irrefl, if_false, hpassed, Option.toList_some]
      constructor
      · rintro ⟨passed, hp, hall⟩
        obtain ⟨rest, hrest, heq⟩ := Option.map_eq_some_iff.mp hp
        obtain ⟨hzero, rfl⟩ := Prod.mk.inj heq
        obtain ⟨hrun, hothers⟩ := List.forall₂_cons.mp hall
        have hrest' : rest = (0, rest.2) := by rw [← hzero]
        obtain ⟨hhead, htail⟩ := (ih' hrun.data).mp ⟨rest.2, by rw [hrest, ← hrest'], hothers⟩
        rw [(hnext hrun.data).2] at hhead
        constructor
        · intro r hr
          obtain rfl := Option.some.inj hr
          exact ⟨fun g hg => Option.some.inj hg ▸ hlen, hheader ▸ hrun.room, hheader ▸ hrun.fileSize,
            hdata.mp hrun.data⟩
        · intro r hr
          cases runs with
          | nil => simp at hr
          | cons next runs =>
            rcases List.mem_cons.mp hr with rfl | hr
            · exact hhead _ rfl
            · exact htail r hr
      · rintro ⟨hhead, htail⟩
        have hthis := hhead _ rfl
        have hd := hdata.mpr hthis.blocks
        obtain ⟨passed, hp, hall⟩ := (ih' hd).mpr ⟨fun r hr => by
          rw [(hnext hd).2]
          exact htail r (List.mem_of_mem_head? hr), fun r hr => htail r (List.mem_of_mem_tail hr)⟩
        refine ⟨p :: passed, by rw [hp]; rfl, List.Forall₂.cons ⟨?_, ?_, hd⟩ hall⟩
        · rw [hheader]
          exact hthis.room
        · rw [hheader]
          exact hthis.fileSize

end Transfer

end Psrdada
