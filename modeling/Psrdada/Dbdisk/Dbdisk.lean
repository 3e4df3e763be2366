import Psrdada.Client.Offsets

/-! # From a ring to disk

`dada_dbdisk` writes the data of a ring to files.  `file_open_function` finds the number, the name and the
size of the next file from the header and from what it remembers of the previous one, and
`file_close_function` ends it.  What the disks answer, and what `file_write_function` returns, are
parameters here.

The program also records the files that it has opened; no step depends on the record. -/

namespace Psrdada

open CString

/-! ## The code -/

/-- A file that was opened. -/
structure OpenedFile where
  /-- The name that is created for it. -/
  name : Text
  /-- `utc_start`. -/
  utcStart : Text
  /-- `obs_offset`: the place of its first byte in the observation. -/
  start : ℕ
  /-- `file_number`. -/
  number : ℕ
  /-- `file_size`, as it is asked for. -/
  request : ℕ
  /-- `byte_multiple`. -/
  multiple : ℕ
  /-- `file_size`, as it is chosen. -/
  size : ℕ
  /-- `bytes_written`, once it has been closed. -/
  written : ℕ
  deriving DecidableEq

/-- `dada_dbdisk_t`. -/
structure Dbdisk where
  /-- `utc_start`: that of the previous file. -/
  utcStart : Text
  /-- `obs_offset`: that of the previous file. -/
  obsOffset : ℕ
  /-- `file_name`. -/
  fileName : Text
  /-- `file_number`. -/
  fileNumber : ℕ
  /-- `o_direct`. -/
  oDirect : Bool
  /-- How many files the disks have been asked to open. -/
  asked : ℕ
  /-- How many blocks of data have been written. -/
  blocks : ℕ
  /-- The files that were opened, the last one first. -/
  files : List OpenedFile

/-- `DADA_DBDISK_INIT`, with the option for `O_DIRECT`. -/
def Dbdisk.init (oDirect : Bool) : Dbdisk := ⟨[], 0, [], 0, oDirect, 0, 0, []⟩

/-- What the disks do. -/
structure Disks where
  /-- `disk_array_open`: the path of the disk and its block size, none where the call fails. -/
  opens : ℕ → Option (Text × ℕ)
  /-- `file_write_function` for so many bytes: what it returns, and whether `O_DIRECT` stays on. -/
  writes : ℕ → ℕ → ℤ × Bool

/-- `"%0nu"`: a number in at least `n` digits. -/
def padZeros (width n : ℕ) : Text :=
  List.replicate (width - (decimal n).length) '0' ++ decimal n

/-- `"%s_%016"PRIu64".%06u.dada"`: the name of a file. -/
def fileNameOf (utcStart : Text) (obsOffset fileNumber : ℕ) : Text :=
  utcStart ++ '_' :: padZeros 16 obsOffset ++ '.' :: padZeros 6 fileNumber ++ ".dada".toList

/-- The rounding of `file_size`, in the arithmetic of `uint64_t`: down to a multiple, and up to the next
one if the gap is more than half of it. -/
def roundFileSize (obsOffset fileSize byteMultiple : ℕ) : ℕ :=
  let gap := (obsOffset + fileSize) % 2 ^ 64 % byteMultiple
  let shrunk := (fileSize + 2 ^ 64 - gap) % 2 ^ 64
  if gap > byteMultiple / 2 then (shrunk + byteMultiple) % 2 ^ 64 else shrunk

/-- The size that a header asks for: `FILE_SIZE`, or ten seconds of data. -/
def requestOf (header : Text) : ℕ :=
  let fileSize := (asciiHeaderGetUnsigned header "FILE_SIZE".toList).getD 0
  if fileSize = 0 then
    (asciiHeaderGetUnsigned header "BYTES_PER_SECOND".toList).getD 64000000 * 10 % 2 ^ 64
  else fileSize

/-- `byte_multiple`: 512 for `O_DIRECT`, times the resolution. -/
def multipleOf (oDirect : Bool) (header : Text) : ℕ :=
  let resolution := (asciiHeaderGetUnsigned header "RESOLUTION".toList).getD 0
  let byteMultiple := if oDirect then 512 else 1
  if resolution > 0 then byteMultiple * resolution % 2 ^ 64 else byteMultiple

/-- The file that `file_open_function` opens next. -/
def Dbdisk.nextFile (d : Dbdisk) (header : Text) : OpenedFile :=
  let utcStart := (asciiHeaderGet header "UTC_START".toList).getD "UNKNOWN".toList
  let obsOffset := (asciiHeaderGetUnsigned header obsOffsetKey).getD 0
  -- check to see if we are still working with the same observation
  let fileNumber :=
    if utcStart ≠ d.utcStart ∨ obsOffset ≠ d.obsOffset then 0 else (d.fileNumber + 1) % 2 ^ 32
  let header := asciiHeaderSet header "FILE_NUMBER".toList (decimal fileNumber)
  let request := requestOf header
  let multiple := multipleOf d.oDirect header
  { name := fileNameOf utcStart obsOffset fileNumber
    utcStart := utcStart
    start := obsOffset
    number := fileNumber
    request := request
    multiple := multiple
    size := roundFileSize obsOffset request multiple
    written := 0 }

variable (disks : Disks)

/-- `file_open_function`. -/
def Dbdisk.fileOpenFunction (c : Client Dbdisk) : ℤ × Client Dbdisk :=
  let file := c.context.nextFile c.header
  let header := asciiHeaderSet (asciiHeaderSet c.header "FILE_NUMBER".toList (decimal file.number))
    "FILE_SIZE".toList (decimal file.size)
  let dbdisk := { c.context with
    utcStart := file.utcStart
    obsOffset := file.start
    fileName := file.name
    fileNumber := file.number
    asked := c.context.asked + 1 }
  match disks.opens c.context.asked with
  | none => (-1, { c with header := header, context := dbdisk })
  | some (path, blockSize) =>
    (0, { c with
      header := header
      transferBytes := file.size
      optimalBytes := 512 * blockSize % 2 ^ 64
      context := { dbdisk with
        fileName := path ++ '/' :: file.name
        files := file :: c.context.files } })

/-- `file_write_function`: what it returns for a block of data. -/
def Dbdisk.fileWriteFunction (c : Client Dbdisk) (dataSize : ℕ) : ℤ × Client Dbdisk :=
  let result := disks.writes c.context.blocks dataSize
  (result.1, { c with context := { c.context with
    blocks := c.context.blocks + 1
    oDirect := c.context.oDirect && result.2 } })

/-- `file_close_function`. -/
def Dbdisk.fileCloseFunction (c : Client Dbdisk) (bytesWritten : ℕ) : ℤ × Client Dbdisk :=
  (0, { c with context := { c.context with
    files := c.context.files.modifyHead fun file => { file with written := bytesWritten } } })

/-- The functions of `dada_dbdisk`, with or without the option for zero copy. -/
def dbdisk (zeroCopy : Bool) : Functions Dbdisk where
  openFunction := Dbdisk.fileOpenFunction disks
  ioFunction c _ dataSize := Dbdisk.fileWriteFunction disks c dataSize
  ioBlockFunction := if zeroCopy then some fun c data => Dbdisk.fileWriteFunction disks c data.length else none
  closeFunction := Dbdisk.fileCloseFunction

/-- The main loop of `dada_dbdisk`, over observations with their headers: it ends after a failure. -/
def dbdiskMain (zeroCopy : Bool) (fuel : ℕ) :
    Client Dbdisk → List (Text × DataStream) → Option (Client Dbdisk)
  | c, [] => some c
  | c, (header, d) :: observations =>
    (dadaClientRead (dbdisk disks zeroCopy) fuel { c with header := header } d.source).bind fun r =>
      if r.status < 0 then some r.client else dbdiskMain zeroCopy fuel r.client observations

/-! ## What one transfer leaves behind -/

/-- What is remembered of the last file that was opened. -/
structure Remembers (d : Dbdisk) (file : OpenedFile) (files : List OpenedFile) : Prop where
  /-- Its UTC. -/
  utcStart : d.utcStart = file.utcStart
  /-- Its offset. -/
  obsOffset : d.obsOffset = file.start
  /-- Its number. -/
  fileNumber : d.fileNumber = file.number
  /-- It is the last one in the record. -/
  files : d.files = file :: files

/-- What the I/O loop keeps if the functions do. -/
theorem runLoop_keeps {κ : Type} {F : Functions κ} {Q : Client κ → Prop}
    (hoptimal : ∀ c n, Q c → Q { c with optimalBytes := n })
    (hio : ∀ c p n, Q c → Q (F.ioFunction c p n).2)
    (hblock : ∀ g, F.ioBlockFunction = some g → ∀ c data, Q c → Q (g c data).2)
    (c : Client κ) (s : Source) (hc : Q c) : Q (runLoop F c s).client := by
  have hloop (n : ℕ) (hn : 0 < n) (c : Client κ) (s : Source) (done : ℕ) :
      Q c → Q (ioLoop F n hn c s done).client := by
    induction c, s, done using ioLoop_induct F n hn with
    | stop c s done _ => exact id
    | fail c s done _ _ _ => exact hio _ _ _
    | next c s done rest _ _ _ ih => exact fun hq => ih (hio _ _ _ hq)
  unfold runLoop
  split
  · rename_i g hg
    -- the rounds of the block loop, by the sub-blocks that are left
    generalize 0 = done
    induction hm : s.blocks.length using Nat.strong_induction_on generalizing c s done with
    | _ m ih =>
      subst hm
      rw [ioLoopBlock]
      split
      · split
        · exact hc
        · split
          · exact hc
          · rename_i data s' hopen
            have hstep : Q (if data.length ≠ 0 then g c data else (0, c)).2 := by
              split
              · exact hblock g hg c data hc
              · exact hc
            revert hstep
            generalize (if data.length ≠ 0 then g c data else (0, c)) = result
            intro hstep
            simp only []
            split
            · exact hstep
            · refine ih _ ?_ _ _ hstep _ rfl
              rw [blocks_ipcioCloseBlockRead, blocks_ipcioOpenBlockRead hopen]
              exact Nat.lt_succ_self _
      · exact hc
  · split
    · exact hloop _ _ _ _ _ hc
    · exact hloop _ _ _ _ _ (hoptimal _ _ hc)

variable {disks} {zeroCopy : Bool}

/-- Writing keeps what is remembered of the files. -/
theorem Remembers.write {c : Client Dbdisk} {file : OpenedFile} {files : List OpenedFile}
    (h : Remembers c.context file files) (n : ℕ) :
    Remembers (Dbdisk.fileWriteFunction disks c n).2.context file files :=
  ⟨h.utcStart, h.obsOffset, h.fileNumber, h.files⟩

/-- Closing completes the record of the last file. -/
theorem Remembers.close {c : Client Dbdisk} {file : OpenedFile} {files : List OpenedFile}
    (h : Remembers c.context file files) (n : ℕ) :
    Remembers (Dbdisk.fileCloseFunction c n).2.context { file with written := n } files := by
  refine ⟨h.utcStart, h.obsOffset, h.fileNumber, ?_⟩
  show c.context.files.modifyHead _ = _
  rw [h.files]
  rfl

/-- `file_open_function` opens the next file, or fails. -/
theorem fileOpenFunction_cases (disks : Disks) (c : Client Dbdisk) :
    ((Dbdisk.fileOpenFunction disks c).1 < 0 ∧
      (Dbdisk.fileOpenFunction disks c).2.context.files = c.context.files) ∨
    (Dbdisk.fileOpenFunction disks c).1 = 0 ∧
      Remembers (Dbdisk.fileOpenFunction disks c).2.context (c.context.nextFile c.header)
        c.context.files ∧
      (Dbdisk.fileOpenFunction disks c).2.transferBytes = (c.context.nextFile c.header).size ∧
      (Dbdisk.fileOpenFunction disks c).2.quit = c.quit := by
  unfold Dbdisk.fileOpenFunction
  simp only []
  cases disks.opens c.context.asked with
  | none => exact .inl ⟨minus_one_neg, rfl⟩
  | some answer => exact .inr ⟨rfl, ⟨rfl, rfl, rfl, rfl⟩, rfl, rfl⟩

variable (disks) (zeroCopy) in
/-- Sending the header and the data keeps what is remembered. -/
theorem Remembers.runs {c : Client Dbdisk} {file : OpenedFile} {files : List OpenedFile}
    (h : Remembers c.context file files) (s : Source) :
    Remembers (sendHeader (dbdisk disks zeroCopy) c).2.context file files ∧
      Remembers (runLoop (dbdisk disks zeroCopy) c s).client.context file files := by
  constructor
  · unfold sendHeader
    split
    · exact h.write _
    · exact h
  · refine runLoop_keeps (Q := fun c => Remembers c.context file files) ?_ ?_ ?_ c s h
    · exact fun _ _ hc => hc
    · exact fun c p n hc => hc.write n
    · intro g hg c data hc
      -- the block function is `file_write_function` as well
      cases zeroCopy with
      | false => simp [dbdisk] at hg
      | true =>
        obtain rfl := Option.some.inj hg
        exact hc.write data.length

variable (disks) (zeroCopy) in
/-- A transfer opens the next file, or fails. -/
theorem dbdisk_transfer (c : Client Dbdisk) (s : Source) :
    ((dadaClientTransfer (dbdisk disks zeroCopy) c s).count < 0 ∧
      (dadaClientTransfer (dbdisk disks zeroCopy) c s).client.context.files = c.context.files) ∨
    ∃ written, Remembers (dadaClientTransfer (dbdisk disks zeroCopy) c s).client.context
        { c.context.nextFile c.header with written := written } c.context.files ∧
      (0 ≤ (dadaClientTransfer (dbdisk disks zeroCopy) c s).count →
        (written : ℤ) = (dadaClientTransfer (dbdisk disks zeroCopy) c s).count) := by
  have hopen : (dbdisk disks zeroCopy).openFunction c = Dbdisk.fileOpenFunction disks c := rfl
  have hclose (c : Client Dbdisk) (n : ℕ) :
      (dbdisk disks zeroCopy).closeFunction c n = Dbdisk.fileCloseFunction c n := rfl
  have hclosed (c : Client Dbdisk) (n : ℕ) : ¬ (Dbdisk.fileCloseFunction c n).1 < 0 := Int.lt_irrefl 0
  unfold dadaClientTransfer
  simp only [hopen, hclose]
  rcases fileOpenFunction_cases disks c with ⟨hneg, hfiles⟩ | ⟨hzero, hfile, -, -⟩
  · rw [if_pos hneg]
    exact .inl ⟨minus_one_neg, hfiles⟩
  · rw [if_neg (by rw [hzero]; decide)]
    refine .inr ?_
    by_cases hquit : (Dbdisk.fileOpenFunction disks c).2.quit = true
    · rw [if_pos hquit]
      exact ⟨0, hfile, fun _ => rfl⟩
    · rw [if_neg hquit]
      have hsent := (hfile.runs disks zeroCopy s).1
      split
      · exact ⟨0, hsent, fun h => absurd h (Int.not_le.mpr minus_one_neg)⟩
      · have hrun := (hsent.runs disks zeroCopy s).2
        rw [if_neg (hclosed _ _)]
        refine ⟨_, hrun.close _, fun hpos => ?_⟩
        simp only [] at hpos
        rw [asUnsigned, if_neg (Int.not_lt.mpr hpos)]
        exact Int.toNat_of_nonneg hpos

end Psrdada
