import Psrdada.Diskdb.Files

/-! # dada_diskdb

The functions of `dada_diskdb`, and its main program, which passes files to the ring until the last one has
been closed.  Neither of the options `-o` and `-s` is given, so that `seek_bytes` is 0 and the loop of
`main` ends with the last file. -/

namespace Psrdada

open CString

variable {hdrSize : ℕ}

/-- `sprintf` with a text as its format and no further argument: a format without a conversion is
copied. -/
structure Sprintf where
  /-- The text that is written. -/
  run : Text → Text
  /-- A format without a conversion is copied. -/
  literal : ∀ format, '%' ∉ format → run format = format

/-- `dada_diskdb_t`, the file that is open and the counter `cur_file`. -/
structure Diskdb where
  /-- `continues`: whether a file continues into the next one. -/
  continues : List Bool
  /-- `file_sizes`. -/
  fileSizes : List ℕ
  /-- `header_read`. -/
  headerRead : Bool
  /-- `cur_file`. -/
  curFile : ℕ
  /-- `client->fd`: the file and the offset in it. -/
  fd : Option (ℕ × ℕ)

variable (files : List (DiskFile hdrSize))

/-! ## Contiguity -/

/-- `ascii_header_get_size`: `HDR_SIZE` from the first bytes of a file, none where it cannot be read. -/
def asciiHeaderGetSize (f : DiskFile hdrSize) : Option ℕ :=
  if f.content.length < defaultHeaderSize then none
  else asciiHeaderGetUnsigned (textOf (f.content.take defaultHeaderSize)) "HDR_SIZE".toList

/-- What `check_contiguity` reads from the header of a file: `UTC_START`, `OBS_OFFSET` and `FILE_SIZE`,
the last of which is replaced by the size of the file where the header does not have it. -/
def contiguityFields (size : ℕ) (f : DiskFile hdrSize) : Option (Text × ℕ × ℕ) :=
  let header := textOf (f.content.take size)
  match asciiHeaderGet header "UTC_START".toList, asciiHeaderGetUnsigned header obsOffsetKey with
  | some utcStart, some obsOffset =>
    some (utcStart, obsOffset,
      (asciiHeaderGetUnsigned header fileSizeKey).getD (f.content.length - size))
  | _, _ => none

/-- Add the size of a file to the sizes of those before it, as far back as they continue. -/
def accumulate (continues : List Bool) (size : ℕ) : ℕ → List ℕ → List ℕ
  | 0, sizes => sizes
  | i + 1, sizes =>
    if continues[i]? = some true then accumulate continues size i (sizes.modify i (· + size))
    else sizes

/-- `prev_utc_start` after `strncpy (prev_utc_start, curr_utc_start, 19)`: 19 characters leave the byte
that follows as it was, which `tail` is the text of. -/
def copyUtcStart (curr tail : Text) : Text := if curr.length < 19 then curr else curr.take 19 ++ tail

/-- The loop of `check_contiguity` from `ifile` on. -/
def checkFiles (size : ℕ) (tail : Text) : List (DiskFile hdrSize) → (ifile : ℕ) →
    (prevUtcStart : Text) → (prevObsOffset prevFileSize : ℕ) → List Bool → List ℕ →
    List Bool × List ℕ
  | [], _, _, _, _, continues, sizes => (continues, sizes)
  | f :: files, ifile, prevUtcStart, prevObsOffset, prevFileSize, continues, sizes =>
    let continues := continues.set (ifile - 1) false
    match contiguityFields size f with
    | none => (continues, sizes)
    | some (utcStart, obsOffset, fileSize) =>
      let sizes := sizes.set ifile fileSize
      if prevUtcStart = utcStart ∧ obsOffset = prevObsOffset + prevFileSize then
        let continues := continues.set (ifile - 1) true
        checkFiles size tail files (ifile + 1) (copyUtcStart utcStart tail) obsOffset fileSize continues
          (accumulate continues fileSize ifile sizes)
      else
        checkFiles size tail files (ifile + 1) (copyUtcStart utcStart tail) obsOffset fileSize continues
          sizes

/-- `check_contiguity`: `continues` and `file_sizes`, none where the first file cannot be read.  `garbage`
is what `malloc` has left at the end of `prev_utc_start`. -/
def checkContiguity (garbage : Text) : Option (List Bool × List ℕ) :=
  match files with
  | [] => none
  | f :: rest =>
    match asciiHeaderGetSize f with
    | none => none
    | some size =>
      match contiguityFields size f with
      | none => none
      | some (utcStart, obsOffset, fileSize) =>
        -- the zero that ends 19 characters is in the last byte
        let tail := if utcStart.length = 19 then [] else garbage
        some (checkFiles size tail rest 1 utcStart obsOffset fileSize
          (List.replicate files.length false) ((List.replicate files.length 0).set 0 fileSize))

/-! ## The functions of the client -/

/-- `read` from the file that is open. -/
def readFd (d : Diskdb) (n : ℕ) : List UInt8 × Diskdb :=
  match d.fd with
  | none => ([], d)
  | some (i, offset) =>
    match files[i]? with
    | none => ([], d)
    | some f =>
      let bytes := (f.content.drop offset).take n
      (bytes, { d with fd := some (i, offset + bytes.length) })

/-- `file_close_function`. -/
def fileCloseFunction (c : Client Diskdb) (_ : ℕ) : ℤ × Client Diskdb :=
  let d := { c.context with fd := none, curFile := c.context.curFile + 1 }
  if d.curFile ≥ files.length then (0, { c with context := d, quit := true })
  else (0, { c with context := d })

/-- `file_open_function`. -/
def fileOpenFunction (c : Client Diskdb) : ℤ × Client Diskdb :=
  match files[c.context.curFile]? with
  | none => (-1, c)
  | some f =>
    let bytes := f.content.take c.headerSize
    if bytes.length < c.headerSize then (-1, (fileCloseFunction files c 0).2)
    else
      let header := textOf bytes
      let hdrSize := (asciiHeaderGetUnsigned header "HDR_SIZE".toList).getD defaultHeaderSize
      if hdrSize > c.headerSize then (-1, c)
      else
        let fileSize := c.context.fileSizes.getD c.context.curFile 0
        (0, { c with
          header := asciiHeaderSet header fileSizeKey (decimal fileSize)
          headerSize := hdrSize
          optimalBytes := 1024 * 1024
          transferBytes := fileSize
          -- back to the start of the file
          context := { c.context with fd := some (c.context.curFile, 0) } })

/-- `open_next_contiguous_file`. -/
def openNextContiguousFile (c : Client Diskdb) : ℤ × Client Diskdb :=
  let c := (fileCloseFunction files c 0).2
  match files[c.context.curFile]? with
  | none => (-1, c)
  | some _ => (0, { c with context := { c.context with fd := some (c.context.curFile, c.headerSize) } })

/-- `file_read_function`. -/
def fileReadFunction (sprintf : Sprintf) (c : Client Diskdb) (buffer : Buffer) (dataSize : ℕ) :
    Fill Diskdb :=
  if !c.context.headerRead then
    let text := sprintf.run c.header
    let d := { c.context with
      headerRead := true
      fd := c.context.fd.map fun fd => (fd.1, c.headerSize) }
    match buffer with
    | .header => ⟨dataSize, [], { c with context := d, header := text }⟩
    | .data => ⟨dataSize, toBytes text, { c with context := d }⟩
  else
    let read := readFd files c.context dataSize
    let c := { c with context := read.2 }
    let fill : Fill Diskdb :=
      if read.1.length < dataSize ∧ c.context.continues[c.context.curFile]? = some true then
        let next := openNextContiguousFile files c
        if next.1 < 0 then ⟨-1, read.1, next.2⟩
        else
          let more := readFd files next.2.context (dataSize - read.1.length)
          ⟨(read.1 ++ more.1).length, read.1 ++ more.1, { next.2 with context := more.2 }⟩
      else ⟨read.1.length, read.1, c⟩
    match buffer with
    | .header => { fill with client := { fill.client with header := textOf fill.bytes } }
    | .data => fill

/-- The functions of `dada_diskdb`: `file_read_block_function` is there with the option `-z`. -/
def diskdb (sprintf : Sprintf) (zeroCopy : Bool) : WriteFunctions Diskdb where
  openFunction := fileOpenFunction files
  ioFunction := fileReadFunction files sprintf
  ioBlockFunction :=
    if zeroCopy then some fun c dataSize => fileReadFunction files sprintf c .data dataSize else none
  closeFunction := fileCloseFunction files

/-! ## The program -/

/-- The loop of `main`: its result, and what has been passed to the ring. -/
def diskdbLoop (F : WriteFunctions Diskdb) (headerBufsz blockSize loopFuel : ℕ) :
    ℕ → Client Diskdb → Option (ℤ × List Passed)
  | 0, _ => none
  | fuel + 1, c =>
    if c.quit then some (0, [])
    else
      match dadaClientWrite F headerBufsz blockSize loopFuel c with
      | none => none
      | some t =>
        if t.count < 0 then some (-1, t.passed.toList)
        else
          (diskdbLoop F headerBufsz blockSize loopFuel fuel t.client).map fun rest =>
            (rest.1, t.passed.toList ++ rest.2)

/-- The client when the loop of `main` starts. -/
def diskdbClient (continues : List Bool) (fileSizes : List ℕ) : Client Diskdb :=
  ⟨⟨continues, fileSizes, false, 0, none⟩, [], 0, true, 0, 0, false⟩

/-- `main`, with a ring that has header blocks of `headerBufsz` bytes and data blocks of `blockSize`. -/
def diskdbMain (sprintf : Sprintf) (garbage : Text) (zeroCopy : Bool)
    (headerBufsz blockSize fuel : ℕ) : Option (ℤ × List Passed) :=
  match checkContiguity files garbage with
  -- EXIT_FAILURE
  | none => some (1, [])
  | some (continues, fileSizes) =>
    diskdbLoop (diskdb files sprintf zeroCopy) headerBufsz blockSize fuel fuel
      (diskdbClient continues fileSizes)

end Psrdada
