import Psrdada.Client.Appending
import Psrdada.Dbdisk.FileSize
import Psrdada.Diskdb.FilesToRing
import Psrdada.Header.Stamps

/-! # The files of a recording

`dada_dbdisk` together with the bytes that it leaves on its disks.  `Recorder` adds to the program the file
that is open and the files that have been closed; its functions are those of the program, and write what
these report to have written.

On reliable disks the files of an observation follow one another: each is a header that has the place of
its first byte, its number and its size, filled up to `header_size` bytes, and the next data of the ring
(`readLoop_records`).  The header is the one of the observation with these three entries, whatever
the files before it had there. -/

namespace Psrdada

open CString

/-- The client of a program that keeps something else for itself. -/
def Client.withContext {κ κ' : Type} (c : Client κ) (x : κ') : Client κ' :=
  ⟨x, c.header, c.headerSize, c.headerTransfer, c.transferBytes, c.optimalBytes, c.quit⟩

/-- `dada_dbdisk` and the files that it has written. -/
structure Recorder where
  /-- The program. -/
  dbdisk : Dbdisk
  /-- The bytes of the file that is open. -/
  current : List UInt8
  /-- The bytes of the files that have been closed, the last one first. -/
  closed : List (List UInt8)

namespace Recorder

/-- What the program has of the client. -/
def program (c : Client Recorder) : Client Dbdisk := c.withContext c.context.dbdisk

variable (disks : Disks)

/-- `file_open_function`, which creates a file. -/
def fileOpenFunction (c : Client Recorder) : ℤ × Client Recorder :=
  let opened := Dbdisk.fileOpenFunction disks (program c)
  (opened.1, opened.2.withContext ⟨opened.2.context, [], c.context.closed⟩)

/-- `file_write_function`, which appends to the file what it reports. -/
def fileWriteFunction (c : Client Recorder) (p : Payload) (dataSize : ℕ) : ℤ × Client Recorder :=
  let wrote := Dbdisk.fileWriteFunction disks (program c) dataSize
  (wrote.1, wrote.2.withContext
    ⟨wrote.2.context, c.context.current ++ (p.bytes dataSize).take wrote.1.toNat, c.context.closed⟩)

/-- `file_close_function`, which removes an empty file. -/
def fileCloseFunction (c : Client Recorder) (bytesWritten : ℕ) : ℤ × Client Recorder :=
  let closed := Dbdisk.fileCloseFunction (program c) bytesWritten
  (closed.1, closed.2.withContext
    ⟨closed.2.context, [],
      if bytesWritten = 0 then c.context.closed else c.context.current :: c.context.closed⟩)

end Recorder

/-- The functions of `dada_dbdisk`, on disks that keep what is written. -/
def recorder (disks : Disks) : Functions Recorder where
  openFunction := Recorder.fileOpenFunction disks
  ioFunction := Recorder.fileWriteFunction disks
  ioBlockFunction := none
  closeFunction := Recorder.fileCloseFunction

/-! ## What a transfer does to the files -/

/-- A client that has appended bytes to its file, and is otherwise as it was. -/
structure Appended (c c' : Client Recorder) (bytes : List UInt8) : Prop where
  /-- The bytes are at the end of the file that is open. -/
  current : c'.context.current = c.context.current ++ bytes
  /-- The other files are left alone. -/
  closed : c'.context.closed = c.context.closed
  /-- The header. -/
  header : c'.header = c.header
  /-- Its size. -/
  headerSize : c'.headerSize = c.headerSize
  /-- It is to be transferred as before. -/
  headerTransfer : c'.headerTransfer = c.headerTransfer
  /-- The client quits as before. -/
  quit : c'.quit = c.quit

theorem Appended.refl (c : Client Recorder) : Appended c c [] :=
  ⟨(List.append_nil _).symm, rfl, rfl, rfl, rfl, rfl⟩

theorem Appended.trans {c c' c'' : Client Recorder} {a b : List UInt8} (h : Appended c c' a)
    (h' : Appended c' c'' b) : Appended c c'' (a ++ b) where
  current := by rw [h'.current, h.current, List.append_assoc]
  closed := h'.closed.trans h.closed
  header := h'.header.trans h.header
  headerSize := h'.headerSize.trans h.headerSize
  headerTransfer := h'.headerTransfer.trans h.headerTransfer
  quit := h'.quit.trans h.quit

variable {disks : Disks}

/-- What is written is appended. -/
theorem appended_write (h : disks.Reliable) (c : Client Recorder) (p : Payload) (n : ℕ) :
    ((recorder disks).ioFunction c p n).1 = n ∧
      Appended c ((recorder disks).ioFunction c p n).2 (p.bytes n) := by
  have hcount : ((recorder disks).ioFunction c p n).1 = n := h.writes _ _
  refine ⟨hcount, ⟨?_, rfl, rfl, rfl, rfl, rfl⟩⟩
  show c.context.current ++ (p.bytes n).take ((recorder disks).ioFunction c p n).1.toNat = _
  rw [hcount, Int.toNat_natCast, List.take_of_length_le (p.length_bytes_le n)]

theorem recorder_appends (h : disks.Reliable) : Appends (recorder disks) Appended :=
  ⟨.refl, .trans, appended_write h, fun _ _ => ⟨(List.append_nil _).symm, rfl, rfl, rfl, rfl, rfl⟩⟩

/-- The functions of a client on reliable disks that is not told to quit consume everything. -/
def recorderConsumer (disks : Disks) (h : disks.Reliable) : Consumer Recorder where
  openFunction c :=
    let opened := Recorder.fileOpenFunction disks c
    (opened.1, { opened.2 with quit := false })
  ioFunction := Recorder.fileWriteFunction disks
  ioBlockFunction := none
  closeFunction := Recorder.fileCloseFunction
  opens c := (dbdiskConsumer disks h).opens (Recorder.program c)
  stays _ := rfl
  consumes c p n := (appended_write h c p n).1
  keepsSize _ _ _ := rfl
  byBytes := rfl
  closes _ _ := Int.le_refl 0

/-- The keyword `FILE_NUMBER`. -/
def fileNumberWord : Word := ⟨"FILE_NUMBER".toList, by decide, plain_of_all (by decide)⟩

/-- What a file's header has in addition to that of its observation. -/
def fileStamps (offset number size : ℕ) : List Stamp :=
  [⟨obsOffsetWord, zero_obsOffsetWord, offset⟩, ⟨fileNumberWord, by decide, number⟩,
    ⟨fileSizeWord, by decide, size⟩]

theorem roundFileSize_lt (obs size multiple : ℕ) : roundFileSize obs size multiple < 2 ^ 64 := by
  unfold roundFileSize
  simp only []
  split_ifs
  all_goals exact Nat.mod_lt _ (by decide)

/-- What a file is opened with. -/
structure Opened (c c' : Client Recorder) (number size : ℕ) : Prop where
  /-- The number has 32 bits. -/
  number_lt : number < 2 ^ 32
  /-- The size has 64 bits. -/
  size_lt : size < 2 ^ 64
  /-- Both are in the header. -/
  header : c'.header = asciiHeaderSet (asciiHeaderSet c.header "FILE_NUMBER".toList (decimal number))
    fileSizeKey (decimal size)
  /-- The transfer is to have this size. -/
  transferBytes : c'.transferBytes = size
  /-- The file is empty. -/
  current : c'.context.current = []
  /-- The other files are left alone. -/
  closed : c'.context.closed = c.context.closed
  /-- The size of the header. -/
  headerSize : c'.headerSize = c.headerSize
  /-- The header is to be transferred as before. -/
  headerTransfer : c'.headerTransfer = c.headerTransfer
  /-- The client quits as before. -/
  quit : c'.quit = c.quit

theorem opened_open (h : disks.Reliable) (c : Client Recorder) :
    ((recorder disks).openFunction c).1 = 0 ∧
      ∃ number size, Opened c ((recorder disks).openFunction c).2 number size := by
  have hopens := h.opens c.context.dbdisk.asked
  show (Recorder.fileOpenFunction disks c).1 = 0 ∧
    ∃ number size, Opened c (Recorder.fileOpenFunction disks c).2 number size
  unfold Recorder.fileOpenFunction Dbdisk.fileOpenFunction
  have hasked : (Recorder.program c).context.asked = c.context.dbdisk.asked := rfl
  simp only [hasked]
  cases hopen : disks.opens c.context.dbdisk.asked with
  | none => simp [hopen] at hopens
  | some answer =>
    refine ⟨rfl, _, _, ⟨?_, roundFileSize_lt _ _ _, rfl, rfl, rfl, rfl, rfl, rfl, rfl⟩⟩
    show (Dbdisk.nextFile _ _).number < 2 ^ 32
    unfold Dbdisk.nextFile
    simp only []
    split_ifs
    · decide
    · exact Nat.mod_lt _ (by decide)

/-- The bytes of a file: its header, filled up with zeros, and its data. -/
def fileBytes (hdrSize : ℕ) (header : Text) (data : List UInt8) : List UInt8 :=
  (toBytes header ++ List.replicate (hdrSize - header.length) 0).take hdrSize ++ data

/-- What a transfer of a recorder leaves behind: one file more. -/
structure Records (c : Client Recorder) (t : TransferResult Recorder) (number size : ℕ) : Prop where
  /-- The number has 32 bits. -/
  number_lt : number < 2 ^ 32
  /-- The size has 64 bits. -/
  size_lt : size < 2 ^ 64
  /-- Both are in the header. -/
  header : t.client.header =
    asciiHeaderSet (asciiHeaderSet c.header "FILE_NUMBER".toList (decimal number)) fileSizeKey (decimal size)
  /-- The size is the one that was asked for. -/
  transferBytes : t.output.transferBytes = size
  /-- The file has the header and what was taken from the ring. -/
  closed : t.client.context.closed =
    fileBytes c.headerSize t.client.header t.output.taken :: c.context.closed
  /-- The size of the header. -/
  headerSize : t.client.headerSize = c.headerSize
  /-- The header is to be transferred as before. -/
  headerTransfer : t.client.headerTransfer = c.headerTransfer
  /-- The client quits as before. -/
  quit : t.client.quit = c.quit

/-- A transfer of data that is there writes one file. -/
theorem recorder_transfer (h : disks.Reliable) {c : Client Recorder} (hquit : c.quit = false)
    (htransfer : c.headerTransfer = true) {s : Source} (heod : s.eod = false) (hleft : s.left ≠ []) :
    Delivers c s (dadaClientTransfer (recorder disks) c s) ∧
      ∃ number size, Records c (dadaClientTransfer (recorder disks) c s) number size := by
  obtain ⟨hzero, number, size, hopened⟩ := opened_open h c
  have hdelivers : Delivers c s (dadaClientTransfer (recorder disks) c s) := by
    have hopen : (recorder disks).openFunction c = (recorderConsumer disks h).openFunction c := by
      refine Prod.ext rfl ?_
      show ((recorder disks).openFunction c).2 = { ((recorder disks).openFunction c).2 with quit := false }
      rw [← hquit, ← hopened.quit]
    have hsame : dadaClientTransfer (recorder disks) c s =
        dadaClientTransfer (recorderConsumer disks h).toFunctions c s :=
      dadaClientTransfer_congr hopen rfl rfl rfl rfl s
    rw [hsame]
    exact dadaClientTransfer_consumer (recorderConsumer disks h) c heod
  refine ⟨hdelivers, number, size, ?_⟩
  obtain ⟨c', happended, hclient, htransferBytes⟩ := (recorder_appends h).transfer
    (Int.le_of_eq hzero.symm) (hopened.quit.trans hquit) (hopened.headerTransfer.trans htransfer) rfl
    (fun _ _ => Int.le_refl 0) hdelivers
  have hwritten := List.length_pos_iff.mpr (hdelivers.nonempty hleft)
  refine ⟨hopened.number_lt, hopened.size_lt, ?_, htransferBytes.trans hopened.transferBytes, ?_, ?_, ?_, ?_⟩
  all_goals rw [hclient]
  · exact happended.header.trans hopened.header
  · show (if (dadaClientTransfer (recorder disks) c s).output.taken.length = 0 then c'.context.closed
      else c'.context.current :: c'.context.closed) = fileBytes c.headerSize c'.header _ :: _
    rw [if_neg (Nat.pos_iff_ne_zero.mp hwritten), happended.closed, happended.current, hopened.current,
      hopened.closed, List.nil_append, happended.header, hopened.headerSize]
    rfl
  · exact happended.headerSize.trans hopened.headerSize
  · exact happended.headerTransfer.trans hopened.headerTransfer
  · exact happended.quit.trans hopened.quit

/-! ## The files of an observation -/

/-- A file of an observation. -/
structure RecordedFile where
  /-- The place of its first byte in the observation. -/
  offset : ℕ
  /-- Its number. -/
  number : ℕ
  /-- The size that was chosen for it. -/
  size : ℕ
  /-- The data that was taken from the ring. -/
  data : List UInt8

namespace RecordedFile

/-- The header of a file, where `s` is that of the observation. -/
def header (f : RecordedFile) (s : Store) : Store := s.stampAll (fileStamps f.offset f.number f.size)

/-- The bytes of a file. -/
def bytes (f : RecordedFile) (s : Store) (hdrSize : ℕ) : List UInt8 :=
  fileBytes hdrSize (f.header s).text f.data

/-- The numbers of a file are those of C. -/
structure InRange (f : RecordedFile) : Prop where
  /-- The offset has 64 bits. -/
  offset_lt : f.offset < 2 ^ 64
  /-- The number has 32 bits. -/
  number_lt : f.number < 2 ^ 32
  /-- The size has 64 bits. -/
  size_lt : f.size < 2 ^ 64

end RecordedFile

/-- Files that follow one another from a place in the observation on, none of them empty, each but the last
one full. -/
def Follows : ℕ → List RecordedFile → Prop
  | _, [] => True
  | p, f :: fs =>
    f.offset = p ∧ f.data ≠ [] ∧ (fs = [] ∨ f.data.length = f.size) ∧ Follows (p + f.data.length) fs

/-- That a file is what an output took. -/
def RecordedFile.IsOutput (o : ReadOutput) (f : RecordedFile) : Prop :=
  o.taken = f.data ∧ o.transferBytes = f.size

/-- The keywords that a file's header has in addition are not in the first line. -/
def FreeForFiles (s : Store) : Prop := ∀ k ∈ [obsOffsetWord, fileNumberWord, fileSizeWord], s.Free k

instance (s : Store) : Decidable (FreeForFiles s) := inferInstanceAs (Decidable (∀ k ∈ _, _))

theorem FreeForFiles.free {s : Store} (h : FreeForFiles s) (offset number size : ℕ) :
    ∀ x ∈ fileStamps offset number size, s.Free x.key := by
  intro x hx
  refine h x.key ?_
  have hmem : x.key ∈ (fileStamps offset number size).map Stamp.key := List.mem_map_of_mem hx
  exact hmem

theorem RecordedFile.InRange.stamps {f : RecordedFile} (h : f.InRange) :
    ∀ x ∈ fileStamps f.offset f.number f.size, x.number < 2 ^ 64 := by
  have := h.number_lt
  intro x hx
  simp only [fileStamps, List.mem_cons, List.not_mem_nil, or_false] at hx
  rcases hx with rfl | rfl | rfl
  · exact h.offset_lt
  · show f.number < 2 ^ 64
    omega
  · exact h.size_lt

/-- The header that the client has between two files: that of the observation, or of the last file. -/
def BetweenFiles (s : Store) (header : Text) : Prop :=
  header = s.text ∨ ∃ f : RecordedFile, f.InRange ∧ header = (f.header s).text

/-- Whichever it is, the header of the next file is that of the observation with its three entries. -/
theorem BetweenFiles.next {s : Store} {header : Text} (h : BetweenFiles s header) (hfree : FreeForFiles s)
    {f : RecordedFile} (hf : f.InRange) :
    asciiHeaderSet (asciiHeaderSet (asciiHeaderSet header obsOffsetKey (decimal f.offset))
      "FILE_NUMBER".toList (decimal f.number)) fileSizeKey (decimal f.size) = (f.header s).text := by
  have hall (s : Store) (hs : FreeForFiles s) :
      stampText s.text (fileStamps f.offset f.number f.size) = (f.header s).text :=
    Store.text_stampAll fun x hx => ⟨hs.free _ _ _ x hx, hf.stamps x hx⟩
  rcases h with rfl | ⟨g, hg, rfl⟩
  · exact hall s hfree
  · have hfirst : FreeForFiles (g.header s) := by
      intro k hk
      rw [Store.Free, RecordedFile.header, Store.first_stampAll]
      exact hfree k hk
    have hagain : (g.header s).stampAll (fileStamps f.offset f.number f.size) = f.header s :=
      Store.stampAll_again rfl (by
        show [obsOffsetWord, fileNumberWord, fileSizeWord].Nodup
        decide)
    refine (hall (g.header s) hfirst).trans ?_
    rw [RecordedFile.header, hagain]

/-- The transfers of an observation write files that follow one another, with all the data. -/
theorem readLoop_records (h : disks.Reliable) {s : Store} (hfree : FreeForFiles s) (fuel : ℕ)
    (c : Client Recorder) (src : Source) (p : ℕ) (hheader : BetweenFiles s c.header) (hquit : c.quit = false)
    (htransfer : c.headerTransfer = true) (hsome : src.eod = false → src.left ≠ [])
    (hbound : p + src.left.length < 2 ^ 64) :
    (src.size < fuel → (readLoop (recorder disks) fuel c src p).isSome) ∧
      ∀ r, readLoop (recorder disks) fuel c src p = some r → r.status = 0 ∧
        ∃ fs : List RecordedFile, (src.eod = true → fs = []) ∧ (∀ f ∈ fs, f.InRange) ∧ Follows p fs ∧
          List.Forall₂ RecordedFile.IsOutput r.outputs fs ∧
          fs.flatMap RecordedFile.data = src.left ∧
          r.client.context.closed.reverse =
            c.context.closed.reverse ++ fs.map fun f => f.bytes s c.headerSize := by
  induction fuel generalizing c src p with
  | zero =>
    refine ⟨fun h => absurd h (Nat.not_lt_zero _), fun r hr => ?_⟩
    simp [readLoop] at hr
  | succ fuel ih =>
    rw [readLoop]
    by_cases heod : src.eod = true
    · rw [if_pos heod]
      refine ⟨fun _ => rfl, fun r hr => ?_⟩
      obtain rfl := Option.some.inj hr
      rw [Source.left_of_eod heod]
      exact ⟨rfl, [], fun _ => rfl, by simp, trivial, List.Forall₂.nil, rfl, (List.append_nil _).symm⟩
    · rw [if_neg heod]
      have heod' : src.eod = false := by simpa using heod
      obtain ⟨hd, number, size, hrec⟩ := recorder_transfer h
        (c := { c with header := asciiHeaderSet c.header obsOffsetKey (decimal p) }) hquit htransfer heod'
        (hsome heod')
      set t := dadaClientTransfer (recorder disks)
        { c with header := asciiHeaderSet c.header obsOffsetKey (decimal p) } src
      simp only []
      rw [if_neg (by rw [hd.count]; omega)]
      have hlen := congrArg List.length hd.taken
      rw [List.length_append] at hlen
      have hcount : t.count.toNat = t.output.taken.length := by rw [hd.count, Int.toNat_natCast]
      set f : RecordedFile := ⟨p, number, size, t.output.taken⟩ with hf
      have hrange : f.InRange := ⟨by show p < 2 ^ 64; omega, hrec.number_lt, hrec.size_lt⟩
      have htext : t.client.header = (f.header s).text := hrec.header.trans (hheader.next (f := f) hfree hrange)
      have hsize : t.client.headerSize = c.headerSize := hrec.headerSize
      obtain ⟨hterm, hfiles⟩ := ih t.client t.source (p + t.output.taken.length) (.inr ⟨f, hrange, htext⟩)
        (hrec.quit.trans hquit) (hrec.headerTransfer.trans htransfer)
        (fun he hnil => by
          rw [hd.settled.mpr hnil] at he
          exact Bool.noConfusion he)
        (by omega)
      rw [← hcount] at hterm hfiles
      constructor
      · intro hlt
        rw [Option.isSome_map]
        have := hd.size_lt heod'
        exact hterm (by omega)
      · intro r hr
        obtain ⟨rest, hrest, rfl⟩ := Option.map_eq_some_iff.mp hr
        obtain ⟨hstatus, fs, hnil, hranges, hfollows, houtputs, hdata, hclosed⟩ := hfiles rest hrest
        rw [hcount] at hfollows
        refine ⟨hstatus, f :: fs, fun h => absurd h heod, List.forall_mem_cons.mpr ⟨hrange, hranges⟩,
          ⟨rfl, hd.nonempty (hsome heod'), ?_, hfollows⟩,
          List.Forall₂.cons ⟨rfl, hrec.transferBytes⟩ houtputs, ?_, ?_⟩
        · exact hd.full.imp hnil fun hfull => hfull.trans hrec.transferBytes
        · rw [List.flatMap_cons, hdata]
          exact hd.taken
        · show rest.client.context.closed.reverse = _
          rw [hclosed, hsize, hrec.closed, List.reverse_cons, List.append_assoc, htext]
          rfl

end Psrdada
