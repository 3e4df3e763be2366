import Psrdada.Replay.Recording

/-! # Record and replay

What `dada_dbdisk` has taken out of one ring, `dada_diskdb` puts into another: one transfer with all the
data, and with the header of the observation, in which `FILE_SIZE` is the length of the data.

`dada_diskdb` takes the length of a file from its header, so the last file is to be as long as
`dada_dbdisk` had planned it. -/

namespace Psrdada

open CString

variable {hdrSize : ℕ}

/-! ## Playing files that continue one another -/

/-- `dada_diskdb` passes files that continue one another as one transfer. -/
theorem diskdbMain_continued (sprintf : Sprintf) (zeroCopy : Bool) {files : List (DiskFile hdrSize)}
    {garbage : Text} (hne : files ≠ []) (hcontinued : Continued files)
    (hsize : ∀ f ∈ files.head?, defaultHeaderSize ≤ f.content.length) (hutc : PlainUtc garbage files)
    {headerBufsz blockSize fuel : ℕ} (hh : hdrSize ≤ headerBufsz)
    (hopens : ∀ f ∈ files.head?, headerBufsz ≤ f.content.length) (hb : 0 < blockSize)
    (hplain : '%' ∉ preparedHeader files)
    (hblocks : zeroCopy = true → OnePerBlock blockSize (fileStarts files))
    (hfuel : (dataOf files).length < fuel) :
    diskdbMain files sprintf garbage zeroCopy headerBufsz blockSize fuel =
      some (0, [⟨preparedHeader files, dataOf files⟩]) := by
  obtain ⟨continues, sizes, hcheck, hmarked⟩ :=
    checkContiguity_marked hne (fun f hf => f.length_content ▸ hsize f hf) hutc
  have hruns : Runs [files] :=
    ⟨by simpa using hne.symm, by simpa using hcontinued, List.isChain_singleton _⟩
  have hready : Ready files (diskdbClient continues sizes) [files] :=
    ⟨hmarked, rfl, by simp [diskdbClient], rfl⟩
  obtain ⟨f, fs, rfl⟩ := List.exists_cons_of_ne_nil hne
  obtain ⟨t, p, ht, hcount, hpassed, hheader, hdata, hnext⟩ :=
    hready.transfer sprintf hruns hh hb zeroCopy (hopens f rfl) hfuel
  have hp : p = ⟨preparedHeader (f :: fs), dataOf (f :: fs)⟩ := by
    obtain ⟨header, data⟩ := p
    rw [Passed.mk.injEq]
    exact ⟨hheader.trans (sprintf.literal _ hplain), hdata.mpr hblocks⟩
  have hquit : t.client.quit = true := (hnext (by rw [hp])).1.quit
  have hpos := List.length_pos_iff.mpr f.nonempty
  obtain ⟨k, rfl⟩ : ∃ k, fuel = k + 2 := by
    refine ⟨fuel - 2, ?_⟩
    have : (dataOf (f :: fs)).length = f.data.length + (dataOf fs).length := by simp [dataOf]
    omega
  have hstart : (diskdbClient continues sizes).quit = false := rfl
  rw [diskdbMain, hcheck]
  simp only []
  rw [diskdbLoop, if_neg (by rw [hstart]; decide), ht]
  simp only [hcount, hpassed, Int.lt_irrefl, if_false, Option.toList_some]
  rw [diskdbLoop, if_pos hquit, hp]
  rfl

/-! ## Observations -/

/-- The characters of a header that can be kept in a file and used as a format. -/
def Printable (c : Char) : Prop :=
  (c = '\n' ∨ c = '\t' ∨ 32 ≤ c.toNat ∧ c.toNat < 127) ∧ c ≠ '%'

instance (c : Char) : Decidable (Printable c) := inferInstanceAs (Decidable (_ ∧ _))

theorem Printable.ascii {c : Char} (h : Printable c) : 0 < c.toNat ∧ c.toNat < 128 := by
  obtain ⟨rfl | rfl | ⟨hlo, hhi⟩, -⟩ := h
  · decide
  · decide
  · omega

/-- A printable character is a blank for `%s` if it is one for a number. -/
theorem Printable.blank {c : Char} (h : Printable c) : isspace c = c.isWhitespace := by
  obtain ⟨rfl | rfl | ⟨hlo, hhi⟩, -⟩ := h
  · decide
  · decide
  · have hvt : c ≠ '\x0b' := by
      rintro rfl
      exact absurd hlo (by decide)
    have hff : c ≠ '\x0c' := by
      rintro rfl
      exact absurd hlo (by decide)
    simp only [isspace, Char.isWhitespace, hvt, hff, decide_false, Bool.or_false]
    rcases Decidable.em (c = '\r') with rfl | hcr
    · decide
    · simp only [hcr, decide_false, Bool.or_false]

theorem printable_digit {c : Char} (h : c.isDigit = true) : Printable c := by
  rw [Char.isDigit_iff_toNat] at h
  refine ⟨.inr (.inr ⟨Nat.le_trans (by decide) h.1, Nat.lt_of_le_of_lt h.2 (by decide)⟩), ?_⟩
  rintro rfl
  exact absurd h.1 (by decide)

/-- The keyword `UTC_START`. -/
def utcStartWord : Word := ⟨"UTC_START".toList, by decide, plain_of_all (by decide)⟩

/-- An observation in a ring, with what the programs need of its header. -/
structure Observation (hdrSize : ℕ) where
  /-- The header. -/
  header : Store
  /-- The data. -/
  data : DataStream
  /-- There is some data. -/
  nonempty : data.data ≠ []
  /-- The header is printable. -/
  printable : ∀ c ∈ header.text, Printable c
  /-- Its first line has none of the entries that a file is given. -/
  free : FreeForFiles header
  /-- A header has at least the size that is assumed at first. -/
  hdrSize_le : defaultHeaderSize ≤ hdrSize
  /-- Its size is a number of 64 bits. -/
  hdrSize_lt : hdrSize < 2 ^ 64
  /-- There is room for three more lines. -/
  room : header.text.length + 37 * 3 < defaultHeaderSize
  /-- The header gives its size. -/
  hdrSize_eq : header.contents hdrSizeWord = some (decimal hdrSize)
  /-- `UTC_START`. -/
  utcStart : Text
  /-- The header gives it. -/
  utcStart_eq : header.contents utcStartWord = some utcStart
  /-- It fits in the 20 bytes that `dada_diskdb` has for it. -/
  utcStart_length : utcStart.length ≤ 19
  /-- The place in the observation is a number of 64 bits. -/
  bounded : (asciiHeaderGetUnsigned header.text obsOffsetKey).getD 0 + data.data.length < 2 ^ 64

namespace Observation

variable (x : Observation hdrSize)

/-- `OBS_OFFSET`: where the data begins. -/
def start : ℕ := (asciiHeaderGetUnsigned x.header.text obsOffsetKey).getD 0

/-- The client of `dada_dbdisk` when the header has been read. -/
def client (recorder : Recorder) (transferBytes optimalBytes : ℕ) : Client Recorder :=
  ⟨recorder, x.header.text, hdrSize, true, transferBytes, optimalBytes, false⟩

variable {x} {f : RecordedFile}

theorem header_stamps (f : RecordedFile) :
    (fileStamps f.offset f.number f.size).map Stamp.key = [obsOffsetWord, fileNumberWord, fileSizeWord] :=
  rfl

theorem printable_file (x : Observation hdrSize) (f : RecordedFile) :
    ∀ c ∈ (f.header x.header).text, Printable c := by
  refine Store.forall_text_stampAll x.printable ?_ (by decide) fun c => printable_digit
  intro y hy
  have hmem : y.key ∈ [obsOffsetWord, fileNumberWord, fileSizeWord] :=
    header_stamps f ▸ List.mem_map_of_mem hy
  exact (by decide : ∀ k ∈ [obsOffsetWord, fileNumberWord, fileSizeWord], ∀ c ∈ k.text, Printable c) _ hmem

theorem length_file (x : Observation hdrSize) (hf : f.InRange) :
    (f.header x.header).text.length < defaultHeaderSize := by
  have hlen : (f.header x.header).text.length ≤ x.header.text.length + 37 * 3 := by
    refine Store.length_stampAll (Nat.le_refl 12) fun y hy => ⟨?_, hf.stamps y hy⟩
    have hmem : y.key ∈ [obsOffsetWord, fileNumberWord, fileSizeWord] :=
      header_stamps f ▸ List.mem_map_of_mem hy
    exact (by decide : ∀ k ∈ [obsOffsetWord, fileNumberWord, fileSizeWord], k.text.length ≤ 12) _ hmem
  exact Nat.lt_of_le_of_lt hlen x.room

/-- What the header of a file holds. -/
theorem contents_file (x : Observation hdrSize) (f : RecordedFile) : (f.header x.header).contents =
    Function.update (Function.update (Function.update x.header.contents
      obsOffsetWord (some (decimal f.offset))) fileNumberWord (some (decimal f.number)))
      fileSizeWord (some (decimal f.size)) :=
  Store.contents_stampAll (x.free.free _ _ _)

/-- A number in the header of a file is read as it was written. -/
theorem getUnsigned_file {k : Word} {n : ℕ} (hn : n < 2 ^ 64)
    (h : (f.header x.header).contents k = some (decimal n)) :
    asciiHeaderGetUnsigned (f.header x.header).text k.text = some n :=
  asciiHeaderGetUnsigned_of_get hn (fun c hc => (x.printable_file f c hc).blank)
    ((Store.get_text _ k).trans h)

theorem hdrSize_file (x : Observation hdrSize) (f : RecordedFile) :
    asciiHeaderGetUnsigned (f.header x.header).text "HDR_SIZE".toList = some hdrSize := by
  refine getUnsigned_file (k := hdrSizeWord) x.hdrSize_lt ?_
  rw [contents_file, Function.update_of_ne (by decide), Function.update_of_ne (by decide),
    Function.update_of_ne (by decide), x.hdrSize_eq]

/-- A file of a recording, as `dada_diskdb` finds it. -/
def diskFile (x : Observation hdrSize) (f : RecordedFile) (hf : f.InRange) (hne : f.data ≠ [])
    (hfull : f.data.length = f.size) : DiskFile hdrSize where
  header := (f.header x.header).text
  ascii c hc := (x.printable_file f c hc).ascii
  short := Nat.lt_of_lt_of_le (x.length_file hf) x.hdrSize_le
  data := f.data
  nonempty := hne
  utcStart := x.utcStart
  obsOffset := f.offset
  hdrSize_eq := x.hdrSize_file f
  hdrSize_first := by
    rw [List.take_of_length_le (Nat.le_of_lt (x.length_file hf))]
    exact x.hdrSize_file f
  fileSize_eq := by
    rw [hfull]
    refine getUnsigned_file (k := fileSizeWord) hf.size_lt ?_
    rw [contents_file, Function.update_self]
  utcStart_eq := by
    refine (Store.get_text _ utcStartWord).trans ?_
    rw [contents_file, Function.update_of_ne (by decide), Function.update_of_ne (by decide),
      Function.update_of_ne (by decide), x.utcStart_eq]
  utcStart_length := x.utcStart_length
  obsOffset_eq := by
    refine getUnsigned_file (k := obsOffsetWord) hf.offset_lt ?_
    rw [contents_file, Function.update_of_ne (by decide), Function.update_of_ne (by decide),
      Function.update_self]

end Observation

/-! ## Record and replay -/

section Files

variable {fs : List RecordedFile} {p : ℕ}

/-- The files of a recording are full if the last one is. -/
theorem Follows.full (h : Follows p fs) (hlast : ∀ f ∈ fs.getLast?, f.data.length = f.size) :
    ∀ f ∈ fs, f.data.length = f.size := by
  induction fs generalizing p with
  | nil => simp
  | cons f fs ih =>
    obtain ⟨-, -, hthis, hrest⟩ := h
    cases fs with
    | nil => exact List.forall_mem_singleton.mpr (hlast f rfl)
    | cons g fs =>
      refine List.forall_mem_cons.mpr ⟨hthis.resolve_left (List.cons_ne_nil _ _), ih hrest fun k hk => ?_⟩
      exact hlast k (by rw [List.getLast?_cons_cons]; exact hk)

theorem Follows.nonempty (h : Follows p fs) : ∀ f ∈ fs, f.data ≠ [] := by
  induction fs generalizing p with
  | nil => simp
  | cons f fs ih => exact List.forall_mem_cons.mpr ⟨h.2.1, ih h.2.2.2⟩

/-- The last file is full if the last output is. -/
theorem last_full {outputs : List ReadOutput} (h : List.Forall₂ RecordedFile.IsOutput outputs fs)
    (hlast : ∀ o ∈ outputs.getLast?, o.taken.length = o.transferBytes) :
    ∀ f ∈ fs.getLast?, f.data.length = f.size := by
  induction h with
  | nil => simp
  | cons hthis hrest ih =>
    cases hrest with
    | nil =>
      intro f hf
      obtain rfl := Option.some.inj hf
      exact (congrArg List.length hthis.1).symm.trans ((hlast _ rfl).trans hthis.2)
    | cons => exact ih hlast

namespace Observation

variable {x : Observation hdrSize}

/-- That a file on a disk is a file of the recording. -/
structure IsFile (x : Observation hdrSize) (f : RecordedFile) (d : DiskFile hdrSize) : Prop where
  /-- It has the header. -/
  header : d.header = (f.header x.header).text
  /-- It has the data. -/
  data : d.data = f.data
  /-- It is of the same observation. -/
  utcStart : d.utcStart = x.utcStart
  /-- It has the same place. -/
  obsOffset : d.obsOffset = f.offset

theorem exists_diskFiles (hranges : ∀ f ∈ fs, f.InRange) (hne : ∀ f ∈ fs, f.data ≠ [])
    (hfull : ∀ f ∈ fs, f.data.length = f.size) :
    ∃ ds : List (DiskFile hdrSize), List.Forall₂ x.IsFile fs ds := by
  induction fs with
  | nil => exact ⟨[], .nil⟩
  | cons f fs ih =>
    rw [List.forall_mem_cons] at hranges hne hfull
    obtain ⟨ds, hds⟩ := ih hranges.2 hne.2 hfull.2
    exact ⟨x.diskFile f hranges.1 hne.1 hfull.1 :: ds, .cons ⟨rfl, rfl, rfl, rfl⟩ hds⟩

/-- The bytes of the file are those that the recorder has written. -/
theorem IsFile.content {f : RecordedFile} {d : DiskFile hdrSize} (h : x.IsFile f d) :
    d.content = f.bytes x.header hdrSize := by
  have hshort := d.short
  rw [RecordedFile.bytes, fileBytes, ← h.header, ← h.data, List.take_of_length_le, DiskFile.content]
  simp only [toBytes, List.length_append, List.length_map, List.length_replicate]
  omega

theorem content_files {ds : List (DiskFile hdrSize)} (h : List.Forall₂ x.IsFile fs ds) :
    ds.map DiskFile.content = fs.map fun f => f.bytes x.header hdrSize := by
  induction h with
  | nil => rfl
  | cons hthis _ ih => rw [List.map_cons, List.map_cons, hthis.content, ih]

theorem dataOf_files {ds : List (DiskFile hdrSize)} (h : List.Forall₂ x.IsFile fs ds) :
    dataOf ds = fs.flatMap RecordedFile.data := by
  induction h with
  | nil => rfl
  | cons hthis _ ih =>
    rw [dataOf, List.flatMap_cons, List.flatMap_cons, hthis.data]
    exact congrArg _ ih

/-- Files that follow one another are contiguous. -/
theorem continued_files {ds : List (DiskFile hdrSize)} (h : List.Forall₂ x.IsFile fs ds)
    (hfollows : Follows p fs) : Continued ds := by
  induction h generalizing p with
  | nil => exact List.isChain_nil
  | cons hthis hrest ih =>
    obtain ⟨hoffset, -, -, hnext⟩ := hfollows
    have hchain := ih hnext
    cases hrest with
    | nil => exact List.isChain_singleton _
    | cons hsecond _ =>
      refine List.isChain_cons_cons.mpr ⟨?_, hchain⟩
      rw [DiskFile.continuedBy, hthis.utcStart, hsecond.utcStart, hsecond.obsOffset, hthis.obsOffset,
        hthis.data, hoffset, hnext.1]
      simp

/-- The times of the files can be compared, whatever follows them in memory. -/
theorem plainUtc_files {ds : List (DiskFile hdrSize)} (h : List.Forall₂ x.IsFile fs ds) (garbage : Text) :
    PlainUtc garbage ds := by
  have hall : ∀ d ∈ ds, d.utcStart = x.utcStart := by
    clear garbage
    induction h with
    | nil => simp
    | cons hthis _ ih => exact List.forall_mem_cons.mpr ⟨hthis.utcStart, ih⟩
  rcases Nat.lt_or_eq_of_le x.utcStart_length with hlt | heq
  · exact .inr (.inr fun d hd => by rw [hall d hd]; exact hlt)
  · exact .inr (.inl fun d hd => by rw [hall d (List.mem_of_mem_head? hd), heq])

end Observation

end Files

/-- What is passed to a ring for an observation that has been recorded: its data, and its header, with the
place of the first byte, the number of the first file, and the length of the data. -/
structure Observation.IsReplayed (x : Observation hdrSize) (p : Passed) : Prop where
  /-- The data. -/
  data : p.data = x.data.data
  /-- The header. -/
  header : ∃ (s : Store) (number : ℕ), p.header = s.text ∧ s.first = x.header.first ∧
    s.contents = Function.update (Function.update (Function.update x.header.contents
      obsOffsetWord (some (decimal x.start))) fileNumberWord (some (decimal number)))
      fileSizeWord (some (decimal x.data.data.length))

/-- **Record and replay.** `dada_dbdisk` records an observation on reliable disks, and if the last file is
as long as it was planned, then `dada_diskdb` finds in the files that it has left one run, and passes to a
ring the data of the observation and its header, with or without whole blocks. -/
theorem Observation.replayed (x : Observation hdrSize) {disks : Disks} (h : disks.Reliable)
    (program : Dbdisk) (transferBytes optimalBytes fuel : ℕ) :
    (x.data.data.length + 1 < fuel →
      (dadaClientRead (recorder disks) fuel (x.client ⟨program, [], []⟩ transferBytes optimalBytes)
        x.data.source).isSome) ∧
    ∀ r, dadaClientRead (recorder disks) fuel (x.client ⟨program, [], []⟩ transferBytes optimalBytes)
        x.data.source = some r → r.status = 0 ∧
      ((∀ o ∈ r.outputs.getLast?, o.taken.length = o.transferBytes) → r.outputs.length ≤ 1024 →
        ∃ files : List (DiskFile hdrSize),
          r.client.context.closed.reverse = files.map DiskFile.content ∧
          ∀ (sprintf : Sprintf) (garbage : Text) (zeroCopy : Bool) (blockSize rounds : ℕ), 0 < blockSize →
            (zeroCopy = true → OnePerBlock blockSize (fileStarts files)) →
            x.data.data.length < rounds →
            ∃ p, diskdbMain files sprintf garbage zeroCopy hdrSize blockSize rounds = some (0, [p]) ∧
              x.IsReplayed p) := by
  obtain ⟨hterm, hall⟩ := readLoop_records h x.free fuel (x.client ⟨program, [], []⟩ transferBytes optimalBytes)
    x.data.source x.start (.inl rfl) rfl rfl (fun _ => by rw [x.data.left_source]; exact x.nonempty)
    (by rw [x.data.left_source]; exact x.bounded)
  refine ⟨fun hfuel => hterm ?_, fun r hr => ?_⟩
  · rw [Source.size, x.data.left_source, x.data.eod_source]
    simpa using hfuel
  obtain ⟨hstatus, fs, -, hranges, hfollows, houtputs, hdata, hclosed⟩ := hall r hr
  rw [x.data.left_source] at hdata
  refine ⟨hstatus, fun hlast hcount => ?_⟩
  have hfull : ∀ f ∈ fs, f.data.length = f.size := hfollows.full (last_full houtputs hlast)
  obtain ⟨files, hfiles⟩ := exists_diskFiles (x := x) hranges hfollows.nonempty hfull
  have hdata' : dataOf files = x.data.data := (dataOf_files hfiles).trans hdata
  refine ⟨files, ?_, fun sprintf garbage zeroCopy blockSize rounds hb hblocks hrounds => ?_⟩
  · rw [hclosed, content_files hfiles]
    rfl
  -- the first file, whose header is passed
  cases hfiles with
  | nil => exact absurd hdata.symm x.nonempty
  | @cons f d fs ds hthis hrest =>
    have hoffset : f.offset = x.start := hfollows.1
    set total : RecordedFile := ⟨f.offset, f.number, x.data.data.length, []⟩ with htotal
    have hlt : x.data.data.length < 2 ^ 64 := by
      have := x.bounded
      omega
    have hrange : f.InRange := hranges f List.mem_cons_self
    have hsizeFree : (f.header x.header).Free fileSizeWord := by
      rw [Store.Free, RecordedFile.header, Store.first_stampAll]
      exact x.free fileSizeWord (by simp)
    have hprepared : preparedHeader (d :: ds) = (total.header x.header).text := by
      have hset : asciiHeaderSet (f.header x.header).text fileSizeKey (decimal x.data.data.length) =
          ((f.header x.header).stamp ⟨fileSizeWord, by decide, x.data.data.length⟩).text :=
        @Store.text_stampAll _ [⟨fileSizeWord, by decide, x.data.data.length⟩]
          (List.forall_mem_singleton.mpr ⟨hsizeFree, hlt⟩)
      rw [preparedHeader, hdata', hthis.header, hset]
      exact congrArg Store.text (Store.stamp_again rfl)
    have hlength : hdrSize ≤ d.content.length := by
      rw [d.length_content]
      exact Nat.le_add_right _ _
    have hmain := diskdbMain_continued sprintf zeroCopy (List.cons_ne_nil d ds)
      (continued_files (.cons hthis hrest) hfollows)
      (fun g hg => by
        obtain rfl := Option.some.inj hg
        exact Nat.le_trans x.hdrSize_le hlength)
      (plainUtc_files (.cons hthis hrest) garbage) (Nat.le_refl hdrSize)
      (fun g hg => by
        obtain rfl := Option.some.inj hg
        exact hlength) hb
      (fun hpercent => by
        rw [hprepared] at hpercent
        exact (x.printable_file total _ hpercent).2 rfl)
      hblocks (show (dataOf (d :: ds)).length < rounds by rw [hdata']; exact hrounds)
    refine ⟨_, hmain, hdata', total.header x.header, f.number, hprepared, Store.first_stampAll _ _, ?_⟩
    rw [contents_file, htotal, hoffset]

/-! ## Two files -/

/-- A header that asks for files of four bytes. -/
def fourByteHeader : Store where
  first := "HEADER DADA".toList
  lines := ["HDR_SIZE 4096".toList, "UTC_START 2009-01-01-00:00:00".toList, "FILE_SIZE 4".toList]
  plain := by decide
  noData := by decide
  leads := leads_headerDada
  valued := by
    have hall : ∀ l ∈ ["HDR_SIZE 4096".toList, "UTC_START 2009-01-01-00:00:00".toList,
        "FILE_SIZE 4".toList], (lineValue l).isSome = true := by decide
    exact fun l hl _ _ => hall l hl
  single := by
    refine List.pairwise_cons.mpr ⟨fun l hl => holdsKey_apart (k := hdrSizeWord) (by decide) ?_,
      List.pairwise_cons.mpr ⟨fun l hl => holdsKey_apart (k := utcStartWord) (by decide) ?_,
        List.pairwise_singleton _ _⟩⟩
    · revert l
      decide
    · revert l
      decide

theorem length_twoFilesUtc : "2009-01-01-00:00:00".toList.length ≤ 19 := by decide

/-- Eight bytes, in two files. -/
def twoFiles : Observation 4096 where
  header := fourByteHeader
  data := eightBytes
  nonempty := by decide
  printable := by decide
  free := by decide
  hdrSize_le := Nat.le_refl _
  hdrSize_lt := by decide
  room := by decide
  hdrSize_eq := by decide +kernel
  utcStart := "2009-01-01-00:00:00".toList
  utcStart_eq := by decide +kernel
  utcStart_length := length_twoFilesUtc
  bounded := by decide +kernel

theorem replayed_twoFiles : ∃ (files : List (DiskFile 4096)) (p : Passed),
    diskdbMain files emptySprintf [] false 4096 16 9 = some (0, [p]) ∧ twoFiles.IsReplayed p := by
  have hchecked : (dadaClientRead (recorder oneDisk) 10 (twoFiles.client ⟨.init false, [], []⟩ 0 4)
      twoFiles.data.source).any (fun r => decide (∀ o ∈ r.outputs.getLast?,
        o.taken.length = o.transferBytes) && decide (r.outputs.length ≤ 1024)) = true := by
    decide +kernel
  obtain ⟨r, hr, hlast, hcount⟩ : ∃ r, dadaClientRead (recorder oneDisk) 10
      (twoFiles.client ⟨.init false, [], []⟩ 0 4) twoFiles.data.source = some r ∧
      (∀ o ∈ r.outputs.getLast?, o.taken.length = o.transferBytes) ∧ r.outputs.length ≤ 1024 := by
    simpa [Option.any_eq_true] using hchecked
  have hreliable : oneDisk.Reliable := ⟨fun _ => rfl, fun _ _ => rfl⟩
  obtain ⟨files, -, hfiles⟩ := ((twoFiles.replayed hreliable (.init false) 0 4 10).2 r hr).2 hlast hcount
  obtain ⟨p, hp⟩ := hfiles emptySprintf [] false 16 9 (by decide) (by simp) (by decide)
  exact ⟨files, p, hp⟩

end Psrdada
