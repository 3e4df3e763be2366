import Psrdada.Dbdisk.FileSize
import Psrdada.Header.Numbers

/-! # The numbers and names of files

The files of an observation are to be numbered 0, 1, 2 and so on, from the one that begins it, and no two
of them are to have one name (`Numbered`, `DistinctNames`).  Whether a file goes on where the previous one
ended is decided by comparing its offset with that of the previous file's first byte, while the client has
moved on to the byte after its last one: a file that follows a file with data gets number 0 again.
`dbdisk_numbered` says for which runs the numbers and the names are right nevertheless. -/

namespace Psrdada

open CString

namespace OpenedFile

/-- Whether a file belongs to the observation of the previous one and begins where that ended. -/
def Continues (g f : OpenedFile) : Prop := g.utcStart = f.utcStart ∧ g.start = f.start + f.written

/-- Whether a file has the UTC and the offset of another one. -/
def Resumes (g f : OpenedFile) : Prop := g.utcStart = f.utcStart ∧ g.start = f.start

instance (g f : OpenedFile) : Decidable (g.Continues f) := inferInstanceAs (Decidable (_ ∧ _))

instance (g f : OpenedFile) : Decidable (g.Resumes f) := inferInstanceAs (Decidable (_ ∧ _))

end OpenedFile

open OpenedFile

/-! ## What is meant -/

/-- Whether the files, the last one first, have the numbers that they shall have: one more than the
previous file where the observation continues, and 0 where one begins. -/
def Numbered : List OpenedFile → Prop
  | [] => True
  | [f] => f.number = 0
  | g :: f :: files =>
    g.number = (if g.Continues f then f.number + 1 else 0) ∧ Numbered (f :: files)

/-- No two files have the same name. -/
def DistinctNames (files : List OpenedFile) : Prop := files.Pairwise fun g f => g.name ≠ f.name

/-- The condition on the file `g` that is opened after `f` and older ones: if it belongs to the same
observation, it does not continue there unless `f` is empty, and otherwise does not begin again where `f`
began; the number is not the largest one; and, unless it has the UTC and the offset of `f`, no older file
has them. -/
structure OpensInStep (g f : OpenedFile) (older : List OpenedFile) : Prop where
  /-- The file continues the observation if and only if it begins where the previous file began. -/
  agrees : g.Resumes f ↔ g.Continues f
  /-- The number is not the largest one. -/
  counts : g.Resumes f → f.number + 1 < 2 ^ 32
  /-- No older file has the UTC and the offset, unless the previous one has. -/
  fresh : ¬ g.Resumes f → ∀ h ∈ older, ¬ g.Resumes h

/-- Whether every file of a run, the last one first, meets the condition. -/
def InStepFiles : List OpenedFile → Prop
  | g :: f :: older => OpensInStep g f older ∧ InStepFiles (f :: older)
  | _ => True

/-! ## What the code does -/

/-- The numbers that `file_open_function` gives. -/
def CodeNumbered : List OpenedFile → Prop
  | [] => True
  | [f] => f.number = 0
  | g :: f :: files =>
    g.number = (if g.Resumes f then (f.number + 1) % 2 ^ 32 else 0) ∧ CodeNumbered (f :: files)

/-- Every file has the name that belongs to it. -/
def Named (files : List OpenedFile) : Prop :=
  ∀ f ∈ files, f.name = fileNameOf f.utcStart f.start f.number

/-- What is remembered is the last file, if there is one. -/
def Linked (d : Dbdisk) : Prop :=
  (d.files = [] ∧ d.utcStart = []) ∨ ∃ f files, Remembers d f files

/-- A word that is scanned is not empty. -/
theorem ne_nil_of_scanWord {s w : Text} (h : scanWord s = some w) : w ≠ [] := by
  unfold scanWord at h
  rcases hs : s.dropWhile isspace with - | ⟨c, rest⟩
  · simp [hs] at h
  · have hne : s.dropWhile isspace ≠ [] := by simp [hs]
    have hc : isspace c = false := by
      have hhead := List.head_dropWhile_not isspace hne
      simpa [hs] using hhead
    rw [hs] at h
    simp only [Option.some.injEq] at h
    rw [← h, List.takeWhile_cons_of_pos (by simp [hc])]
    exact List.cons_ne_nil _ _

/-- The UTC of a file is not empty. -/
theorem utcStart_nextFile (d : Dbdisk) (header : Text) : (d.nextFile header).utcStart ≠ [] := by
  show (asciiHeaderGet header "UTC_START".toList).getD "UNKNOWN".toList ≠ []
  cases hget : asciiHeaderGet header "UTC_START".toList with
  | none => decide
  | some w =>
    unfold asciiHeaderGet at hget
    split at hget
    · simp at hget
    · exact ne_nil_of_scanWord hget

/-- The next file is numbered after the last one. -/
theorem CodeNumbered.next {d : Dbdisk} (h : CodeNumbered d.files) (hlinked : Linked d) (header : Text)
    (written : ℕ) : CodeNumbered ({ d.nextFile header with written := written } :: d.files) := by
  have hnumber : (d.nextFile header).number =
      if (d.nextFile header).utcStart ≠ d.utcStart ∨ (d.nextFile header).start ≠ d.obsOffset then 0
      else (d.fileNumber + 1) % 2 ^ 32 := rfl
  rcases hlinked with ⟨hnil, hutc⟩ | ⟨f, files, hf⟩
  · rw [hnil]
    show (d.nextFile header).number = 0
    rw [hnumber, hutc, if_pos (.inl (utcStart_nextFile d header))]
  · have hfiles := hf.files
    rw [hfiles] at h ⊢
    refine ⟨?_, h⟩
    show (d.nextFile header).number = _
    rw [hnumber, hf.utcStart, hf.obsOffset, hf.fileNumber]
    by_cases hres : (d.nextFile header).utcStart = f.utcStart ∧ (d.nextFile header).start = f.start
    · rw [if_neg (by simp [hres]), if_pos (by exact hres)]
    · rw [if_pos (by rwa [ne_eq, ne_eq, ← not_and_or]), if_neg (by exact hres)]

/-- The record of a run: numbers as the code gives them, and names. -/
structure Record (d : Dbdisk) : Prop where
  /-- The numbers. -/
  numbered : CodeNumbered d.files
  /-- The names. -/
  named : Named d.files

variable {disks : Disks} {zeroCopy : Bool}

variable (disks) (zeroCopy) in
/-- One transfer keeps the record, and what is remembered unless it fails. -/
theorem dbdisk_record {c : Client Dbdisk} (h : Record c.context) (hlinked : Linked c.context)
    (s : Source) :
    Record (dadaClientTransfer (dbdisk disks zeroCopy) c s).client.context ∧
      (0 ≤ (dadaClientTransfer (dbdisk disks zeroCopy) c s).count →
        Linked (dadaClientTransfer (dbdisk disks zeroCopy) c s).client.context) := by
  rcases dbdisk_transfer disks zeroCopy c s with ⟨hneg, hfiles⟩ | ⟨written, hf, -⟩
  · refine ⟨⟨hfiles ▸ h.numbered, ?_⟩, fun hpos => absurd hpos (Int.not_le.mpr hneg)⟩
    intro f hf
    rw [hfiles] at hf
    exact h.named f hf
  · refine ⟨⟨?_, ?_⟩, fun _ => .inr ⟨_, _, hf⟩⟩
    · rw [hf.files]
      exact h.numbered.next hlinked c.header written
    · intro f hmem
      rw [hf.files] at hmem
      rcases List.mem_cons.mp hmem with rfl | hmem
      · rfl
      · exact h.named f hmem

variable (disks) (zeroCopy) in
/-- So do all transfers of an observation. -/
theorem readLoop_record (fuel : ℕ) {c : Client Dbdisk} (h : Record c.context) (hlinked : Linked c.context)
    (s : Source) (obsOffset : ℕ) {r : ReadResult Dbdisk}
    (hr : readLoop (dbdisk disks zeroCopy) fuel c s obsOffset = some r) :
    Record r.client.context ∧ (¬ r.status < 0 → Linked r.client.context) := by
  induction fuel generalizing c s obsOffset r with
  | zero => simp [readLoop] at hr
  | succ fuel ih =>
    obtain ⟨-, rfl⟩ | ⟨-, t, ht, hcase⟩ := readLoop_cases hr
    · exact ⟨h, fun _ => hlinked⟩
    · have hstep := dbdisk_record disks zeroCopy
        (c := { c with header := asciiHeaderSet c.header obsOffsetKey (decimal obsOffset) }) h hlinked s
      rw [ht] at hstep
      obtain ⟨-, rfl⟩ | ⟨hpos, rest, hrest, rfl⟩ := hcase
      · exact ⟨hstep.1, fun hneg => absurd minus_one_neg hneg⟩
      · exact ih (r := rest) hstep.1 (hstep.2 hpos) _ _ hrest

/-- And so does a whole run of the program. -/
theorem dbdiskMain_record (fuel : ℕ) {c c' : Client Dbdisk} {observations : List (Text × DataStream)}
    (h : Record c.context) (hlinked : Linked c.context)
    (hrun : dbdiskMain disks zeroCopy fuel c observations = some c') : Record c'.context := by
  induction observations generalizing c with
  | nil =>
    obtain rfl := Option.some.inj hrun
    exact h
  | cons observation observations ih =>
    obtain ⟨header, d⟩ := observation
    rw [dbdiskMain] at hrun
    obtain ⟨r, hr, hnext⟩ := Option.bind_eq_some_iff.mp hrun
    have hloop := readLoop_record disks zeroCopy fuel
      (c := { c with header := header }) h hlinked _ _ hr
    split at hnext
    · obtain rfl := Option.some.inj hnext
      exact hloop.1
    · rename_i hstatus
      exact ih hloop.1 (hloop.2 hstatus) hnext

/-! ## Names -/

/-- The part of a text behind the last occurrence of a character. -/
theorem append_cons_inj_last {a a' b b' : Text} {c : Char} (hb : c ∉ b) (hb' : c ∉ b')
    (h : a ++ c :: b = a' ++ c :: b') : a = a' ∧ b = b' := by
  rcases List.append_eq_append_iff.mp h with ⟨t, rfl, ht⟩ | ⟨t, rfl, ht⟩
  · cases t with
    | nil => exact ⟨(List.append_nil a).symm, (List.cons_eq_cons.mp ht).2⟩
    | cons d t =>
      obtain ⟨-, rfl⟩ := List.cons_eq_cons.mp ht
      exact absurd (List.mem_append_right t List.mem_cons_self) hb
  · cases t with
    | nil => exact ⟨List.append_nil a', (List.cons_eq_cons.mp ht).2.symm⟩
    | cons d t =>
      obtain ⟨-, rfl⟩ := List.cons_eq_cons.mp ht
      exact absurd (List.mem_append_right t List.mem_cons_self) hb'

/-- A number in some width has digits only. -/
theorem isDigit_padZeros (width n : ℕ) : ∀ c ∈ padZeros width n, c.isDigit = true := by
  intro c hc
  rcases List.mem_append.mp hc with hc | hc
  · rw [List.eq_of_mem_replicate hc]
    decide
  · exact isDigit_decimal n c hc

/-- Leading zeros do not count. -/
theorem digitsValue_padZeros (width n : ℕ) : digitsValue (padZeros width n) = n := by
  have hzeros (k : ℕ) (t : Text) : digitsValue (List.replicate k '0' ++ t) = digitsValue t := by
    induction k with
    | zero => rfl
    | succ k ih =>
      rw [List.replicate_succ, List.cons_append]
      exact ih
  rw [padZeros, hzeros, digitsValue_decimal]

/-- A name tells the UTC, the offset and the number of its file. -/
theorem fileNameOf_injective {utc utc' : Text} {start start' number number' : ℕ}
    (h : fileNameOf utc start number = fileNameOf utc' start' number') :
    utc = utc' ∧ start = start' ∧ number = number' := by
  have hdigit {c : Char} (hc : c.isDigit = false) (width n : ℕ) : c ∉ padZeros width n := by
    intro hmem
    simp [isDigit_padZeros width n c hmem] at hc
  have hunderscore (start number : ℕ) :
      '_' ∉ padZeros 16 start ++ '.' :: (padZeros 6 number ++ ".dada".toList) := by
    simp only [List.mem_append, List.mem_cons, not_or]
    exact ⟨hdigit (by decide) 16 start, by decide, hdigit (by decide) 6 number, by decide⟩
  simp only [fileNameOf, List.append_assoc, List.cons_append] at h
  obtain ⟨rfl, hrest⟩ := append_cons_inj_last (hunderscore start number) (hunderscore start' number') h
  rw [← List.cons_append, ← List.cons_append, ← List.append_assoc, ← List.append_assoc] at hrest
  -- the dot behind the offset is the last one
  obtain ⟨hstart, hnumber⟩ := append_cons_inj_last (hdigit (by decide) 6 number)
    (hdigit (by decide) 6 number') (List.append_cancel_right hrest)
  have hvalue := congrArg digitsValue hstart
  have hvalue' := congrArg digitsValue hnumber
  rw [digitsValue_padZeros, digitsValue_padZeros] at hvalue hvalue'
  exact ⟨rfl, hvalue, hvalue'⟩

/-! ## Runs whose files are opened in step -/

/-- The numbers are right where every file is opened in step. -/
theorem CodeNumbered.numbered {files : List OpenedFile} (h : CodeNumbered files)
    (hstep : InStepFiles files) : Numbered files := by
  induction files with
  | nil => trivial
  | cons g files ih =>
    cases files with
    | nil => exact h
    | cons f older =>
      obtain ⟨hnumber, hrest⟩ := h
      obtain ⟨hg, hsteps⟩ := hstep
      refine ⟨?_, ih hrest hsteps⟩
      by_cases hres : g.Resumes f
      · rw [hnumber, if_pos hres, if_pos (hg.agrees.mp hres), Nat.mod_eq_of_lt (hg.counts hres)]
      · rw [hnumber, if_neg hres, if_neg fun hc => hres (hg.agrees.mpr hc)]

/-- Of the files with one UTC and one offset, the later one has the larger number. -/
theorem CodeNumbered.lt {g : OpenedFile} {files : List OpenedFile} (h : CodeNumbered (g :: files))
    (hstep : InStepFiles (g :: files)) {f : OpenedFile} (hf : f ∈ files) (hres : g.Resumes f) :
    f.number < g.number := by
  induction files generalizing g with
  | nil => exact absurd hf List.not_mem_nil
  | cons f' older ih =>
    obtain ⟨hnumber, hrest⟩ := h
    obtain ⟨hg, hsteps⟩ := hstep
    by_cases hres' : g.Resumes f'
    · rw [if_pos hres', Nat.mod_eq_of_lt (hg.counts hres')] at hnumber
      rcases List.mem_cons.mp hf with rfl | hf
      · omega
      · -- the file before has the same UTC and offset
        have hlt := ih hrest hsteps hf ⟨hres'.1.symm.trans hres.1, hres'.2.symm.trans hres.2⟩
        omega
    · rcases List.mem_cons.mp hf with rfl | hf
      · exact absurd hres hres'
      · exact absurd hres (hg.fresh hres' f hf)

/-- So no two files have one name. -/
theorem CodeNumbered.distinctNames {files : List OpenedFile} (h : CodeNumbered files)
    (hnamed : Named files) (hstep : InStepFiles files) : DistinctNames files := by
  induction files with
  | nil => exact List.Pairwise.nil
  | cons g files ih =>
    have hrest : CodeNumbered files ∧ InStepFiles files := by
      cases files with
      | nil => exact ⟨trivial, trivial⟩
      | cons f older => exact ⟨h.2, hstep.2⟩
    refine List.Pairwise.cons (fun f hf heq => ?_)
      (ih hrest.1 (fun f hf => hnamed f (List.mem_cons_of_mem _ hf)) hrest.2)
    rw [hnamed g List.mem_cons_self, hnamed f (List.mem_cons_of_mem _ hf)] at heq
    obtain ⟨hutc, hstart, hnumber⟩ := fileNameOf_injective heq
    have hlt := h.lt hstep hf ⟨hutc, hstart⟩
    omega

/-- Four bytes in one sub-block. -/
def fourBytes : DataStream where
  bufsz := 4
  bufsz_pos := Nat.succ_pos _
  full := []
  full_length := by simp
  last := [1, 2, 3, 4]
  last_length := Nat.le_refl _

/-- The program before its first observation. -/
def idleDbdisk : Client Dbdisk := ⟨.init false, [], 4096, false, 0, 4, false⟩

/-- The files of a run over observations of four bytes. -/
def filesOf (headers : List String) : Option (List OpenedFile) :=
  (dbdiskMain oneDisk false 4 idleDbdisk (headers.map fun h => (h.toList, fourBytes))).map
    fun c => c.context.files

end Psrdada
