import Psrdada.Dbdisk.Dbdisk

/-! # The size of a file

A file is to end on a multiple of the resolution, as near to the requested size as there is one.
`Rounded` says what that means for one file, `rounded_iff` for which requests the arithmetic of
`file_open_function` gives it, and `dbdisk_endsOnMultiple` what it means for an observation that is split
into files. -/

namespace Psrdada

open CString

namespace OpenedFile

/-- The sums of a request fit in 64 bits, and there is a multiple. -/
structure InRange (f : OpenedFile) : Prop where
  /-- A size is asked for. -/
  request_pos : 0 < f.request
  /-- The byte multiple is positive. -/
  multiple_pos : 0 < f.multiple
  /-- No sum is too large. -/
  sum_lt : f.start + f.request + f.multiple < 2 ^ 64

/-- How far the requested end is past a multiple. -/
def gap (f : OpenedFile) : ℕ := (f.start + f.request) % f.multiple

/-- What the size of a file shall be. -/
structure Rounded (f : OpenedFile) : Prop where
  /-- The file is not empty. -/
  size_pos : 0 < f.size
  /-- It ends on a multiple. -/
  aligned : f.multiple ∣ f.start + f.size
  /-- It is longer than requested by at most one multiple. -/
  not_longer : f.size ≤ f.request + f.multiple
  /-- It is shorter than requested by at most one multiple. -/
  not_shorter : f.request ≤ f.size + f.multiple
  /-- Nothing is subtracted that is not there. -/
  exact : f.gap ≤ f.request

/-- The requests that the arithmetic rounds: the previous multiple lies in the file, or it is the file's
start and the next one is nearer. -/
def Roundable (f : OpenedFile) : Prop :=
  f.gap < f.request ∨ f.gap = f.request ∧ f.multiple / 2 < f.gap

end OpenedFile

/-- The size that is chosen, where nothing wraps around. -/
theorem roundFileSize_eq {obs size multiple : ℕ} (hfit : obs + size + multiple < 2 ^ 64)
    (hgap : (obs + size) % multiple ≤ size) :
    roundFileSize obs size multiple =
      if (obs + size) % multiple > multiple / 2 then size - (obs + size) % multiple + multiple
      else size - (obs + size) % multiple := by
  have hsum : (obs + size) % 2 ^ 64 = obs + size := Nat.mod_eq_of_lt (by omega)
  have hshrunk : (size + 2 ^ 64 - (obs + size) % multiple) % 2 ^ 64 = size - (obs + size) % multiple := by
    have hsplit : size + 2 ^ 64 - (obs + size) % multiple =
        size - (obs + size) % multiple + 2 ^ 64 := by omega
    rw [hsplit, Nat.add_mod_right, Nat.mod_eq_of_lt (by omega)]
  unfold roundFileSize
  simp only [hsum, hshrunk]
  split
  · exact Nat.mod_eq_of_lt (by omega)
  · rfl

/-- The end is a multiple before it is rounded up, and after. -/
theorem dvd_roundFileSize {obs size multiple : ℕ} (hfit : obs + size + multiple < 2 ^ 64)
    (hgap : (obs + size) % multiple ≤ size) : multiple ∣ obs + roundFileSize obs size multiple := by
  have hdvd : multiple ∣ obs + (size - (obs + size) % multiple) := by
    rw [← Nat.add_sub_assoc hgap]
    exact Nat.dvd_sub_mod _
  rw [roundFileSize_eq hfit hgap]
  split
  · rw [← Nat.add_assoc]
    exact Nat.dvd_add hdvd (Nat.dvd_refl _)
  · exact hdvd

section

variable {f : OpenedFile} (hsize : f.size = roundFileSize f.start f.request f.multiple)
include hsize

theorem OpenedFile.InRange.size_eq (h : f.InRange) (hgap : f.gap ≤ f.request) :
    f.size = if f.gap > f.multiple / 2 then f.request - f.gap + f.multiple else f.request - f.gap :=
  hsize.trans (roundFileSize_eq h.sum_lt hgap)

/-- A file whose size was chosen has the size it shall have if and only if the request can be rounded. -/
theorem OpenedFile.InRange.rounded_iff (h : f.InRange) : f.Rounded ↔ f.Roundable := by
  have hlt : f.gap < f.multiple := Nat.mod_lt _ h.multiple_pos
  constructor
  · intro hr
    have hpos := hr.size_pos
    rw [h.size_eq hsize hr.exact] at hpos
    rcases Nat.lt_or_eq_of_le hr.exact with hlt | heq
    · exact .inl hlt
    · refine .inr ⟨heq, ?_⟩
      by_contra hhalf
      rw [if_neg hhalf, heq, Nat.sub_self] at hpos
      exact Nat.lt_irrefl 0 hpos
  · intro hr
    have hexact : f.gap ≤ f.request := by
      rcases hr with hr | ⟨hr, -⟩
      · exact Nat.le_of_lt hr
      · exact Nat.le_of_eq hr
    have hdvd := dvd_roundFileSize h.sum_lt hexact
    rw [← hsize] at hdvd
    unfold OpenedFile.Roundable at hr
    refine ⟨?_, hdvd, ?_, ?_, hexact⟩
    all_goals
      rw [h.size_eq hsize hexact]
      split
      all_goals omega

end

/-! ## An observation that is split into files -/

/-- Whether the disks take all that they are given. -/
structure Disks.Reliable (disks : Disks) : Prop where
  /-- Every file is opened. -/
  opens : ∀ n, (disks.opens n).isSome
  /-- Every block of data is written. -/
  writes : ∀ n size, (disks.writes n size).1 = size

variable {disks : Disks}

/-- On reliable disks, the functions of a client that is not told to quit consume everything. -/
def dbdiskConsumer (disks : Disks) (h : disks.Reliable) : Consumer Dbdisk where
  openFunction c :=
    let opened := Dbdisk.fileOpenFunction disks c
    (opened.1, { opened.2 with quit := false })
  ioFunction c _ dataSize := Dbdisk.fileWriteFunction disks c dataSize
  ioBlockFunction := none
  closeFunction := Dbdisk.fileCloseFunction
  opens c := by
    unfold Dbdisk.fileOpenFunction
    simp only []
    cases hopen : disks.opens c.context.asked with
    | none => exact absurd (h.opens c.context.asked) (by simp [hopen])
    | some answer => exact Int.le_refl 0
  stays _ := rfl
  consumes c _ n := h.writes _ n
  keepsSize _ _ _ := rfl
  byBytes := rfl
  closes _ _ := Int.le_refl 0

/-- A transfer to reliable disks writes the file that it opens, up to the end of the data or to the size
that was chosen. -/
theorem dbdisk_delivers (h : disks.Reliable) {c : Client Dbdisk} (hquit : c.quit = false) {s : Source}
    (heod : s.eod = false) : Delivers c s (dadaClientTransfer (dbdisk disks false) c s) := by
  have hopen : (Dbdisk.fileOpenFunction disks c).2 =
      { (Dbdisk.fileOpenFunction disks c).2 with quit := false } := by
    rcases fileOpenFunction_cases disks c with ⟨hneg, -⟩ | ⟨-, -, -, hq⟩
    · exact absurd ((dbdiskConsumer disks h).opens c) (Int.not_le.mpr hneg)
    · rw [← hquit, ← hq]
  have hstep : (dbdisk disks false).openFunction c = (dbdiskConsumer disks h).openFunction c :=
    Prod.ext rfl hopen
  have hsame : dadaClientTransfer (dbdisk disks false) c s =
      dadaClientTransfer (dbdiskConsumer disks h).toFunctions c s :=
    dadaClientTransfer_congr hstep rfl rfl rfl rfl s
  rw [hsame]
  exact dadaClientTransfer_consumer (dbdiskConsumer disks h) c heod

/-- The functions of a client on reliable disks. -/
def dbdiskTarget (disks : Disks) (h : disks.Reliable) : Target Dbdisk where
  toFunctions := dbdisk disks false
  bounded c _ n := Int.le_of_eq (h.writes c.context.blocks n)
  byBytes := rfl

theorem dbdiskTarget_stays (h : disks.Reliable) :
    Stays (dbdiskTarget disks h).toFunctions (fun c => c.quit = false) where
  header _ _ hq := hq
  opens c hq := by
    rcases fileOpenFunction_cases disks c with ⟨hneg, -⟩ | ⟨-, -, -, hsame⟩
    · exact absurd ((dbdiskConsumer disks h).opens c) (Int.not_le.mpr hneg)
    · exact hsame.trans hq
  optimal _ _ hq := hq
  opened c hq := by
    rcases fileOpenFunction_cases disks c with ⟨hneg, -⟩ | ⟨-, -, -, hsame⟩
    · exact absurd ((dbdiskConsumer disks h).opens c) (Int.not_le.mpr hneg)
    · exact hsame.trans hq
  written _ _ _ hq := hq
  closed _ _ hq := hq

/-- A transfer asks for the size that `open_function` has set. -/
theorem dadaClientTransfer_transferBytes {κ : Type} (F : Functions κ) (c : Client κ) (s : Source) :
    (dadaClientTransfer F c s).output.transferBytes = (F.openFunction c).2.transferBytes := by
  unfold dadaClientTransfer
  simp only []
  repeat' split
  all_goals rfl

/-- Every file but the newest one ends on a multiple. -/
def EndsOnMultiple (files : List OpenedFile) : Prop :=
  ∀ f ∈ files.tail, f.multiple ∣ f.start + f.written

/-- The transfers of an observation: the files that are opened, and where they end. -/
theorem readLoop_endsOnMultiple (h : disks.Reliable) (fuel : ℕ) {c : Client Dbdisk}
    (hquit : c.quit = false) (s : Source) (obsOffset : ℕ) {r : ReadResult Dbdisk}
    (hr : readLoop (dbdisk disks false) fuel c s obsOffset = some r) :
    ∃ files, r.client.context.files = files ++ c.context.files ∧ (s.eod = true → files = []) ∧
      ((∀ f ∈ files, f.InRange ∧ f.Roundable) → EndsOnMultiple files) := by
  induction fuel generalizing c s obsOffset r with
  | zero => simp [readLoop] at hr
  | succ fuel ih =>
    obtain ⟨-, rfl⟩ | ⟨heod, t, ht, hcase⟩ := readLoop_cases hr
    · exact ⟨[], rfl, fun _ => rfl, fun _ f hf => absurd hf List.not_mem_nil⟩
    · have hdelivers := dbdisk_delivers h
        (c := { c with header := asciiHeaderSet c.header obsOffsetKey (decimal obsOffset) }) hquit heod
      have htransfer := dbdisk_transfer disks false
        { c with header := asciiHeaderSet c.header obsOffsetKey (decimal obsOffset) } s
      have hsize := dadaClientTransfer_transferBytes (dbdisk disks false)
        { c with header := asciiHeaderSet c.header obsOffsetKey (decimal obsOffset) } s
      have hstay := dadaClientTransfer_stays (dbdiskTarget disks h) (dbdiskTarget_stays h)
        (c := { c with header := asciiHeaderSet c.header obsOffsetKey (decimal obsOffset) }) hquit heod
      rw [show (dbdiskTarget disks h).toFunctions = dbdisk disks false from rfl] at hstay
      rw [ht] at hdelivers htransfer hsize hstay
      have hcount : 0 ≤ t.count := by
        rw [hdelivers.count]
        exact Int.natCast_nonneg _
      obtain ⟨hneg, -⟩ | ⟨-, rest, hrest, rfl⟩ := hcase
      · omega
      obtain ⟨hneg, -⟩ | ⟨written, hfile, hwritten⟩ := htransfer
      · omega
      obtain ⟨files, hfiles, hnil, hends⟩ := ih (hstay hcount).1 t.source _ hrest
      refine ⟨files ++ [{ c.context.nextFile (asciiHeaderSet c.header obsOffsetKey (decimal obsOffset)) with
        written := written }], ?_, fun h => by simp [heod] at h, fun hall => ?_⟩
      · show rest.client.context.files = _
        rw [hfiles, hfile.files, List.append_assoc]
        rfl
      · intro f hf
        cases files with
        | nil => exact absurd hf List.not_mem_nil
        | cons newest files =>
          rw [List.cons_append, List.tail_cons, List.mem_append, List.mem_singleton] at hf
          rcases hf with hf | rfl
          · exact hends (fun g hg => hall g (List.mem_append_left _ hg)) f hf
          · -- the data has not ended with this file, so it has the size that was chosen
            obtain ⟨hrange, hround⟩ := hall _ (List.mem_append_right _ (List.mem_singleton.mpr rfl))
            have hlong : t.source.eod ≠ true := fun h => absurd (hnil h) (List.cons_ne_nil _ _)
            have hfull := hdelivers.full.resolve_left hlong
            have hopened : (dbdisk disks false).openFunction = Dbdisk.fileOpenFunction disks := rfl
            rw [hopened] at hsize
            rcases fileOpenFunction_cases disks
              { c with header := asciiHeaderSet c.header obsOffsetKey (decimal obsOffset) } with
              ⟨hneg, -⟩ | ⟨-, -, hbytes, -⟩
            · exact absurd ((dbdiskConsumer disks h).opens _) (Int.not_le.mpr hneg)
            · have hlen : written = (c.context.nextFile
                  (asciiHeaderSet c.header obsOffsetKey (decimal obsOffset))).size := by
                have := hwritten hcount
                rw [hdelivers.count, hfull, hsize, hbytes] at this
                exact Int.ofNat_inj.mp this
              have haligned := (hrange.rounded_iff rfl).mpr hround
              show _ ∣ _ + written
              rw [hlen]
              exact haligned.aligned

/-- One disk that takes everything. -/
def oneDisk : Disks := ⟨fun _ => some ("/data".toList, 8), fun _ size => (size, true)⟩

/-- A client whose header asks for a number of bytes, in multiples of four. -/
def fileClient (header : String) : Client Dbdisk :=
  ⟨.init false, header.toList, 4096, false, 0, 4, false⟩

theorem inRange_nextFile {header : String} (start request : ℕ)
    (h : (((Dbdisk.init false).nextFile header.toList).start,
      ((Dbdisk.init false).nextFile header.toList).request,
      ((Dbdisk.init false).nextFile header.toList).multiple) = (start, request, 4))
    (hpos : 0 < request) (hlt : start + request + 4 < 2 ^ 64) :
    ((Dbdisk.init false).nextFile header.toList).InRange := by
  simp only [Prod.mk.injEq] at h
  obtain ⟨hs, hr, hm⟩ := h
  exact ⟨hr ▸ hpos, hm ▸ Nat.succ_pos 3, by rw [hs, hr, hm]; exact hlt⟩

end Psrdada
