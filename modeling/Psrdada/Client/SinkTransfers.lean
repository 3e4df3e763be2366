import Psrdada.Client.Sink

/-! # A transfer through the writing end

What a writer leaves behind when it writes a transfer byte by byte, or block by block with at most one
short block at the end: the bytes that have been handed over and those in the open sub-block are the data
(`Writing`, `Holding`), and closing the ring ends a transfer of all of it. -/

namespace Psrdada

namespace Sink

/-- No transfer is in progress, and the ring is not locked. -/
structure Idle (s : Sink) (before : List (List UInt8)) : Prop where
  /-- The ring is not locked. -/
  state : s.state = .viewer
  /-- It is not open. -/
  rdwrt : s.rdwrt = .closed
  /-- No block is open. -/
  opened : s.opened = false
  /-- Nothing has been handed over. -/
  filled : s.filled = []
  /-- The transfers that have ended. -/
  transfers : s.transfers = before

/-- A transfer is in progress, of which `data` has been written; it begins with its first byte. -/
structure Writing (s : Sink) (before : List (List UInt8)) (data : List UInt8) : Prop where
  /-- The ring is open. -/
  rdwrt : s.rdwrt = .W
  /-- No block is open for direct access. -/
  opened : s.opened = false
  /-- The transfers that have ended. -/
  transfers : s.transfers = before
  /-- The data is what has been handed over and what is in the open sub-block. -/
  written : s.filled ++ s.contents s.bytes = data
  /-- Bytes are counted for an open sub-block only, and it has not been handed over. -/
  current : s.curbuf = none ∧ s.bytes = 0 ∨
    s.curbuf ≠ none ∧ s.markedFilled = false ∧ s.state = .writing
  /-- Start-of-data is raised with the first byte. -/
  state : s.state = .wchange ∧ data = [] ∨ s.state = .writing ∧ data ≠ []

/-- The sub-block that is written to has space. -/
structure Filling (s : Sink) (before : List (List UInt8)) (data : List UInt8) : Prop where
  /-- The ring is open. -/
  rdwrt : s.rdwrt = .W
  /-- No block is open for direct access. -/
  opened : s.opened = false
  /-- The transfers that have ended. -/
  transfers : s.transfers = before
  /-- The data is what has been handed over and what is in the open sub-block. -/
  written : s.filled ++ s.contents s.bytes = data
  /-- A sub-block is open. -/
  current : s.curbuf ≠ none
  /-- It has not been handed over. -/
  unmarked : s.markedFilled = false
  /-- The transfer has begun. -/
  state : s.state = .writing
  /-- There is space. -/
  space : s.bytes < s.bufsz

/-- A block is open for direct access, with `chunk` at its start, in a transfer of which `data` has been
handed over. -/
structure Holding (s : Sink) (before : List (List UInt8)) (data chunk : List UInt8) : Prop where
  /-- The ring is open. -/
  rdwrt : s.rdwrt = .W
  /-- The block is open. -/
  opened : s.opened = true
  /-- The transfers that have ended. -/
  transfers : s.transfers = before
  /-- What has been handed over. -/
  filled : s.filled = data
  /-- There is a block. -/
  current : s.curbuf ≠ none
  /-- What it holds. -/
  chunk : s.contents chunk.length = chunk
  /-- It has not been handed over. -/
  unmarked : s.markedFilled = false
  /-- No bytes are counted yet. -/
  bytes : s.bytes = 0
  /-- The transfer has begun. -/
  state : s.state = .writing

/-- A transfer has ended, and the ring is still open. -/
structure Ended (s : Sink) (before : List (List UInt8)) : Prop where
  /-- The ring is open. -/
  rdwrt : s.rdwrt = .W
  /-- No block is open. -/
  opened : s.opened = false
  /-- Nothing has been handed over since. -/
  filled : s.filled = []
  /-- The transfer has ended. -/
  state : s.state = .writer
  /-- The transfers that have ended. -/
  transfers : s.transfers = before

variable {s : Sink} {before : List (List UInt8)} {data chunk : List UInt8}

/-! ## Opening and closing -/

theorem Idle.ipcioOpen (h : s.Idle before) :
    ∃ s', s.ipcioOpen = some s' ∧ s'.Writing before [] ∧ s'.curbuf = none := by
  refine ⟨_, if_pos h.state, ⟨rfl, h.opened, h.transfers, ?_, .inl ⟨rfl, rfl⟩, .inl ⟨rfl, rfl⟩⟩, rfl⟩
  simp only [contents, h.filled, List.append_nil]

/-- Closing the ring ends the transfer with all its data. -/
theorem Writing.ipcioClose (h : s.Writing before data) (hne : data ≠ []) :
    ∃ s', s.ipcioClose = some (0, s') ∧ s'.Idle (before ++ [data]) := by
  have hstate : s.state = .writing := (h.state.resolve_left fun hnil => hne hnil.2).1
  have hclosed : closeOpened 2 s = some s := by
    rw [closeOpened, if_neg (by rw [h.opened]; exact Bool.false_ne_true)]
  unfold Sink.ipcioClose
  rw [if_pos h.rdwrt, if_pos hstate, hclosed]
  simp only [enableEod, if_pos hstate, markFilled]
  refine ⟨_, rfl, rfl, rfl, h.opened, rfl, ?_⟩
  rw [← h.written, ← h.transfers]
  rfl

/-- Without any data there is no transfer. -/
theorem Writing.ipcioClose_nil (h : s.Writing before []) :
    ∃ s', s.ipcioClose = some (0, s') ∧ s'.Idle before := by
  have hstate : s.state = .wchange := (h.state.resolve_right fun hne => hne.2 rfl).1
  unfold Sink.ipcioClose
  rw [if_pos h.rdwrt, if_neg (by rw [hstate]; exact SinkState.noConfusion)]
  refine ⟨_, congrArg some (if_neg ?_), rfl, rfl, h.opened, ?_, h.transfers⟩
  · rw [hstate]
    exact SinkState.noConfusion
  · exact (List.append_eq_nil_iff.mp h.written).1

/-- A transfer that has ended is left as it is. -/
theorem Ended.ipcioClose (h : s.Ended before) :
    ∃ s', s.ipcioClose = some (0, s') ∧ s'.Idle before := by
  unfold Sink.ipcioClose
  rw [if_pos h.rdwrt, if_neg (by rw [h.state]; exact SinkState.noConfusion)]
  refine ⟨_, congrArg some (if_neg ?_), rfl, rfl, h.opened, h.filled, h.transfers⟩
  rw [h.state]
  exact SinkState.noConfusion

/-- The ring stays as large as it is. -/
theorem size_ipcioOpen {s' : Sink} (h : s.ipcioOpen = some s') : s'.bufsz = s.bufsz ∧ s'.nbufs = s.nbufs := by
  unfold Sink.ipcioOpen at h
  split at h
  · obtain rfl := Option.some.inj h
    exact ⟨rfl, rfl⟩
  · exact absurd h (Option.some_ne_none _).symm

/-! ## Writing bytes -/

/-- A full sub-block is handed over. -/
theorem Writing.flushFull (h : s.Writing before data) :
    ∃ s', s.flushFull = some s' ∧ s'.Writing before data := by
  unfold Sink.flushFull
  by_cases hfull : s.bytes = s.bufsz
  · have hpos := s.bufsz_pos
    obtain ⟨-, hunmarked, hstate⟩ := h.current.resolve_left fun hnone => by omega
    have hmark : s.markFilled s.bytes = some { s with filled := s.filled ++ s.contents s.bytes } := by
      simp only [markFilled, hstate]
      rw [if_neg (by omega)]
    rw [if_pos hfull, if_neg (by rw [hunmarked]; exact Bool.false_ne_true), hmark]
    refine ⟨_, rfl, h.rdwrt, h.opened, h.transfers, ?_, .inl ⟨rfl, rfl⟩, h.state⟩
    rw [← h.written]
    exact List.append_nil _
  · rw [if_neg hfull]
    exact ⟨s, rfl, h⟩

/-- There is a sub-block to write to. -/
theorem Writing.currentWrite (h : s.Writing before data) (hspace : s.bytes < s.bufsz) :
    ∃ s', s.currentWrite = some s' ∧ s'.Filling before data := by
  unfold Sink.currentWrite
  rcases hcur : s.curbuf with - | block
  · have hdata : s.filled = data := by
      rw [← h.written, contents, hcur, List.append_nil]
    have hfresh (b : Memory UInt8) : s.filled ++ b.slice 0 0 = data := by
      rw [hdata]
      exact List.append_nil _
    rcases h.state with ⟨hstate, -⟩ | ⟨hstate, -⟩
    · simp only [getNextWrite, hstate]
      exact ⟨_, rfl, h.rdwrt, h.opened, h.transfers, hfresh _, Option.some_ne_none _, rfl, rfl, s.bufsz_pos⟩
    · simp only [getNextWrite, hstate]
      exact ⟨_, rfl, h.rdwrt, h.opened, h.transfers, hfresh _, Option.some_ne_none _, rfl, rfl, s.bufsz_pos⟩
  · have hne : s.curbuf ≠ none := by
      rw [hcur]
      exact Option.some_ne_none _
    obtain ⟨-, hunmarked, hstate⟩ := h.current.resolve_left fun hnone => hne hnone.1
    exact ⟨s, rfl, h.rdwrt, h.opened, h.transfers, h.written, hne, hunmarked, hstate, hspace⟩

/-- What there is space for is appended. -/
theorem Filling.fill (h : s.Filling before data) {rest : List UInt8} (hrest : rest ≠ []) :
    (s.fill rest).Writing before (data ++ rest.take (s.bufsz - s.bytes)) := by
  obtain ⟨block, hblock⟩ := Option.ne_none_iff_exists'.mp h.current
  have hspace := h.space
  have hpos := List.length_pos_iff.mpr hrest
  have hlen : (rest.take (s.bufsz - s.bytes)).length = min (s.bufsz - s.bytes) rest.length :=
    List.length_take
  have hcontents : (s.fill rest).contents (s.fill rest).bytes =
      s.contents s.bytes ++ rest.take (s.bufsz - s.bytes) := by
    simp only [contents, Sink.fill, hblock, Option.map_some]
    rw [Memory.slice_add, Memory.slice_copy_of_disjoint block _ (.inl (by omega)), ← hlen, Nat.zero_add,
      Memory.slice_copy_self]
  refine ⟨h.rdwrt, h.opened, h.transfers, ?_, .inr ⟨?_, h.unmarked, h.state⟩, .inr ⟨h.state, ?_⟩⟩
  · rw [hcontents, ← h.written, List.append_assoc]
    rfl
  · simp only [Sink.fill, hblock]
    exact Option.some_ne_none _
  · intro hnil
    have hnil' := congrArg List.length (List.append_eq_nil_iff.mp hnil).2
    rw [hlen, List.length_nil] at hnil'
    omega

/-- `ipcio_write` appends to the transfer. -/
theorem Writing.writeOn (h : s.Writing before data) (rest : List UInt8) :
    (s.writeOn rest).1 = true ∧ (s.writeOn rest).2.Writing before (data ++ rest) := by
  induction hn : rest.length using Nat.strong_induction_on generalizing s data rest with
  | _ n ih =>
    subst hn
    rw [Sink.writeOn]
    by_cases hrest : rest = []
    · rw [dif_pos hrest, hrest, List.append_nil]
      exact ⟨rfl, h⟩
    · rw [dif_neg hrest]
      obtain ⟨flushed, hflush, hflushed⟩ := h.flushFull
      obtain ⟨current, hcurrent, hfilling⟩ := hflushed.currentWrite (bytes_flushFull hflush)
      have hspace := hfilling.space
      have hpos := List.length_pos_iff.mpr hrest
      split
      · rename_i hnone
        rw [hflush] at hnone
        exact absurd hnone (Option.some_ne_none _)
      · rename_i flushed' hflush'
        obtain rfl := Option.some.inj (hflush.symm.trans hflush')
        split
        · rename_i hnone
          rw [hcurrent] at hnone
          exact absurd hnone (Option.some_ne_none _)
        · rename_i current' hcurrent'
          obtain rfl := Option.some.inj (hcurrent.symm.trans hcurrent')
          have hmore := ih _ (by rw [List.length_drop]; omega) (hfilling.fill hrest)
            (rest.drop (current.bufsz - current.bytes)) rfl
          rwa [List.append_assoc, List.take_append_drop] at hmore

theorem Writing.ipcioWrite (h : s.Writing before data) (rest : List UInt8) :
    (s.ipcioWrite rest).2.Writing before (data ++ rest) := by
  obtain ⟨hok, hwritten⟩ := h.writeOn rest
  unfold Sink.ipcioWrite
  rw [if_neg (fun hmode => hmode.1 h.rdwrt)]
  split
  · rename_i s' hs'
    rwa [hs'] at hwritten
  · rename_i s' hs'
    rw [hs'] at hok
    exact absurd hok Bool.false_ne_true

/-! ## Writing blocks -/

/-- The next block of a transfer. -/
theorem Writing.ipcioOpenBlockWrite (h : s.Writing before data) (hcur : s.curbuf = none)
    (hnbufs : 2 ≤ s.nbufs) :
    ∃ s', s.ipcioOpenBlockWrite = some s' ∧ s'.Holding before data [] ∧ s'.bufsz = s.bufsz := by
  have hbytes : s.bytes = 0 := by
    rcases h.current with hnone | hsome
    · exact hnone.2
    · exact absurd hcur hsome.1
  have hdata : s.filled = data := by
    rw [← h.written, contents, hcur, List.append_nil]
  unfold Sink.ipcioOpenBlockWrite
  rw [if_neg (not_not_intro hbytes), if_neg (by rw [hcur]; exact fun hc => Bool.false_ne_true hc.1),
    if_neg (not_not_intro h.rdwrt), if_neg (fun hc => hc.elim (by omega) (by rw [h.opened]; exact Bool.false_ne_true))]
  rcases h.state with ⟨hstate, -⟩ | ⟨hstate, -⟩
  · simp only [getNextWrite, hstate]
    exact ⟨_, rfl, ⟨h.rdwrt, rfl, h.transfers, hdata, Option.some_ne_none _, rfl, rfl, rfl, rfl⟩, rfl⟩
  · simp only [getNextWrite, hstate]
    exact ⟨_, rfl, ⟨h.rdwrt, rfl, h.transfers, hdata, Option.some_ne_none _, rfl, rfl, rfl, rfl⟩, rfl⟩

/-- A block that is opened leaves the ring as large as it is. -/
theorem nbufs_ipcioOpenBlockWrite {s' : Sink} (h : s.ipcioOpenBlockWrite = some s') :
    s'.nbufs = s.nbufs := by
  unfold Sink.ipcioOpenBlockWrite at h
  split_ifs at h
  rcases hnext : s.getNextWrite with - | ⟨block, s₁⟩
  · rw [hnext] at h
    exact absurd h (Option.some_ne_none _).symm
  · rw [hnext] at h
    obtain rfl := Option.some.inj h
    unfold getNextWrite at hnext
    split at hnext
    · exact absurd hnext (Option.some_ne_none _).symm
    all_goals
      obtain ⟨-, rfl⟩ := Prod.mk.inj (Option.some.inj hnext)
      rfl

/-- A copy behind what the block holds. -/
theorem Holding.memcpyTo (h : s.Holding before data chunk) (more : List UInt8) :
    (s.memcpyTo chunk.length more).Holding before data (chunk ++ more) := by
  obtain ⟨block, hblock⟩ := Option.ne_none_iff_exists'.mp h.current
  have hchunk := h.chunk
  refine ⟨h.rdwrt, h.opened, h.transfers, h.filled, ?_, ?_, h.unmarked, h.bytes, h.state⟩
  · simp only [Sink.memcpyTo, hblock]
    exact Option.some_ne_none _
  · simp only [contents, hblock] at hchunk
    simp only [contents, Sink.memcpyTo, hblock, Option.map_some, List.length_append]
    rw [Memory.slice_add, Memory.slice_copy_of_disjoint block _ (.inl (by omega)), hchunk, Nat.zero_add,
      Memory.slice_copy_self]

/-- The count of the open block is set. -/
theorem Holding.ipcioUpdateBlockWrite (h : s.Holding before data chunk)
    (hle : s.bytes + chunk.length ≤ s.bufsz) : s.ipcioUpdateBlockWrite chunk.length =
      some { s with bytes := s.bytes + chunk.length, bytes_le := hle } := by
  have hsome : ¬ s.curbuf.isNone = true := by
    rw [Option.isNone_iff_eq_none]
    exact h.current
  unfold Sink.ipcioUpdateBlockWrite
  rw [if_neg (not_not_intro h.bytes), if_neg hsome, if_neg (not_not_intro h.rdwrt),
    dif_neg (Nat.not_lt.mpr hle)]

/-- A full block is handed over. -/
theorem Holding.close_full (h : s.Holding before data chunk) (hfull : chunk.length = s.bufsz) :
    ∃ s', s.ipcioCloseBlockWrite chunk.length = (0, s') ∧ s'.Writing before (data ++ chunk) ∧
      s'.curbuf = none ∧ s'.bufsz = s.bufsz ∧ s'.nbufs = s.nbufs := by
  have hbytes : s.bytes + chunk.length = chunk.length := by rw [h.bytes, Nat.zero_add]
  have hne : data ++ chunk ≠ [] := by
    intro hnil
    have hlen := congrArg List.length (List.append_eq_nil_iff.mp hnil).2
    have hpos := s.bufsz_pos
    rw [List.length_nil] at hlen
    omega
  unfold ipcioCloseBlockWrite
  rw [h.ipcioUpdateBlockWrite (by omega)]
  simp only [h.unmarked, markFilled, h.state, Bool.false_eq_true, if_false]
  rw [if_neg (by omega)]
  refine ⟨_, rfl, ⟨h.rdwrt, rfl, h.transfers, ?_, .inl ⟨rfl, rfl⟩, .inr ⟨rfl, hne⟩⟩, rfl, rfl, rfl⟩
  rw [← h.filled]
  conv_rhs => rw [← h.chunk, ← hbytes]
  exact List.append_nil _

/-- A short block ends the transfer. -/
theorem Holding.close_short (h : s.Holding before data chunk) (hshort : chunk.length < s.bufsz) :
    ∃ s', s.ipcioCloseBlockWrite chunk.length = (0, s') ∧ s'.Ended (before ++ [data ++ chunk]) := by
  have hbytes : s.bytes + chunk.length = chunk.length := by rw [h.bytes, Nat.zero_add]
  unfold ipcioCloseBlockWrite
  rw [h.ipcioUpdateBlockWrite (by omega)]
  simp only [h.unmarked, markFilled, h.state, Bool.false_eq_true, if_false]
  rw [if_pos (by omega)]
  refine ⟨_, rfl, h.rdwrt, rfl, rfl, rfl, ?_⟩
  rw [← h.filled, ← h.transfers]
  conv_rhs => rw [← h.chunk, ← hbytes]
  rfl

/-- A block whose count has been set is never closed. -/
theorem Holding.ipcioClose_never (h : s.Holding before data chunk) (hpos : chunk ≠ [])
    (hle : chunk.length ≤ s.bufsz) :
    ∃ s', s.ipcioUpdateBlockWrite chunk.length = some s' ∧ s'.ipcioClose = none ∧
      ∀ fuel, closeOpened fuel s' = none := by
  have hlen := List.length_pos_iff.mpr hpos
  set s' : Sink := { s with
    bytes := s.bytes + chunk.length, bytes_le := (by rw [h.bytes, Nat.zero_add]; exact hle) } with hs'
  have hstuck := closeOpened_stuck (s := s') h.opened
    (congrArg Prod.snd (ipcioCloseBlockWrite_of_bytes (s := s') (by rw [hs']; simp only; omega) _))
  refine ⟨s', h.ipcioUpdateBlockWrite _, ?_, hstuck⟩
  unfold Sink.ipcioClose
  rw [if_pos h.rdwrt, if_pos h.state, hstuck]

end Sink

end Psrdada
