import Psrdada.Session.ReadSession

/-! # The streams of a ring

Whatever the interleaving, the `k`-th session on a slot gets the bytes of the `k`-th session of the
writers, in order, and all of them once it has been told of the end of data.  This holds for any
mixture of sessions that write or read bytes and sessions that write or read blocks. -/

namespace Psrdada

open Concurrency Outline

variable {g : Geometry} {p : ℕ}

/-- A transfer of which something has been written has been raised. -/
theorem Sending.writing_of_ne_nil {γ : (sessionContract g).Log} {v : WView} {d : Ipcbuf}
    {opened : Bool} {n : ℕ} {w : List UInt8} (h : Sending γ v d opened n w) (hw : w ≠ []) :
    d.state = .writing := by
  rcases h.state with hs | ⟨hop, -, hst⟩
  · exact hs
  · refine absurd ?_ hw
    rw [← h.stream, PubLog.streamOf_eq_nil (h.ok.closed hst) h.ok.xfer.le, h.closed hop]
    rfl

/-- A session leaves the ring and its `ipcio_t` ready for the next. -/
theorem Session.ensures_run {session : Session} (hs : session.IsWhole g) {ipc : Ipcio}
    (h : ipc.Ready) : (sessionContract g).outline.Ensures p (session.run g) ipc .idle
      fun _ ipc' l => ipc'.Ready ∧ l = .idle := by
  cases session with
  | byteWriter chunks =>
    have hne : chunks.flatten ≠ [] := by simpa [IsWhole, IsByte, IsBlock, IsReader] using hs
    refine ensures_writeSession h (fun γ v ipc hw _ => ?_) fun ipc' h' => ⟨h', rfl⟩
    obtain ⟨hb, hpassed⟩ := hw rfl
    refine hb.ensures_writeChunks hpassed.symm (by simp) fun γ' v' ipc' opened' h' hall hpos =>
      ⟨γ', v', rfl, h'.mode, h'.pending, h'.single, h'.sending.plain, .inl ⟨opened', _, h'.sending,
        h'.sending.writing_of_ne_nil hne, hall, hpos⟩⟩
  | blockWriter blocks =>
    obtain ⟨hnbufs, hfit⟩ : 2 ≤ g.nbufs ∧ BlocksFit g blocks := by
      simpa [IsWhole, IsByte, IsBlock, IsReader] using hs
    refine ensures_writeSession h (fun γ v ipc hw hnw => ?_) fun ipc' h' => ⟨h', rfl⟩
    cases blocks with
    | nil => exact ⟨γ, v, rfl, hnw rfl⟩
    | cons block blocks =>
      obtain ⟨hb, hpassed⟩ := hw rfl
      exact hb.ensures_writeBlocks hpassed.symm hnbufs hfit (by simp) fun γ' v' ipc' h' =>
        ⟨γ', v', rfl, h'⟩
  | byteReader sizes =>
    rw [Session.run]
    refine ensures_readSession h (fun i x γ v ipc hgap hrep hmode hq hcur hbytes => ?_)
      fun ipc' h' => ⟨h', rfl⟩
    exact ensures_readBytes (.gap hcur hbytes hgap) hrep hmode hq fun γ' v' ipc' hd hm =>
      ⟨γ', v', rfl, hd, hm⟩
  | blockReader =>
    rw [Session.run]
    refine ensures_readSession h (fun i x γ v ipc hgap hrep hmode hq hcur hbytes => ?_)
      fun ipc' h' => ⟨h', rfl⟩
    exact ensures_readBlocks hgap hrep hmode hq hcur hbytes fun γ' v' ipc' hd hm =>
      ⟨γ', v', rfl, hd, hm⟩
  | bufReader more => exact ensures_bufSession h fun ipc' h' => ⟨h', rfl⟩

/-- A sequence of sessions. -/
theorem ensures_runSessions {sessions : List Session} (hs : ∀ s ∈ sessions, s.IsWhole g)
    {ipc : Ipcio} (h : ipc.Ready) :
    (sessionContract g).outline.Ensures p (runSessions g sessions) ipc .idle
      fun _ ipc' l => ipc'.Ready ∧ l = .idle := by
  induction sessions generalizing ipc with
  | nil =>
    rw [runSessions, ensures_pure]
    exact ⟨h, rfl⟩
  | cons session sessions ih =>
    rw [runSessions, ensures_bind]
    refine ensures_mono (Session.ensures_run (hs session (by simp)) h) ?_
    rintro _ ipc' _ ⟨h', rfl⟩
    exact ih (fun s hs' => hs s (by simp [hs'])) h'

/-- Every reachable configuration of whole sessions satisfies the invariant, and a process that has
finished knows nothing of the ring any more. -/
theorem Session.reach_inv {clients : ℕ → List Session}
    (hs : ∀ p, ∀ s ∈ clients p, s.IsWhole g) {c : Config ringSig Ring}
    (hc : Reach (ringMachine g) anyStep (Session.system g clients) c) :
    ∃ γ G, Inv (sessionContract g) γ G c.state ∧ ∀ p, c.proc p = .ret () → G p = .idle := by
  obtain ⟨γ, G, hinv, hwp⟩ := Outline.reach_inv (O := (sessionContract g).outline)
    (Q := fun _ l => l = .idle) (c := Session.system g clients) (Inv.created_session g)
    (fun p => wp_start (ensures_runSessions (hs p) ⟨rfl, ⟨rfl, rfl⟩, rfl, rfl⟩) fun _ _ h => h.2)
    (hc.mono fun _ _ _ _ => trivial)
  refine ⟨γ, G, hinv, fun p hp => ?_⟩
  have := hwp p
  rwa [hp] at this

/-- What holds of the notes in every reachable configuration of whole sessions: the sessions on a slot
get what the writers' sessions have passed. -/
theorem Inv.stream_exact {γ : (sessionContract g).Log} {G : ℕ → Ghost (sessionContract g)} {s : Ring}
    (h : Inv (sessionContract g) γ G s) {i : ℕ} (hi : i < g.nReaders) {k : ℕ} {bytes : List UInt8}
    {ended : Bool} (hk : (readerSessions i s.notes)[k]? = some (bytes, ended)) :
    bytes <+: (writerSessions s.notes).getD k [] ∧
      (ended = true → (writerSessions s.notes)[k]? = some bytes) := by
  have hpub : Published γ.toks (writerSessions s.notes) := by
    rw [← writerSessions_filter]
    exact h.winv.note
  have hdel : Delivered γ.toks (readerSessions i s.notes) := by
    rw [← readerSessions_filter]
    exact (h.rinv i hi).note
  obtain ⟨hpre, hended⟩ := hdel k _ hk
  refine ⟨hpre.trans (hpub.stream k), fun he => ?_⟩
  obtain ⟨hend, heq⟩ := hended he
  have hbytes : bytes = (writerSessions s.notes).getD k [] := heq.trans (hpub.ended k hend)
  obtain ⟨t, ht, -, rfl⟩ := hend
  have hlt := hpub.xfer t ht
  rw [hbytes, List.getD_eq_getElem _ _ hlt, List.getElem?_eq_getElem hlt]

/-! ## The results -/

/-- Two sub-blocks of two bytes and one reader slot. -/
def Geometry.small : Geometry where
  nbufs := 2
  bufsz := 2
  nReaders := 1
  nbufs_pos := Nat.zero_lt_two
  bufsz_pos := Nat.zero_lt_two
  nReaders_pos := by decide
  nReaders_le := by decide

/-- **Stream exactness.** At every moment the bytes that the `k`-th session on a slot has got are a
prefix of the bytes that the `k`-th writer session has passed, and exactly these once the session on
the slot has been told of the end of data. -/
theorem byteStream_exact (g : Geometry) (clients : ℕ → List Session)
    (hbyte : ∀ p, ∀ s ∈ clients p, s.IsByte) (c : Config ringSig Ring)
    (hc : Reach (ringMachine g) anyStep (Session.system g clients) c) (i : ℕ) (hi : i < g.nReaders)
    (k : ℕ) (bytes : List UInt8) (ended : Bool)
    (hk : (readerSessions i c.state.notes)[k]? = some (bytes, ended)) :
    bytes <+: (writerSessions c.state.notes).getD k [] ∧
      (ended = true → (writerSessions c.state.notes)[k]? = some bytes) := by
  obtain ⟨γ, G, hinv, -⟩ := Session.reach_inv (fun p s hs => .inl (hbyte p s hs)) hc
  exact hinv.stream_exact hi hk

/-- One process writes three bytes, another reads them one at a time. -/
def byteClients : ℕ → List Session
  | 0 => [.byteWriter [[1], [2, 3]]]
  | 1 => [.byteReader fun _ => 1]
  | _ => []

theorem byteClients_isByte (p : ℕ) : ∀ s ∈ byteClients p, s.IsByte := by
  rcases p with _ | _ | p <;> simp [byteClients, Session.IsByte]

/-- The reader has got all three bytes and the end of data. -/
theorem byteClients_reach :
    ∃ c, Reach (ringMachine .small) anyStep (Session.system .small byteClients) c ∧
      (readerSessions 0 c.state.notes)[0]? = some ([1, 2, 3], true) :=
  Machine.exists_reach_of_schedule [(0, 71), (1, 56)] (by decide +kernel)

theorem byteStream_exact_byteClients :
    ∃ c, Reach (ringMachine .small) anyStep (Session.system .small byteClients) c ∧
      (writerSessions c.state.notes)[0]? = some [1, 2, 3] := by
  obtain ⟨c, hc, hk⟩ := byteClients_reach
  exact ⟨c, hc, (byteStream_exact .small byteClients byteClients_isByte c hc 0 (by decide) 0 [1, 2, 3]
    true hk).2 rfl⟩

/-- **Blocks and bytes agree.** In any mixture of sessions with bytes and sessions with blocks, the
`k`-th session on a slot gets the bytes of the `k`-th writer session; so it gets what a session with
`ipcio_read` gets of the same bytes when every session is one with bytes. -/
theorem blockStream_eq_byteStream (g : Geometry) (clients clients' : ℕ → List Session)
    (hmixed : ∀ p, ∀ s ∈ clients p, s.IsByte ∨ s.IsBlock g)
    (hbyte : ∀ p, ∀ s ∈ clients' p, s.IsByte) (c c' : Config ringSig Ring)
    (hc : Reach (ringMachine g) anyStep (Session.system g clients) c)
    (hc' : Reach (ringMachine g) anyStep (Session.system g clients') c')
    (i : ℕ) (hi : i < g.nReaders) (k : ℕ) (bytes : List UInt8) (ended : Bool)
    (hk : (readerSessions i c.state.notes)[k]? = some (bytes, ended)) :
    bytes <+: (writerSessions c.state.notes).getD k [] ∧
      (ended = true → (writerSessions c.state.notes)[k]? = some bytes) ∧
      ∀ i' < g.nReaders, ∀ (k' : ℕ) (bytes' : List UInt8),
        (readerSessions i' c'.state.notes)[k']? = some (bytes', true) →
        (writerSessions c'.state.notes)[k']? = (writerSessions c.state.notes)[k]? →
        bytes <+: bytes' ∧ (ended = true → bytes = bytes') := by
  obtain ⟨γ, G, hinv, -⟩ :=
    Session.reach_inv (fun p s hs => (hmixed p s hs).imp_right .inl) hc
  obtain ⟨γ', G', hinv', -⟩ := Session.reach_inv (fun p s hs => .inl (hbyte p s hs)) hc'
  obtain ⟨hpre, hended⟩ := hinv.stream_exact hi hk
  refine ⟨hpre, hended, fun i' hi' k' bytes' hk' hsame => ?_⟩
  have hall := hsame.symm.trans ((hinv'.stream_exact hi' hk').2 rfl)
  refine ⟨by simpa [List.getD_eq_getElem?_getD, hall] using hpre, fun he => ?_⟩
  exact Option.some.inj ((hended he).symm.trans hall)

/-- One session with blocks read as bytes, and one with bytes read as blocks. -/
def mixedClients : ℕ → List Session
  | 0 => [.blockWriter [[1, 2], [3]], .byteWriter [[1], [2, 3]]]
  | 1 => [.byteReader fun _ => 1, .blockReader]
  | _ => []

theorem mixedClients_isByte_or_isBlock (p : ℕ) :
    ∀ s ∈ mixedClients p, s.IsByte ∨ s.IsBlock .small := by
  rcases p with _ | _ | p <;>
    simp [mixedClients, Session.IsByte, Session.IsBlock, BlocksFit, Geometry.small]

/-- Both readers have got all three bytes and the end of data. -/
theorem mixedClients_reach :
    ∃ c, Reach (ringMachine .small) anyStep (Session.system .small mixedClients) c ∧
      readerSessions 0 c.state.notes = [([1, 2, 3], true), ([1, 2, 3], true)] :=
  Machine.exists_reach_of_schedule [(0, 89), (1, 64), (0, 57), (1, 41)] (by decide +kernel)

theorem blockStream_eq_byteStream_mixedClients :
    ∃ c, Reach (ringMachine .small) anyStep (Session.system .small mixedClients) c ∧
      (writerSessions c.state.notes)[1]? = some [1, 2, 3] := by
  obtain ⟨c, hc, hk⟩ := mixedClients_reach
  obtain ⟨c', hc', -⟩ := byteClients_reach
  exact ⟨c, hc, (blockStream_eq_byteStream .small mixedClients byteClients
    mixedClients_isByte_or_isBlock byteClients_isByte c c' hc hc' 0 (by decide) 1 [1, 2, 3] true
    (by simp [hk])).2.1 rfl⟩

end Psrdada
