import Psrdada.Ring.Writer
import Psrdada.Ring.Reader
import Psrdada.Session.Client

/-! # What the notes of the sessions say

`writerSessions` and `readerSessions` read off the notes what each session has passed to the library
or got from it.  `sessionContract` relates both to the publication log: the `k`-th session of the
writers is transfer `k` of the log, and so is the `k`-th session on each slot. -/

namespace Psrdada

open Concurrency Outline

/-! ## Histories -/

/-- How a note changes what the writer sessions have written. -/
def writerSessionsStep (l : List (List UInt8)) : Event → List (List UInt8)
  | .wopen => l ++ [[]]
  | .wdata bytes => l.modify (l.length - 1) (· ++ bytes)
  | _ => l

/-- The bytes that each writer session has passed to the library, in the order of the sessions. -/
def writerSessions (notes : List Event) : List (List UInt8) := notes.foldl writerSessionsStep []

/-- How a note changes what the sessions on a slot have read. -/
def readerSessionsStep (iread : ℕ) (l : List (List UInt8 × Bool)) :
    Event → List (List UInt8 × Bool)
  | .ropen i => if i = iread then l ++ [([], false)] else l
  | .rdata i bytes =>
    if i = iread then l.modify (l.length - 1) fun s => (s.1 ++ bytes, s.2) else l
  | .reod i => if i = iread then l.modify (l.length - 1) fun s => (s.1, true) else l
  | _ => l

/-- The bytes that each session on a slot has got from the library and whether it has been told of
the end of data, in the order of the sessions. -/
def readerSessions (iread : ℕ) (notes : List Event) : List (List UInt8 × Bool) :=
  notes.foldl (readerSessionsStep iread) []

@[simp] theorem writerSessions_concat (notes : List Event) (e : Event) :
    writerSessions (notes ++ [e]) = writerSessionsStep (writerSessions notes) e := by
  simp [writerSessions]

@[simp] theorem readerSessions_concat (i : ℕ) (notes : List Event) (e : Event) :
    readerSessions i (notes ++ [e]) = readerSessionsStep i (readerSessions i notes) e := by
  simp [readerSessions]

/-- The notes of others do not matter. -/
theorem foldl_filter_of_ignored {α β : Type} {f : β → α → β} {q : α → Bool}
    (h : ∀ b a, q a = false → f b a = b) (l : List α) (b : β) :
    (l.filter q).foldl f b = l.foldl f b := by
  rw [List.foldl_filter]
  congr 1
  funext b a
  by_cases hq : q a = true
  · rw [if_pos hq]
  · rw [if_neg hq, h b a (by simpa using hq)]

theorem writerSessions_filter (notes : List Event) :
    writerSessions (notes.filter Event.isWriters) = writerSessions notes :=
  foldl_filter_of_ignored (fun l e he => by
    cases e <;> first | rfl | simp [Event.isWriters] at he) _ _

theorem readerSessions_filter (i : ℕ) (notes : List Event) :
    readerSessions i (notes.filter (Event.isReaders i)) = readerSessions i notes :=
  foldl_filter_of_ignored (fun l e he => by
    cases e <;> first | rfl | (simp [Event.isReaders] at he; simp [readerSessionsStep, he])) _ _

/-- A call of a writer is in progress once it has been noted. -/
theorem not_quiet_of_call {notes : List Event} {e : Event}
    (h : e = .wcall ∨ ∃ bytes, e = .wdata bytes) : ¬ Quiet (notes ++ [e]) := by
  intro hq
  obtain ⟨h₁, h₂⟩ := hq e (by simp)
  rcases h with rfl | ⟨bytes, rfl⟩
  · exact h₁ rfl
  · exact h₂ bytes rfl

/-! ## The contract -/

/-- What the writer sessions have written is in the log: of each transfer a prefix of the session's
bytes, and all of them when the transfer has ended. -/
structure Published (l : List Tok) (sessions : List (List UInt8)) : Prop where
  start : ∀ t ∈ l, t.start = 0
  xfer : ∀ t ∈ l, t.xfer < sessions.length
  stream : ∀ k, streamOf l k <+: sessions.getD k []
  ended : ∀ k, Ended l k → streamOf l k = sessions.getD k []

/-- What the sessions on a slot have read comes from the log: of each transfer a prefix, and all of it
when the session has been told of the end of data. -/
def Delivered (l : List Tok) (sessions : List (List UInt8 × Bool)) : Prop :=
  ∀ k s, sessions[k]? = some s →
    s.1 <+: streamOf l k ∧ (s.2 = true → Ended l k ∧ s.1 = streamOf l k)

/-- Between two sessions of the writers. -/
structure WriterRest (v : WView) : Prop where
  state : v.sync.wState = 0
  next : v.sync.wBufNext = v.sync.wBufCurr
  sessions : (writerSessions v.notes).length = v.sync.wXfer
  stale : ∀ x, v.sync.eBuf x ≤ v.sync.wBufCurr - 1
  last : v.sync.wXfer = 0 ∨ (0 < v.sync.wXfer ∧
    v.sync.eBuf ((v.sync.wXfer - 1) % ipcbufXfers) + 1 = v.sync.wBufCurr)

/-- Between two sessions on a slot. -/
structure ReaderRest (i : ℕ) (v : RView) : Prop where
  state : v.rState = ProcState.discon.code
  sessions : (readerSessions i v.notes).length = v.rXfer

theorem Ended.mono {l l' : List Tok} (h : l <+: l') {x : ℕ} (he : Ended l x) : Ended l' x := by
  obtain ⟨t, ht, hte⟩ := he
  exact ⟨t, h.subset ht, hte⟩

theorem Delivered.mono {g : Geometry} {strict : Prop} {γ γ' : PubLog g strict} (hle : γ ≤ γ')
    {sessions : List (List UInt8 × Bool)} (h : Delivered γ.toks sessions) :
    Delivered γ'.toks sessions := by
  intro k s hk
  obtain ⟨hpre, hended⟩ := h k s hk
  refine ⟨hpre.trans (streamOf_mono hle.1 k), fun hs => ?_⟩
  obtain ⟨he, heq⟩ := hended hs
  exact ⟨he.mono hle.1, by rw [heq, PubLog.streamOf_eq_of_ended hle.1 he]⟩

/-- The contract of whole sessions: no transfer begins before what has been published, nothing is
published when it begins, and every run is meant. -/
abbrev sessionContract (g : Geometry) : Contract g where
  strict := True
  tight := True
  raw := False
  ok _ _ _ := True
  observe _ _ := True
  wnote l notes := Published l (writerSessions notes)
  rnote γ i notes := Delivered γ.toks (readerSessions i notes)
  wrest := WriterRest
  rrest := ReaderRest
  strict_of_tight := id
  rnote_mono _ _ _ _ hle h := Delivered.mono hle h

/-- A ring that has just been created, before any session. -/
theorem Inv.created_session (g : Geometry) :
    Inv (sessionContract g) .empty (fun _ => .idle) (.created g) := by
  refine Inv.created _ ⟨by simp, by simp, by simp, by simp [Ended]⟩
    (fun i k s h => by simp [readerSessions] at h) ?_ fun i => ?_
  · constructor <;> simp [Ring.wview, Ring.created, Ipcsync.writers, Ipcsync.created,
      ProcState.code, writerSessions]
  · constructor <;> simp [Ring.rview, Ring.created, Ipcsync.created, ProcState.code,
      readerSessions]

end Psrdada
