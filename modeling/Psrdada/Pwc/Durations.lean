import Psrdada.Pwc.Admission

/-! # Durations

The duration that is set for the next recording is kept in the byte count of the command slot.  Each
command that is accepted replaces it, and a `start` reads it before it takes the mutex.  When neither has
happened to it, the transfer that a `start` begins has the duration that was set last. -/

namespace Psrdada

open Concurrency

/-! ## What is asked for -/

/-- What is known of durations from the reports so far. -/
structure Durations where
  /-- The duration that was set last since the previous transfer ended, `0` for none. -/
  asked : ℕ
  /-- Whether a command has been accepted since. -/
  overwritten : Bool
  /-- What was asked for when the last `start` was accepted. -/
  promised : ℕ
  /-- What was asked for when the last `start` that has been taken was accepted. -/
  current : ℕ

/-- What a report says of durations. -/
def Durations.step (d : Durations) : Report → Durations
  | .durationSet byteCount => { d with asked := byteCount, overwritten := false }
  | .accepted command => { d with
      overwritten := d.overwritten || d.asked != 0
      promised := if command.code = .start then d.asked else d.promised }
  | .taken command => { d with current := if command.code = .start then d.promised else d.current }
  | .began _ => d
  | .ended => { d with asked := 0, overwritten := false }

/-- What a log says of durations. -/
def Durations.of (log : List Report) : Durations := log.foldl Durations.step ⟨0, false, 0, 0⟩

/-- **No duration is lost**: each transfer that a `start` begins has the length that was asked for when
the `start` was accepted. -/
def NoneLost (log : List Report) : Prop :=
  ∀ before command, before ++ [.began command] <+: log → command.code = .start →
    command.byteCount = (Durations.of before).current

/-! ## When it is met -/

/-- A `start` is accepted only when no command has been accepted since the duration was set, and when the
byte count of the slot is still the one that it has read. -/
def DurationKept (s : System) : Move → Bool
  | .finish client =>
    match s.pending client with
    | some (.set command) =>
      if command.code = .start ∧ s.primary.state.admits .start then
        !(Durations.of s.log).overwritten && command.byteCount == s.primary.command.byteCount
      else true
    | _ => true
  | _ => true

/-! ## The invariant -/

/-- The states that are reported in a phase of the main loop, whatever is accepted. -/
def MainPhase.Reports (state : PwcState) : MainPhase → Prop
  | .top => state.Resting
  | .prepare | .wait | .act _ | .prepareFailed _ | .startTransfer _ =>
    state.Resting ∨ state = .prepared
  | .enterTransfer _ _ _ => state.Running
  | .iterate t | .transferBuffer t | .transit t => state.Running ∧ t.state = state
  | .transferFailed _ => state.Known
  | .stopTransfer | .stopFailed _ => state.Resting ∨ state.Running
  | .left | .aborted => True

/-- The command with which the main loop is about to start a transfer. -/
def MainPhase.starting : MainPhase → Option PwcCommand
  | .act command | .startTransfer command | .enterTransfer command _ _ => some command
  | _ => none

/-- What the slot and the commands that have been taken from it have to do with durations. -/
structure Reserved (s : System) (d : Durations) : Prop where
  busy : s.primary.command.code ≠ .noCommand → d.overwritten = false → d.asked = 0
  free : s.primary.command.code = .noCommand → d.overwritten = false →
    (s.primary.state = .prepared ∨ ∃ command, s.phase = .act command) →
    s.primary.command.byteCount = d.asked
  slot : s.primary.command.code = .start → s.primary.command.byteCount = d.promised
  starting : ∀ command, s.phase.starting = some command → command.code = .start →
    command.byteCount = d.current

section Durations

variable {lib : Scanner} {pwcm : PwcClient} {env : Surroundings} {s s' : System} {log : List Report}
  {report : Report} {command : PwcCommand} {d : Durations} {t : Transfer}

@[simp] theorem Durations.of_append (log : List Report) (report : Report) :
    Durations.of (log ++ [report]) = (Durations.of log).step report := by
  simp [Durations.of]

theorem noneLost_append (h : NoneLost log)
    (hbegan : ∀ command, report = .began command → command.code = .start →
      command.byteCount = (Durations.of log).current) : NoneLost (log ++ [report]) := by
  intro before command hpre hstart
  rcases List.prefix_concat_iff.mp hpre with heq | hpre
  · obtain ⟨rfl, hreport⟩ := List.append_inj' heq rfl
    exact hbegan command (List.cons.inj hreport).1.symm hstart
  · exact h before command hpre hstart

/-! ## The main loop -/

/-- What a step of the main loop does to the slot and to the log. -/
inductive SlotStep (s s' : System) : Prop
  /-- It takes the command. -/
  | take (busy : s.primary.command.code ≠ .noCommand)
      (emptied : s'.primary.command = { s.primary.command with code := .noCommand, byteCount := 0 })
      (log : s'.log = s.log ++ [.taken s.primary.command])
      (starting : ∀ command, s'.phase.starting = some command → command = s.primary.command)
  /-- It begins a transfer. -/
  | begin (command : PwcCommand) (starting : s.phase.starting = some command)
      (slot : s'.primary.command = s.primary.command) (state : s'.primary.state.Running)
      (log : s'.log = s.log ++ [.began command]) (past : s'.phase.starting = none)
      (acting : ∀ command, s'.phase ≠ .act command)
  /-- It ends a transfer. -/
  | finish (slot : s'.primary.command = s.primary.command) (state : s'.primary.state ≠ .prepared)
      (log : s'.log = s.log ++ [.ended]) (past : s'.phase.starting = none)
      (acting : ∀ command, s'.phase ≠ .act command)
  /-- It does none of this. -/
  | other (slot : s'.primary.command = s.primary.command) (log : s'.log = s.log)
      (state : s'.primary.state = .prepared →
        s.primary.state = .prepared ∨ ∃ command, s.phase = .act command)
      (starting : ∀ command, s'.phase.starting = some command → s.phase.starting = some command)
      (acting : ∀ command, s'.phase ≠ .act command)

/-- Whatever the command is, the idle and prepared states set the state to one of these or leave it. -/
theorem prepareCommand_reports (env : Surroundings) (primary : Pwc) (command : PwcCommand) :
    (∃ new, (new = .idle ∨ new = .prepared) ∧
      prepareCommand env primary command = ((dadaPwcSetState primary new 0).2, none)) ∨
    ∃ rval, prepareCommand env primary command = (primary, some rval) := by
  unfold prepareCommand
  cases command.code with
  | reset => exact .inl ⟨.idle, .inl rfl, rfl⟩
  | header => exact .inl ⟨.prepared, .inr rfl, rfl⟩
  | stop => exact .inl ⟨.idle, .inl rfl, rfl⟩
  | clock =>
    right
    dsimp only
    split
    · exact ⟨_, rfl⟩
    · split
      · exact ⟨_, rfl⟩
      · exact ⟨_, rfl⟩
  | start =>
    right
    dsimp only
    split
    · exact ⟨_, rfl⟩
    · exact ⟨_, rfl⟩
  | _ => exact .inr ⟨_, rfl⟩

/-- The pieces of an iteration start nothing. -/
theorem after_starting (next : Transfer → MainPhase) (hnext : ∀ t, (next t).starting = none)
    (o : Outcome) : (MainPhase.after next o).starting = none := by
  cases o with
  | next t => exact hnext t
  | ret rval t =>
    simp only [MainPhase.after]
    split
    · rfl
    · rfl
  | abort t => rfl

/-- A phase that starts nothing does not act on a command. -/
theorem MainPhase.ne_act {phase : MainPhase} (h : phase.starting = none) (command : PwcCommand) :
    phase ≠ .act command := by
  rintro rfl
  cases h

/-- A step of the main loop that leaves the slot and the log alone and starts nothing. -/
theorem SlotStep.passive (hslot : s'.primary.command = s.primary.command) (hlog : s'.log = s.log)
    (hstate : s'.primary.state = .prepared → s.primary.state = .prepared)
    (hstart : s'.phase.starting = none) : SlotStep s s' := by
  refine .other hslot hlog (fun hs => .inl (hstate hs)) (fun command hc => ?_) (MainPhase.ne_act hstart)
  rw [hstart] at hc
  cases hc

theorem Reports.after_piece {next : Transfer → MainPhase} {o : Outcome}
    (hrun : o.transfer.state.Running)
    (hnext : ∀ u : Transfer, u.state.Running → (next u).Reports u.state) :
    (MainPhase.after next o).Reports o.transfer.state := by
  cases o with
  | next u => exact hnext u hrun
  | ret rval u =>
    simp only [MainPhase.after]
    split
    · exact PwcState.Running.known hrun
    · exact .inr hrun
  | abort u => trivial

/-- Each step of the main loop reports the states of its phase, and is one of the steps above. -/
theorem mainStep_slot (hr : s.phase.Reports s.primary.state) (h : s.mainStep pwcm env = some s') :
    s'.phase.Reports s'.primary.state ∧ SlotStep s s' := by
  cases hphase : s.phase with
  | top =>
    rw [hphase] at hr
    simp only [System.mainStep, hphase] at h
    split at h
    · cases h
      exact ⟨trivial, .passive rfl rfl id rfl⟩
    · split at h
      · cases h
        exact ⟨.inl hr, .passive rfl rfl id rfl⟩
      · cases h
        exact ⟨.inl hr, .passive rfl rfl id rfl⟩
  | prepare =>
    rw [hphase] at hr
    simp only [System.mainStep, hphase] at h
    split at h
    · cases h
      exact ⟨trivial, .passive rfl rfl id rfl⟩
    · cases h
      exact ⟨hr, .passive rfl rfl id rfl⟩
  | wait =>
    rw [hphase] at hr
    simp only [System.mainStep, hphase] at h
    rcases commandGet_cases s.primary with ⟨-, hget, -⟩ | ⟨hbusy, -, hget⟩
    · simp [hget] at h
    · rw [hget] at h
      cases h
      constructor
      · show MainPhase.Reports s.primary.state (if _ then _ else _)
        split
        · trivial
        · exact hr
      · refine .take hbusy rfl rfl fun command hc => ?_
        dsimp only at hc
        split at hc
        · cases hc
        · cases hc
          rfl
  | act command =>
    rw [hphase] at hr
    simp only [System.mainStep, hphase] at h
    rcases prepareCommand_reports env s.primary command with ⟨new, hnew, heq⟩ | ⟨rval, heq⟩
    · rw [heq] at h
      cases h
      exact ⟨setState_rests hnew hr, .other (dadaPwcSetState_frame _ _ _).1 rfl
        (fun _ => .inr ⟨command, hphase⟩) (fun c hc => by cases hc) (MainPhase.ne_act rfl)⟩
    · rw [heq] at h
      cases h
      constructor
      · show MainPhase.Reports s.primary.state (if _ then _ else _)
        split
        · exact hr
        · exact hr
      · refine .other rfl rfl .inl (fun c hc => ?_) (fun c hc => ?_)
        · rw [hphase]
          dsimp only at hc
          split at hc
          · cases hc
          · exact hc
        · dsimp only at hc
          split at hc
          · cases hc
          · cases hc
  | prepareFailed rval =>
    rw [hphase] at hr
    simp only [System.mainStep, hphase] at h
    split at h
    · cases h
      exact ⟨trivial, .passive rfl rfl id rfl⟩
    · cases h
      have hknown : s.primary.state.Known := by
        rcases hr with h | h
        · exact h.known
        · exact .inr (.inl h)
      have hrest := processError_resting rval hknown
      exact ⟨hrest, .passive (processError_frame _ rval).1 rfl (fun hs => absurd hs hrest.ne.1) rfl⟩
  | startTransfer command =>
    rw [hphase] at hr
    simp only [System.mainStep, hphase] at h
    split at h
    · cases h
      exact ⟨trivial, .passive rfl rfl id rfl⟩
    · cases h
      obtain ⟨hcommand, -, hcases⟩ :=
        startTransfer_cases pwcm env s.primary command
      generalize dadaPwcMainStartTransfer pwcm env s.primary command = res at *
      constructor
      · show MainPhase.Reports res.2.state (if res.1 < 0 then _ else _)
        rcases hcases with ⟨hneg, hs⟩ | ⟨hzero, hrun⟩
        · rw [if_pos hneg, hs]
          rcases hr with h | h
          · exact h.known
          · exact .inr (.inl h)
        · rw [if_neg (by omega)]
          exact hrun
      · refine .other hcommand rfl (fun hs => .inl ?_) (fun c hc => ?_) (fun c hc => ?_)
        · rcases hcases with ⟨-, hsame⟩ | ⟨-, hrun⟩
          · exact hsame.symm.trans hs
          · exact absurd hs hrun.not_resting.2
        · rw [hphase]
          dsimp only at hc
          split at hc
          · cases hc
          · exact hc
        · dsimp only at hc
          split at hc
          · cases hc
          · cases hc
  | enterTransfer command valid utcStartSet =>
    rw [hphase] at hr
    simp only [System.mainStep, hphase] at h
    split at h
    · cases h
      exact ⟨PwcState.Running.known hr, .passive rfl rfl id rfl⟩
    · cases h
      exact ⟨⟨hr, rfl⟩, .begin command (by rw [hphase]; rfl) rfl hr rfl rfl (MainPhase.ne_act rfl)⟩
  | iterate t =>
    rw [hphase] at hr
    simp only [System.mainStep, hphase] at h
    split at h
    · cases h
      exact ⟨.inr hr.1, .passive rfl rfl id rfl⟩
    · have hsame := (pwcm.takeCommand_cases
        { env.toRound with command := s.primary.slot } t).1.trans hr.2
      generalize pwcm.takeCommand { env.toRound with command := s.primary.slot } t = o at *
      have hrun : o.transfer.state.Running := by rw [hsame]; exact hr.1
      have hreports : (MainPhase.after .transferBuffer o).Reports o.transfer.state :=
        Reports.after_piece hrun fun u hu => ⟨hu, rfl⟩
      have hstart := after_starting .transferBuffer (fun _ => rfl) o
      rcases commandGet_cases s.primary with ⟨hfree, hget, -⟩ | ⟨hbusy, -, hget⟩
      · rw [hget] at h
        cases h
        exact ⟨hreports, .passive rfl rfl (fun hs => absurd hs hrun.not_resting.2) hstart⟩
      · rw [hget] at h
        cases h
        refine ⟨hreports, .take hbusy rfl rfl fun c hc => ?_⟩
        rw [hstart] at hc
        cases hc
  | transferBuffer t =>
    rw [hphase] at hr
    rw [mainStep_transferBuffer pwcm env hphase] at h
    cases h
    have hsame : (pwcm.transferBuffer env.toRound t).transfer.state = _ :=
      (pwcm.transferBuffer_sameChange _ t).1.trans hr.2
    generalize pwcm.transferBuffer env.toRound t = o at *
    have hrun : o.transfer.state.Running := by rw [hsame]; exact hr.1
    have hstart := after_starting .transit (fun _ => rfl) o
    exact ⟨Reports.after_piece hrun fun u hu => ⟨hu, rfl⟩,
      .passive rfl rfl (fun hs => absurd hs hrun.not_resting.2) hstart⟩
  | transit t =>
    rw [hphase] at hr
    rw [mainStep_transit pwcm env hphase] at h
    cases h
    have hpasses := (pwcm.transit_settles env.toRound t).passes
    generalize pwcm.transit env.toRound t = o at *
    have hrun : o.transfer.state.Running := Passes.running hpasses (by rw [hr.2]; exact hr.1)
    have hstart := after_starting .iterate (fun _ => rfl) o
    exact ⟨Reports.after_piece hrun fun u hu => ⟨hu, rfl⟩,
      .passive rfl rfl (fun hs => absurd hs hrun.not_resting.2) hstart⟩
  | transferFailed rval =>
    rw [hphase] at hr
    simp only [System.mainStep, hphase] at h
    cases h
    have hrest := processError_resting rval hr
    exact ⟨.inl hrest, .passive (processError_frame _ rval).1 rfl (fun hs => absurd hs hrest.ne.1) rfl⟩
  | stopTransfer =>
    rw [hphase] at hr
    simp only [System.mainStep, hphase] at h
    cases h
    have hknown : s.primary.state.Known := by
      rcases hr with h | h
      · exact h.known
      · exact PwcState.Running.known h
    obtain ⟨hcommand, -, hsame, hrest⟩ := stopTransfer_cases env hknown
    generalize dadaPwcMainStopTransfer env s.primary = res at *
    have hreports : (if res.1 < 0 then MainPhase.stopFailed res.1 else .top).Reports res.2.state := by
      split
      · rename_i hneg
        rw [hsame hneg]
        exact hr
      · exact hrest (by omega)
    refine ⟨hreports, .finish hcommand ?_ rfl ?_ fun c hc => ?_⟩
    · intro hs
      show False
      split at hreports
      · rcases hreports with h | h
        · exact h.ne.1 hs
        · exact (PwcState.Running.not_resting h).2 hs
      · exact (PwcState.Resting.ne hreports).1 hs
    · show MainPhase.starting (if _ then _ else _) = none
      split
      · rfl
      · rfl
    · dsimp only at hc
      split at hc
      · cases hc
      · cases hc
  | stopFailed rval =>
    rw [hphase] at hr
    simp only [System.mainStep, hphase] at h
    cases h
    have hknown : s.primary.state.Known := by
      rcases hr with h | h
      · exact h.known
      · exact PwcState.Running.known h
    have hrest := processError_resting rval hknown
    exact ⟨hrest, .passive (processError_frame _ rval).1 rfl (fun hs => absurd hs hrest.ne.1) rfl⟩
  | left => simp [System.mainStep, hphase] at h
  | aborted => simp [System.mainStep, hphase] at h

/-- A step of the main loop, while durations are kept. -/
theorem Reserved.main (hi : Reserved s (.of s.log)) (hlost : NoneLost s.log) (hstep : SlotStep s s') :
    Reserved s' (.of s'.log) ∧ NoneLost s'.log := by
  cases hstep with
  | take busy emptied log starting =>
    rw [log]
    constructor
    · rw [Durations.of_append]
      constructor
      · intro hbusy
        rw [emptied] at hbusy
        exact absurd rfl hbusy
      · intro _ hkept _
        rw [emptied]
        exact (hi.busy busy hkept).symm
      · intro hslot
        rw [emptied] at hslot
        cases hslot
      · intro command hc hstart
        rw [starting command hc] at hstart ⊢
        simp only [Durations.step, hstart, if_true]
        exact hi.slot hstart
    · exact noneLost_append hlost fun command hc => by cases hc
  | begin command starting slot state log past acting =>
    rw [log]
    constructor
    · rw [Durations.of_append]
      constructor
      · rw [slot]
        exact hi.busy
      · rintro - - (hs | ⟨c, hc⟩)
        · exact absurd hs state.not_resting.2
        · exact absurd hc (acting c)
      · rw [slot]
        exact hi.slot
      · intro c hc
        rw [past] at hc
        cases hc
    · refine noneLost_append hlost fun c hc hstart => ?_
      cases hc
      exact hi.starting command starting hstart
  | finish slot state log past acting =>
    rw [log]
    constructor
    · rw [Durations.of_append]
      constructor
      · exact fun _ _ => rfl
      · rintro - - (hs | ⟨c, hc⟩)
        · exact absurd hs state
        · exact absurd hc (acting c)
      · rw [slot]
        exact hi.slot
      · intro c hc
        rw [past] at hc
        cases hc
    · exact noneLost_append hlost fun command hc => by cases hc
  | other slot log state starting acting =>
    rw [log]
    refine ⟨⟨?_, ?_, ?_, ?_⟩, hlost⟩
    · rw [slot]
      exact hi.busy
    · rw [slot]
      rintro hfree hkept (hs | ⟨c, hc⟩)
      · exact hi.free hfree hkept (state hs)
      · exact absurd hc (acting c)
    · rw [slot]
      exact hi.slot
    · exact fun command hc => hi.starting command (starting command hc)

/-! ## The clients -/

theorem Reserved.finish (hi : Reserved s (.of s.log)) (hlost : NoneLost s.log) {client : ℕ}
    (hno : ∀ i c, s.pending i = some (.set c) → c.code ≠ .noCommand)
    (hok : DurationKept s (.finish client) = true)
    (h : s.step lib pwcm (.finish client) = some s') :
    Reserved s' (.of s'.log) ∧ NoneLost s'.log := by
  simp only [System.step] at h
  cases hpend : s.pending client with
  | none => simp [hpend] at h
  | some pending =>
    simp only [hpend] at h
    cases hfin : pending.finish s.primary with
    | none => simp [hfin] at h
    | some res =>
      obtain ⟨ret, primary⟩ := res
      simp only [hfin, Option.some.injEq] at h
      subst h
      rcases Pending.finish_cases hfin with ⟨rfl, hrep⟩ | ⟨c, rfl, hfree, hadm, rfl, hrep⟩ |
        ⟨n, rfl, hfree, -, rfl, hrep⟩
      · rw [hrep, List.append_nil]
        exact ⟨⟨hi.busy, hi.free, hi.slot, hi.starting⟩, hlost⟩
      · rw [hrep]
        constructor
        · rw [Durations.of_append]
          constructor
          · -- what is asked for is kept only when it is nothing
            intro _ hkept
            simpa [Durations.step] using (Bool.or_eq_false_iff.mp hkept).2
          · exact fun hfree' => absurd hfree' (hno client c hpend)
          · intro hstart
            have hstart : c.code = .start := hstart
            have hadm' : s.primary.state.admits .start = true := hstart ▸ hadm
            have hprep : s.primary.state = .prepared := by simpa [PwcState.admits] using hadm'
            simp only [DurationKept, hpend, hstart, hadm', and_self, if_true, Bool.and_eq_true,
              Bool.not_eq_true', beq_iff_eq] at hok
            show c.byteCount = (if c.code = .start then _ else _)
            rw [if_pos hstart, hok.2]
            exact hi.free hfree hok.1 (.inl hprep)
          · exact hi.starting
        · exact noneLost_append hlost fun command hc => by cases hc
      · rw [hrep]
        constructor
        · rw [Durations.of_append]
          constructor
          · exact fun hbusy => absurd hfree hbusy
          · exact fun _ _ _ => rfl
          · intro hstart
            have hstart : s.primary.command.code = .start := hstart
            simp [hfree] at hstart
          · exact hi.starting
        · exact noneLost_append hlost fun command hc => by cases hc

theorem finish_frame {client : ℕ} (h : s.step lib pwcm (.finish client) = some s') :
    s'.phase = s.phase ∧ s'.primary.state = s.primary.state ∧
      ∀ i p, s'.pending i = some p → s.pending i = some p := by
  simp only [System.step] at h
  split at h
  · cases h
  · split at h
    · cases h
    · rename_i hfin
      cases h
      refine ⟨rfl, ?_, fun i p hp => ?_⟩
      · rcases Pending.finish_cases hfin with ⟨rfl, -⟩ | ⟨c, -, -, -, rfl, -⟩ | ⟨n, -, -, -, rfl, -⟩
        · rfl
        · rfl
        · rfl
      · dsimp only at hp
        by_cases hic : i = client
        · subst hic
          simp at hp
        · rwa [Function.update_of_ne hic] at hp

/-- The main loop leaves the clients alone. -/
theorem mainStep_pending (h : s.mainStep pwcm env = some s') : s'.pending = s.pending := by
  cases hphase : s.phase <;> simp only [System.mainStep, hphase] at h <;>
    (repeat' split at h) <;> cases h <;> rfl

/-- What holds in every state that is reached while durations are kept. -/
structure Lasting (s : System) : Prop where
  reports : s.phase.Reports s.primary.state
  pending : ∀ i command, s.pending i = some (.set command) → command.code ≠ .noCommand
  reserved : Reserved s (.of s.log)
  lost : NoneLost s.log

theorem Lasting.step (hi : Lasting s) {m : Move} (hok : DurationKept s m = true)
    (h : s.step lib pwcm m = some s') : Lasting s' := by
  cases m with
  | begin client cmd args =>
    simp only [System.step] at h
    cases hfree : s.pending client with
    | some p => simp [hfree] at h
    | none =>
      simp only [hfree, Option.some.injEq] at h
      subst h
      obtain ⟨hstate, hcommand, -⟩ :=
        cmd.begin_frame lib s.primary args
      refine ⟨?_, fun i command hp => ?_, ⟨?_, ?_, ?_, hi.reserved.starting⟩, hi.lost⟩
      · show s.phase.Reports _
        rw [hstate]
        exact hi.reports
      · dsimp only at hp
        by_cases hic : i = client
        · subst hic
          rw [Function.update_self, Option.some.injEq] at hp
          exact (cmd.begin_set hp).1
        · rw [Function.update_of_ne hic] at hp
          exact hi.pending i command hp
      · rw [hcommand]
        exact hi.reserved.busy
      · rw [hcommand, hstate]
        exact hi.reserved.free
      · rw [hcommand]
        exact hi.reserved.slot
  | finish client =>
    obtain ⟨hreserved, hlost⟩ := hi.reserved.finish hi.lost hi.pending hok h
    obtain ⟨hphase, hstate, hpend⟩ := finish_frame h
    refine ⟨?_, fun i command hp => hi.pending i command (hpend i _ hp), hreserved, hlost⟩
    rw [hphase, hstate]
    exact hi.reports
  | main env =>
    obtain ⟨hreports, hslot⟩ := mainStep_slot hi.reports h
    obtain ⟨hreserved, hlost⟩ := hi.reserved.main hi.lost hslot
    refine ⟨hreports, ?_, hreserved, hlost⟩
    rw [mainStep_pending h]
    exact hi.pending

/-- **No duration is lost** while no command is accepted between a duration and the `start` that it is set
for, and the byte count of the slot is still the one that this `start` has read. -/
theorem kept_noneLost (lib : Scanner) (pwcm : PwcClient) (pageSize : ℕ) (s : System)
    (h : Reached (System.step lib pwcm) (fun s m => DurationKept s m = true) (.init pageSize) s) :
    NoneLost s.log := by
  have hinit : Lasting (.init pageSize) := by
    refine ⟨.inl rfl, fun i command hp => ?_, ⟨fun hbusy => ?_, fun _ _ _ => rfl, ?_, ?_⟩, ?_⟩
    · cases hp
    · exact absurd rfl hbusy
    · exact fun hs => by cases hs
    · exact fun command hc => by cases hc
    · intro before command hpre
      simp [System.init] at hpre
  exact (h.invariant (I := Lasting) hinit fun t m t' hi hok hstep => hi.step hok hstep).lost

/-- The transfer that has just begun has lost its duration. -/
def lastLost (log : List Report) : Bool :=
  match log.getLast? with
  | some (.began command) =>
    command.code == .start && command.byteCount != (Durations.of log.dropLast).current
  | _ => false

theorem noneLost_of_lastLost (h : lastLost log = true) : ¬ NoneLost log := by
  intro hnone
  unfold lastLost at h
  split at h
  · rename_i command hlast
    simp only [Bool.and_eq_true, beq_iff_eq, bne_iff_ne, ne_eq] at h
    have hlog : log = log.dropLast ++ [.began command] := by
      rw [List.getLast?_eq_some_iff] at hlast
      obtain ⟨before, rfl⟩ := hlast
      simp
    exact h.2 (hnone log.dropLast command ⟨[], (List.append_nil _).trans hlog.symm⟩ h.1)
  · cases h

/-- A transfer with the duration that was set for it. -/
theorem kept_noneLost_start :
    ∃ s : System, (s.log.getLast? == some (.began ⟨.start, 0, 16, false⟩)) = true ∧
      NoneLost s.log := by
  obtain ⟨s, hs, hp⟩ := exists_reached_of_foldlM
    (System.step .sampled .plain) (fun s m => DurationKept s m = true)
    (fun s => s.log.getLast? == some (.began ⟨.start, 0, 16, false⟩)) (.init 4096)
    (mainSteps 2 ++ clientCall 0 .header (some "") ++ mainSteps 3 ++
      clientCall 0 .duration (some "8") ++ clientCall 0 .start none ++ mainSteps 4) (by decide)
  exact ⟨s, hp, kept_noneLost .sampled .plain 4096 s hs⟩

/-- A duration that is set before the header is lost. -/
theorem duration_lost :
    ∃ s, Reached (System.step .sampled .plain) (fun _ _ => True) (.init 4096) s ∧
      ¬ NoneLost s.log := by
  obtain ⟨s, hs, hp⟩ := exists_reached_of_foldlM
    (System.step .sampled .plain) (fun _ _ => True) (fun s => lastLost s.log) (.init 4096)
    (mainSteps 2 ++ clientCall 0 .header (some "") ++ mainSteps 3 ++ clientCall 0 .stop none ++
      mainSteps 3 ++ clientCall 0 .duration (some "8") ++ clientCall 0 .header (some "") ++
      mainSteps 3 ++ clientCall 0 .start none ++ mainSteps 4) (by decide)
  exact ⟨s, hs, noneLost_of_lastLost hp⟩

end Durations

end Psrdada
