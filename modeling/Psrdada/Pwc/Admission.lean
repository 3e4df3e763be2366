import Psrdada.Pwc.Steps

/-! # Admission of commands

A command is accepted in the light of the state that is reported then, and taken later.  When the main
loop looks for its next command before it does anything else, what has been accepted is still in order
when it is taken, and the main loop never finds a command that it does not expect. -/

namespace Psrdada

open Concurrency

/-! ## What is asked for -/

/-- The documented transitions of the state. -/
inductive Documented : PwcState → PwcState → Prop
  /-- `HEADER` -/
  | header : Documented .idle .prepared
  /-- `CLOCK` -/
  | clock : Documented .prepared .clocking
  /-- `START` -/
  | start : Documented .prepared .recording
  /-- `REC_START` -/
  | recStart : Documented .clocking .recording
  /-- `REC_STOP` -/
  | recStop : Documented .recording .clocking
  /-- `STOP` -/
  | stop {state : PwcState} (h : state = .prepared ∨ state = .clocking ∨ state = .recording) :
      Documented state .idle
  /-- An error occurs. -/
  | error {state error : PwcState}
      (h : state = .idle ∨ state = .prepared ∨ state = .clocking ∨ state = .recording)
      (he : error = .softError ∨ error = .hardError ∨ error = .fatalError) : Documented state error
  /-- `RESET` -/
  | reset {error : PwcState} (he : error = .softError ∨ error = .hardError) : Documented error .idle

/-- All calls that a change between clocking and recording makes succeed. -/
structure Round.Works (r : Round) : Prop where
  headerSet : r.headerSet = true
  headerValid : r.headerValid = true
  markFilled : r.markFilled = true
  starts : ∀ i, r.starts i = true
  stops : ∀ i, r.stops i = true

/-- **Each command that the main loop takes is one that it handles.**  It returns no error because of it,
and the state passes along the documented transitions. -/
structure Sound (lib : Scanner) (pwcm : PwcClient) (s : System) : Prop where
  /-- `dada_pwc_main_prepare` returns no error when the data block opens. -/
  prepares : ∀ command env primary rval, s.phase = .act command → env.ipcioOpen = true →
    prepareCommand env s.primary command = (primary, some rval) → rval = 0
  /-- `dada_pwc_main_start_transfer` returns no error when its calls succeed. -/
  starts : ∀ command env, s.phase = .startTransfer command → 0 ≤ env.startFunction → env.toRound.Works →
    (dadaPwcMainStartTransfer pwcm env s.primary command).1 = 0
  /-- The loop that transfers the data goes on with the command in the slot when its calls succeed. -/
  takes : ∀ t command (r : Round), s.phase = .iterate t → s.primary.quit = false →
    t.dataTransferErrorState ≤ 1 → s.primary.slot = some command → r.command = some command → r.Works →
    ∃ u, pwcm.takeCommand r t = .next u
  /-- When the transit byte is reached, the command stops the transfer, or changes the state if the calls
  succeed. -/
  transits : ∀ t (r : Round), s.phase = .transit t → t.transitByte ≠ 0 → r.Works →
    t.command.code = .stop ∨ ∃ u, changeState pwcm.toPwcMain r 1 { t with transitByte := 0 } = .next u ∧
      Documented t.state u.state
  /-- The next step keeps the state or changes it as documented. -/
  passes : ∀ m s', s.step lib pwcm m = some s' →
    s'.primary.state = s.primary.state ∨ Documented s.primary.state s'.primary.state

/-! ## When it is met -/

/-- The main loop is in its idle and prepared states, and not about to leave them. -/
def MainPhase.preparing : MainPhase → Bool
  | .prepare => true
  | .wait => true
  | .act command => command.code = .header
  | _ => false

/-- The main loop is in its clocking and recording states, and will look for a command before it changes
the state, unless the transfer fails. -/
def MainPhase.looking : MainPhase → Bool
  | .enterTransfer _ _ _ => true
  | .iterate t => t.dataTransferErrorState ≤ 1
  | .transferBuffer t => t.dataTransferErrorState ≤ 1 && t.transitByte == 0
  | .transit t => t.dataTransferErrorState ≤ 1 && t.transitByte == 0
  | _ => false

/-- Where a change of state is due later, the byte at which it is due. -/
def MainPhase.due : MainPhase → ℕ
  | .iterate t => t.transitByte
  | _ => 0

/-- The main loop will take a command that is accepted now before it changes the state. -/
def MainPhase.awaits (phase : MainPhase) (command : PwcCommand) : Bool :=
  match command.code with
  | .clock => phase.preparing
  -- a duration would be taken for the time of the next change of state
  | .start => phase.preparing && command.byteCount == 0
  | .recordStart | .recordStop => phase.looking
  -- the command would replace one that is due later
  | .setUtcStart => phase.looking && phase.due == 0 && decide (0 < command.utc)
  | _ => true

/-- A buffer is got and written without fault. -/
def Surroundings.delivers (pwcm : PwcClient) (env : Surroundings) : Bool :=
  0 < env.size && !env.null && env.markFilled &&
    match pwcm.blockFunction with
    | none => env.writes 0 && env.size.toNat ≤ env.spaceLeft 0
    | some blockSize => env.opens && env.size ≤ blockSize &&
        if pwcm.xferPendingFunction then 0 ≤ env.processXfer else env.closes

/-- A command is accepted only while the main loop awaits it, and the transfer does not fail while the
slot holds a command for the clocking and recording states. -/
def Awaited (pwcm : PwcClient) (s : System) : Move → Bool
  | .begin _ _ _ => true
  | .finish client =>
    match s.pending client with
    | some (.set command) => !s.primary.state.admits command.code || s.phase.awaits command
    | _ => true
  | .main env =>
    match s.primary.command.code with
    | .recordStart | .recordStop | .setUtcStart =>
      match s.phase with
      | .enterTransfer _ _ _ => env.headerGet
      | .transferBuffer _ => env.delivers pwcm
      | _ => true
    | _ => true

/-! ## The invariant -/

/-- No data is transferred, and no header has been received. -/
def PwcState.Resting (state : PwcState) : Prop :=
  state = .idle ∨ state = .softError ∨ state = .hardError ∨ state = .fatalError

/-- Data is being transferred. -/
def PwcState.Running (state : PwcState) : Prop := state = .clocking ∨ state = .recording

/-- The state is one that the client reports. -/
def PwcState.Known (state : PwcState) : Prop := state.Resting ∨ state = .prepared ∨ state.Running

/-- A command that the idle and prepared states handle whatever the state is. -/
def PwcCommand.Steady (command : PwcCommand) : Prop :=
  command.code = .reset ∨ command.code = .header ∨ command.code = .stop

/-- A command that the idle and prepared states handle. -/
def Prepares (state : PwcState) (command : PwcCommand) : Prop :=
  command.Steady ∨
    ((command.code = .clock ∨ command.code = .start) ∧ state = .prepared ∧ command.byteCount = 0)

/-- A command for the clocking and recording states. -/
def Transfers (state : PwcState) (command : PwcCommand) : Prop :=
  (command.code = .recordStart ∧ state = .clocking) ∨
    (command.code = .recordStop ∧ state = .recording) ∨
    (command.code = .setUtcStart ∧ 0 < command.utc)

/-- What is due later is a change of state from the present one. -/
def Transfer.Pends (t : Transfer) : Prop :=
  t.transitByte ≠ 0 → t.command.code = .stop ∨ (t.command.code = .recordStart ∧ t.state = .clocking) ∨
    (t.command.code = .recordStop ∧ t.state = .recording)

/-- The states that are reported in a phase of the main loop. -/
def MainPhase.Fits (state : PwcState) : MainPhase → Prop
  | .top => state.Resting
  | .prepare | .wait | .prepareFailed _ => state.Resting ∨ state = .prepared
  | .act command => (state.Resting ∨ state = .prepared) ∧ Prepares state command
  | .startTransfer command =>
    state = .prepared ∧ command.byteCount = 0 ∧ (command.code = .clock ∨ command.code = .start)
  | .enterTransfer command _ _ => state.Running ∧ command.byteCount = 0
  | .iterate t | .transferBuffer t | .transit t => state.Running ∧ t.state = state ∧ t.Pends
  | .transferFailed _ | .stopTransfer | .stopFailed _ => state.Known
  | .left | .aborted => True

/-- The commands that may be in the slot in a phase of the main loop. -/
def MainPhase.Handles (state : PwcState) (command : PwcCommand) : MainPhase → Prop
  | .prepare | .wait => Prepares state command
  | .act taken =>
    if taken.code = .header then Prepares state command
    else if taken.code = .clock ∨ taken.code = .start then command.code = .stop
    else command.Steady
  | .startTransfer _ => command.code = .stop
  | .enterTransfer _ _ _ => command.code = .stop ∨ Transfers state command
  | .iterate t => command.code = .stop ∨ (t.dataTransferErrorState ≤ 1 ∧ Transfers state command ∧
      (command.code = .setUtcStart → t.transitByte = 0))
  | .transferBuffer t | .transit t => command.code = .stop ∨
      (t.dataTransferErrorState ≤ 1 ∧ Transfers state command ∧ t.transitByte = 0)
  | .top | .prepareFailed _ | .transferFailed _ | .stopTransfer | .stopFailed _ => command.Steady
  | .left | .aborted => True

/-- What holds in every state that is reached while commands are awaited. -/
structure Admitted (s : System) : Prop where
  pending : ∀ i command, s.pending i = some (.set command) → command.code ≠ .noCommand ∧
    (command.code = .clock → command.byteCount = 0) ∧
    (command.code = .exit → s.primary.quit = true)
  fits : s.phase.Fits s.primary.state
  handles : s.primary.quit = false → s.primary.command.code ≠ .noCommand →
    s.phase.Handles s.primary.state s.primary.command

section Admission

variable {lib : Scanner} {pwcm : PwcClient} {s s' : System} {phase : MainPhase} {state state' : PwcState}
  {primary : Pwc} {command : PwcCommand} {t u : Transfer}

theorem PwcState.Resting.known (h : state.Resting) : state.Known := .inl h

theorem PwcState.Running.known (h : state.Running) : state.Known := .inr (.inr h)

theorem PwcState.Running.not_resting (h : state.Running) : ¬ state.Resting ∧ state ≠ .prepared := by
  unfold PwcState.Resting
  rcases h with rfl | rfl
  · simp
  · simp

theorem PwcState.Resting.ne (h : state.Resting) : state ≠ .prepared ∧ ¬ state.Running := by
  unfold PwcState.Running
  rcases h with rfl | rfl | rfl | rfl
  · simp
  · simp
  · simp
  · simp

/-- The states in which a command is accepted. -/
def AcceptedIn (state : PwcState) (command : PwcCommand) : Prop :=
  command.code = .stop ∨ (command.code = .header ∧ state = .idle) ∨
    ((command.code = .clock ∨ command.code = .start) ∧ state = .prepared) ∨
    (command.code = .recordStart ∧ state = .clocking) ∨
    (command.code = .recordStop ∧ state = .recording) ∨
    (command.code = .setUtcStart ∧ state.Running) ∨
    (command.code = .reset ∧ (state = .softError ∨ state = .hardError))

theorem acceptedIn_of_admits (hadm : state.admits command.code = true)
    (hno : command.code ≠ .noCommand) (hexit : command.code ≠ .exit) : AcceptedIn state command := by
  unfold AcceptedIn PwcState.Running
  cases hcode : command.code <;> simp_all [PwcState.admits]

/-- A command that is accepted while the main loop awaits it is one that the phase handles. -/
theorem handles_accept (hfits : phase.Fits state) (hadm : state.admits command.code = true)
    (haw : phase.awaits command = true) (hno : command.code ≠ .noCommand)
    (hclock : command.code = .clock → command.byteCount = 0) (hexit : command.code ≠ .exit) :
    phase.Handles state command := by
  rcases acceptedIn_of_admits hadm hno hexit with hc | ⟨hc, rfl⟩ | ⟨hc, rfl⟩ | ⟨hc, rfl⟩ | ⟨hc, rfl⟩ |
    ⟨hc, hrun⟩ | ⟨hc, hstate⟩
  · -- `stop` is handled in every phase
    cases phase <;> simp [MainPhase.Handles, Prepares, PwcCommand.Steady, hc]
  · -- idle: no phase of a transfer
    cases phase <;> simp only [MainPhase.Fits, MainPhase.Handles, Prepares, PwcCommand.Steady,
      PwcState.Running] at hfits ⊢ <;> grind
  · -- prepared: the main loop waits
    have hbytes : phase.preparing = true ∧ command.byteCount = 0 := by
      rcases hc with hc | hc
      · exact ⟨by simpa [MainPhase.awaits, hc] using haw, hclock hc⟩
      · simpa [MainPhase.awaits, hc] using haw
    cases phase <;> simp only [MainPhase.preparing, MainPhase.Handles, Prepares, decide_eq_true_eq,
      Bool.false_eq_true, false_and] at hbytes ⊢ <;> grind
  · -- clocking: the main loop looks for a command
    have hlook : phase.looking = true := by simpa [MainPhase.awaits, hc] using haw
    cases phase <;> simp only [MainPhase.looking, MainPhase.Handles, Transfers, Bool.false_eq_true,
      decide_eq_true_eq, Bool.and_eq_true, beq_iff_eq] at hlook ⊢ <;> grind
  · -- recording: the main loop looks for a command
    have hlook : phase.looking = true := by simpa [MainPhase.awaits, hc] using haw
    cases phase <;> simp only [MainPhase.looking, MainPhase.Handles, Transfers, Bool.false_eq_true,
      decide_eq_true_eq, Bool.and_eq_true, beq_iff_eq] at hlook ⊢ <;> grind
  · -- the time of the first sample, while nothing is due
    have hlook : (phase.looking = true ∧ phase.due = 0) ∧ 0 < command.utc := by
      simpa [MainPhase.awaits, hc] using haw
    cases phase <;> simp only [MainPhase.looking, MainPhase.due, MainPhase.Handles, Transfers,
      Bool.false_eq_true, false_and, decide_eq_true_eq, Bool.and_eq_true, beq_iff_eq] at hlook ⊢ <;> grind
  · -- an error: no phase of a transfer that goes on
    cases phase <;> simp only [MainPhase.Fits, MainPhase.Handles, Prepares, PwcCommand.Steady,
      PwcState.Running] at hfits ⊢ <;> grind

/-! ## The clients -/

theorem Admitted.begin (hi : Admitted s) {client : ℕ} {cmd : Control} {args : Option String}
    (h : s.step lib pwcm (.begin client cmd args) = some s') : Admitted s' := by
  simp only [System.step] at h
  cases hfree : s.pending client with
  | some p => simp [hfree] at h
  | none =>
    simp only [hfree, Option.some.injEq] at h
    subst h
    obtain ⟨hstate, hcommand, hquit⟩ :=
      cmd.begin_frame lib s.primary args
    constructor
    · intro i command hp
      dsimp only at hp
      by_cases hic : i = client
      · subst hic
        rw [Function.update_self, Option.some.injEq] at hp
        exact cmd.begin_set hp
      · rw [Function.update_of_ne hic] at hp
        obtain ⟨hno, hclock, hexit⟩ := hi.pending i command hp
        exact ⟨hno, hclock, fun he => hquit (hexit he)⟩
    · show s.phase.Fits _
      rw [hstate]
      exact hi.fits
    · intro hrun
      show _ → s.phase.Handles _ _
      rw [hstate, hcommand]
      refine hi.handles ?_
      cases hq : s.primary.quit with
      | false => rfl
      | true => exact absurd (hquit hq) (by simpa using hrun)

theorem Admitted.finish (hi : Admitted s) {client : ℕ} (hok : Awaited pwcm s (.finish client) = true)
    (h : s.step lib pwcm (.finish client) = some s') : Admitted s' := by
  simp only [System.step] at h
  cases hpend : s.pending client with
  | none => simp [hpend] at h
  | some pending =>
    simp only [hpend] at h
    cases hfin : pending.finish s.primary with
    | none => simp [hfin] at h
    | some res =>
      obtain ⟨ret, primary⟩ := res
      simp only [hfin, Option.some.injEq] at h
      subst h
      have hothers : ∀ i command, Function.update s.pending client none i = some (.set command) →
          s.pending i = some (.set command) := by
        intro i command hp
        by_cases hic : i = client
        · subst hic
          simp at hp
        · rwa [Function.update_of_ne hic] at hp
      rcases Pending.finish_cases hfin with ⟨rfl, -⟩ | ⟨c, rfl, hfree, hadm, rfl, -⟩ |
        ⟨n, rfl, hfree, -, rfl, -⟩
      · exact ⟨fun i command hp => hi.pending i command (hothers i command hp), hi.fits, hi.handles⟩
      · obtain ⟨hno, hclock, hexit⟩ := hi.pending client c hpend
        refine ⟨fun i command hp => hi.pending i command (hothers i command hp), hi.fits, ?_⟩
        intro hrun _
        have haw : s.phase.awaits c = true := by simpa [Awaited, hpend, hadm] using hok
        refine handles_accept hi.fits hadm haw hno hclock fun he => ?_
        exact absurd (hexit he) (by simpa using hrun)
      · refine ⟨fun i command hp => hi.pending i command (hothers i command hp), hi.fits, ?_⟩
        exact fun _ hbusy => absurd hfree hbusy

/-! ## The main loop -/

/-- After an error, the state is idle or an error state. -/
theorem processError_resting (rval : ℤ) (h : primary.state.Known) :
    (dadaPwcMainProcessError primary rval).state.Resting := by
  have hset : ∀ error : PwcState, error = .softError ∨ error = .hardError ∨ error = .fatalError →
      (dadaPwcSetState primary error 0).2.state.Resting := by
    intro error he
    unfold dadaPwcSetState PwcState.Resting
    rcases h with (h | h | h | h) | h | h | h <;> rcases he with rfl | rfl | rfl <;>
      simp [h, PwcState.mayBecome]
  have hstay : primary.state = .hardError ∨ primary.state = .fatalError →
      (dadaPwcSetState primary primary.state 0).2.state.Resting := by
    intro hs
    unfold dadaPwcSetState PwcState.Resting
    rcases hs with hs | hs <;> simp [hs, PwcState.mayBecome]
  unfold dadaPwcMainProcessError errorState
  split
  · split
    · exact hset _ (by simp)
    · rename_i hne
      refine hstay ?_
      by_contra hnot
      exact hne (by simpa using hnot)
  · split
    · split
      · exact hset _ (by simp)
      · rename_i hne
        exact hstay (.inr (by simpa using hne))
    · exact hset _ (by simp)

/-- Processing an error leaves the slot and the flag to quit alone. -/
theorem processError_frame (primary : Pwc) (rval : ℤ) :
    (dadaPwcMainProcessError primary rval).command = primary.command ∧
      (dadaPwcMainProcessError primary rval).quit = primary.quit :=
  dadaPwcSetState_frame _ _ _

/-- After a transfer has been stopped without error, the state is idle or an error state. -/
theorem stopTransfer_cases (env : Surroundings) (h : primary.state.Known) :
    (dadaPwcMainStopTransfer env primary).2.command = primary.command ∧
      (dadaPwcMainStopTransfer env primary).2.quit = primary.quit ∧
      ((dadaPwcMainStopTransfer env primary).1 < 0 →
        (dadaPwcMainStopTransfer env primary).2 = primary) ∧
      (0 ≤ (dadaPwcMainStopTransfer env primary).1 →
        (dadaPwcMainStopTransfer env primary).2.state.Resting) := by
  unfold dadaPwcMainStopTransfer
  split
  · exact ⟨rfl, rfl, fun _ => rfl, fun hle => absurd hle (by decide : ¬ (0 : ℤ) ≤ dadaErrorHard)⟩
  · split
    · exact ⟨rfl, rfl, fun _ => rfl, fun hle => absurd hle (by decide : ¬ (0 : ℤ) ≤ dadaErrorFatal)⟩
    · split
      · rename_i hne
        have hrest : (dadaPwcSetState primary .idle 0).2.state.Resting := by
          unfold dadaPwcSetState PwcState.Resting
          rcases h with (h | h | h | h) | h | h | h <;> simp [h, PwcState.mayBecome] at hne ⊢
        exact ⟨(dadaPwcSetState_frame _ _ _).1, (dadaPwcSetState_frame _ _ _).2,
          fun hlt => absurd hlt (Int.lt_irrefl 0), fun _ => hrest⟩
      · rename_i hne
        refine ⟨rfl, rfl, fun _ => rfl, fun _ => ?_⟩
        unfold PwcState.Resting
        by_contra hnot
        simp only [not_or] at hnot
        exact hne ⟨hnot.2.1, hnot.2.2.1, hnot.2.2.2⟩

/-- In the idle and prepared states the state is set to one of these. -/
theorem setState_rests {new : PwcState} (hnew : new = .idle ∨ new = .prepared)
    (h : primary.state.Resting ∨ primary.state = .prepared) :
    (dadaPwcSetState primary new 0).2.state.Resting ∨
      (dadaPwcSetState primary new 0).2.state = .prepared := by
  unfold dadaPwcSetState PwcState.Resting
  rcases h with (h | h | h | h) | h <;> rcases hnew with rfl | rfl <;> simp [h, PwcState.mayBecome]

/-- What is done with a command in the idle and prepared states: it sets the state, or it starts a
transfer. -/
theorem prepareCommand_cases (env : Surroundings)
    (hc : Prepares primary.state command) :
    (∃ new, (new = .idle ∨ new = .prepared) ∧ command.Steady ∧
      prepareCommand env primary command = ((dadaPwcSetState primary new 0).2, none) ∧
      (command.code = .header → new = .prepared)) ∨
    ∃ rval, prepareCommand env primary command = (primary, some rval) ∧
      (command.code = .clock ∨ command.code = .start) ∧ primary.state = .prepared ∧
      command.byteCount = 0 ∧ (env.ipcioOpen = true → rval = 0) := by
  rcases hc with hsteady | ⟨hc, hprep, hbytes⟩
  · left
    rcases hsteady with hc | hc | hc
    · exact ⟨.idle, .inl rfl, .inl hc, by simp [prepareCommand, hc], by simp [hc]⟩
    · exact ⟨.prepared, .inr rfl, .inr (.inl hc), by simp [prepareCommand, hc], fun _ => rfl⟩
    · exact ⟨.idle, .inl rfl, .inr (.inr hc), by simp [prepareCommand, hc], by simp [hc]⟩
  · right
    cases hopen : env.ipcioOpen with
    | true =>
      refine ⟨0, ?_, hc, hprep, hbytes, fun _ => rfl⟩
      rcases hc with hc | hc <;> simp [prepareCommand, hc, hopen, hbytes]
    | false =>
      refine ⟨dadaErrorHard, ?_, hc, hprep, hbytes, by simp⟩
      rcases hc with hc | hc <;> simp [prepareCommand, hc, hopen, hbytes]

/-- The state at the end of `dada_pwc_main_start_transfer`. -/
theorem startTransfer_cases (pwcm : PwcClient) (env : Surroundings) (primary : Pwc)
    (command : PwcCommand) :
    (dadaPwcMainStartTransfer pwcm env primary command).2.command = primary.command ∧
    (dadaPwcMainStartTransfer pwcm env primary command).2.quit = primary.quit ∧
    (((dadaPwcMainStartTransfer pwcm env primary command).1 < 0 ∧
        (dadaPwcMainStartTransfer pwcm env primary command).2.state = primary.state) ∨
      ((dadaPwcMainStartTransfer pwcm env primary command).1 = 0 ∧
        (dadaPwcMainStartTransfer pwcm env primary command).2.state.Running)) := by
  have hset : ∀ (p : Pwc) (new : PwcState) (utc : ℤ), new = .clocking ∨ new = .recording →
      ((dadaPwcSetState p new utc).1 < 0 ∧ (dadaPwcSetState p new utc).2.state = p.state) ∨
      ((dadaPwcSetState p new utc).1 = 0 ∧ (dadaPwcSetState p new utc).2.state.Running) := by
    intro p new utc hnew
    unfold dadaPwcSetState
    split
    · exact .inr ⟨rfl, hnew⟩
    · exact .inl ⟨(by decide : (-1 : ℤ) < 0), rfl⟩
  unfold dadaPwcMainStartTransfer
  dsimp only
  split
  · exact ⟨rfl, rfl, .inl ⟨(by decide : dadaErrorHard < 0), rfl⟩⟩
  · split
    · exact ⟨rfl, rfl, .inl ⟨(by decide : dadaErrorSoft < 0), rfl⟩⟩
    · generalize hp : (if 0 < env.startFunction then
        { primary with utcStart := env.startFunction } else primary) = p
      have hsame : p.command = primary.command ∧ p.quit = primary.quit ∧ p.state = primary.state := by
        subst hp
        split
        · exact ⟨rfl, rfl, rfl⟩
        · exact ⟨rfl, rfl, rfl⟩
      rw [← hsame.1, ← hsame.2.1, ← hsame.2.2]
      split
      · exact ⟨rfl, rfl, .inl ⟨(by decide : dadaErrorHard < 0), rfl⟩⟩
      · split
        · exact ⟨(dadaPwcSetState_frame _ _ _).1, (dadaPwcSetState_frame _ _ _).2,
            hset p .clocking _ (.inl rfl)⟩
        · split
          · exact ⟨(dadaPwcSetState_frame _ _ _).1, (dadaPwcSetState_frame _ _ _).2,
              hset p .recording _ (.inr rfl)⟩
          · exact ⟨rfl, rfl, .inl ⟨(by decide : dadaErrorHard < 0), rfl⟩⟩

/-- A transfer is started when it is prepared and the calls succeed. -/
theorem startTransfer_works {env : Surroundings} (hprep : primary.state = .prepared)
    (hc : command.code = .clock ∨ command.code = .start) (hutc : 0 ≤ env.startFunction)
    (hr : env.toRound.Works) : (dadaPwcMainStartTransfer pwcm env primary command).1 = 0 := by
  unfold dadaPwcMainStartTransfer
  dsimp only
  rw [if_neg (by omega), if_neg (by simp [hr.headerSet]), if_neg (by simp [hr.markFilled])]
  generalize hp : (if 0 < env.startFunction then
    { primary with utcStart := env.startFunction } else primary) = p
  have hstate : p.state = .prepared := by
    subst hp
    split
    · exact hprep
    · exact hprep
  rcases hc with hc | hc
  · simp [hc, dadaPwcSetState, hstate, PwcState.mayBecome]
  · simp [hc, dadaPwcSetState, hstate, PwcState.mayBecome]

/-- Taking the command in the slot. -/
theorem commandGet_cases (primary : Pwc) :
    (primary.command.code = .noCommand ∧ dadaPwcCommandGet primary = none ∧ primary.slot = none) ∨
    (primary.command.code ≠ .noCommand ∧ primary.slot = some primary.command ∧
      dadaPwcCommandGet primary = some (primary.command,
        { primary with command := { primary.command with code := .noCommand, byteCount := 0 } })) := by
  by_cases hc : primary.command.code = .noCommand
  · exact .inl ⟨hc, if_pos hc, if_pos hc⟩
  · exact .inr ⟨hc, if_neg hc, if_neg hc⟩

/-- The state has not changed, as far as the invariant is concerned. -/
theorem Fits.after_piece {next : Transfer → MainPhase} {o : Outcome}
    (hknown : o.transfer.state.Known) (hnext : ∀ u, o = .next u → (next u).Fits u.state) :
    (MainPhase.after next o).Fits o.transfer.state := by
  cases o with
  | next u => exact hnext u rfl
  | ret rval u =>
    simp only [MainPhase.after]
    split
    · exact hknown
    · exact hknown
  | abort u => trivial

/-- The commands in the slot after a piece of an iteration. -/
theorem Handles.after_piece {next : Transfer → MainPhase} {o : Outcome} {state : PwcState}
    (hstop : command.code = .stop) (hnext : ∀ u, (next u).Handles state command) :
    (MainPhase.after next o).Handles state command := by
  cases o with
  | next u => exact hnext u
  | ret rval u =>
    simp only [MainPhase.after]
    split
    · exact .inr (.inr hstop)
    · exact .inr (.inr hstop)
  | abort u => trivial

/-- A step that leaves the slot, the flag to quit and the clients alone. -/
theorem Admitted.of_frame (hi : Admitted s) (hpend : s'.pending = s.pending)
    (hcommand : s'.primary.command = s.primary.command) (hquit : s'.primary.quit = s.primary.quit)
    (hfits : s'.phase.Fits s'.primary.state)
    (hhandles : s.primary.quit = false → s.primary.command.code ≠ .noCommand →
      s'.phase.Handles s'.primary.state s.primary.command) : Admitted s' := by
  constructor
  · rw [hpend, hquit]
    exact hi.pending
  · exact hfits
  · rw [hcommand, hquit]
    exact hhandles

theorem Passes.running (h : Passes state state') (hrun : state.Running) : state'.Running := by
  rcases h with rfl | ⟨-, h⟩
  · exact hrun
  · exact h

theorem Admitted.iterate (hi : Admitted s) (hphase : s.phase = .iterate t) {env : Surroundings}
    (h : s.mainStep pwcm env = some s') : Admitted s' := by
  have hfits := hi.fits
  rw [hphase] at hfits
  obtain ⟨hrun, hstate, hpends⟩ := hfits
  have hhandles := hi.handles
  rw [hphase] at hhandles
  simp only [System.mainStep, hphase] at h
  by_cases hdone : s.primary.quit = true ∨ t.dataTransferErrorState > 1
  · rw [if_pos hdone] at h
    cases h
    refine ⟨hi.pending, hrun.known, fun hquit hbusy => ?_⟩
    rcases hhandles hquit hbusy with hstop | ⟨herr, -⟩
    · exact .inr (.inr hstop)
    · rcases hdone with hq | hgt
      · exact absurd hq (by simpa using hquit)
      · exact absurd hgt (Nat.not_lt.mpr herr)
  · rw [if_neg hdone] at h
    obtain ⟨hsame, hnext⟩ := pwcm.takeCommand_cases
      { env.toRound with command := s.primary.slot } t
    generalize ho : pwcm.takeCommand { env.toRound with command := s.primary.slot } t = o at *
    have hstate' : o.transfer.state = s.primary.state := hsame.trans hstate
    rcases commandGet_cases s.primary with ⟨hfree, hget, hslot⟩ | ⟨hbusy, hslot, hget⟩
    · rw [hget] at h
      cases h
      refine ⟨hi.pending, ?_, fun _ hbusy => absurd hfree hbusy⟩
      show (MainPhase.after _ o).Fits o.transfer.state
      refine Fits.after_piece (by rw [hstate']; exact hrun.known) fun u hu => ?_
      rcases hnext u hu with ⟨-, rfl⟩ | ⟨c, hc, -⟩
      · exact ⟨by rw [hstate]; exact hrun, rfl, hpends⟩
      · simp [hslot] at hc
    · rw [hget] at h
      cases h
      refine ⟨hi.pending, ?_, fun _ hno => absurd rfl hno⟩
      show (MainPhase.after _ o).Fits o.transfer.state
      refine Fits.after_piece (by rw [hstate']; exact hrun.known) fun u hu => ?_
      rw [hu] at hstate'
      refine ⟨by rw [show u.state = _ from hstate']; exact hrun, rfl, ?_⟩
      have hquit : s.primary.quit = false := by
        simp only [not_or] at hdone
        simpa using hdone.1
      rcases hnext u hu with ⟨hnone, -⟩ | ⟨c, hc, hcommand, htaken⟩
      · simp [hslot] at hnone
      · simp only [hslot, Option.some.injEq] at hc
        subst hc
        have hus : u.state = t.state := hstate'.trans hstate.symm
        unfold Transfer.Pends
        rw [hcommand, hus]
        intro htransit
        rcases hhandles hquit hbusy with hstop | ⟨-, ⟨hc, hs⟩ | ⟨hc, hs⟩ | ⟨hc, -⟩, hdue⟩
        · exact .inl hstop
        · exact .inr (.inl ⟨hc, hstate.trans hs⟩)
        · exact .inr (.inr ⟨hc, hstate.trans hs⟩)
        · rcases htaken with ⟨-, hkept⟩ | h | h | h
          · exact absurd (hkept.trans (hdue hc)) htransit
          · simp [hc] at h
          · simp [hc] at h
          · simp [hc] at h

theorem writeBuffer_works {r : Round} (hwrites : r.writes 0 = true) (hspace : t.bufBytes ≤ r.spaceLeft 0) :
    writeBuffer r 1 t = .next (t.note (.write 0 (t.fetched - 1) 0 t.bufBytes)) := by
  have hfull : ¬ (!t.utcStartSet ∧ r.spaceLeft 0 < t.bufBytes) := by
    rintro ⟨-, hlt⟩
    omega
  simp only [writeBuffer, forHdus, Outcome.andThen]
  rw [if_neg hfull, if_pos hwrites]

theorem useBuffer_works {r : Round} (hbuf : t.buffer ≠ none) (hdue : t.transitByte = 0)
    (hmark : r.markFilled = true) (hwrites : r.writes 0 = true)
    (hspace : t.bufferSize.toNat ≤ r.spaceLeft 0) :
    ∃ u, useBuffer r 1 t = .next u ∧ u.dataTransferErrorState = t.dataTransferErrorState := by
  unfold useBuffer
  rw [if_neg hbuf]
  dsimp only
  rw [if_neg (by simp [hmark]), writeBuffer_works hwrites]
  · exact ⟨_, rfl, rfl⟩
  · simpa [hdue] using hspace

/-- When a buffer is got and written without fault, the iteration goes on. -/
theorem transferBuffer_delivers (pwcm : PwcClient) (env : Surroundings) (henv : env.delivers pwcm = true)
    (hdue : t.transitByte = 0) (herr : t.dataTransferErrorState ≤ 1) :
    ∃ u, pwcm.transferBuffer env.toRound t = .next u ∧ u.dataTransferErrorState ≤ 1 := by
  unfold Surroundings.delivers at henv
  simp only [Bool.and_eq_true, decide_eq_true_eq, Bool.not_eq_true'] at henv
  obtain ⟨⟨⟨hsize, hnull⟩, hmark⟩, hcalls⟩ := henv
  unfold PwcClient.transferBuffer
  cases hblock : pwcm.blockFunction with
  | none =>
    simp only [hblock, Bool.and_eq_true, decide_eq_true_eq] at hcalls
    obtain ⟨hwrites, hspace⟩ := hcalls
    have hbuf : (getBuffer env.toRound t).buffer ≠ none := by simp [getBuffer, hnull]
    have hsized : (getBuffer env.toRound t).bufferSize = env.size := rfl
    have herr' : (getBuffer env.toRound t).dataTransferErrorState ≤ 1 := by
      simp only [getBuffer]
      split
      · omega
      · exact herr
    obtain ⟨u, hu, hsame⟩ := useBuffer_works (r := env.toRound) hbuf hdue hmark hwrites hspace
    refine ⟨u, ?_, by rw [hsame]; exact herr'⟩
    show transferBuffer _ _ t = _
    unfold transferBuffer
    rw [if_pos (.inl hdue)]
    dsimp only
    rw [hsized, if_neg (by omega), if_neg (by omega)]
    exact hu
  | some blockSize =>
    simp only [hblock, Bool.and_eq_true, decide_eq_true_eq] at hcalls
    obtain ⟨⟨hopens, hle⟩, hclose⟩ := hcalls
    have hcloses : ∀ v : Transfer, ∃ w, closeBlock pwcm.toPwcMain env.toRound v = .next w ∧
        w.dataTransferErrorState = v.dataTransferErrorState := by
      intro v
      unfold closeBlock
      cases hx : pwcm.xferPendingFunction with
      | false =>
        simp only [hx, Bool.false_eq_true, if_false] at hclose
        refine ⟨v.note (.write 0 (v.fetched - 1) 0 v.bufBytes), ?_, rfl⟩
        simp only [Bool.not_false, if_true, hclose]
      | true =>
        simp only [hx, if_true, decide_eq_true_eq] at hclose
        simp only [Bool.not_true, Bool.false_eq_true, if_false]
        split
        · exact ⟨_, rfl, rfl⟩
        · rw [if_neg (by omega)]
          exact ⟨_, rfl, rfl⟩
    show ∃ u, transferBlock _ _ blockSize t = _ ∧ _
    unfold transferBlock
    dsimp only
    rw [if_pos (.inl hdue), if_neg (by simp [hopens]), if_neg (by omega), if_neg (by omega)]
    obtain ⟨w, hw, hsame⟩ := hcloses _
    rw [hw]
    dsimp only [Outcome.andThen]
    rw [if_neg (by simp [hmark])]
    refine ⟨_, rfl, ?_⟩
    show w.dataTransferErrorState ≤ 1
    rw [hsame]
    exact herr

/-- A buffer is got and written without fault while a command for the transfer waits. -/
theorem delivers_of_awaited {env : Surroundings} (hok : Awaited pwcm s (.main env) = true)
    (hphase : s.phase = .transferBuffer t) (hc : Transfers s.primary.state s.primary.command) :
    env.delivers pwcm = true := by
  rcases hc with ⟨hc, -⟩ | ⟨hc, -⟩ | ⟨hc, -⟩ <;> simpa [Awaited, hc, hphase] using hok

/-- Where nothing is due, no state is changed. -/
theorem transit_nothing (pwcm : PwcClient) (r : Round) (hdue : t.transitByte = 0) : pwcm.transit r t = .next t := by
  have hnot : ¬ (t.transitByte ≠ 0 ∧ t.transitByte ≤ t.totalBytesWritten) := fun h => h.1 hdue
  unfold PwcClient.transit
  cases pwcm.blockFunction with
  | none => exact if_neg hnot
  | some blockSize => exact if_neg hnot

theorem Admitted.transferBuffer (hi : Admitted s) (hphase : s.phase = .transferBuffer t)
    {env : Surroundings} (hok : Awaited pwcm s (.main env) = true)
    (h : s.mainStep pwcm env = some s') : Admitted s' := by
  have hfits := hi.fits
  rw [hphase] at hfits
  obtain ⟨hrun, hstate, hpends⟩ := hfits
  have hhandles := hi.handles
  rw [hphase] at hhandles
  rw [mainStep_transferBuffer pwcm env hphase] at h
  cases h
  obtain ⟨hs, hc, hb⟩ := pwcm.transferBuffer_sameChange env.toRound t
  have hdelivers := transferBuffer_delivers pwcm env (t := t)
  generalize pwcm.transferBuffer env.toRound t = o at *
  refine ⟨hi.pending, ?_, ?_⟩
  · show (MainPhase.after _ o).Fits o.transfer.state
    have hrun' : o.transfer.state.Running := by rw [hs, hstate]; exact hrun
    refine Fits.after_piece hrun'.known fun u hu => ?_
    subst hu
    refine ⟨hrun', rfl, ?_⟩
    unfold Transfer.Pends
    rw [show u.transitByte = _ from hb, show u.command = _ from hc, show u.state = _ from hs]
    exact hpends
  · intro hquit hbusy
    show (MainPhase.after _ o).Handles o.transfer.state s.primary.command
    rw [hs, hstate]
    rcases hhandles hquit hbusy with hstop | ⟨herr, hcommand, hdue⟩
    · exact Handles.after_piece hstop fun u => .inl hstop
    · obtain ⟨u, rfl, herr'⟩ := hdelivers (delivers_of_awaited hok hphase hcommand) hdue herr
      exact .inr ⟨herr', hcommand, (show u.transitByte = _ from hb).trans hdue⟩

theorem Admitted.transit (hi : Admitted s) (hphase : s.phase = .transit t)
    {env : Surroundings} (h : s.mainStep pwcm env = some s') : Admitted s' := by
  have hfits := hi.fits
  rw [hphase] at hfits
  obtain ⟨hrun, hstate, hpends⟩ := hfits
  have hhandles := hi.handles
  rw [hphase] at hhandles
  rw [mainStep_transit pwcm env hphase] at h
  cases h
  obtain ⟨hpasses, hnext⟩ := pwcm.transit_settles env.toRound t
  have hnothing := transit_nothing pwcm env.toRound (t := t)
  generalize pwcm.transit env.toRound t = o at *
  have hrun' : o.transfer.state.Running := Passes.running hpasses (by rw [hstate]; exact hrun)
  refine ⟨hi.pending, ?_, ?_⟩
  · show (MainPhase.after _ o).Fits o.transfer.state
    refine Fits.after_piece hrun'.known fun u hu => ?_
    rcases hnext u hu with hzero | rfl
    · subst hu
      exact ⟨hrun', rfl, fun hne => absurd hzero hne⟩
    · subst hu
      exact ⟨hrun', rfl, hpends⟩
  · intro hquit hbusy
    show (MainPhase.after _ o).Handles o.transfer.state s.primary.command
    rcases hhandles hquit hbusy with hstop | ⟨herr, hcommand, hdue⟩
    · exact Handles.after_piece hstop fun u => .inl hstop
    · rw [hnothing hdue]
      exact .inr ⟨herr, (show t.state = _ from hstate) ▸ hcommand, fun _ => hdue⟩

theorem Admitted.act (hi : Admitted s) (hphase : s.phase = .act command) {env : Surroundings}
    (h : s.mainStep pwcm env = some s') : Admitted s' := by
  have hfits := hi.fits
  rw [hphase] at hfits
  obtain ⟨hrest, hprep⟩ := hfits
  have hhandles := hi.handles
  rw [hphase] at hhandles
  simp only [System.mainStep, hphase] at h
  rcases prepareCommand_cases env hprep with ⟨new, hnew, hsteady, heq, hheader⟩ |
    ⟨rval, heq, hc, hstate, hbytes, -⟩
  · rw [heq] at h
    cases h
    obtain ⟨hcommand, hquit⟩ := dadaPwcSetState_frame s.primary new 0
    have hrest' := setState_rests hnew hrest
    refine hi.of_frame rfl hcommand hquit hrest' fun hq hbusy => ?_
    have hh := hhandles hq hbusy
    simp only [MainPhase.Handles] at hh
    split at hh
    · rename_i hc
      -- a header: the state is still prepared when it was
      rcases hh with hh | ⟨hclock, hs, hb⟩
      · exact .inl hh
      · refine .inr ⟨hclock, ?_, hb⟩
        rcases dadaPwcSetState_cases s.primary new 0 with hkept | ⟨-, hset⟩
        · exact hkept.trans hs
        · exact hset.trans (hheader hc)
    · split at hh
      · exact .inl (.inr (.inr hh))
      · exact .inl hh
  · rw [heq] at h
    cases h
    refine ⟨hi.pending, ?_, ?_⟩
    · show MainPhase.Fits s.primary.state (if _ then _ else _)
      split
      · exact .inr hstate
      · exact ⟨hstate, hbytes, hc⟩
    · intro hquit hbusy
      have hh := hhandles hquit hbusy
      have hstop : s.primary.command.code = .stop := by
        simp only [MainPhase.Handles] at hh
        rwa [if_neg (by rcases hc with hc | hc <;> simp [hc]), if_pos hc] at hh
      show MainPhase.Handles s.primary.state s.primary.command (if _ then _ else _)
      split
      · exact .inr (.inr hstop)
      · exact hstop

/-- Every step of the main loop keeps the invariant. -/
theorem Admitted.main (hi : Admitted s) {env : Surroundings} (hok : Awaited pwcm s (.main env) = true)
    (h : s.mainStep pwcm env = some s') :
    Admitted s' := by
  have hpending := hi.pending
  have hfits := hi.fits
  have hhandles := hi.handles
  cases hphase : s.phase with
  | iterate t => exact hi.iterate hphase h
  | transferBuffer t => exact hi.transferBuffer hphase hok h
  | transit t => exact hi.transit hphase h
  | act command => exact hi.act hphase h
  | top =>
    rw [hphase] at hfits hhandles
    have hpending' : ∀ i command, s.pending i = some (.set command) → command.code ≠ .noCommand ∧
        (command.code = .clock → command.byteCount = 0) ∧ (command.code = .exit →
          (s.primary.quit || s.primary.state == .fatalError) = true) := by
      intro i command hp
      obtain ⟨hno, hclock, hexit⟩ := hpending i command hp
      exact ⟨hno, hclock, fun he => by simp [hexit he]⟩
    simp only [System.mainStep, hphase] at h
    split at h
    · cases h
      exact ⟨hpending', trivial, fun _ _ => trivial⟩
    · rename_i hquit
      have hq : s.primary.quit = false := by
        cases hq : s.primary.quit with
        | false => rfl
        | true => simp [hq] at hquit
      split at h
      · cases h
        exact ⟨hpending', .inl hfits, fun _ => hhandles hq⟩
      · cases h
        exact ⟨hpending', .inl hfits, fun _ hbusy => .inl (hhandles hq hbusy)⟩
  | prepare =>
    rw [hphase] at hfits hhandles
    simp only [System.mainStep, hphase] at h
    split at h
    · cases h
      exact ⟨hpending, trivial, fun _ _ => trivial⟩
    · cases h
      exact ⟨hpending, hfits, hhandles⟩
  | wait =>
    rw [hphase] at hfits hhandles
    simp only [System.mainStep, hphase] at h
    rcases commandGet_cases s.primary with ⟨-, hget, -⟩ | ⟨hbusy, -, hget⟩
    · simp [hget] at h
    · rw [hget] at h
      cases h
      refine ⟨hpending, ?_, fun _ hno => absurd rfl hno⟩
      show MainPhase.Fits s.primary.state (if _ then _ else _)
      split
      · trivial
      · rename_i hquit
        exact ⟨hfits, hhandles (by simpa using hquit) hbusy⟩
  | prepareFailed rval =>
    rw [hphase] at hfits hhandles
    simp only [System.mainStep, hphase] at h
    split at h
    · cases h
      exact ⟨hpending, trivial, fun _ _ => trivial⟩
    · cases h
      obtain ⟨hcommand, hquit⟩ := processError_frame s.primary rval
      have hknown : s.primary.state.Known := by
        rcases hfits with h | h
        · exact h.known
        · exact .inr (.inl h)
      exact hi.of_frame rfl hcommand hquit (processError_resting rval hknown) hhandles
  | startTransfer command =>
    rw [hphase] at hfits hhandles
    obtain ⟨hstate, hbytes, hc⟩ := hfits
    simp only [System.mainStep, hphase] at h
    split at h
    · cases h
      exact ⟨hpending, trivial, fun _ _ => trivial⟩
    · cases h
      obtain ⟨hcommand, hquit, hcases⟩ :=
        startTransfer_cases pwcm env s.primary command
      generalize dadaPwcMainStartTransfer pwcm env s.primary command = res at *
      refine hi.of_frame rfl hcommand hquit ?_ fun hq hbusy => ?_
      · show MainPhase.Fits res.2.state (if res.1 < 0 then _ else _)
        rcases hcases with ⟨hneg, hs⟩ | ⟨hzero, hrun⟩
        · rw [if_pos hneg]
          exact .inr (.inl (hs.trans hstate))
        · rw [if_neg (by omega)]
          exact ⟨hrun, hbytes⟩
      · show MainPhase.Handles res.2.state _ (if res.1 < 0 then _ else _)
        split
        · exact .inr (.inr (hhandles hq hbusy))
        · exact .inl (hhandles hq hbusy)
  | enterTransfer command valid utcStartSet =>
    rw [hphase] at hfits hhandles
    obtain ⟨hrun, hbytes⟩ := hfits
    simp only [System.mainStep, hphase] at h
    split at h
    · rename_i hget
      cases h
      refine ⟨hpending, hrun.known, fun hq hbusy => .inr (.inr ?_)⟩
      rcases hhandles hq hbusy with hstop | ⟨hc, -⟩ | ⟨hc, -⟩ | ⟨hc, -⟩
      · exact hstop
      · simp [show env.headerGet = true by simpa [Awaited, hc, hphase] using hok] at hget
      · simp [show env.headerGet = true by simpa [Awaited, hc, hphase] using hok] at hget
      · simp [show env.headerGet = true by simpa [Awaited, hc, hphase] using hok] at hget
    · cases h
      refine ⟨hpending, ⟨hrun, rfl, fun hne => absurd hbytes hne⟩, fun hq hbusy => ?_⟩
      rcases hhandles hq hbusy with hstop | hc
      · exact .inl hstop
      · exact .inr ⟨Nat.zero_le 1, hc, fun _ => hbytes⟩
  | transferFailed rval =>
    rw [hphase] at hfits hhandles
    simp only [System.mainStep, hphase] at h
    cases h
    obtain ⟨hcommand, hquit⟩ := processError_frame s.primary rval
    exact hi.of_frame rfl hcommand hquit (processError_resting rval hfits).known hhandles
  | stopTransfer =>
    rw [hphase] at hfits hhandles
    simp only [System.mainStep, hphase] at h
    cases h
    obtain ⟨hcommand, hquit, hsame, hrest⟩ := stopTransfer_cases env hfits
    generalize dadaPwcMainStopTransfer env s.primary = res at *
    refine hi.of_frame rfl hcommand hquit ?_ fun hq hbusy => ?_
    · show MainPhase.Fits res.2.state (if res.1 < 0 then _ else _)
      split
      · rename_i hneg
        rw [hsame hneg]
        exact hfits
      · exact hrest (by omega)
    · show MainPhase.Handles res.2.state _ (if res.1 < 0 then _ else _)
      split
      · exact hhandles hq hbusy
      · exact hhandles hq hbusy
  | stopFailed rval =>
    rw [hphase] at hfits hhandles
    simp only [System.mainStep, hphase] at h
    cases h
    obtain ⟨hcommand, hquit⟩ := processError_frame s.primary rval
    exact hi.of_frame rfl hcommand hquit (processError_resting rval hfits) hhandles
  | left => simp [System.mainStep, hphase] at h
  | aborted => simp [System.mainStep, hphase] at h

/-- The invariant holds at the beginning. -/
theorem admitted_init (pageSize : ℕ) : Admitted (.init pageSize) := by
  constructor
  · intro i command h
    cases h
  · exact .inl rfl
  · exact fun _ hbusy => absurd rfl hbusy

/-- The invariant holds in every state that is reached. -/
theorem Reached.admitted {pageSize : ℕ}
    (h : Reached (System.step lib pwcm) (fun s m => Awaited pwcm s m = true) (.init pageSize) s) :
    Admitted s := by
  refine h.invariant (admitted_init pageSize) fun s m s' hi hok hstep => ?_
  cases m with
  | begin client cmd args => exact hi.begin hstep
  | finish client => exact hi.finish hok hstep
  | main env => exact hi.main hok hstep

/-! ## What it says of the commands -/

/-- The transitions that the connection allows are documented. -/
theorem documented_of_mayBecome (h : state.mayBecome state' = true) : Documented state state' := by
  cases state with
  | idle =>
    cases state' with
    | prepared => exact .header
    | softError | hardError | fatalError => exact .error (by simp) (by simp)
    | _ => simp [PwcState.mayBecome] at h
  | prepared =>
    cases state' with
    | idle => exact .stop (by simp)
    | clocking => exact .clock
    | recording => exact .start
    | softError | hardError | fatalError => exact .error (by simp) (by simp)
    | _ => simp [PwcState.mayBecome] at h
  | clocking =>
    cases state' with
    | idle => exact .stop (by simp)
    | recording => exact .recStart
    | softError | hardError | fatalError => exact .error (by simp) (by simp)
    | _ => simp [PwcState.mayBecome] at h
  | recording =>
    cases state' with
    | idle => exact .stop (by simp)
    | clocking => exact .recStop
    | softError | hardError | fatalError => exact .error (by simp) (by simp)
    | _ => simp [PwcState.mayBecome] at h
  | softError | hardError =>
    cases state' with
    | idle => exact .reset (by simp)
    | _ => simp [PwcState.mayBecome] at h
  | _ => simp [PwcState.mayBecome] at h

/-- Setting the state is a documented transition, or does nothing. -/
theorem setState_documented (new : PwcState) (utc : ℤ) :
    (dadaPwcSetState primary new utc).2.state = primary.state ∨
      Documented primary.state (dadaPwcSetState primary new utc).2.state := by
  rcases dadaPwcSetState_cases primary new utc with h | ⟨hmay, h⟩
  · exact .inl h
  · rw [h]
    exact .inr (documented_of_mayBecome hmay)

theorem Passes.documented (h : Passes state state') : state' = state ∨ Documented state state' := by
  rcases h with h | ⟨hmay, -⟩
  · exact .inl h
  · exact .inr (documented_of_mayBecome hmay)

/-- A command that the loop handles is taken. -/
theorem takeCommand_handled {r : Round} (state : PwcState) (hc : command.code = .stop ∨ Transfers state command)
    (hslot : r.command = some command) (hr : r.Works) : ∃ u, pwcm.takeCommand r t = .next u := by
  unfold PwcClient.takeCommand takeCommand
  rw [hslot]
  dsimp only
  by_cases hutc : command.code = .setUtcStart
  · have hpos : 0 < command.utc := by
      rcases hc with hc | ⟨hc, -⟩ | ⟨hc, -⟩ | ⟨-, hpos⟩
      · simp [hc] at hutc
      · simp [hc] at hutc
      · simp [hc] at hutc
      · exact hpos
    rw [if_pos hutc]
    simp only [takeUtcStart, hpos, not_true, if_false, hr.headerSet, hr.markFilled, Bool.not_true,
      Bool.false_eq_true, and_false]
    split
    · exact ⟨_, rfl⟩
    · split
      · exact ⟨_, rfl⟩
      · exact ⟨_, rfl⟩
  · have hknown : ¬ (command.code ≠ .recordStop ∧ command.code ≠ .recordStart ∧
        command.code ≠ .stop) := by
      rcases hc with hc | ⟨hc, -⟩ | ⟨hc, -⟩ | ⟨hc, -⟩
      · simp [hc]
      · simp [hc]
      · simp [hc]
      · exact absurd hc hutc
    rw [if_neg hutc, if_neg hknown]
    split
    · exact ⟨_, rfl⟩
    · exact ⟨_, rfl⟩

theorem recordStart_works (pwcm : PwcClient) (t : Transfer) {r : Round} (hr : r.Works) :
    ∃ u, recordStart pwcm.toPwcMain r 1 t = .next u := by
  unfold recordStart
  dsimp only
  generalize (if r.soclockByte (1 - 1) + t.command.byteCount < r.startMinimum (1 - 1) then
    { t with command := { t.command with
      byteCount := usub (r.startMinimum (1 - 1)) (r.soclockByte (1 - 1)) } } else t) = v
  simp only [hr.headerSet, hr.starts, hr.markFilled, checkHeader, hr.headerValid, forHdus,
    Outcome.andThen, Bool.not_true, Bool.false_eq_true, if_true, if_false, ite_self, and_self]
  split
  · exact ⟨_, rfl⟩
  · exact ⟨_, rfl⟩

/-- A change of state that has been waiting takes place. -/
theorem changeState_works {r : Round} (hr : r.Works)
    (hc : (t.command.code = .recordStart ∧ t.state = .clocking) ∨
      (t.command.code = .recordStop ∧ t.state = .recording)) :
    ∃ u, changeState pwcm.toPwcMain r 1 t = .next u ∧ Documented t.state u.state := by
  rcases hc with ⟨hc, hs⟩ | ⟨hc, hs⟩
  · obtain ⟨v, hv⟩ := recordStart_works pwcm t hr
    have hsame := recordStart_state pwcm.toPwcMain r 1 t
    rw [hv] at hsame
    refine ⟨v.setState .recording, by simp [changeState, hc, hv, Outcome.andThen], ?_⟩
    rw [Transfer.setState, show v.state = .clocking from hsame.trans hs, hs]
    exact .recStart
  · refine ⟨(t.note (.stop 0)).setState .clocking, ?_, ?_⟩
    · simp [changeState, hc, forHdus, Outcome.andThen, hr.stops]
    · rw [Transfer.setState, show (t.note (.stop 0)).state = .recording from hs, hs]
      exact .recStop

/-- What a step of the main loop does to the state. -/
theorem Admitted.main_passes (hi : Admitted s) {env : Surroundings}
    (h : s.mainStep pwcm env = some s') :
    s'.primary.state = s.primary.state ∨ Documented s.primary.state s'.primary.state := by
  have hfits := hi.fits
  cases hphase : s.phase with
  | iterate t =>
    rw [hphase] at hfits
    simp only [System.mainStep, hphase] at h
    split at h
    · cases h
      exact .inl rfl
    · have hsame := (pwcm.takeCommand_cases
      { env.toRound with command := s.primary.slot } t).1.trans hfits.2.1
      split at h
      · cases h
        exact .inl hsame
      · cases h
        exact .inl hsame
  | transferBuffer t =>
    rw [hphase] at hfits
    rw [mainStep_transferBuffer pwcm env hphase] at h
    cases h
    exact .inl ((pwcm.transferBuffer_sameChange _ t).1.trans hfits.2.1)
  | transit t =>
    rw [hphase] at hfits
    rw [mainStep_transit pwcm env hphase] at h
    cases h
    have hpasses := (pwcm.transit_settles env.toRound t).passes
    rw [Outcome.Ends, hfits.2.1] at hpasses
    exact Passes.documented hpasses
  | act command =>
    rw [hphase] at hfits
    simp only [System.mainStep, hphase] at h
    rcases prepareCommand_cases env hfits.2 with ⟨new, -, -, heq, -⟩ | ⟨rval, heq, -⟩
    · rw [heq] at h
      cases h
      exact setState_documented new 0
    · rw [heq] at h
      cases h
      exact .inl rfl
  | startTransfer command =>
    rw [hphase] at hfits
    simp only [System.mainStep, hphase] at h
    split at h
    · cases h
      exact .inl rfl
    · cases h
      show (dadaPwcMainStartTransfer pwcm env s.primary command).2.state = _ ∨
        Documented _ (dadaPwcMainStartTransfer pwcm env s.primary command).2.state
      rcases (startTransfer_cases pwcm env s.primary command).2.2 with
        ⟨-, hs⟩ | ⟨-, hs⟩
      · exact .inl hs
      · rw [hfits.1]
        rcases hs with hs | hs
        · rw [hs]
          exact .inr .clock
        · rw [hs]
          exact .inr .start
  | stopTransfer =>
    simp only [System.mainStep, hphase] at h
    cases h
    show (dadaPwcMainStopTransfer env s.primary).2.state = _ ∨
      Documented _ (dadaPwcMainStopTransfer env s.primary).2.state
    unfold dadaPwcMainStopTransfer
    split
    · exact .inl rfl
    · split
      · exact .inl rfl
      · split
        · exact setState_documented _ _
        · exact .inl rfl
  | prepareFailed rval =>
    simp only [System.mainStep, hphase] at h
    split at h
    · cases h
      exact .inl rfl
    · cases h
      exact setState_documented _ _
  | transferFailed rval =>
    simp only [System.mainStep, hphase] at h
    cases h
    exact setState_documented _ _
  | stopFailed rval =>
    simp only [System.mainStep, hphase] at h
    cases h
    exact setState_documented _ _
  | top =>
    simp only [System.mainStep, hphase] at h
    split at h
    · cases h
      exact .inl rfl
    · split at h
      · cases h
        exact .inl rfl
      · cases h
        exact .inl rfl
  | prepare =>
    simp only [System.mainStep, hphase] at h
    split at h
    · cases h
      exact .inl rfl
    · cases h
      exact .inl rfl
  | wait =>
    simp only [System.mainStep, hphase] at h
    rcases commandGet_cases s.primary with ⟨-, hget, -⟩ | ⟨-, -, hget⟩
    · simp [hget] at h
    · rw [hget] at h
      cases h
      exact .inl rfl
  | enterTransfer command valid utcStartSet =>
    simp only [System.mainStep, hphase] at h
    split at h
    · cases h
      exact .inl rfl
    · cases h
      exact .inl rfl
  | left => simp [System.mainStep, hphase] at h
  | aborted => simp [System.mainStep, hphase] at h

theorem Admitted.passes (hi : Admitted s) (m : Move) (h : s.step lib pwcm m = some s') :
    s'.primary.state = s.primary.state ∨ Documented s.primary.state s'.primary.state := by
  cases m with
  | begin client cmd args =>
    simp only [System.step] at h
    split at h
    · cases h
    · cases h
      exact .inl (cmd.begin_frame _ _ _).1
  | finish client =>
    simp only [System.step] at h
    split at h
    · cases h
    · split at h
      · cases h
      · rename_i hfin
        cases h
        rcases Pending.finish_cases hfin with ⟨rfl, -⟩ | ⟨c, -, -, -, rfl, -⟩ | ⟨n, -, -, -, rfl, -⟩
        · exact .inl rfl
        · exact .inl rfl
        · exact .inl rfl
  | main env => exact hi.main_passes h

/-- **Commands are admitted soundly** while each of them is accepted when the main loop awaits it. -/
theorem awaited_sound (lib : Scanner) (pwcm : PwcClient) (pageSize : ℕ) (s : System)
    (h : Reached (System.step lib pwcm) (fun s m => Awaited pwcm s m = true) (.init pageSize) s) :
    Sound lib pwcm s := by
  have hi : Admitted s := Reached.admitted h
  have hfits := hi.fits
  have hhandles := hi.handles
  constructor
  · intro command env primary rval hphase hopen hrval
    rw [hphase] at hfits
    rcases prepareCommand_cases env hfits.2 with ⟨new, -, -, heq, -⟩ | ⟨rval', heq, -, -, -, hzero⟩
    · rw [heq] at hrval
      cases hrval
    · rw [heq] at hrval
      cases hrval
      exact hzero hopen
  · intro command env hphase hutc hr
    rw [hphase] at hfits
    exact startTransfer_works hfits.1 hfits.2.2 hutc hr
  · intro t command r hphase hquit herr hslot hcommand hr
    rw [hphase] at hhandles
    rcases commandGet_cases s.primary with ⟨-, -, hnone⟩ | ⟨hbusy, hsome, -⟩
    · rw [hnone] at hslot
      cases hslot
    · rw [hsome] at hslot
      cases hslot
      refine takeCommand_handled s.primary.state ?_ hcommand hr
      rcases hhandles hquit hbusy with hstop | ⟨-, hc, -⟩
      · exact .inl hstop
      · exact .inr hc
  · intro t r hphase htransit hr
    rw [hphase] at hfits
    rcases hfits.2.2 htransit with hc | hc
    · exact .inl hc
    · exact .inr (changeState_works hr hc)
  · exact fun m s' hs => hi.passes m hs

/-- Surroundings in which every call succeeds. -/
def Surroundings.smooth (size : ℕ) : Surroundings where
  toRound := .smooth none size
  ready := true
  ipcioOpen := true
  startFunction := 100
  headerGet := true
  newXfer := 0
  stopFunction := true
  ipcioClose := true

/-- A scanner that finds a sampling interval in every header and one time in every argument. -/
def Scanner.sampled : Scanner :=
  { Scanner.blank with rate := fun _ _ => some 48, strptime := fun _ => some 101 }

/-- A client that writes buffers. -/
def PwcClient.plain : PwcClient := ⟨.plain, none⟩

/-- A control client calls a command function from its beginning to its end. -/
def clientCall (client : ℕ) (cmd : Control) (args : Option String) : List Move :=
  [.begin client cmd args, .finish client]

/-- The main loop takes so many steps. -/
def mainSteps (n : ℕ) : List Move := List.replicate n (.main (.smooth 4))

/-- The loop that transfers the data looks for a command and finds one. -/
def System.finds (s : System) (code : CommandCode) : Bool :=
  !s.primary.quit && s.primary.command.code == code &&
    match s.phase with
    | .iterate t => t.dataTransferErrorState ≤ 1
    | _ => false

/-- A client that is clocking is told to record while it gets a buffer. -/
theorem awaited_sound_recStart :
    ∃ s : System, s.finds .recordStart = true ∧ Sound .sampled .plain s := by
  obtain ⟨s, hs, hp⟩ := exists_reached_of_foldlM
    (System.step .sampled .plain) (fun s m => Awaited .plain s m = true)
    (fun s => s.finds .recordStart) (.init 4096)
    (mainSteps 2 ++ clientCall 0 .header (some "") ++ mainSteps 3 ++ clientCall 0 .clock none ++
      mainSteps 5 ++ clientCall 1 .recStart (some "") ++ mainSteps 2) (by decide)
  exact ⟨s, hp, awaited_sound .sampled .plain 4096 s hs⟩

/-- Two clients ask for clocking, the second before the state has become clocking: the loop that transfers
the data finds a command that it does not expect. -/
theorem clock_unexpected :
    ∃ s, Reached (System.step .sampled .plain) (fun _ _ => True) (.init 4096) s ∧
      ¬ Sound .sampled .plain s := by
  obtain ⟨s, hs, hp⟩ := exists_reached_of_foldlM
    (System.step .sampled .plain) (fun _ _ => True) (fun s => s.finds .clock) (.init 4096)
    (mainSteps 2 ++ clientCall 0 .header (some "") ++ mainSteps 3 ++ clientCall 0 .clock none ++
      mainSteps 1 ++ clientCall 1 .clock none ++ mainSteps 3) (by decide)
  refine ⟨s, hs, fun hsound => ?_⟩
  simp only [System.finds, Bool.and_eq_true, beq_iff_eq, Bool.not_eq_true'] at hp
  obtain ⟨⟨hquit, hclock⟩, hfinds⟩ := hp
  cases hphase : s.phase with
  | iterate t =>
    simp only [hphase, decide_eq_true_eq] at hfinds
    have hslot : s.primary.slot = some s.primary.command := if_neg (by simp [hclock])
    obtain ⟨u, hu⟩ := hsound.takes t s.primary.command (.smooth (some s.primary.command) 4) hphase
      hquit hfinds hslot rfl ⟨rfl, rfl, rfl, fun _ => rfl, fun _ => rfl⟩
    simp [PwcClient.takeCommand, takeCommand, Round.smooth, hclock] at hu
  | _ => simp [hphase] at hfinds

end Admission

end Psrdada
