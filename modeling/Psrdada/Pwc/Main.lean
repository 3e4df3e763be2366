import Psrdada.Pwc.Agreement
import Psrdada.Concurrency.Runs
import Mathlib.Logic.Function.Basic

/-! # `dada_pwc_main`: the main loop and its control clients

The main loop of a primary write client and any number of control clients share the control connection.
A control client calls one command function after the other, which does its work in two steps
(`Control.begin` and `Pending.finish`).  The main loop goes from one phase to the next; within the loop
that transfers the data it looks for a command, gets a buffer and changes state in three steps, so that
a client may come in between.

A `System` keeps a log of what has been reported, which no routine reads. -/

namespace Psrdada

/-- A primary write client: its callbacks, and the size of the blocks of the data block when the block
function is set. -/
structure PwcClient extends PwcMain where
  /-- `block_function` -/
  blockFunction : Option ℕ

/-- What happens around the main loop during one of its steps. -/
structure Surroundings extends Round where
  /-- Whether the next header block is got and the data block is closed. -/
  ready : Bool
  /-- Whether `ipcio_open` succeeds. -/
  ipcioOpen : Bool
  /-- What the start function returns. -/
  startFunction : ℤ
  /-- Whether `ascii_header_get` of `UTC_START` succeeds. -/
  headerGet : Bool
  /-- What the new-transfer function returns, `0` without one. -/
  newXfer : ℕ
  /-- Whether the stop function succeeds. -/
  stopFunction : Bool
  /-- Whether `ipcio_close` succeeds. -/
  ipcioClose : Bool

/-- Where the main loop is. -/
inductive MainPhase
  /-- At the top of the loop of `dada_pwc_main`. -/
  | top
  /-- At the top of the loop of `dada_pwc_main_prepare`. -/
  | prepare
  /-- In `dada_pwc_command_get` of that loop. -/
  | wait
  /-- With the command that it has got there. -/
  | act (command : PwcCommand)
  /-- `dada_pwc_main_prepare` has returned an error. -/
  | prepareFailed (rval : ℤ)
  /-- `dada_pwc_main_prepare` has returned with a command that starts a transfer. -/
  | startTransfer (command : PwcCommand)
  /-- `dada_pwc_main_start_transfer` has returned. -/
  | enterTransfer (command : PwcCommand) (headerValid utcStartSet : Bool)
  /-- At the top of the loop that transfers the data. -/
  | iterate (t : Transfer)
  /-- In that loop, where the command has been looked for. -/
  | transferBuffer (t : Transfer)
  /-- In that loop, where the buffer has been got. -/
  | transit (t : Transfer)
  /-- The transfer has ended with an error. -/
  | transferFailed (rval : ℤ)
  /-- In front of `dada_pwc_main_stop_transfer`. -/
  | stopTransfer
  /-- `dada_pwc_main_stop_transfer` has returned an error. -/
  | stopFailed (rval : ℤ)
  /-- `dada_pwc_main` has returned. -/
  | left
  /-- An assertion has failed. -/
  | aborted

/-- What has been reported. -/
inductive Report
  /-- `dada_pwc_command_set` has accepted a command. -/
  | accepted (command : PwcCommand)
  /-- `dada_pwc_cmd_duration` has succeeded. -/
  | durationSet (byteCount : ℕ)
  /-- The main loop has taken a command. -/
  | taken (command : PwcCommand)
  /-- A transfer begins. -/
  | began (command : PwcCommand)
  /-- A transfer has ended. -/
  | ended
  deriving DecidableEq

/-- The main loop, the connection and its clients. -/
structure System where
  /-- The control connection. -/
  primary : Pwc
  /-- What each control client has left to do under the mutex. -/
  pending : ℕ → Option Pending
  /-- Where the main loop is. -/
  phase : MainPhase
  /-- What has been reported. -/
  log : List Report

/-- The system at the beginning, when the connection has just been created. -/
def System.init (pageSize : ℕ) : System where
  primary := .create pageSize
  pending _ := none
  phase := .top
  log := []

/-- What a command function reports when it returns. -/
def Pending.report (ret : ℤ) : Pending → List Report
  | .done _ => []
  | .set command => if ret = 0 then [.accepted command] else []
  | .duration byteCount => if ret = 0 then [.durationSet byteCount] else []

/-! ## The functions of the main loop -/

/-- In `dada_pwc_main_prepare`: what is done with a command, and the value that the function returns;
`none` when its loop goes on. -/
def prepareCommand (env : Surroundings) (primary : Pwc) (command : PwcCommand) : Pwc × Option ℤ :=
  match command.code with
  | .reset => ((dadaPwcSetState primary .idle 0).2, none)
  | .header => ((dadaPwcSetState primary .prepared 0).2, none)
  | .clock =>
    if command.byteCount ≠ 0 then (primary, some dadaErrorSoft)
    else if !env.ipcioOpen then (primary, some dadaErrorHard)
    else (primary, some 0)
  | .start => if !env.ipcioOpen then (primary, some dadaErrorHard) else (primary, some 0)
  | .stop => ((dadaPwcSetState primary .idle 0).2, none)
  | _ => (primary, some dadaErrorHard)

/-- Whether `dada_pwc_main_start_transfer` finds the header valid: it looks when recording starts. -/
def startHeaderValid (pwcm : PwcClient) (env : Surroundings) (command : PwcCommand) : Bool :=
  command.code = .start ∧ checkHeader pwcm.toPwcMain env.toRound

/-- `dada_pwc_main_start_transfer` -/
def dadaPwcMainStartTransfer (pwcm : PwcClient) (env : Surroundings) (primary : Pwc)
    (command : PwcCommand) : ℤ × Pwc :=
  let utc := env.startFunction
  if utc < 0 then (dadaErrorHard, primary)
  else if !env.headerSet then (dadaErrorSoft, primary)
  else
    let primary := if 0 < utc then { primary with utcStart := utc } else primary
    if startHeaderValid pwcm env command ∧ !env.markFilled then (dadaErrorHard, primary)
    else if command.code = .clock then dadaPwcSetState primary .clocking utc
    else if command.code = .start then dadaPwcSetState primary .recording utc
    else (dadaErrorHard, primary)

/-- In `dada_pwc_main_process_error`: the state that an error leads to. -/
def errorState (state : PwcState) (rval : ℤ) : PwcState :=
  if rval = dadaErrorSoft then
    if state ≠ .hardError ∧ state ≠ .fatalError then .softError else state
  else if rval = dadaErrorHard then if state ≠ .fatalError then .hardError else state
  else .fatalError

/-- `dada_pwc_main_process_error` -/
def dadaPwcMainProcessError (primary : Pwc) (rval : ℤ) : Pwc :=
  (dadaPwcSetState primary (errorState primary.state rval) 0).2

/-- `dada_pwc_main_stop_transfer` -/
def dadaPwcMainStopTransfer (env : Surroundings) (primary : Pwc) : ℤ × Pwc :=
  if !env.stopFunction then (dadaErrorHard, primary)
  else if !env.ipcioClose then (dadaErrorFatal, primary)
  else if primary.state ≠ .softError ∧ primary.state ≠ .hardError ∧ primary.state ≠ .fatalError then
    (0, (dadaPwcSetState primary .idle 0).2)
  else (0, primary)

/-! ## Steps -/

section Steps

variable (lib : Scanner) (pwcm : PwcClient) (env : Surroundings)

/-- How the main loop goes on after a piece of an iteration. -/
def MainPhase.after (next : Transfer → MainPhase) : Outcome → MainPhase
  | .next t => next t
  | .ret rval _ => if rval < 0 then .transferFailed rval else .stopTransfer
  | .abort _ => .aborted

/-- The connection after a piece of an iteration, which may have set its state. -/
def Pwc.after (primary : Pwc) (o : Outcome) : Pwc := { primary with state := o.transfer.state }

/-- The command in the slot. -/
def Pwc.slot (primary : Pwc) : Option PwcCommand :=
  if primary.command.code = .noCommand then none else some primary.command

/-- The piece of an iteration that looks for a command. -/
def PwcClient.takeCommand (r : Round) (t : Transfer) : Outcome :=
  Psrdada.takeCommand pwcm.toPwcMain r (if pwcm.blockFunction = none then immediateTotal else id) t

/-- The piece of an iteration that gets a buffer. -/
def PwcClient.transferBuffer (r : Round) (t : Transfer) : Outcome :=
  match pwcm.blockFunction with
  | none => Psrdada.transferBuffer pwcm.toPwcMain r t
  | some blockSize => transferBlock pwcm.toPwcMain r blockSize t

/-- The piece of an iteration that changes state. -/
def PwcClient.transit (r : Round) (t : Transfer) : Outcome :=
  match pwcm.blockFunction with
  | none => Psrdada.transit pwcm.toPwcMain r t
  | some _ => transitBlock pwcm.toPwcMain r t

/-- One iteration of `dada_pwc_main_transfer_data` or `dada_pwc_main_transfer_data_block`. -/
def PwcClient.iteration (r : Round) (t : Transfer) : Outcome :=
  match pwcm.blockFunction with
  | none => dadaPwcMainRound pwcm.toPwcMain r t
  | some blockSize => dadaPwcMainBlockRound pwcm.toPwcMain r blockSize t

/-- One step of the main loop; `none` while it waits for a command, and when it has been left. -/
def System.mainStep (s : System) : Option System :=
  match s.phase with
  | .top =>
    -- a fatal state at the end of the loop, then the condition of the loop
    let primary := { s.primary with quit := s.primary.quit || s.primary.state == .fatalError }
    if primary.quit then some { s with primary := primary, phase := .left }
    else if !env.ready then
      some { s with primary := primary, phase := .prepareFailed dadaErrorHard }
    else some { s with primary := primary, phase := .prepare }
  | .prepare => if s.primary.quit then some { s with phase := .left } else some { s with phase := .wait }
  | .wait =>
    match dadaPwcCommandGet s.primary with
    | none => none
    | some (command, primary) =>
      some { s with
        primary := primary
        phase := if primary.quit then .left else .act command
        log := s.log ++ [.taken command] }
  | .act command =>
    match prepareCommand env s.primary command with
    | (primary, none) => some { s with primary := primary, phase := .prepare }
    | (primary, some rval) =>
      some { s with
        primary := primary
        phase := if rval < 0 then .prepareFailed rval else .startTransfer command }
  | .prepareFailed rval =>
    if s.primary.quit then some { s with phase := .left }
    else some { s with primary := dadaPwcMainProcessError s.primary rval, phase := .top }
  | .startTransfer command =>
    if s.primary.quit then some { s with phase := .left }
    else
      let (rval, primary) := dadaPwcMainStartTransfer pwcm env s.primary command
      some { s with
        primary := primary
        phase := if rval < 0 then .transferFailed rval
          else .enterTransfer command (startHeaderValid pwcm env command) (0 < env.startFunction) }
  | .enterTransfer command headerValid utcStartSet =>
    if !env.headerGet then some { s with phase := .transferFailed dadaErrorHard }
    else
      some { s with
        phase := .iterate (.enter s.primary.state command headerValid utcStartSet env.newXfer)
        log := s.log ++ [.began command] }
  | .iterate t =>
    if s.primary.quit ∨ t.dataTransferErrorState > 1 then some { s with phase := .stopTransfer }
    else
      let o := pwcm.takeCommand { env.toRound with command := s.primary.slot } t
      match dadaPwcCommandGet s.primary with
      | none => some { s with primary := s.primary.after o, phase := .after .transferBuffer o }
      | some (command, primary) =>
        some { s with
          primary := primary.after o
          phase := .after .transferBuffer o
          log := s.log ++ [.taken command] }
  | .transferBuffer t =>
    let o := pwcm.transferBuffer env.toRound t
    some { s with primary := s.primary.after o, phase := .after .transit o }
  | .transit t =>
    let o := pwcm.transit env.toRound t
    some { s with primary := s.primary.after o, phase := .after .iterate o }
  | .transferFailed rval =>
    some { s with primary := dadaPwcMainProcessError s.primary rval, phase := .stopTransfer }
  | .stopTransfer =>
    let (rval, primary) := dadaPwcMainStopTransfer env s.primary
    some { s with
      primary := primary
      phase := if rval < 0 then .stopFailed rval else .top
      log := s.log ++ [.ended] }
  | .stopFailed rval =>
    some { s with primary := dadaPwcMainProcessError s.primary rval, phase := .top }
  | .left => none
  | .aborted => none

/-- Who takes the next step. -/
inductive Move
  /-- A control client calls a command function, which reads its argument. -/
  | begin (client : ℕ) (cmd : Control) (args : Option String)
  /-- A control client does its work under the mutex. -/
  | finish (client : ℕ)
  /-- The main loop. -/
  | main (env : Surroundings)

/-- One step; `none` while the one who takes it is blocked. -/
def System.step (s : System) : Move → Option System
  | .begin client cmd args =>
    match s.pending client with
    | some _ => none
    | none =>
      let (primary, pending) := cmd.begin lib s.primary args
      some { s with
        primary := primary
        pending := Function.update s.pending client (some pending) }
  | .finish client =>
    match s.pending client with
    | none => none
    | some pending =>
      match pending.finish s.primary with
      | none => none
      | some (ret, primary) =>
        some { s with
          primary := primary
          pending := Function.update s.pending client none
          log := s.log ++ pending.report ret }
  | .main env => s.mainStep pwcm env

end Steps

end Psrdada
