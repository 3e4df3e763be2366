import Psrdada.Concurrency.Runs
import Mathlib.Logic.Function.Basic
import Mathlib.Data.List.Perm.Basic
import Mathlib.Data.Nat.Notation

/-! # Waiting for a completion

A connection has a completion queue for what it sends and one for what it receives, each with a channel
of its own for events.  `dada_ib_wait_cq` waits for the completion of one buffer: it takes an event, asks
for the next one, polls a single entry, and sets an entry of another buffer aside in the one slot of the
connection.

The queues follow the rules of the verbs: a queue that is armed posts one event for the next completion
that arrives, and is armed no more.  The calls into the library succeed; acknowledging events has no
effect here. -/

namespace Psrdada

/-- The two completion queues of a connection. -/
inductive CqSide
  | send
  | recv
  deriving DecidableEq

/-- A completion, numbered in the order of arrival. -/
structure Completion where
  /-- The queue it arrives on. -/
  queue : CqSide
  /-- The buffer it is for. -/
  wrId : ℕ
  /-- Whether its status is `IBV_WC_SUCCESS`. -/
  success : Bool
  /-- Its number. -/
  number : ℕ
  deriving DecidableEq

/-- What is read of a `struct ibv_wc`. -/
structure WorkCompletion where
  /-- `wr_id`. -/
  wrId : ℕ
  /-- Whether `status` is `IBV_WC_SUCCESS`. -/
  success : Bool
  deriving DecidableEq

/-- A completion queue with its channel. -/
structure CompletionQueue where
  /-- What has arrived and was not polled, oldest first. -/
  entries : List Completion
  /-- Whether the next completion posts an event. -/
  armed : Bool
  /-- The events in the channel. -/
  events : ℕ
  deriving DecidableEq

/-- A completion arrives. -/
def CompletionQueue.push (cq : CompletionQueue) (c : Completion) : CompletionQueue where
  entries := cq.entries ++ [c]
  armed := false
  events := if cq.armed then cq.events + 1 else cq.events

/-- Where a call stands, with its queue and the `wr_id` of its buffer. -/
inductive WaitStage
  | idle
  | getEvent (q : CqSide) (mb : ℕ)
  | reqNotify (q : CqSide) (mb : ℕ)
  | pollCq (q : CqSide) (mb : ℕ)
  deriving DecidableEq

/-- The end of a call: whether it reports success, and the completion that this is read from, if there is
one. -/
structure WaitResult where
  /-- The queue of the call. -/
  queue : CqSide
  /-- The buffer of the call. -/
  wrId : ℕ
  /-- Whether the call returns 0. -/
  success : Bool
  /-- The completion. -/
  source : Option Completion
  deriving DecidableEq

/-- A connection.  The last four fields are a record of what has happened. -/
structure IbCm where
  /-- `send_cq` and `recv_cq`. -/
  cq : CqSide → CompletionQueue
  /-- `buffered_cqe`. -/
  bufferedCqe : Bool
  /-- `buffered_cqe_wr_id`. -/
  bufferedCqeWrId : ℕ
  /-- The call that is going on. -/
  stage : WaitStage
  /-- The completion that is set aside. -/
  setAside : Option Completion
  /-- The calls that have returned, the last one first. -/
  results : List WaitResult
  /-- All completions that have arrived. -/
  arrived : List Completion
  /-- Whether a work completion was looked at that had not been filled in. -/
  unfilled : Bool

namespace IbCm

/-- A connection whose queues were armed by `dada_ib_create_verbs`. -/
def init : IbCm where
  cq _ := ⟨[], true, 0⟩
  bufferedCqe := false
  bufferedCqeWrId := 0
  stage := .idle
  setAside := none
  results := []
  arrived := []
  unfilled := false

/-- A call returns. -/
def giveBack (s : IbCm) (q : CqSide) (mb : ℕ) (success : Bool) (source : Option Completion) : IbCm :=
  { s with stage := .idle, results := ⟨q, mb, success, source⟩ :: s.results }

/-- The beginning of `dada_ib_wait_cq`: the completion may have been set aside by an earlier call. -/
def begin (s : IbCm) (q : CqSide) (mb : ℕ) : IbCm :=
  if s.bufferedCqe = true ∧ s.bufferedCqeWrId = mb then
    { s with bufferedCqe := false, bufferedCqeWrId := 0, setAside := none }.giveBack q mb true s.setAside
  else { s with stage := .getEvent q mb }

/-- What the loop does after `ibv_poll_cq` with what stands in `wc`. -/
def judge (s : IbCm) (q : CqSide) (mb : ℕ) (wc : WorkCompletion) (source : Option Completion) : IbCm :=
  if wc.success = false then s.giveBack q mb false source
  else if wc.wrId ≠ mb then
    -- give up if we have to buffer more than 1 CQE
    if s.bufferedCqe = true then s.giveBack q mb false source
    else
      { s with
        bufferedCqe := true
        bufferedCqeWrId := wc.wrId
        setAside := source
        stage := .getEvent q mb }
  else s.giveBack q mb true source

/-- What can happen next. -/
inductive Action
  /-- A completion arrives. -/
  | arrive (q : CqSide) (wrId : ℕ) (success : Bool)
  /-- `dada_ib_wait_send` or `dada_ib_wait_recv` is called. -/
  | call (q : CqSide) (mb : ℕ)
  /-- `ibv_get_cq_event` returns. -/
  | event
  /-- `ibv_req_notify_cq`. -/
  | arm
  /-- `ibv_poll_cq` returns one entry. -/
  | poll
  /-- `ibv_poll_cq` returns none, and `wc` is whatever it was before. -/
  | pollNothing (wc : WorkCompletion)

/-- One step, if it is possible. -/
def step (s : IbCm) : Action → Option IbCm
  | .arrive q wrId success =>
      let c : Completion := ⟨q, wrId, success, s.arrived.length⟩
      some { s with cq := Function.update s.cq q ((s.cq q).push c), arrived := s.arrived ++ [c] }
  | .call q mb => if s.stage = .idle then some (s.begin q mb) else none
  | .event =>
      match s.stage with
      | .getEvent q mb =>
          if 0 < (s.cq q).events then
            some { s with
              cq := Function.update s.cq q { s.cq q with events := (s.cq q).events - 1 }
              stage := .reqNotify q mb }
          else none
      | _ => none
  | .arm =>
      match s.stage with
      | .reqNotify q mb =>
          some { s with
            cq := Function.update s.cq q { s.cq q with armed := true }
            stage := .pollCq q mb }
      | _ => none
  | .poll =>
      match s.stage with
      | .pollCq q mb =>
          match (s.cq q).entries with
          | [] => none
          | c :: rest =>
              some ({ s with cq := Function.update s.cq q { s.cq q with entries := rest } }.judge q mb
                ⟨c.wrId, c.success⟩ (some c))
      | _ => none
  | .pollNothing wc =>
      match s.stage with
      | .pollCq q mb => some ({ s with unfilled := true }.judge q mb wc none)
      | _ => none

end IbCm

end Psrdada
