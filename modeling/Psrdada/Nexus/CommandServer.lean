import Mathlib.Algebra.Ring.Nat
import Mathlib.Algebra.Ring.Int.Defs
import Psrdada.Nexus.Stdio

/-! # A server of commands and the node that sends to it

`command_parser` reads a command in one line, runs its handler, which writes what it likes to the
stream, and ends the reply by a line `ok` or `fail` and the prompt.  `node_recv` reads such a reply line
by line into one buffer: it peeks at the character behind each line and stops at the prompt. -/

namespace CommandReplies

open CString Stdio

/-! ## The parser of commands -/

/-- A command that a parser knows.  Its handler is given the arguments, if there are any, and the state
of the program; it returns a status and leaves what it wrote and the program's next state. -/
structure Command (σ : Type) where
  /-- `name` -/
  name : Text
  /-- `cmd (context, out, arguments)` -/
  cmd : Option Text → σ → ℤ × Text × σ

/-- `COMMAND_PARSE_EXIT` -/
def commandParseExit : ℤ := 13

/-- The characters that separate the words of a command: `" \r\t\n"`. -/
def whitespace (c : Char) : Bool := c = ' ' || c = '\r' || c = '\t' || c = '\n'

/-- `command_parse_output`: none where it follows the null pointer that `strsep` leaves behind the last
word of a command. -/
def commandParseOutput {σ : Type} (cmds : List (Command σ)) (cmd : Text) (context : σ) :
    Option (ℤ × Text × σ) :=
  let cmd := cmd.dropWhile whitespace
  let key := cmd.takeWhile fun c => !whitespace c
  match cmds.find? fun command => command.name = key with
  | none => some (-1, [], context)
  | some command =>
    match cmd.dropWhile fun c => !whitespace c with
    | [] => none
    | _ :: rest =>
      -- the white space before the arguments is skipped and the one behind them is cut
      let arguments := (rest.dropWhile whitespace).rdropWhile whitespace
      some (command.cmd (if arguments = [] then none else some arguments) context)

/-! ## The server -/

/-- `server->ok` and `server->fail` -/
def statusLine (ret : ℤ) : Text :=
  if ret < 0 then ['f', 'a', 'i', 'l', '\n'] else ['o', 'k', '\n']

/-- `server->prompt` -/
def prompt : Text := ['>', ' ']

/-- The thread `command_parser` of one connection. -/
structure Server (σ : Type) where
  /-- The commands of `server->parser`. -/
  cmds : List (Command σ)
  /-- The state of the program that the handlers work on. -/
  context : σ
  /-- `parser->input` -/
  input : Stream
  /-- The thread is in its loop. -/
  serving : Bool

/-- The loop of `command_parser` from behind a prompt until it waits for a command or ends: what it
writes.  Every turn reads a command, so as many turns as there are characters are enough. -/
def commandParser {σ : Type} : ℕ → Server σ → Text × Server σ
  | 0, server => ([], server)
  | turns + 1, server =>
    if ¬server.serving then ([], server)
    else
      match fgets 4096 server.input with
      | .waits => ([], server)
      | .eof => ([], { server with serving := false })
      | .got buffer input =>
        match commandParseOutput server.cmds buffer server.context with
        | none => ([], { server with input, serving := false })
        | some (ret, output, context) =>
          if ret = commandParseExit then (output, { server with context, input, serving := false })
          else
            let next := commandParser turns { server with context, input }
            (output ++ statusLine ret ++ prompt ++ next.1, next.2)

/-! ## The reader of replies -/

/-- How a call ends that does not return. -/
inductive Stuck
  /-- The library is given the null pointer that `fgets` returned. -/
  | nullPointer
  /-- It waits for characters that have not arrived. -/
  | waits
  /-- It repeats one turn of its loop. -/
  | loops
  deriving DecidableEq, Repr

/-- What `node_recv` returns and leaves behind. -/
structure Reply where
  /-- The value that is returned. -/
  status : ℤ
  /-- The string in the buffer. -/
  buffer : Text
  /-- The number of characters of the buffer that have been stored to. -/
  stored : ℕ
  /-- `node->from` -/
  stream : Stream
  deriving DecidableEq, Repr

/-- What the loop of `node_recv` leaves: the string in the buffer is `before` and behind it, where `buf`
points to, `line`. -/
structure Lines where
  before : Text
  line : Text
  stored : ℕ
  stream : Stream
  deriving DecidableEq, Repr

/-- The loop of `node_recv`.  A turn that reads nothing repeats itself, so one turn for each character
and one for the end of the file are enough. -/
def readLines (size : ℤ) : ℕ → Text → ℕ → Stream → Except Stuck Lines
  | 0, _, _, _ => .error .loops
  | turns + 1, before, stored, stream =>
    match fgets size stream with
    | .waits => .error .waits
    | .eof =>
      match fgetc stream with
      | .waits => .error .waits
      | _ => .error .nullPointer
    | .got chunk stream =>
      let line := chunk.takeWhile (· ≠ nul)
      let stored := max stored (before.length + chunk.length + 1)
      match fgetc stream with
      | .waits => .error .waits
      | .eof => readLines size turns (before ++ line) stored stream
      | .got c next =>
        if c = '>' then .ok ⟨before, line, stored, next⟩
        -- as a `char` this one is `EOF`, which `ungetc` does not put back
        else if c = 'ÿ' then readLines size turns (before ++ line) stored next
        else readLines size turns (before ++ line) stored stream

/-- An `unsigned` of 32 bits given where an `int` is taken. -/
def toInt (size : ℕ) : ℤ := if size < 2 ^ 31 then size else size - 2 ^ 32

theorem toInt_of_lt {size : ℕ} (h : size < 2 ^ 31) : toInt size = size :=
  if_pos h

attribute [irreducible] toInt

/-- What `node_recv` does behind its loop. -/
def finish (lines : Lines) : Except Stuck Reply :=
  -- the space following the prompt
  match fgetc lines.stream with
  | .waits => .error .waits
  | got =>
    let stream := match got with | .got _ next => next | _ => lines.stream
    let line := replaceFirst '\r' '\n' lines.line
    if (strstr (statusLine (-1)) line).isSome then
      .ok ⟨-1, lines.before ++ line, lines.stored, stream⟩
    else
      let line := match strstr (statusLine 0) line with | some n => line.take n | none => line
      .ok ⟨0, cutLast '\n' (lines.before ++ line), lines.stored, stream⟩

/-- `node_recv (node, buffer, size)` -/
def nodeRecv (size : ℕ) (stream : Stream) : Except Stuck Reply :=
  (readLines (toInt size) (stream.pending.length + 1) [] 0 stream).bind finish

/-! ## A node of a nexus and the server it is connected to -/

/-- A node, the connection and the server at its other end. -/
structure Node (σ : Type) where
  server : Server σ
  /-- `node->from` -/
  stream : Stream
  /-- How many more characters the peer delivers before it disconnects, if it does. -/
  room : Option ℕ

namespace Node

variable {σ : Type}

/-- A node that has read the prompt of its server. -/
def connected (cmds : List (Command σ)) (context : σ) (room : Option ℕ) : Node σ where
  server := ⟨cmds, context, ⟨[], false⟩, true⟩
  stream := ⟨[], false⟩
  room := room

/-- `node_send`: the command and a newline are written to the server. -/
def nodeSend (command : Text) (node : Node σ) : Node σ :=
  let input := node.server.input
  { node with server := { node.server with
      input := { input with pending := input.pending ++ command ++ ['\n'] } } }

/-- What the server writes arrives as far as the connection lasts. -/
def deliver (written : Text) (node : Node σ) : Node σ :=
  match node.room with
  | none => { node with stream := { node.stream with pending := node.stream.pending ++ written } }
  | some k =>
    { node with
      stream := ⟨node.stream.pending ++ written.take k, node.stream.closed || k < written.length⟩
      room := some (k - written.length) }

/-- The server answers what it has been sent, and closes the connection when its loop has ended. -/
def answer (node : Node σ) : Node σ :=
  let served := commandParser (node.server.input.pending.length + 1) node.server
  let node := deliver served.1 { node with server := served.2 }
  { node with stream := { node.stream with closed := node.stream.closed || !served.2.serving } }

/-- What `nexus_send` does with one of its nodes: `node_send` in its first loop and `node_recv` in its
second.  The nodes share nothing but the buffer, which each `node_recv` fills from its start. -/
def nexusSend (size : ℕ) (command : Text) (node : Node σ) : Except Stuck Reply × Node σ :=
  let node := answer (nodeSend command node)
  match nodeRecv size node.stream with
  | .ok reply => (.ok reply, { node with stream := reply.stream })
  | .error stuck => (.error stuck, node)

end Node

/-- A command that a node has been sent, with the node before and after. -/
structure Exchange (σ : Type) where
  command : Text
  before : Node σ
  received : Except Stuck Reply
  after : Node σ

/-- The exchanges of a sequence of commands, up to the first that does not end. -/
def exchanges {σ : Type} (size : ℕ) (node : Node σ) : List Text → List (Exchange σ)
  | [] => []
  | command :: commands =>
    let sent := node.nexusSend size command
    ⟨command, node, sent.1, sent.2⟩ ::
      if sent.1.isOk then exchanges size sent.2 commands else []

end CommandReplies
