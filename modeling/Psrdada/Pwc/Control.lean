import Mathlib.Algebra.Ring.Nat
import Mathlib.Algebra.Ring.Int.Defs
import Mathlib.Data.Nat.Notation
import Mathlib.Data.Int.Notation

/-! # `dada_pwc.c`: the control connection of a primary write client

A control client sends textual commands.  Each command function first reads its argument, outside the
mutex of the connection (`Control.begin`), and then does its work under the mutex once the command
slot is free (`Pending.finish`); the main loop empties the slot (`dadaPwcCommandGet`) and reports its
state (`dadaPwcSetState`).

The scanning of header keywords and of times is a parameter, since it rests on `sscanf` of floating
point numbers and on `strptime`.  Messages to the client are left out. -/

namespace Psrdada

/-! ## Data -/

/-- The states in which the primary write client may be found (`dada_pwc_state_t`). -/
inductive PwcState
  | undefined | pending | idle | prepared | clocking | recording | softError | hardError | fatalError
  deriving DecidableEq, Repr

/-- The commands that may be issued to the primary write client. -/
inductive CommandCode
  | noCommand | header | clock | recordStart | recordStop | start | stop | setUtcStart | reset | exit
  deriving DecidableEq, Repr

/-- A command in the slot (`dada_pwc_command_t`). -/
structure PwcCommand where
  /-- The command code. -/
  code : CommandCode
  /-- The UTC associated with the command. -/
  utc : ℤ
  /-- The duration (in bytes) associated with the command. -/
  byteCount : ℕ
  /-- Whether it points to the header of the connection. -/
  header : Bool
  deriving DecidableEq, Repr

/-- `DADA_PWC_COMMAND_INIT` -/
def PwcCommand.init : PwcCommand where
  code := .noCommand
  utc := 0
  byteCount := 0
  header := false

/-- The control connection (`dada_pwc_t`). -/
structure Pwc where
  /-- Flag to quit. -/
  quit : Bool
  /-- The state of the primary write client. -/
  state : PwcState
  /-- When true, convert times and sample counts to bytes. -/
  convertToBytes : Bool
  /-- Used to convert times to bytes. -/
  bytesPerSecond : ℕ
  /-- Used to convert samples to bytes. -/
  bitsPerSample : ℕ
  /-- The byte resolution associated with the data. -/
  byteResolution : ℕ
  /-- The UTC of the first time sample in the ring buffer. -/
  utcStart : ℤ
  /-- The currently queued command. -/
  command : PwcCommand
  /-- The ASCII header received via the connection. -/
  header : String
  /-- The size of the ASCII header. -/
  headerSize : ℕ
  deriving DecidableEq, Repr

/-- `dada_pwc_create`, where a header has the size of a page. -/
def Pwc.create (pageSize : ℕ) : Pwc where
  quit := false
  state := .idle
  convertToBytes := true
  bytesPerSecond := 0
  bitsPerSample := 0
  byteResolution := 0
  utcStart := 0
  command := .init
  header := ""
  headerSize := pageSize

/-! ## The command slot -/

/-- Whether a command is accepted in a state (the `switch` of `dada_pwc_command_set`). -/
def PwcState.admits (state : PwcState) : CommandCode → Bool
  | .header => state == .idle
  | .clock => state == .prepared
  | .recordStart => state == .clocking
  | .recordStop => state == .recording
  | .start => state == .prepared
  -- always allow stop
  | .stop => true
  | .setUtcStart => state == .clocking || state == .recording
  | .reset => state == .softError || state == .hardError
  | .exit => state == .idle
  | .noCommand => true

/-- Set the command state; `none` while it waits for the slot to be free. -/
def dadaPwcCommandSet (primary : Pwc) (command : PwcCommand) : Option (ℤ × Pwc) :=
  if primary.command.code ≠ .noCommand then none
  else if primary.state.admits command.code then some (0, { primary with command := command })
  else some (-1, primary)

/-- Get the next command from the connection; `none` while there is none. -/
def dadaPwcCommandGet (primary : Pwc) : Option (PwcCommand × Pwc) :=
  if primary.command.code = .noCommand then none
  else some (primary.command,
    { primary with command := { primary.command with code := .noCommand, byteCount := 0 } })

/-- Whether the primary write client may go from one state to another (the `switch` of
`dada_pwc_set_state`). -/
def PwcState.mayBecome : PwcState → PwcState → Bool
  | .idle, new =>
    new == .prepared || new == .softError || new == .hardError || new == .fatalError
  | .prepared, new =>
    new == .idle || new == .clocking || new == .recording || new == .softError ||
      new == .hardError || new == .fatalError
  | .clocking, new =>
    new == .recording || new == .idle || new == .softError || new == .hardError ||
      new == .fatalError
  | .recording, new =>
    new == .clocking || new == .idle || new == .softError || new == .hardError ||
      new == .fatalError
  | .softError, new => new == .idle
  | .hardError, new => new == .idle
  | .fatalError, _ => false
  | .undefined, _ => false
  | .pending, _ => false

/-- Acknowledge the last command received: the state that the primary write client has entered, and
the UTC time at which it was entered. -/
def dadaPwcSetState (primary : Pwc) (newState : PwcState) (utc : ℤ) : ℤ × Pwc :=
  if primary.state.mayBecome newState then
    (0, { primary with
      utcStart := if primary.state = .prepared then utc else primary.utcStart
      state := newState })
  else (-1, primary)

/-! ## Reading the arguments -/

/-- Conversion to `uint64_t`. -/
def toUInt64 (n : ℤ) : ℕ := (n % 2 ^ 64).toNat

/-- Conversion to `unsigned`. -/
def toUnsigned (n : ℤ) : ℕ := (n % 2 ^ 32).toNat

/-- The library calls that read headers and times. -/
structure Scanner where
  /-- `ascii_header_get` of an integer: header and keyword; `none` where it fails. -/
  get : String → String → Option ℤ
  /-- `ascii_header_get` of `TSAMP`, and the bits per second that follow from it and the number of bits
  in a million samples; `none` where it fails. -/
  rate : String → ℕ → Option ℕ
  /-- `ascii_header_set` of a number. -/
  set : String → String → ℕ → String
  /-- `strptime` with the format of a UTC, then `timegm`; `none` where `strptime` fails. -/
  strptime : String → Option ℤ
  /-- What `timegm` makes of a `struct tm` that `strptime` has not filled. -/
  unfilled : String → ℤ

/-- The digits at the head of a text and what follows them. -/
def scanDigits : List Char → List Char × List Char := List.span Char.isDigit

/-- The value of a string of digits. -/
def digitsValue (digits : List Char) : ℕ :=
  digits.foldl (fun n c => 10 * n + (c.toNat - '0'.toNat)) 0

/-- The conversion of an unsigned number by `sscanf`: leading white space and a sign may precede the
digits, and too large a number becomes the largest. -/
def scanUnsigned (text : List Char) : Option (ℕ × List Char) :=
  let text := text.dropWhile Char.isWhitespace
  let (negative, text) := match text with
    | '-' :: rest => (true, rest)
    | '+' :: rest => (false, rest)
    | _ => (false, text)
  let (digits, rest) := scanDigits text
  if digits = [] then none
  else
    let value := min (digitsValue digits) (2 ^ 64 - 1)
    some (if negative then toUInt64 (-value) else value, rest)

/-- `sscanf` with `%u:%u:%u`. -/
def scanTime (args : String) : Option (ℕ × ℕ × ℕ) := do
  let (hh, rest) ← scanUnsigned args.toList
  let rest ← match rest with
    | ':' :: rest => some rest
    | _ => none
  let (mm, rest) ← scanUnsigned rest
  let rest ← match rest with
    | ':' :: rest => some rest
    | _ => none
  let (ss, _) ← scanUnsigned rest
  return (hh % 2 ^ 32, mm % 2 ^ 32, ss % 2 ^ 32)

variable (lib : Scanner)

/-- `str2utctime`: whether `strptime` has failed is not looked at. -/
def str2utctime (str : String) : ℤ := (lib.strptime str).getD (lib.unfilled str)

/-- `dada_pwc_parse_time`: `0` when there is no argument. -/
def dadaPwcParseTime (args : Option String) : ℤ :=
  match args with
  | none => 0
  | some args =>
    let utc := str2utctime lib args
    if utc = -1 then -1 else utc

/-- An unsigned number of a header, or what is assumed when it is missing. -/
def headerNumber (header key : String) (missing : ℤ) : ℕ :=
  toUnsigned ((lib.get header key).getD missing)

/-- In `dada_pwc_parse_bytes_per_second`: the bits per sample that a header gives. -/
def headerBitsPerSample (header : String) : ℕ :=
  headerNumber lib header "NBIT" 8 * headerNumber lib header "NPOL" 2 *
    headerNumber lib header "NDIM" 1 % 2 ^ 32

/-- In `dada_pwc_parse_bytes_per_second`: the bits per second that a header gives; `none` when it has no
sampling interval. -/
def headerBitsPerSecond (header : String) : Option ℕ :=
  lib.rate header (1000000 * headerBitsPerSample lib header *
    headerNumber lib header "NCHAN" 1 * headerNumber lib header "NANT" 1 % 2 ^ 64)

/-- `dada_pwc_parse_bytes_per_second`: the result, and the connection with what has been read. -/
def dadaPwcParseBytesPerSecond (primary : Pwc) (header : String) : ℤ × Pwc :=
  let primary := { primary with
    byteResolution := headerNumber lib header "RESOLUTION" 1
    bitsPerSample := headerBitsPerSample lib header }
  match headerBitsPerSecond lib header with
  | none => (-1, { primary with bytesPerSecond := 0 })
  | some bitsPerSecond => (0, { primary with bytesPerSecond := bitsPerSecond / 8 })

/-- `dada_pwc_parse_duration`: a number of bytes, `0` for failure. -/
def dadaPwcParseDuration (primary : Pwc) (args : String) : ℕ :=
  match scanTime args with
  | some (hh, mm, ss) =>
    if primary.bytesPerSecond = 0 then 0
    else if mm > 59 then 0
    else if ss > 59 then 0
    else (hh * 3600 + 60 * mm + ss) * primary.bytesPerSecond % 2 ^ 64
  | none =>
    match scanUnsigned args.toList with
    | some (count, _) =>
      if primary.bitsPerSample = 0 then 0
      else count * primary.bitsPerSample % 2 ^ 64 / 8
    | none => 0

/-- The byte at which to execute a command of a UTC, rounded to the nearest resolution boundary. -/
def commandByte (primary : Pwc) (command : PwcCommand) : ℕ :=
  let byteCount := toUInt64 (command.utc - primary.utcStart) * primary.bytesPerSecond % 2 ^ 64
  if primary.byteResolution > 1 then
    -- round down to the start of the packet, or to its end if stopping
    let packets := byteCount / primary.byteResolution
    let byteCount := packets * primary.byteResolution
    if command.code = .recordStop ∨ command.code = .stop then
      (byteCount + primary.byteResolution) % 2 ^ 64
    else byteCount
  else byteCount

/-- `dada_pwc_command_set_byte_count`: the command with its byte count, `none` for failure. -/
def dadaPwcCommandSetByteCount (primary : Pwc) (command : PwcCommand) : Option PwcCommand :=
  if !primary.convertToBytes then some { command with byteCount := 0 }
  else if command.utc = 0 then some { command with byteCount := 0 }
  else if primary.utcStart = 0 then none
  else if primary.bytesPerSecond = 0 then none
  else if command.utc < primary.utcStart then some { command with utc := 0, byteCount := 0 }
  else some { command with byteCount := commandByte primary command }

/-! ## The command functions -/

/-- What a command function has left to do under the mutex, once it has read its argument. -/
inductive Pending
  /-- Nothing: it returns a value. -/
  | done (ret : ℤ)
  /-- `dada_pwc_command_set` of a command. -/
  | set (command : PwcCommand)
  /-- `dada_pwc_cmd_duration`: set the duration of the next recording. -/
  | duration (byteCount : ℕ)
  deriving DecidableEq, Repr

/-- What a command function does under the mutex: its value and the connection; `none` while it waits
for the slot to be free. -/
def Pending.finish (primary : Pwc) : Pending → Option (ℤ × Pwc)
  | .done ret => some (ret, primary)
  | .set command => dadaPwcCommandSet primary command
  | .duration byteCount =>
    if primary.command.code ≠ .noCommand then none
    else if primary.state = .recording then some (-1, primary)
    else some (0, { primary with command := { primary.command with byteCount := byteCount } })

/-- A command whose argument is a UTC, with the byte count that belongs to it. -/
def timedCommand (primary : Pwc) (command : PwcCommand) : Pending :=
  match dadaPwcCommandSetByteCount primary command with
  | none => .done (-1)
  | some command => .set command

/-- In `dada_pwc_cmd_header`: `\` stands for a new line. -/
def headerText (args : String) : String := args.map fun c => if c = '\\' then '\n' else c

/-- In `dada_pwc_cmd_header`: the header as it is stored, with a new line at its end where there is
room and the bytes per second. -/
def storedHeader (headerSize : ℕ) (text : String) (bytesPerSecond : ℕ) : String :=
  let text :=
    if text.toList.getLast? ≠ some '\n' ∧ text.length + 1 < headerSize then text ++ "\n" else text
  lib.set text "BYTES_PER_SECOND" bytesPerSecond

/-- `dada_pwc_cmd_header` -/
def dadaPwcCmdHeader (primary : Pwc) (args : Option String) : Pwc × Pending :=
  match args with
  | none => (primary, .done (-1))
  | some args =>
    if args.length > primary.headerSize then (primary, .done (-1))
    else
      let (rc, primary) := dadaPwcParseBytesPerSecond lib primary (headerText args)
      if rc < 0 then (primary, .done (-1))
      else
        ({ primary with
            header :=
              storedHeader lib primary.headerSize (headerText args) primary.bytesPerSecond },
          .set { PwcCommand.init with code := .header, header := true })

/-- `dada_pwc_cmd_duration` -/
def dadaPwcCmdDuration (primary : Pwc) (args : Option String) : Pwc × Pending :=
  match args with
  | none => (primary, .done (-1))
  | some args =>
    let byteCount := dadaPwcParseDuration primary args
    if byteCount = 0 then (primary, .done (-1)) else (primary, .duration byteCount)

/-- `dada_pwc_cmd_clock` -/
def dadaPwcCmdClock (primary : Pwc) : Pwc × Pending :=
  (primary, .set { PwcCommand.init with code := .clock })

/-- `dada_pwc_cmd_record_start` -/
def dadaPwcCmdRecordStart (primary : Pwc) (args : Option String) : Pwc × Pending :=
  let utc := dadaPwcParseTime lib args
  if utc = 0 then (primary, .done (-1))
  else (primary, timedCommand primary { PwcCommand.init with code := .recordStart, utc })

/-- `dada_pwc_cmd_record_stop` -/
def dadaPwcCmdRecordStop (primary : Pwc) (args : Option String) : Pwc × Pending :=
  let utc := dadaPwcParseTime lib args
  if utc = 0 then (primary, .done (-1))
  else (primary, timedCommand primary { PwcCommand.init with code := .recordStop, utc })

/-- `dada_pwc_cmd_start`: the duration is taken from the slot, outside the mutex. -/
def dadaPwcCmdStart (primary : Pwc) (args : Option String) : Pwc × Pending :=
  (primary, .set { PwcCommand.init with
    code := .start, utc := dadaPwcParseTime lib args, byteCount := primary.command.byteCount })

/-- `dada_pwc_cmd_stop` -/
def dadaPwcCmdStop (primary : Pwc) (args : Option String) : Pwc × Pending :=
  (primary, timedCommand primary
    { PwcCommand.init with code := .stop, utc := dadaPwcParseTime lib args })

/-- `dada_pwc_cmd_set_utc_start` -/
def dadaPwcCmdSetUtcStart (primary : Pwc) (args : Option String) : Pwc × Pending :=
  let utc := dadaPwcParseTime lib args
  let primary := { primary with utcStart := utc }
  (primary, timedCommand primary { PwcCommand.init with code := .setUtcStart, utc })

/-- `dada_pwc_cmd_reset` -/
def dadaPwcCmdReset (primary : Pwc) : Pwc × Pending :=
  (primary, .set { PwcCommand.init with code := .reset })

/-- `dada_pwc_cmd_quit` -/
def dadaPwcCmdQuit (primary : Pwc) : Pwc × Pending :=
  ({ primary with quit := true }, .set { PwcCommand.init with code := .exit })

/-- The commands that the parser of the connection knows, `state` apart. -/
inductive Control
  | header | duration | start | stop | clock | recStart | recStop | setUtcStart | quit | reset
  deriving DecidableEq, Repr

/-- What a command function does before it takes the mutex. -/
def Control.begin (primary : Pwc) (args : Option String) : Control → Pwc × Pending
  | .header => dadaPwcCmdHeader lib primary args
  | .duration => dadaPwcCmdDuration primary args
  | .start => dadaPwcCmdStart lib primary args
  | .stop => dadaPwcCmdStop lib primary args
  | .clock => dadaPwcCmdClock primary
  | .recStart => dadaPwcCmdRecordStart lib primary args
  | .recStop => dadaPwcCmdRecordStop lib primary args
  | .setUtcStart => dadaPwcCmdSetUtcStart lib primary args
  | .quit => dadaPwcCmdQuit primary
  | .reset => dadaPwcCmdReset primary

/-- A whole call of a command function, when nobody else touches the connection meanwhile: its value
and the connection; `none` while it waits for the slot to be free. -/
def Control.call (primary : Pwc) (args : Option String) (cmd : Control) : Option (ℤ × Pwc) :=
  let (primary, pending) := cmd.begin lib primary args
  pending.finish primary

end Psrdada
