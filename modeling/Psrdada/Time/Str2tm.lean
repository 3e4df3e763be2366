import Psrdada.Header.CString
import Psrdada.Pwc.Control

/-! # `str2tm` (`tmutil.c`): a date from a string

The string is copied and cut after the beginning of its sixth field of digits, or after its fourteenth
digit.  Then the fields are taken from the end: what follows the last digit is cut off, one or two digits
are read, and the field is cut off in turn.  A read or a write outside the copy has no result. -/

namespace Psrdada

open CString

/-! ## The copy -/

/-- The character that ends a C string. -/
def nul : Char := Char.ofNat 0

/-- `strdup`: the characters and the end of the string. -/
def strdup (str : Text) : List Char := str ++ [nul]

/-- `temp[i] = c` -/
def storeChar (temp : List Char) (i : ℕ) (c : Char) : Option (List Char) :=
  if i < temp.length then some (temp.set i c) else none

/-- The string that begins at `temp + i`; it has to end within the copy. -/
def stringFrom (temp : List Char) (i : ℕ) : Option Text :=
  if nul ∈ temp.drop i then some ((temp.drop i).takeWhile (· ≠ nul)) else none

/-- `sscanf` with `%wd`: white space, then at most `width` characters of a number. -/
def scanIntWidth (width : ℕ) (text : Text) : Option ℤ :=
  let (negative, text) := match (text.dropWhile isspace).take width with
    | '-' :: rest => (true, rest)
    | '+' :: rest => (false, rest)
    | text => (false, text)
  let digits := text.takeWhile Char.isDigit
  if digits = [] then none
  else some (if negative then -(digitsValue digits : ℤ) else digitsValue digits)

/-! ## Cutting the string off -/

/-- The counters of the first loop. -/
structure FieldCounter where
  /-- `infield`: the last character was a digit -/
  infield : Bool
  /-- `field_count` -/
  fieldCount : ℕ
  /-- `digits` -/
  digits : ℕ
  deriving DecidableEq, Repr

namespace FieldCounter

/-- The counters before the loop. -/
def init : FieldCounter where
  infield := false
  fieldCount := 0
  digits := 0

/-- The counters after one more character. -/
def step (n : FieldCounter) (c : Char) : FieldCounter :=
  if c.isDigit then
    { infield := true
      fieldCount := if n.infield then n.fieldCount else n.fieldCount + 1
      digits := n.digits + 1 }
  else { n with infield := false }

/-- The counters after a text. -/
def of (text : Text) : FieldCounter := text.foldl step init

end FieldCounter

/-- The first loop over `temp[trav]`, …: where the end of the string is put, if anywhere. -/
def cutIndex (trav : ℕ) (n : FieldCounter) : List Char → Option (Option ℕ)
  | [] => none
  | c :: rest =>
    if c = nul then some none
    else
      let n := n.step c
      -- currently in the seconds field
      if n.fieldCount = 6 then some (some (trav + 2))
      -- enough digits for a date
      else if n.digits = 14 then some (some (trav + 1))
      else cutIndex (trav + 1) n rest

/-- The copy after the first loop. -/
def cutString (temp : List Char) : Option (List Char) := do
  match ← cutIndex 0 FieldCounter.init temp with
  | none => return temp
  | some i => storeChar temp i nul

/-! ## The fields, from the end -/

/-- `while ((endstr>=0) && !isdigit(temp[endstr])) endstr --`, for `endstr + 1`. -/
def trimEnd (temp : List Char) : ℕ → Option ℕ
  | 0 => some 0
  | endstr + 1 => do
    if (← temp[endstr]?).isDigit then return endstr + 1
    else trimEnd temp endstr

/-- The characters up to `temp[e - 1]` that are no digits at the end are cut off; none where no digit is
left. -/
def cutEnd (temp : List Char) (e : ℕ) : Option (Option (List Char × ℕ)) := do
  match ← trimEnd temp e with
  | 0 => return none
  | e + 1 => return some (← storeChar temp (e + 1) nul, e + 1)

/-- Where the last field of one or two digits begins, for `endstr + 1`. -/
def twoDigits (temp : List Char) : ℕ → Option ℕ
  | 0 => some 0
  | 1 => some 0
  | e + 2 => do
    if (← temp[e]?).isDigit then return e
    else return e + 1

/-- The last field is parsed: its number, the copy, and where the field begins; none where no digit is
left. -/
def lastField (temp : List Char) (e : ℕ) : Option (Option (ℤ × List Char × ℕ)) := do
  match ← cutEnd temp e with
  | none => return none
  | some (temp, e) =>
    let trav ← twoDigits temp e
    return some ((scanIntWidth 2 (← stringFrom temp trav)).getD 0, temp, trav)

/-- `while ((trav >= 0) && (endstr-trav < n) && isdigit(temp[trav])) trav--`, for `trav + 1`. -/
def backDigits (temp : List Char) : ℕ → ℕ → Option ℕ
  | 0, e => some e
  | _ + 1, 0 => some 0
  | n + 1, e + 1 => do
    if (← temp[e]?).isDigit then backDigits temp n e
    else return e + 1

/-- The year is parsed. -/
def lastYear (temp : List Char) (e : ℕ) : Option (Option ℤ) := do
  match ← cutEnd temp e with
  | none => return none
  | some (temp, e) =>
    let trav ← backDigits temp 4 e
    return some ((scanIntWidth 4 (← stringFrom temp trav)).getD 0)

/-! ## str2tm -/

/-- The fields of `struct tm` that are parsed. -/
structure Tm where
  tmYear : ℤ
  tmMon : ℤ
  tmMday : ℤ
  tmHour : ℤ
  tmMin : ℤ
  tmSec : ℤ
  deriving DecidableEq, Repr

/-- What `str2tm` returns. -/
inductive Str2tm
  /-- `-1`: there is no digit. -/
  | failed (time : Tm)
  /-- `0`: there are fewer than six fields. -/
  | short (time : Tm)
  /-- What `mktime` makes of the fields. -/
  | mktime (time : Tm)
  deriving DecidableEq, Repr

/-- The year is stored since 1900; a year of two digits before 30 is one of the next century. -/
def storedYear (year : ℤ) : ℤ :=
  let year := if year > 1900 then year - 1900 else year
  if year < 30 then year + 100 else year

/-- `str2tm`, up to the call of `mktime`. -/
def str2tm (str : Text) : Option Str2tm := do
  let time : Tm := { tmYear := 0, tmMon := 0, tmMday := 0, tmHour := 0, tmMin := 0, tmSec := 0 }
  let temp ← cutString (strdup str)
  let endstr := (← stringFrom temp 0).length
  match ← lastField temp (endstr + 1) with
  | none => return .failed time
  | some (sec, temp, trav) =>
  let time := { time with tmSec := sec }
  match ← lastField temp trav with
  | none => return .short time
  | some (min, temp, trav) =>
  let time := { time with tmMin := min }
  match ← lastField temp trav with
  | none => return .short time
  | some (hour, temp, trav) =>
  let time := { time with tmHour := hour }
  match ← lastField temp trav with
  | none => return .short time
  | some (mday, temp, trav) =>
  let time := { time with tmMday := mday }
  match ← lastField temp trav with
  | none => return .short time
  | some (mon, temp, trav) =>
  -- month is stored 0->11 in struct tm
  let time := { time with tmMon := mon - 1 }
  match ← lastYear temp trav with
  | none => return .short time
  | some year => return .mktime { time with tmYear := storedYear year }

end Psrdada
