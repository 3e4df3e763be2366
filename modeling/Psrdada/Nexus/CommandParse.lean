import Psrdada.Memory.Slots
import Psrdada.Nexus.CommandServer

/-! # `command_parse`: a table of commands and the lines that call them

The table is a block of entries that grows when a command is added and is compacted when one is removed.
A line is cut into its first word and its arguments in place: `strsep` writes a zero over the character
behind the word, and the white space at the end of the arguments is written over as well. -/

namespace CommandParse

open CString Stdio CommandReplies

/-! ## The table -/

/-- `command_parse_t` -/
structure Parser (σ : Type) where
  /-- `cmds` -/
  cmds : List (Option (Command σ))
  /-- `ncmd`, an unsigned of 32 bits -/
  ncmd : ℕ

variable {σ : Type}

/-- A table without commands: `command_parse_create` adds `help` and `exit` to it. -/
def empty : Parser σ where
  cmds := []
  ncmd := 0

/-- `command_parse_add`: a name of none is the null pointer. -/
def commandParseAdd (parser : Parser σ) (cmd : Option Text → σ → ℤ × Text × σ) (name : Option Text) :
    Option (ℤ × Parser σ) :=
  match name with
  | none => some (-1, parser)
  | some name =>
    let n := (parser.ncmd + 1) % 2 ^ 32
    -- of no bytes `realloc` returns the null pointer, against the assertion
    if n = 0 then none
    else
      (Slots.store (Slots.realloc parser.cmds n) parser.ncmd ⟨name, cmd⟩).map fun cmds => (0, ⟨cmds, n⟩)

/-- The loop of `command_parse_remove` that finds the entry: `ncmd` when there is none. -/
def findLoop (parser : Parser σ) (key : Text) : ℕ → ℕ → Option ℕ
  | 0, icmd => some icmd
  | turns + 1, icmd =>
    (Slots.load parser.cmds icmd).bind fun command =>
      if key = command.name then some icmd else findLoop parser key turns (icmd + 1)

/-- `command_parse_remove` -/
def commandParseRemove (parser : Parser σ) (key : Text) : Option (ℤ × Parser σ) :=
  (findLoop parser key parser.ncmd 0).bind fun icmd =>
    if icmd = parser.ncmd then some (-1, parser)
    else
      let ncmd := parser.ncmd - 1
      (Slots.shiftDown (ncmd - icmd) icmd parser.cmds).map fun cmds => (0, ⟨cmds, ncmd⟩)

/-! ## The line -/

/-- Going forward in a buffer over the characters that `p` accepts: where it stops, if it does so within
the buffer. -/
def scan (p : Char → Bool) (buffer : List Char) : ℕ → ℕ → Option ℕ
  | 0, _ => none
  | turns + 1, i => buffer[i]?.bind fun c => if p c then scan p buffer turns (i + 1) else some i

/-- The string at a place of a buffer. -/
def stringAt (buffer : List Char) (i : ℕ) : Text := (buffer.drop i).takeWhile (· ≠ nul)

/-- `strsep (&cmd, whitespace)`: the buffer, and the next value of `cmd`. -/
def strsep (buffer : List Char) (cmd : ℕ) : Option (List Char × Option ℕ) :=
  (scan (fun c => c ≠ nul && !whitespace c) buffer buffer.length cmd).bind fun i =>
    buffer[i]?.map fun c => if c = nul then (buffer, none) else (buffer.set i nul, some (i + 1))

/-- The loop that cuts trailing white space, from `key` back to `cmd`. -/
def cutLoop (cmd : ℕ) : ℕ → List Char → Option (List Char)
  | 0, buffer => some buffer
  | key + 1, buffer =>
    if cmd < key + 1 then
      buffer[key + 1]?.bind fun c =>
        if whitespace c then cutLoop cmd key (buffer.set (key + 1) nul) else some buffer
    else some buffer

/-- The arguments that a handler is given: none is the null pointer. -/
def arguments (buffer : List Char) (cmd : ℕ) : Option (Option Text) :=
  (scan whitespace buffer buffer.length cmd).bind fun cmd =>
    (scan (· ≠ nul) buffer buffer.length cmd).bind fun i =>
      (cutLoop cmd (i - 1) buffer).bind fun buffer =>
        buffer[cmd]?.map fun c => if c = nul then none else some (stringAt buffer cmd)

/-- The loop of `command_parse_output` over the table. -/
def dispatch (parser : Parser σ) (buffer : List Char) (key : ℕ) (cmd : Option ℕ) (context : σ) :
    ℕ → ℕ → Option (ℤ × Text × σ)
  | 0, _ => some (-1, [], context)
  | turns + 1, icmd =>
    (Slots.load parser.cmds icmd).bind fun command =>
      if stringAt buffer key = command.name then
        -- without delimiter behind the word, `cmd` is the null pointer here
        cmd.bind fun cmd => (arguments buffer cmd).map fun args => command.cmd args context
      else dispatch parser buffer key cmd context turns (icmd + 1)

/-- `command_parse_output`: the status that is returned, what the handler has written and the state it
has left. -/
def commandParseOutput (parser : Parser σ) (cmd : Text) (context : σ) : Option (ℤ × Text × σ) :=
  let buffer := cmd ++ [nul]
  (scan whitespace buffer buffer.length 0).bind fun key =>
    (strsep buffer key).bind fun r => dispatch parser r.1 key r.2 context parser.ncmd 0

/-! ## Scanning -/

/-- A scan stops behind the characters that it accepts. -/
theorem scan_eq {p : Char → Bool} {w : Text} (hw : ∀ c ∈ w, p c) {c : Char} (hc : ¬p c) (s : Text) :
    ∀ (pre : Text) (turns : ℕ), w.length < turns →
      scan p (pre ++ w ++ c :: s) turns pre.length = some (pre ++ w).length := by
  induction w with
  | nil =>
    intro pre turns hturns
    obtain ⟨turns, rfl⟩ : ∃ n, turns = n + 1 := ⟨turns - 1, by simp at hturns; omega⟩
    simp [scan, hc]
  | cons d w ih =>
    intro pre turns hturns
    obtain ⟨turns, rfl⟩ : ∃ n, turns = n + 1 := ⟨turns - 1, by simp at hturns; omega⟩
    have hd : p d := hw d List.mem_cons_self
    have := ih (fun c hc => hw c (List.mem_cons_of_mem _ hc)) (pre ++ [d]) turns
      (by simpa using hturns)
    have hget : (pre ++ d :: w ++ c :: s)[pre.length]? = some d := by
      rw [List.append_assoc, List.getElem?_append_right le_rfl]
      simp
    rw [List.append_assoc pre [d] w, List.singleton_append, List.length_append, List.length_singleton]
      at this
    rw [scan, hget, Option.bind_some, if_pos hd, this]

/-- The string at a place ends at the first zero. -/
theorem stringAt_eq {w : Text} (hw : nul ∉ w) (pre s : Text) :
    stringAt (pre ++ w ++ nul :: s) pre.length = w := by
  rw [stringAt, List.append_assoc, List.drop_left,
    List.takeWhile_append_of_pos fun c hc => by simpa using fun h : c = nul => hw (h ▸ hc)]
  simp

/-- The last white space of the arguments is written over with zeros. -/
theorem cutLoop_eq (pre r : Text) :
    ∀ (s : Text), (∀ c ∈ r.head?, ¬whitespace c) →
      ∃ t, cutLoop pre.length ((pre ++ r).length - 1) (pre ++ r ++ nul :: s) =
        some (pre ++ r.rdropWhile whitespace ++ nul :: t) := by
  induction r using List.reverseRecOn with
  | nil =>
    intro s _
    refine ⟨s, ?_⟩
    rw [List.append_nil, List.rdropWhile_nil, List.append_nil]
    cases h : pre.length - 1 with
    | zero => rfl
    | succ key => rw [cutLoop, if_neg (by omega)]
  | append_singleton r c ih =>
    intro s hhead
    by_cases hc : whitespace c
    · -- what precedes the white space is not empty
      obtain ⟨d, r, rfl⟩ : ∃ d r', r = d :: r' := by
        cases r with
        | nil => exact absurd hc (hhead c rfl)
        | cons d r => exact ⟨d, r, rfl⟩
      obtain ⟨t, ht⟩ := ih (nul :: s) (by simpa using hhead)
      refine ⟨t, ?_⟩
      have hkey : (pre ++ (d :: r ++ [c])).length - 1 = (pre ++ d :: r).length - 1 + 1 := by
        simp
        omega
      have hget : (pre ++ (d :: r ++ [c]) ++ nul :: s)[(pre ++ d :: r).length - 1 + 1]? = some c := by
        have : (pre ++ d :: r).length - 1 + 1 = (pre ++ d :: r).length := by simp; omega
        rw [this, ← List.append_assoc, List.append_assoc _ [c], List.getElem?_append_right le_rfl]
        simp
      have hset : (pre ++ (d :: r ++ [c]) ++ nul :: s).set ((pre ++ d :: r).length - 1 + 1) nul =
          pre ++ d :: r ++ nul :: nul :: s := by
        have : (pre ++ d :: r).length - 1 + 1 = (pre ++ d :: r).length := by simp; omega
        rw [this, ← List.append_assoc, List.append_assoc _ [c], List.set_append_right _ _ le_rfl]
        simp
      have hlt : pre.length < (pre ++ d :: r).length - 1 + 1 := by
        simp only [List.length_append, List.length_cons]
        omega
      rw [hkey, cutLoop, if_pos hlt, hget, Option.bind_some, if_pos hc, hset, ht,
        List.rdropWhile_concat_pos _ _ _ hc]
    · refine ⟨s, ?_⟩
      rw [List.rdropWhile_concat_neg _ _ _ hc]
      have hget : (pre ++ (r ++ [c]) ++ nul :: s)[(pre ++ (r ++ [c])).length - 1]? = some c := by
        have : (pre ++ (r ++ [c])).length - 1 = (pre ++ r).length := by simp
        rw [this, ← List.append_assoc, List.append_assoc _ [c], List.getElem?_append_right le_rfl]
        simp
      cases hkey : (pre ++ (r ++ [c])).length - 1 with
      | zero => rfl
      | succ key =>
        rw [hkey] at hget
        rw [cutLoop, hget, Option.bind_some, if_neg hc, ite_self]

/-- What a handler is given of the text behind the word. -/
theorem arguments_eq {rest : Text} (hnul : nul ∉ rest) {pre : Text} :
    arguments (pre ++ rest ++ [nul]) pre.length =
      some (if (rest.dropWhile whitespace).rdropWhile whitespace = [] then none
        else some ((rest.dropWhile whitespace).rdropWhile whitespace)) := by
  -- the white space before the arguments, and what follows it
  have hsplit : rest = rest.takeWhile whitespace ++ rest.dropWhile whitespace :=
    List.takeWhile_append_dropWhile.symm
  set w := rest.takeWhile whitespace with hw
  set r := rest.dropWhile whitespace with hr
  have hwhite : ∀ c ∈ w, whitespace c := fun c hc => List.mem_takeWhile_imp hc
  have hnulr : nul ∉ r := fun h => hnul (hsplit ▸ List.mem_append_right _ h)
  have hhead : ∀ c ∈ r.head?, ¬whitespace c := by
    intro c hc
    have := List.head?_dropWhile_not whitespace rest
    rw [← hr] at this
    rw [Option.mem_def.mp hc] at this
    simpa using this
  have hbuffer : pre ++ rest ++ [nul] = pre ++ w ++ (r ++ [nul]) := by
    rw [hsplit]
    simp
  obtain ⟨d, s, hds, hd⟩ : ∃ d s, r ++ [nul] = d :: s ∧ ¬whitespace d := by
    cases hcase : r with
    | nil => exact ⟨nul, [], rfl, by decide⟩
    | cons d s => exact ⟨d, s ++ [nul], rfl, hhead d (by rw [hcase]; rfl)⟩
  have hskip : scan whitespace (pre ++ rest ++ [nul]) (pre ++ rest ++ [nul]).length pre.length =
      some (pre ++ w).length := by
    rw [hbuffer, hds]
    exact scan_eq hwhite hd s pre _ (by simp; omega)
  have hend : scan (· ≠ nul) (pre ++ rest ++ [nul]) (pre ++ rest ++ [nul]).length (pre ++ w).length =
      some (pre ++ w ++ r).length := by
    rw [hbuffer, ← List.append_assoc]
    exact scan_eq (fun c hc => by simpa using fun h : c = nul => hnulr (h ▸ hc)) (by simp) [] _ _
      (by simp; omega)
  obtain ⟨t, hcut⟩ := cutLoop_eq (pre ++ w) r [] hhead
  have hnult : nul ∉ r.rdropWhile whitespace := fun h =>
    hnulr ((List.rdropWhile_prefix _ _).subset h)
  rw [arguments, hskip, Option.bind_some, hend, Option.bind_some, hbuffer, ← List.append_assoc, hcut,
    Option.bind_some, stringAt_eq hnult]
  cases hargs : r.rdropWhile whitespace with
  | nil =>
    rw [List.append_nil, List.getElem?_append_right le_rfl]
    simp
  | cons c args =>
    have hc : c ≠ nul := fun h => hnult (by simp [hargs, h])
    rw [List.append_assoc, List.getElem?_append_right le_rfl]
    simp [hc]

end CommandParse
