import Psrdada.Nexus.CommandParse
import Psrdada.Refinement.Calls

/-! # The table of commands is a list, and a line runs the first command it names

Adding a command appends to the list and removing one deletes the first entry of the name.  A line runs
the handler of the first entry whose name is its first word, with the rest of the line, unless no white
space follows the word: then `strsep` has left the null pointer where the arguments are looked for. -/

namespace CommandParse

open CString Stdio CommandReplies

variable {σ : Type}

/-! ## The list -/

/-- The first word of a line. -/
def firstWord (line : Text) : Text := (line.dropWhile whitespace).takeWhile fun c => !whitespace c

/-- What follows the first word of a line. -/
def behindWord (line : Text) : Text := (line.dropWhile whitespace).dropWhile fun c => !whitespace c

/-- A text without the white space around it. -/
def trim (text : Text) : Text := (text.dropWhile whitespace).rdropWhile whitespace

/-- The remaining text of a line as arguments: none when there is no more of it. -/
def remaining (line : Text) : Option Text :=
  if trim (behindWord line) = [] then none else some (trim (behindWord line))

/-- A line as a C string. -/
abbrev Line := { line : Text // nul ∉ line }

/-- A call on a parser. -/
inductive Call (σ : Type)
  | add (cmd : Option Text → σ → ℤ × Text × σ) (name : Option Text)
  | remove (key : Text)
  | output (line : Line)

/-- What a call does to the list of the commands and to the state of the program; what it returns and
what a handler has written. -/
def Call.onList : Call σ → List (Command σ) × σ → (ℤ × Text) × List (Command σ) × σ
  | add _ none, (l, context) => ((-1, []), l, context)
  | add cmd (some name), (l, context) => ((0, []), l ++ [⟨name, cmd⟩], context)
  | remove key, (l, context) =>
    if ∃ c ∈ l, c.name = key then ((0, []), l.eraseP fun c => c.name = key, context)
    else ((-1, []), l, context)
  | output line, (l, context) =>
    match l.find? fun c => c.name = firstWord line with
    | none => ((-1, []), l, context)
    | some c =>
      let r := c.cmd (remaining line) context
      ((r.1, r.2.1), l, r.2.2)

/-- The call on the parser. -/
def Call.run : Call σ → Parser σ × σ → Option ((ℤ × Text) × Parser σ × σ)
  | add cmd name, (parser, context) =>
    (commandParseAdd parser cmd name).map fun r => ((r.1, []), r.2, context)
  | remove key, (parser, context) =>
    (commandParseRemove parser key).map fun r => ((r.1, []), r.2, context)
  | output line, (parser, context) =>
    (commandParseOutput parser line context).map fun r => ((r.1, r.2.1), parser, r.2.2)

/-- When the call on the parser does what it does on the list. -/
def Call.Meets : Call σ → List (Command σ) × σ → Prop
  | add _ none, _ => True
  | add _ (some _), (l, _) => l.length + 1 < 2 ^ 32
  | remove _, _ => True
  | output line, (l, _) => (∃ c ∈ l, c.name = firstWord line) → behindWord line ≠ []

/-! ## Representation -/

/-- The first slots of the table hold the entries of the list. -/
structure Represents (parser : Parser σ) (l : List (Command σ)) : Prop where
  ncmd : parser.ncmd = l.length
  length_lt : l.length < 2 ^ 32
  cmds : ∃ t, parser.cmds = l.map some ++ t

theorem represents_empty : Represents (empty : Parser σ) [] := ⟨rfl, by simp, [], rfl⟩

/-- A slot of the table holds its entry. -/
theorem Represents.load {parser : Parser σ} {l : List (Command σ)} (h : Represents parser l) {i : ℕ}
    (hi : i < l.length) : Slots.load parser.cmds i = some l[i] := by
  obtain ⟨t, ht⟩ := h.cmds
  rw [ht, Slots.load, List.getElem?_append_left (by simpa using hi), List.getElem?_map,
    List.getElem?_eq_getElem hi]
  rfl

/-! ## Adding and removing -/

/-- A command that is added is the last of the list. -/
theorem Represents.commandParseAdd {parser : Parser σ} {l : List (Command σ)} (h : Represents parser l)
    (cmd : Option Text → σ → ℤ × Text × σ) (name : Text) (hlength : l.length + 1 < 2 ^ 32) :
    ∃ parser', CommandParse.commandParseAdd parser cmd (some name) = some (0, parser') ∧
      Represents parser' (l ++ [⟨name, cmd⟩]) := by
  obtain ⟨t, ht⟩ := h.cmds
  have hmod : (l.length + 1) % 2 ^ 32 = l.length + 1 := Nat.mod_eq_of_lt hlength
  obtain ⟨y, hrealloc⟩ := Slots.realloc_map_some_append l t
  have hstore := Slots.store_middle (l.map some) y (⟨name, cmd⟩ : Command σ) [] (i := l.length) (by simp)
  refine ⟨⟨l.map some ++ [some ⟨name, cmd⟩], l.length + 1⟩, ?_, by simp, by simpa using hlength, [],
    by simp⟩
  rw [CommandParse.commandParseAdd, h.ncmd, hmod, if_neg (Nat.succ_ne_zero _), ht, hrealloc, hstore]
  rfl

/-- Where the loop of the removal finds the name. -/
theorem Represents.findLoop {parser : Parser σ} {l : List (Command σ)} (h : Represents parser l)
    (key : Text) : ∀ (turns i : ℕ), i + turns = l.length →
      CommandParse.findLoop parser key turns i =
        some (i + (l.drop i).findIdx fun c => c.name = key) := by
  intro turns
  induction turns with
  | zero =>
    intro i hi
    rw [CommandParse.findLoop, List.drop_of_length_le (by omega)]
    rfl
  | succ turns ih =>
    intro i hi
    have hlt : i < l.length := by omega
    rw [CommandParse.findLoop, h.load hlt, Option.bind_some, List.drop_eq_getElem_cons hlt,
      List.findIdx_cons]
    by_cases hkey : key = l[i].name
    · rw [if_pos hkey]
      simp [hkey]
    · rw [if_neg hkey, ih (i + 1) (by omega)]
      have hkey' : (decide (l[i].name = key)) = false := by simpa using fun he => hkey he.symm
      rw [hkey', cond_false]
      congr 1
      omega

/-- A command that is removed is the first of its name, and the others stay in their order. -/
theorem Represents.commandParseRemove {parser : Parser σ} {l : List (Command σ)}
    (h : Represents parser l) (key : Text) :
    ∃ r, CommandParse.commandParseRemove parser key = some r ∧
      (r.1 = if ∃ c ∈ l, c.name = key then 0 else -1) ∧
      Represents r.2 (l.eraseP fun c => c.name = key) := by
  obtain ⟨t, ht⟩ := h.cmds
  have hfind := h.findLoop key l.length 0 (Nat.zero_add _)
  rw [Nat.zero_add, List.drop_zero] at hfind
  set i := l.findIdx fun c => c.name = key with hi
  rw [CommandParse.commandParseRemove, h.ncmd, hfind, Option.bind_some]
  by_cases hlt : i < l.length
  · have hmem : ∃ c ∈ l, c.name = key :=
      ⟨l[i], List.getElem_mem hlt, by simpa using List.findIdx_getElem (w := hlt)⟩
    have hsplit : l = l.take i ++ l[i] :: l.drop (i + 1) := by
      rw [List.getElem_cons_drop, List.take_append_drop]
    obtain ⟨y, hshift⟩ := Slots.shiftDown_map_some_append (l.drop (i + 1)) (l.take i) (some l[i]) t
    rw [List.length_drop, List.length_take_of_le hlt.le] at hshift
    have hcmds : parser.cmds = (l.take i).map some ++ some l[i] :: ((l.drop (i + 1)).map some ++ t) := by
      rw [ht, ← List.cons_append, ← List.append_assoc, ← List.map_cons, ← List.map_append, ← hsplit]
    have hturns : l.length - 1 - i = l.length - (i + 1) := by omega
    refine ⟨(0, ⟨(l.take i ++ l.drop (i + 1)).map some ++ y :: t, l.length - 1⟩), ?_,
      by rw [if_pos hmem], ?_⟩
    · rw [if_neg hlt.ne]
      dsimp only
      rw [hturns, hcmds, hshift]
      rfl
    · have herase : l.eraseP (fun c => c.name = key) = l.take i ++ l.drop (i + 1) := by
        rw [List.eraseP_eq_eraseIdx, List.findIdx?_eq_some_iff_findIdx_eq.mpr ⟨hlt, rfl⟩,
          ← List.eraseIdx_eq_take_drop_succ]
      rw [herase]
      have hlength := h.length_lt
      exact ⟨by simp; omega, by simp; omega, _, rfl⟩
  · have hmem : ¬∃ c ∈ l, c.name = key := by
      rintro ⟨c, hc, hkey⟩
      exact hlt (List.findIdx_lt_length_of_exists ⟨c, hc, by simpa using hkey⟩)
    have hi' : i = l.length := le_antisymm List.findIdx_le_length (Nat.le_of_not_lt hlt)
    refine ⟨(-1, parser), by rw [if_pos hi'], by rw [if_neg hmem], ?_⟩
    rw [List.eraseP_of_forall_not fun c hc => by simpa using fun hk => hmem ⟨c, hc, hk⟩]
    exact h

/-! ## Running a line -/

/-- The loop over the table runs the first command of the name, or none. -/
theorem Represents.dispatch {parser : Parser σ} {l : List (Command σ)} (h : Represents parser l)
    (buffer : List Char) (key : ℕ) (cmd : Option ℕ) (context : σ) :
    ∀ (turns i : ℕ), i + turns = l.length →
      CommandParse.dispatch parser buffer key cmd context turns i =
        match (l.drop i).find? fun c => c.name = stringAt buffer key with
        | none => some (-1, [], context)
        | some c => cmd.bind fun cmd => (arguments buffer cmd).map fun args => c.cmd args context := by
  intro turns
  induction turns with
  | zero =>
    intro i hi
    rw [List.drop_of_length_le (by omega)]
    rfl
  | succ turns ih =>
    intro i hi
    have hlt : i < l.length := by omega
    rw [CommandParse.dispatch, h.load hlt, Option.bind_some, List.drop_eq_getElem_cons hlt,
      List.find?_cons]
    by_cases hkey : stringAt buffer key = l[i].name
    · rw [if_pos hkey, decide_eq_true hkey.symm]
    · rw [if_neg hkey, ih (i + 1) (by omega), decide_eq_false fun he => hkey he.symm]

/-- A line is cut behind its first word: `cmd` is the null pointer when nothing follows. -/
theorem strsep_line (pre : Text) {rest : Text} (hnul : nul ∉ rest) :
    ∃ buffer cmd, strsep (pre ++ rest ++ [nul]) pre.length = some (buffer, cmd) ∧
      stringAt buffer pre.length = rest.takeWhile (fun c => !whitespace c) ∧
      match rest.dropWhile fun c => !whitespace c with
      | [] => cmd = none
      | _ :: args => ∃ pre', cmd = some pre'.length ∧ buffer = pre' ++ args ++ [nul] := by
  have hsplit : rest = rest.takeWhile (fun c => !whitespace c) ++
      rest.dropWhile (fun c => !whitespace c) := List.takeWhile_append_dropWhile.symm
  set word := rest.takeWhile fun c => !whitespace c with hword
  set behind := rest.dropWhile fun c => !whitespace c with hbehind
  have hnulw : nul ∉ word := fun h => hnul (hsplit ▸ List.mem_append_left _ h)
  have haccept : ∀ c ∈ word, (c ≠ nul && !whitespace c) = true := by
    intro c hc
    have hne : c ≠ nul := fun h => hnulw (h ▸ hc)
    have hnw : (!whitespace c) = true := List.mem_takeWhile_imp (p := fun c => !whitespace c) hc
    simp [hne, hnw]
  cases hb : behind with
  | nil =>
    have hbuffer : pre ++ rest ++ [nul] = pre ++ word ++ nul :: [] := by
      rw [hsplit, hb, List.append_nil]
    have hscan := scan_eq haccept (c := nul) (by simp) [] pre (pre ++ rest ++ [nul]).length
      (by rw [hbuffer]; simp; omega)
    refine ⟨pre ++ word ++ [nul], none, ?_, stringAt_eq hnulw pre [], rfl⟩
    rw [strsep, hbuffer]
    rw [hbuffer] at hscan
    rw [hscan, Option.bind_some, List.getElem?_append_right le_rfl]
    simp
  | cons d args =>
    have hd : whitespace d = true := by
      have := List.head?_dropWhile_not (fun c => !whitespace c) rest
      rw [← hbehind, hb] at this
      simpa using this
    have hdn : d ≠ nul := fun h => by simp [h, whitespace, nul] at hd
    have hbuffer : pre ++ rest ++ [nul] = pre ++ word ++ d :: (args ++ [nul]) := by
      rw [hsplit, hb]
      simp
    have hscan := scan_eq haccept (c := d) (by simp [hd]) (args ++ [nul]) pre
      (pre ++ rest ++ [nul]).length (by rw [hbuffer]; simp; omega)
    refine ⟨pre ++ word ++ nul :: (args ++ [nul]), some (pre ++ word ++ [nul]).length, ?_,
      stringAt_eq hnulw pre _, pre ++ word ++ [nul], rfl, by simp⟩
    rw [strsep, hbuffer]
    rw [hbuffer] at hscan
    rw [hscan, Option.bind_some, List.getElem?_append_right le_rfl, List.set_append_right _ _ le_rfl]
    simp [hdn, Nat.add_assoc]

/-- A line runs the first command that its first word names, unless nothing follows the word. -/
theorem Represents.commandParseOutput {parser : Parser σ} {l : List (Command σ)}
    (h : Represents parser l) {line : Text} (hnul : nul ∉ line) (context : σ) :
    CommandParse.commandParseOutput parser line context =
      match l.find? fun c => c.name = firstWord line with
      | none => some (-1, [], context)
      | some c => if behindWord line = [] then none else some (c.cmd (remaining line) context) := by
  have hsplit : line = line.takeWhile whitespace ++ line.dropWhile whitespace :=
    List.takeWhile_append_dropWhile.symm
  set pre := line.takeWhile whitespace with hpre
  set rest := line.dropWhile whitespace with hrest
  have hnulr : nul ∉ rest := fun hm => hnul (hsplit ▸ List.mem_append_right _ hm)
  have hbuffer : line ++ [nul] = pre ++ rest ++ [nul] := by rw [← hsplit]
  -- the white space before the first word
  obtain ⟨d, s, hds, hd⟩ : ∃ d s, rest ++ [nul] = d :: s ∧ ¬whitespace d := by
    cases hcase : rest with
    | nil => exact ⟨nul, [], rfl, by decide⟩
    | cons d s =>
      have := List.head?_dropWhile_not whitespace line
      rw [← hrest, hcase] at this
      exact ⟨d, s ++ [nul], rfl, by simpa using this⟩
  have hskip : scan whitespace (line ++ [nul]) (line ++ [nul]).length 0 = some pre.length := by
    have := scan_eq (w := pre) (fun c hc => List.mem_takeWhile_imp hc) hd s [] (line ++ [nul]).length
      (by rw [hbuffer]; simp)
    rw [List.nil_append, ← hds, List.length_nil, ← List.append_assoc, ← hbuffer] at this
    exact this
  obtain ⟨buffer, cmd, hsep, hkey, hcmd⟩ := strsep_line pre hnulr
  rw [CommandParse.commandParseOutput, hskip, Option.bind_some, hbuffer, hsep, Option.bind_some,
    h.ncmd, h.dispatch buffer pre.length cmd context l.length 0 (Nat.zero_add _), List.drop_zero, hkey]
  have hword : rest.takeWhile (fun c => !whitespace c) = firstWord line := rfl
  rw [hword]
  cases l.find? fun c => c.name = firstWord line with
  | none => rfl
  | some c =>
    dsimp only
    have hbehind : rest.dropWhile (fun c => !whitespace c) = behindWord line := rfl
    rw [hbehind] at hcmd
    cases hb : behindWord line with
    | nil =>
      rw [hb] at hcmd
      dsimp only at hcmd
      rw [hcmd, if_pos rfl]
      rfl
    | cons d args =>
      rw [hb] at hcmd
      obtain ⟨pre', rfl, rfl⟩ := hcmd
      have hd : whitespace d = true := by
        have := List.head?_dropWhile_not (fun c => !whitespace c) rest
        rw [hbehind, hb] at this
        simpa using this
      have hnula : nul ∉ args := fun hm => hnulr
        ((List.dropWhile_suffix (fun c => !whitespace c)).subset
          (by rw [hbehind, hb]; exact List.mem_cons_of_mem _ hm))
      rw [Option.bind_some, arguments_eq hnula, if_neg (List.cons_ne_nil d args), Option.map_some,
        remaining, trim, hb, List.dropWhile_cons_of_pos hd]

/-- The line as it is cut in place is the line as a text. -/
theorem Represents.commandParseOutput_text {parser : Parser σ} {l : List (Command σ)}
    (h : Represents parser l) {line : Text} (hnul : nul ∉ line) (context : σ) :
    CommandParse.commandParseOutput parser line context =
      CommandReplies.commandParseOutput l line context := by
  rw [h.commandParseOutput hnul, CommandReplies.commandParseOutput]
  dsimp only
  have hword : (line.dropWhile whitespace).takeWhile (fun c => !whitespace c) = firstWord line := rfl
  have hbehind : (line.dropWhile whitespace).dropWhile (fun c => !whitespace c) = behindWord line := rfl
  rw [hword, hbehind]
  cases l.find? fun c => c.name = firstWord line with
  | none => rfl
  | some c =>
    dsimp only
    cases hb : behindWord line with
    | nil => rw [if_pos rfl]
    | cons d args =>
      have hd : whitespace d = true := by
        have := List.head?_dropWhile_not (fun c => !whitespace c) (line.dropWhile whitespace)
        rw [hbehind, hb] at this
        simpa using this
      rw [if_neg (List.cons_ne_nil d args), remaining, trim, hb, List.dropWhile_cons_of_pos hd]

/-! ## Sequences of calls -/

/-- Parsers, with the state that the handlers work on, as a structure that stands for lists. -/
def parsers (σ : Type) :
    Calls.Structure (Call σ) (ℤ × Text) (Parser σ × σ) (List (Command σ) × σ) where
  run := Call.run
  onModel := Call.onList
  Represents := fun s m => CommandParse.Represents s.1 m.1 ∧ s.2 = m.2
  Meets := Call.Meets

/-- A call on a parser that stands for a list does what it does on the list, exactly under its
condition. -/
theorem refines_iff_meets {s : Parser σ × σ} {m : List (Command σ) × σ}
    (h : (parsers σ).Represents s m) (call : Call σ) :
    (parsers σ).Refines call s m ↔ (parsers σ).Meets call m := by
  obtain ⟨parser, context⟩ := s
  obtain ⟨l, context'⟩ := m
  obtain ⟨h, rfl⟩ : CommandParse.Represents parser l ∧ context = context' := h
  simp only [Calls.Structure.Refines, parsers]
  cases call with
  | add cmd name =>
    cases name with
    | none => exact iff_of_true ⟨(parser, context), rfl, h, rfl⟩ trivial
    | some name =>
      constructor
      · rintro ⟨s', -, hrep, -⟩
        simpa [Call.onList, Call.Meets] using hrep.length_lt
      · intro hmeets
        obtain ⟨parser', hadd, hrep⟩ := h.commandParseAdd cmd name hmeets
        exact ⟨(parser', context), by rw [Call.run, hadd]; rfl, hrep, rfl⟩
  | remove key =>
    refine iff_of_true ?_ trivial
    obtain ⟨r, hremove, hstatus, hrep⟩ := h.commandParseRemove key
    refine ⟨(r.2, context), ?_, ?_⟩
    · rw [Call.run, hremove, Option.map_some, hstatus, Call.onList]
      split <;> rfl
    · rw [Call.onList]
      split
      · exact ⟨hrep, rfl⟩
      · next hnone =>
        rw [List.eraseP_of_forall_not fun c hc => by simpa using fun hk => hnone ⟨c, hc, hk⟩] at hrep
        exact ⟨hrep, rfl⟩
  | output line =>
    simp only [Call.run, h.commandParseOutput line.2, Call.onList, Call.Meets]
    cases hfind : l.find? fun c => c.name = firstWord line with
    | none =>
      have hnone : ¬∃ c ∈ l, c.name = firstWord line := by
        rintro ⟨c, hc, hname⟩
        simpa [hname] using List.find?_eq_none.mp hfind c hc
      exact iff_of_true ⟨(parser, context), rfl, h, rfl⟩ fun hc => absurd hc hnone
    | some c =>
      have hc : ∃ c ∈ l, c.name = firstWord line :=
        ⟨c, List.mem_of_find?_eq_some hfind, by simpa using List.find?_some hfind⟩
      dsimp only
      by_cases hb : behindWord line = []
      · rw [if_pos hb]
        exact iff_of_false (fun ⟨_, hrun, _⟩ => by simp at hrun) fun hm => hm hc hb
      · rw [if_neg hb]
        exact iff_of_true ⟨_, rfl, h, rfl⟩ fun _ => hb

/-- Any sequence of calls on a parser does what it does on the list of its commands exactly when every
call meets its condition. -/
theorem parsers_agree_iff (context : σ) (calls : List (Call σ)) :
    (parsers σ).Agrees (empty, context) ([], context) calls ↔
      (parsers σ).MeetAll ([], context) calls :=
  Calls.Structure.agrees_iff_of_refines_iff refines_iff_meets calls ⟨represents_empty, rfl⟩

/-- The line `exit`, without white space behind it, follows the null pointer. -/
theorem exit_without_newline :
    ¬(parsers Unit).Agrees (empty, ()) ([], ())
      [.add (fun _ s => (commandParseExit, [], s)) (some ['e', 'x', 'i', 't']),
        .output ⟨['e', 'x', 'i', 't'], by decide⟩] := by
  rintro ⟨-, s, hadd, -, s', hrun, -⟩
  obtain ⟨-, rfl⟩ := Prod.mk.inj (Option.some.inj hadd)
  exact absurd hrun nofun

end CommandParse
