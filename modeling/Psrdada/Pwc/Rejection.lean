import Psrdada.Pwc.Control

/-! # What a rejected command leaves behind

A command function that returns failure should leave the connection as it was.  What is done under the
mutex does (`Pending.finish_rejected`); what is done before it does not in three of the functions:
`dada_pwc_cmd_header` stores what it has read of the header, `dada_pwc_cmd_set_utc_start` the UTC and
`dada_pwc_cmd_quit` the flag. -/

namespace Psrdada

variable {lib : Scanner} {primary : Pwc} {args : Option String}

/-- A command that is set under the mutex is either accepted or changes nothing. -/
theorem dadaPwcCommandSet_rejected {command : PwcCommand} {rc : ℤ} {p : Pwc}
    (h : dadaPwcCommandSet primary command = some (rc, p)) (hrc : rc < 0) :
    p = primary ∧ primary.command.code = .noCommand ∧ primary.state.admits command.code = false := by
  unfold dadaPwcCommandSet at h
  split at h
  · cases h
  · rename_i hfree
    split at h
    · cases h
      omega
    · rename_i hadm
      cases h
      exact ⟨rfl, by simpa using hfree, by simpa using hadm⟩

/-- What is done under the mutex changes nothing when it fails. -/
theorem Pending.finish_rejected {pending : Pending} {rc : ℤ} {p : Pwc}
    (h : pending.finish primary = some (rc, p)) (hrc : rc < 0) : p = primary := by
  cases pending with
  | done ret =>
    cases h
    rfl
  | set command => exact (dadaPwcCommandSet_rejected h hrc).1
  | duration byteCount =>
    simp only [Pending.finish] at h
    split at h
    · cases h
    · split at h
      · cases h
        rfl
      · cases h
        omega

/-- Whether what is done under the mutex fails. -/
def Pending.Fails (primary : Pwc) : Pending → Prop
  | .done ret => ret < 0
  | .set command =>
    primary.command.code = .noCommand ∧ primary.state.admits command.code = false
  | .duration _ => primary.command.code = .noCommand ∧ primary.state = .recording

/-- A command function fails exactly when its part under the mutex does, and then only its part before
the mutex may have changed anything. -/
theorem Control.rejected_iff (cmd : Control) :
    (∀ rc p, cmd.call lib primary args = some (rc, p) → rc < 0 → p = primary) ↔
      ((cmd.begin lib primary args).2.Fails (cmd.begin lib primary args).1 →
        (cmd.begin lib primary args).1 = primary) := by
  have hcall : cmd.call lib primary args =
      (cmd.begin lib primary args).2.finish (cmd.begin lib primary args).1 := rfl
  rw [hcall]
  generalize (cmd.begin lib primary args).1 = p₁
  generalize (cmd.begin lib primary args).2 = pending
  constructor
  · intro h hfail
    cases pending with
    | done ret => exact h ret p₁ rfl hfail
    | set command =>
      obtain ⟨hfree, hadm⟩ := hfail
      exact h (-1) p₁ (by simp [Pending.finish, dadaPwcCommandSet, hfree, hadm]) (by decide)
    | duration byteCount =>
      obtain ⟨hfree, hrec⟩ := hfail
      exact h (-1) p₁ (by simp [Pending.finish, hfree, hrec]) (by decide)
  · intro h rc p hfin hrc
    rw [Pending.finish_rejected hfin hrc]
    refine h ?_
    cases pending with
    | done ret =>
      cases hfin
      exact hrc
    | set command => exact (dadaPwcCommandSet_rejected hfin hrc).2
    | duration byteCount =>
      simp only [Pending.finish] at hfin
      split at hfin
      · cases hfin
      · rename_i hfree
        split at hfin
        · rename_i hrec
          exact ⟨by simpa using hfree, hrec⟩
        · cases hfin
          omega

/-! ## The three functions that store before they ask -/

/-- The connection already has what a header gives. -/
structure SameHeader (lib : Scanner) (primary : Pwc) (text : String) : Prop where
  resolution : primary.byteResolution = headerNumber lib text "RESOLUTION" 1
  sample : primary.bitsPerSample = headerBitsPerSample lib text
  rate : primary.bytesPerSecond = (headerBitsPerSecond lib text).getD 0 / 8
  header : headerBitsPerSecond lib text ≠ none →
    primary.header = storedHeader lib primary.headerSize text primary.bytesPerSecond

/-- The calls that change nothing when they fail: what they store before they ask is accepted, or it is
there already. -/
def Control.Harmless (lib : Scanner) (primary : Pwc) (args : Option String) : Control → Prop
  | .header => ∀ text, args = some text → text.length ≤ primary.headerSize →
      (headerBitsPerSecond lib (headerText text) ≠ none ∧
        (primary.command.code ≠ .noCommand ∨ primary.state = .idle)) ∨
      SameHeader lib primary (headerText text)
  | .setUtcStart =>
    ((primary.convertToBytes = false ∨ dadaPwcParseTime lib args = 0 ∨ primary.bytesPerSecond ≠ 0) ∧
      (primary.command.code ≠ .noCommand ∨ primary.state = .clocking ∨ primary.state = .recording)) ∨
    primary.utcStart = dadaPwcParseTime lib args
  | .quit => primary.command.code ≠ .noCommand ∨ primary.state = .idle ∨ primary.quit = true
  | _ => True

/-- The header function on a header without a sampling interval. -/
theorem dadaPwcCmdHeader_none {text : String} (h : text.length ≤ primary.headerSize)
    (hrate : headerBitsPerSecond lib (headerText text) = none) :
    dadaPwcCmdHeader lib primary (some text) =
      ({ primary with
          byteResolution := headerNumber lib (headerText text) "RESOLUTION" 1
          bitsPerSample := headerBitsPerSample lib (headerText text)
          bytesPerSecond := 0 }, .done (-1)) := by
  simp [dadaPwcCmdHeader, dadaPwcParseBytesPerSecond, Nat.not_lt.mpr h, hrate]

/-- The header function on a header with a sampling interval. -/
theorem dadaPwcCmdHeader_some {text : String} {rate : ℕ} (h : text.length ≤ primary.headerSize)
    (hrate : headerBitsPerSecond lib (headerText text) = some rate) :
    dadaPwcCmdHeader lib primary (some text) =
      ({ primary with
          byteResolution := headerNumber lib (headerText text) "RESOLUTION" 1
          bitsPerSample := headerBitsPerSample lib (headerText text)
          bytesPerSecond := rate / 8
          header := storedHeader lib primary.headerSize (headerText text) (rate / 8) },
        .set { PwcCommand.init with code := .header, header := true }) := by
  simp [dadaPwcCmdHeader, dadaPwcParseBytesPerSecond, Nat.not_lt.mpr h, hrate]

/-- The header function fails without a trace exactly when its call is harmless. -/
theorem header_harmless :
    ((dadaPwcCmdHeader lib primary args).2.Fails (dadaPwcCmdHeader lib primary args).1 →
      (dadaPwcCmdHeader lib primary args).1 = primary) ↔
      Control.header.Harmless lib primary args := by
  cases args with
  | none => simp [dadaPwcCmdHeader, Control.Harmless]
  | some text =>
    by_cases hlen : text.length ≤ primary.headerSize
    · cases hrate : headerBitsPerSecond lib (headerText text) with
      | none =>
        rw [dadaPwcCmdHeader_none hlen hrate]
        constructor
        · intro h
          have heq := h (by simp [Pending.Fails])
          refine fun _ ht _ => .inr ?_
          cases ht
          refine ⟨?_, ?_, ?_, ?_⟩
          · exact (congrArg Pwc.byteResolution heq).symm
          · exact (congrArg Pwc.bitsPerSample heq).symm
          · simpa [hrate] using (congrArg Pwc.bytesPerSecond heq).symm
          · exact fun hne => absurd hrate hne
        · intro h _
          rcases h text rfl hlen with ⟨hne, -⟩ | hsame
          · exact absurd hrate hne
          · obtain ⟨hres, hbits, hbps, -⟩ := hsame
            rw [hrate] at hbps
            rw [← hres, ← hbits, ← (by simpa using hbps : primary.bytesPerSecond = 0)]
      | some rate =>
        rw [dadaPwcCmdHeader_some hlen hrate]
        constructor
        · intro h
          refine fun _ ht _ => ?_
          cases ht
          by_cases hadm : primary.command.code = .noCommand ∧ primary.state ≠ .idle
          · have heq := h ⟨hadm.1, by simpa [PwcState.admits] using hadm.2⟩
            have hbps := congrArg Pwc.bytesPerSecond heq
            refine .inr ⟨?_, ?_, ?_, fun _ => ?_⟩
            · exact (congrArg Pwc.byteResolution heq).symm
            · exact (congrArg Pwc.bitsPerSample heq).symm
            · simpa [hrate] using hbps.symm
            · rw [← hbps]
              exact (congrArg Pwc.header heq).symm
          · refine .inl ⟨by simp [hrate], ?_⟩
            by_cases hfree : primary.command.code = .noCommand
            · exact .inr (by_contra fun hs => hadm ⟨hfree, hs⟩)
            · exact .inl hfree
        · rintro h ⟨hfree, hadm⟩
          rcases h text rfl hlen with ⟨-, hok⟩ | hsame
          · rcases hok with hbusy | hidle
            · exact absurd hfree hbusy
            · simp [PwcState.admits, hidle] at hadm
          · obtain ⟨hres, hbits, hbps, hhdr⟩ := hsame
            rw [hrate, Option.getD_some] at hbps
            have hhdr := hhdr (by simp [hrate])
            rw [hbps] at hhdr
            rw [← hres, ← hbits, ← hhdr, ← hbps]
    · have hlt : primary.headerSize < text.length := Nat.lt_of_not_le hlen
      simp [dadaPwcCmdHeader, hlt, Control.Harmless, hlen]

/-- The UTC function fails without a trace exactly when its call is harmless. -/
theorem setUtcStart_harmless :
    ((dadaPwcCmdSetUtcStart lib primary args).2.Fails (dadaPwcCmdSetUtcStart lib primary args).1 →
      (dadaPwcCmdSetUtcStart lib primary args).1 = primary) ↔
      Control.setUtcStart.Harmless lib primary args := by
  have hsame : ({ primary with utcStart := dadaPwcParseTime lib args } : Pwc) = primary ↔
      primary.utcStart = dadaPwcParseTime lib args := by
    constructor
    · exact fun h => (congrArg Pwc.utcStart h).symm
    · exact fun h => by rw [← h]
  have hfails : (dadaPwcCmdSetUtcStart lib primary args).2.Fails
      (dadaPwcCmdSetUtcStart lib primary args).1 ↔
      ¬ ((primary.convertToBytes = false ∨ dadaPwcParseTime lib args = 0 ∨
          primary.bytesPerSecond ≠ 0) ∧
        (primary.command.code ≠ .noCommand ∨ primary.state = .clocking ∨
          primary.state = .recording)) := by
    by_cases hconv : primary.convertToBytes = false
    · simp [dadaPwcCmdSetUtcStart, timedCommand, dadaPwcCommandSetByteCount, hconv, Pending.Fails,
        PwcState.admits, PwcCommand.init]
    · by_cases hutc : dadaPwcParseTime lib args = 0
      · simp [dadaPwcCmdSetUtcStart, timedCommand, dadaPwcCommandSetByteCount, hconv, hutc,
          Pending.Fails, PwcState.admits, PwcCommand.init]
      · by_cases hbps : primary.bytesPerSecond = 0
        · simp [dadaPwcCmdSetUtcStart, timedCommand, dadaPwcCommandSetByteCount, hconv, hutc, hbps,
            Pending.Fails]
        · simp [dadaPwcCmdSetUtcStart, timedCommand, dadaPwcCommandSetByteCount, hconv, hutc, hbps,
            Pending.Fails, PwcState.admits, PwcCommand.init]
  rw [hfails]
  simp only [Control.Harmless, dadaPwcCmdSetUtcStart, hsame]
  exact or_iff_not_imp_left.symm

/-- The quit function fails without a trace exactly when its call is harmless. -/
theorem quit_harmless :
    ((dadaPwcCmdQuit primary).2.Fails (dadaPwcCmdQuit primary).1 →
      (dadaPwcCmdQuit primary).1 = primary) ↔ Control.quit.Harmless lib primary args := by
  have hsame : ({ primary with quit := true } : Pwc) = primary ↔ primary.quit = true := by
    constructor
    · exact fun h => (congrArg Pwc.quit h).symm
    · exact fun h => by rw [← h]
  simp only [dadaPwcCmdQuit, Pending.Fails, PwcCommand.init, PwcState.admits, Control.Harmless,
    hsame, beq_eq_false_iff_ne]
  by_cases hc : primary.command.code = .noCommand <;> by_cases hs : primary.state = .idle <;>
    simp [hc, hs]

/-- A scanner that finds nothing. -/
def Scanner.blank : Scanner where
  get _ _ := none
  rate _ _ := none
  set text _ _ := text
  strptime _ := none
  unfilled _ := 0

end Psrdada
