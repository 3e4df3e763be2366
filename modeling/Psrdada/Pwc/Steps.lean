import Psrdada.Pwc.Main
import Psrdada.Pwc.Rejection

/-! # What one step can do

What the steps of a client and the pieces of an iteration leave alone. -/

namespace Psrdada

/-! ## A control client -/

section Clients

variable {lib : Scanner} {primary p : Pwc} {args : Option String} {command : PwcCommand} {ret : ℤ}

theorem dadaPwcCommandSetByteCount_code {c : PwcCommand}
    (h : dadaPwcCommandSetByteCount primary command = some c) : c.code = command.code := by
  unfold dadaPwcCommandSetByteCount at h
  split_ifs at h <;> cases h <;> rfl

theorem timedCommand_set {c : PwcCommand} (h : timedCommand primary command = .set c) :
    c.code = command.code := by
  unfold timedCommand at h
  cases hset : dadaPwcCommandSetByteCount primary command with
  | none => simp [hset] at h
  | some c' =>
    rw [hset] at h
    cases h
    exact dadaPwcCommandSetByteCount_code hset

/-- The header function: it has no header to read, or stores what it reads of one that has no sampling
interval, or stores what it reads and asks for the slot. -/
theorem dadaPwcCmdHeader_cases (lib : Scanner) (primary : Pwc) (args : Option String) :
    dadaPwcCmdHeader lib primary args = (primary, .done (-1)) ∨
    (∃ text, dadaPwcCmdHeader lib primary args =
      ({ primary with
          byteResolution := headerNumber lib (headerText text) "RESOLUTION" 1
          bitsPerSample := headerBitsPerSample lib (headerText text)
          bytesPerSecond := 0 }, .done (-1))) ∨
    ∃ text rate, dadaPwcCmdHeader lib primary args =
      ({ primary with
          byteResolution := headerNumber lib (headerText text) "RESOLUTION" 1
          bitsPerSample := headerBitsPerSample lib (headerText text)
          bytesPerSecond := rate / 8
          header := storedHeader lib primary.headerSize (headerText text) (rate / 8) },
        .set { PwcCommand.init with code := .header, header := true }) := by
  cases args with
  | none => exact .inl rfl
  | some text =>
    by_cases hlen : text.length ≤ primary.headerSize
    · cases hrate : headerBitsPerSecond lib (headerText text) with
      | none => exact .inr (.inl ⟨text, dadaPwcCmdHeader_none hlen hrate⟩)
      | some rate => exact .inr (.inr ⟨text, rate, dadaPwcCmdHeader_some hlen hrate⟩)
    · exact .inl (if_pos (Nat.lt_of_not_le hlen))

/-- What reading an argument leaves alone. -/
theorem Control.begin_frame (cmd : Control) (lib : Scanner) (primary : Pwc) (args : Option String) :
    (cmd.begin lib primary args).1.state = primary.state ∧
      (cmd.begin lib primary args).1.command = primary.command ∧
      (primary.quit = true → (cmd.begin lib primary args).1.quit = true) := by
  cases cmd with
  | header =>
    show (dadaPwcCmdHeader lib primary args).1.state = _ ∧
      (dadaPwcCmdHeader lib primary args).1.command = _ ∧ (_ →
      (dadaPwcCmdHeader lib primary args).1.quit = true)
    rcases dadaPwcCmdHeader_cases lib primary args with
      h | ⟨text, h⟩ | ⟨text, rate, h⟩
    · rw [h]
      exact ⟨rfl, rfl, id⟩
    · rw [h]
      exact ⟨rfl, rfl, id⟩
    · rw [h]
      exact ⟨rfl, rfl, id⟩
  | duration =>
    simp only [Control.begin, dadaPwcCmdDuration]
    cases args with
    | none => exact ⟨rfl, rfl, id⟩
    | some text =>
      dsimp only
      split
      · exact ⟨rfl, rfl, id⟩
      · exact ⟨rfl, rfl, id⟩
  | recStart =>
    simp only [Control.begin, dadaPwcCmdRecordStart]
    split
    · exact ⟨rfl, rfl, id⟩
    · exact ⟨rfl, rfl, id⟩
  | recStop =>
    simp only [Control.begin, dadaPwcCmdRecordStop]
    split
    · exact ⟨rfl, rfl, id⟩
    · exact ⟨rfl, rfl, id⟩
  | quit => exact ⟨rfl, rfl, fun _ => rfl⟩
  | _ => exact ⟨rfl, rfl, id⟩

/-- The commands that are set under the mutex. -/
theorem Control.begin_set (cmd : Control) (h : (cmd.begin lib primary args).2 = .set command) :
    command.code ≠ .noCommand ∧ (command.code = .clock → command.byteCount = 0) ∧
      (command.code = .exit → (cmd.begin lib primary args).1.quit = true) := by
  cases cmd with
  | header =>
    have h : (dadaPwcCmdHeader lib primary args).2 = .set command := h
    rcases dadaPwcCmdHeader_cases lib primary args with
      heq | ⟨text, heq⟩ | ⟨text, rate, heq⟩
    · rw [heq] at h
      cases h
    · rw [heq] at h
      cases h
    · rw [heq] at h
      cases h
      simp
  | duration =>
    simp only [Control.begin, dadaPwcCmdDuration] at h
    cases args with
    | none => cases h
    | some text =>
      dsimp only at h
      split at h
      · cases h
      · cases h
  | recStart =>
    simp only [Control.begin, dadaPwcCmdRecordStart] at h
    split at h
    · cases h
    · simp [timedCommand_set h]
  | recStop =>
    simp only [Control.begin, dadaPwcCmdRecordStop] at h
    split at h
    · cases h
    · simp [timedCommand_set h]
  | stop => simp [timedCommand_set h]
  | setUtcStart => simp [timedCommand_set h]
  | start =>
    cases h
    simp
  | clock =>
    cases h
    simp [PwcCommand.init]
  | quit =>
    cases h
    simp [Control.begin, dadaPwcCmdQuit]
  | reset =>
    cases h
    simp

/-- What is done under the mutex: nothing, or a command is accepted, or a duration is set. -/
theorem Pending.finish_cases {pending : Pending} (h : pending.finish primary = some (ret, p)) :
    (p = primary ∧ pending.report ret = []) ∨
    (∃ c, pending = .set c ∧ primary.command.code = .noCommand ∧
      primary.state.admits c.code = true ∧ p = { primary with command := c } ∧
      pending.report ret = [.accepted c]) ∨
    ∃ n, pending = .duration n ∧ primary.command.code = .noCommand ∧ primary.state ≠ .recording ∧
      p = { primary with command := { primary.command with byteCount := n } } ∧
      pending.report ret = [.durationSet n] := by
  cases pending with
  | done r =>
    cases h
    exact .inl ⟨rfl, rfl⟩
  | set c =>
    simp only [Pending.finish, dadaPwcCommandSet] at h
    split at h
    · cases h
    · rename_i hfree
      split at h
      · rename_i hadm
        cases h
        exact .inr (.inl ⟨c, rfl, by simpa using hfree, hadm, rfl, rfl⟩)
      · cases h
        exact .inl ⟨rfl, rfl⟩
  | duration n =>
    simp only [Pending.finish] at h
    split at h
    · cases h
    · rename_i hfree
      split at h
      · cases h
        exact .inl ⟨rfl, rfl⟩
      · rename_i hrec
        cases h
        exact .inr (.inr ⟨n, rfl, by simpa using hfree, hrec, rfl, rfl⟩)

end Clients

/-! ## The pieces of an iteration -/

section Pieces

open Outcome

variable {pwcm : PwcMain} {r : Round} {hdus : ℕ} {t u w : Transfer} {P : Transfer → Prop}

/-- The variables meet a condition, however a piece ends. -/
def Outcome.Ends (P : Transfer → Prop) (o : Outcome) : Prop := P o.transfer

theorem Outcome.Ends.andThen {o : Outcome} {f : Transfer → Outcome} (h : o.Ends P)
    (hf : ∀ u, P u → (f u).Ends P) : (o.andThen f).Ends P := by
  cases o with
  | next u => exact hf u h
  | ret rval u => exact h
  | abort u => exact h

theorem ends_forHdus {body : ℕ → Transfer → Outcome} (ht : P t)
    (hbody : ∀ i u, P u → (body i u).Ends P) : (forHdus body hdus t).Ends P := by
  induction hdus with
  | zero => exact ht
  | succ n ih => exact ih.andThen (hbody n)

/-- What concerns the next change of state is as in `t`. -/
def SameChange (t u : Transfer) : Prop :=
  u.state = t.state ∧ u.command = t.command ∧ u.transitByte = t.transitByte

theorem SameChange.refl (t : Transfer) : SameChange t t := ⟨rfl, rfl, rfl⟩

/-- Closes the goals in which only other variables have been set. -/
theorem SameChange.of_eq (h : SameChange t u) (hs : w.state = u.state) (hc : w.command = u.command)
    (hb : w.transitByte = u.transitByte) : SameChange t w :=
  ⟨hs.trans h.1, hc.trans h.2.1, hb.trans h.2.2⟩

theorem takeUtcStart_state {c : PwcCommand} :
    (takeUtcStart pwcm r t c).transfer.state = t.state := by
  unfold takeUtcStart
  split
  · rfl
  · split
    · rfl
    · split
      · rfl
      · split
        · dsimp only
          split
          · rfl
          · rfl
        · rfl

/-- Looking for a command leaves the state alone, and what is taken is a command that the loop knows. -/
theorem takeCommand_cases (immediate : ℕ → ℕ) :
    (takeCommand pwcm r immediate t).transfer.state = t.state ∧
      ∀ u, takeCommand pwcm r immediate t = .next u → (r.command = none ∧ u = t) ∨
        ∃ c, r.command = some c ∧ u.command = c ∧
          ((c.code = .setUtcStart ∧ u.transitByte = t.transitByte) ∨ c.code = .recordStop ∨
            c.code = .recordStart ∨ c.code = .stop) := by
  unfold takeCommand
  cases hc : r.command with
  | none => exact ⟨rfl, fun u hu => .inl ⟨rfl, by cases hu; rfl⟩⟩
  | some c =>
    dsimp only
    split
    · rename_i hutc
      constructor
      · exact takeUtcStart_state
      · intro u hu
        obtain ⟨hw, -⟩ := takeUtcStart_next hu
        have hcommand := congrArg Transfer.command hw
        have htransit := congrArg Transfer.transitByte hw
        exact .inr ⟨c, rfl, hcommand, .inl ⟨hutc, htransit⟩⟩
    · split
      · refine ⟨rfl, fun u hu => ?_⟩
        cases hu
      · rename_i hcode
        have hmem : c.code = .recordStop ∨ c.code = .recordStart ∨ c.code = .stop := by
          by_contra hne
          simp only [not_or] at hne
          exact hcode hne
        constructor
        · split <;> rfl
        · intro u hu
          split at hu
          · cases hu
            exact .inr ⟨c, rfl, rfl, .inr hmem⟩
          · cases hu
            exact .inr ⟨c, rfl, rfl, .inr hmem⟩

theorem useBuffer_sameChange (r : Round) (hdus : ℕ) (t : Transfer) :
    (useBuffer r hdus t).Ends (SameChange t) := by
  unfold useBuffer
  dsimp only
  split
  · exact .refl t
  · split
    · exact .of_eq (.refl t) rfl rfl rfl
    · refine Outcome.Ends.andThen ?_ fun u hu => ?_
      · refine ends_forHdus (.of_eq (.refl t) rfl rfl rfl) fun i u hu => ?_
        split
        · exact hu
        · dsimp only
          split
          · exact .of_eq hu rfl rfl rfl
          · exact .of_eq hu rfl rfl rfl
      · exact .of_eq hu rfl rfl rfl

theorem emptyBuffer_sameChange (pwcm : PwcMain) (r : Round) (t : Transfer) :
    (emptyBuffer pwcm r t).Ends (SameChange t) := by
  unfold emptyBuffer
  dsimp only
  split_ifs <;> exact .of_eq (.refl t) rfl rfl rfl

/-- Getting a buffer does not concern the next change of state. -/
theorem transferBuffer_sameChange : (transferBuffer pwcm r t).Ends (SameChange t) := by
  unfold transferBuffer
  split
  · dsimp only
    have hget : SameChange t (getBuffer r t) := .of_eq (.refl t) rfl rfl rfl
    split
    · exact hget
    · refine Outcome.Ends.andThen ?_ fun u hu => ?_
      · split
        · obtain ⟨hs, hc, hb⟩ := emptyBuffer_sameChange pwcm r (getBuffer r t)
          exact .of_eq hget hs hc hb
        · exact hget
      · obtain ⟨hs, hc, hb⟩ := useBuffer_sameChange r 1 u
        exact .of_eq hu hs hc hb
  · exact .refl t

/-- Filling a block does not concern the next change of state. -/
theorem transferBlock_sameChange (blockSize : ℕ) :
    (transferBlock pwcm r blockSize t).Ends (SameChange t) := by
  unfold transferBlock
  dsimp only
  split
  · split
    · exact .of_eq (.refl t) rfl rfl rfl
    · split
      · exact .of_eq (.refl t) rfl rfl rfl
      · split
        · exact .of_eq (.refl t) rfl rfl rfl
        · refine Outcome.Ends.andThen ?_ fun u hu => ?_
          · unfold closeBlock
            dsimp only
            split_ifs <;> exact .of_eq (.refl t) rfl rfl rfl
          · split
            · exact .of_eq hu rfl rfl rfl
            · exact .of_eq hu rfl rfl rfl
  · exact .of_eq (.refl t) rfl rfl rfl

theorem writeRemainder_sameChange : (writeRemainder r t).Ends (SameChange t) := by
  unfold writeRemainder
  dsimp only
  split
  · split
    · exact .of_eq (.refl t) rfl rfl rfl
    · exact .of_eq (.refl t) rfl rfl rfl
  · exact .of_eq (.refl t) rfl rfl rfl

theorem recordStart_state (pwcm : PwcMain) (r : Round) (hdus : ℕ) (t : Transfer) :
    (recordStart pwcm r hdus t).transfer.state = t.state := by
  unfold recordStart
  dsimp only
  generalize hv : (if r.soclockByte (hdus - 1) + t.command.byteCount < r.startMinimum (hdus - 1) then
    { t with command := { t.command with
      byteCount := usub (r.startMinimum (hdus - 1)) (r.soclockByte (hdus - 1)) } } else t) = v
  have hsame : v.state = t.state := by
    subst hv
    split
    · rfl
    · rfl
  split
  · exact hsame
  · refine Outcome.Ends.andThen (P := fun u => u.state = t.state) ?_ fun u hu => ?_
    · refine ends_forHdus hsame fun i u hu => ?_
      split
      · exact hu
      · exact hu
    · split
      · exact hu
      · split
        · exact hu
        · exact hu

/-- The state is the same, or it has become clocking or recording as the connection lets it. -/
def Passes (state state' : PwcState) : Prop :=
  state' = state ∨ (state.mayBecome state' = true ∧ (state' = .clocking ∨ state' = .recording))

theorem Transfer.setState_passes (t : Transfer) {new : PwcState}
    (hnew : new = .clocking ∨ new = .recording) : Passes t.state (t.setState new).state := by
  unfold Transfer.setState
  dsimp only
  split
  · rename_i hmay
    exact .inr ⟨hmay, hnew⟩
  · exact .inl rfl

theorem changeState_passes : (changeState pwcm r hdus t).Ends fun u => Passes t.state u.state := by
  unfold changeState
  split
  · generalize hstop : forHdus _ hdus t = o
    have hsame : o.Ends fun u => u.state = t.state := by
      rw [← hstop]
      refine ends_forHdus rfl fun i u hu => ?_
      dsimp only
      split
      · exact hu
      · exact hu
    cases o with
    | next u =>
      show Passes t.state (u.setState .clocking).state
      rw [← show u.state = t.state from hsame]
      exact u.setState_passes (.inl rfl)
    | ret rval u => exact .inl hsame
    | abort u => exact .inl hsame
  · have hsame := recordStart_state pwcm r hdus t
    generalize recordStart pwcm r hdus t = o at hsame ⊢
    cases o with
    | next u =>
      show Passes t.state (u.setState .recording).state
      rw [← show u.state = t.state from hsame]
      exact u.setState_passes (.inr rfl)
    | ret rval u => exact .inl hsame
    | abort u => exact .inl hsame
  · split
    · exact .inl rfl
    · exact .inl rfl
  · split
    · exact .inl rfl
    · exact .inl rfl
  · split
    · exact .inl rfl
    · exact .inl rfl
  · exact .inl rfl

/-- A piece that changes state: it leaves the state alone or toggles it, and nothing is due when the
iteration goes on. -/
structure Settles (t : Transfer) (o : Outcome) : Prop where
  passes : o.Ends fun u => Passes t.state u.state
  next : ∀ u, o = .next u → u.transitByte = 0 ∨ u = t

theorem changeState_settles (pwcm : PwcMain) (r : Round) (hdus : ℕ) (t : Transfer) :
    Settles t (changeState pwcm r hdus { t with transitByte := 0 }) :=
  ⟨changeState_passes, fun _ hu => .inl (changeState_next hu).1⟩

theorem transit_settles : Settles t (transit pwcm r t) := by
  unfold transit
  split
  · dsimp only
    split
    · refine ⟨?_, fun u hu => by cases hu⟩
      show Passes t.state _
      split
      · exact .inl rfl
      · exact .inl rfl
    · obtain ⟨hpasses, hnext⟩ := changeState_settles pwcm r 1 t
      constructor
      · refine hpasses.andThen fun u hu => ?_
        have hsame := (writeRemainder_sameChange (r := r) (t := u)).1
        show Passes t.state _
        rwa [hsame]
      · intro w hw
        obtain ⟨u, hu, hw⟩ := andThen_eq_next.mp hw
        have hsame := (writeRemainder_sameChange (r := r) (t := u)).2.2
        rw [hw] at hsame
        have hu : u.transitByte = 0 := (changeState_next hu).1
        exact .inl (hsame.trans hu)
  · exact ⟨.inl rfl, fun u hu => .inr (next.inj hu).symm⟩

theorem transitBlock_settles : Settles t (transitBlock pwcm r t) := by
  unfold transitBlock
  split
  · dsimp only
    split
    · refine ⟨?_, fun u hu => by cases hu⟩
      show Passes t.state _
      split
      · exact .inl rfl
      · exact .inl rfl
    · exact changeState_settles pwcm r 1 t
  · exact ⟨.inl rfl, fun u hu => .inr (next.inj hu).symm⟩

end Pieces

/-! ## The main loop -/

section MainLoop

variable {pwcm : PwcClient} {env : Surroundings} {primary : Pwc} {r : Round} {t u : Transfer}
  {s s' : System}

theorem PwcClient.takeCommand_cases (pwcm : PwcClient) (r : Round) (t : Transfer) :
    (pwcm.takeCommand r t).transfer.state = t.state ∧
      ∀ u, pwcm.takeCommand r t = .next u → (r.command = none ∧ u = t) ∨
        ∃ c, r.command = some c ∧ u.command = c ∧
          ((c.code = .setUtcStart ∧ u.transitByte = t.transitByte) ∨ c.code = .recordStop ∨
            c.code = .recordStart ∨ c.code = .stop) := Psrdada.takeCommand_cases _

theorem PwcClient.transferBuffer_sameChange (pwcm : PwcClient) (r : Round) (t : Transfer) :
    (pwcm.transferBuffer r t).Ends (SameChange t) := by
  unfold PwcClient.transferBuffer
  cases pwcm.blockFunction with
  | none => exact Psrdada.transferBuffer_sameChange
  | some blockSize => exact transferBlock_sameChange blockSize

theorem PwcClient.transit_settles (pwcm : PwcClient) (r : Round) (t : Transfer) :
    Settles t (pwcm.transit r t) := by
  unfold PwcClient.transit
  cases pwcm.blockFunction with
  | none => exact Psrdada.transit_settles
  | some blockSize => exact transitBlock_settles

/-- The state is set, or left alone. -/
theorem dadaPwcSetState_cases (primary : Pwc) (new : PwcState) (utc : ℤ) :
    (dadaPwcSetState primary new utc).2.state = primary.state ∨
      (primary.state.mayBecome new = true ∧ (dadaPwcSetState primary new utc).2.state = new) := by
  unfold dadaPwcSetState
  split
  · rename_i hmay
    exact .inr ⟨hmay, rfl⟩
  · exact .inl rfl

/-- Setting the state leaves the slot and the flag to quit alone. -/
theorem dadaPwcSetState_frame (primary : Pwc) (new : PwcState) (utc : ℤ) :
    (dadaPwcSetState primary new utc).2.command = primary.command ∧
      (dadaPwcSetState primary new utc).2.quit = primary.quit := by
  unfold dadaPwcSetState
  split
  · exact ⟨rfl, rfl⟩
  · exact ⟨rfl, rfl⟩

/-- An iteration, piece by piece. -/
theorem PwcClient.iteration_pieces (h : ¬ (r.quit = true ∨ t.dataTransferErrorState > 1)) :
    pwcm.iteration r t =
      ((pwcm.takeCommand r t).andThen (pwcm.transferBuffer r)).andThen (pwcm.transit r) := by
  unfold PwcClient.iteration PwcClient.takeCommand PwcClient.transferBuffer PwcClient.transit
  cases pwcm.blockFunction with
  | none => exact if_neg h
  | some blockSize => exact if_neg h

/-- The step of the main loop that looks for a command. -/
theorem mainStep_iterate (pwcm : PwcClient) (env : Surroundings) (hphase : s.phase = .iterate t)
    (hgo : ¬ (s.primary.quit = true ∨ t.dataTransferErrorState > 1)) :
    ∃ s₁, s.mainStep pwcm env = some s₁ ∧
      s₁.phase = .after .transferBuffer
        (pwcm.takeCommand { env.toRound with command := s.primary.slot } t) ∧
      s₁.primary.state =
        (pwcm.takeCommand { env.toRound with command := s.primary.slot } t).transfer.state := by
  simp only [System.mainStep, hphase, if_neg hgo]
  cases dadaPwcCommandGet s.primary with
  | none => exact ⟨_, rfl, rfl, rfl⟩
  | some got => exact ⟨_, rfl, rfl, rfl⟩

/-- The step of the main loop that gets a buffer. -/
theorem mainStep_transferBuffer (pwcm : PwcClient) (env : Surroundings)
    (hphase : s.phase = .transferBuffer t) :
    s.mainStep pwcm env = some { s with
      primary := s.primary.after (pwcm.transferBuffer env.toRound t)
      phase := .after .transit (pwcm.transferBuffer env.toRound t) } := by
  simp only [System.mainStep, hphase]

/-- The step of the main loop that changes state. -/
theorem mainStep_transit (pwcm : PwcClient) (env : Surroundings) (hphase : s.phase = .transit t) :
    s.mainStep pwcm env = some { s with
      primary := s.primary.after (pwcm.transit env.toRound t)
      phase := .after .iterate (pwcm.transit env.toRound t) } := by
  simp only [System.mainStep, hphase]

/-- Three steps of the main loop, between which no client comes, are one iteration of the loop that
transfers the data. -/
theorem mainStep_iteration (hphase : s.phase = .iterate t) (henv : env.command = s.primary.slot)
    (hquit : env.quit = s.primary.quit) (hgo : ¬ (s.primary.quit = true ∨ t.dataTransferErrorState > 1))
    (hu : pwcm.iteration env.toRound t = .next u) :
    ∃ s₁ s₂ s₃, s.mainStep pwcm env = some s₁ ∧ s₁.mainStep pwcm env = some s₂ ∧
      s₂.mainStep pwcm env = some s₃ ∧ s₃.phase = .iterate u ∧ s₃.primary.state = u.state := by
  rw [PwcClient.iteration_pieces (by rwa [hquit])] at hu
  obtain ⟨v, hv, hu⟩ := Outcome.andThen_eq_next.mp hu
  obtain ⟨w, hw, hv⟩ := Outcome.andThen_eq_next.mp hv
  obtain ⟨s₁, hs₁, hphase₁, -⟩ := mainStep_iterate pwcm env hphase hgo
  have hround : { env.toRound with command := s.primary.slot } = env.toRound := by rw [← henv]
  rw [hround, hw] at hphase₁
  have hbuffer := mainStep_transferBuffer pwcm env hphase₁
  rw [hv] at hbuffer
  have htransit := mainStep_transit pwcm env (t := v)
    (s := { s₁ with primary := s₁.primary.after (.next v), phase := .after .transit (.next v) }) rfl
  rw [hu] at htransit
  exact ⟨s₁, _, _, hs₁, hbuffer, htransit, rfl, rfl⟩

end MainLoop

end Psrdada
