import Psrdada.Pwc.Agreement

/-! # Timed commands

From the time in the argument of `rec_start`, `rec_stop` or `stop` to the byte at which the transfer loop
executes the command.  A time that has passed stops the transfer at once, and starts it at the earliest
byte that is still in the ring.  A text that is no time is not noticed: `str2utctm` does not look at the
result of `strptime`, and the value `-1` for failure passes the check for `0`. -/

namespace Psrdada

/-! ## What is asked for -/

/-- The byte of the observation at a UTC. -/
def observationByte (primary : Pwc) (utc : ℤ) : ℕ :=
  (utc - primary.utcStart).toNat * primary.bytesPerSecond

/-- The start of the packet that holds the byte at a UTC. -/
def packetStart (primary : Pwc) (utc : ℤ) : ℕ :=
  observationByte primary utc / primary.byteResolution * primary.byteResolution

/-- The end of the packet that holds the byte at a UTC; without packets the byte itself. -/
def packetEnd (primary : Pwc) (utc : ℤ) : ℕ :=
  if primary.byteResolution = 1 then observationByte primary utc
  else packetStart primary utc + primary.byteResolution

/-- The byte that a timed command asks for. -/
def dueByte (primary : Pwc) (code : CommandCode) (utc : ℤ) : ℕ :=
  if code = .recordStart then packetStart primary utc else packetEnd primary utc

/-- The byte at which the loop stops that is to stop at byte `n`: there, or at once. -/
def stopByte (t : Transfer) (n : ℕ) : ℕ := max n (immediateTotal t.totalBytesWritten)

/-- The byte at which recording starts that is to start at byte `n`: there, or at the earliest byte that
is still in the ring. -/
def startByte (r : Round) (hdus n : ℕ) : ℕ :=
  max (r.soclockByte (hdus - 1) + n) (r.startMinimum (hdus - 1))

/-- The command functions that take a time. -/
inductive Timed : Control → CommandCode → Prop
  | recStart : Timed .recStart .recordStart
  | recStop : Timed .recStop .recordStop
  | stop : Timed .stop .stop

/-- **A timed command takes effect at the time asked for.** -/
structure TakesEffect (primary primary' : Pwc) (code : CommandCode) (utc : ℤ) : Prop where
  /-- What is queued is the byte of the packet. -/
  queued : primary'.command = ⟨code, utc, dueByte primary code utc, false⟩
  /-- The loop that takes the command changes state there, or at once. -/
  taken : ∀ pwcm (r : Round) t, r.command = some primary'.command →
    ∃ u, takeCommand pwcm r immediateTotal t = .next u ∧ u.command = primary'.command ∧
      u.transitByte = stopByte t (dueByte primary code utc)
  /-- Recording starts there, or at the earliest byte that is still in the ring. -/
  started : code = .recordStart → ∀ pwcm r hdus t w i soclock minimum byte,
    t.command = primary'.command → changeState pwcm r hdus t = .next w →
    .start i soclock minimum byte ∈ w.log →
    .start i soclock minimum byte ∈ t.log ∨ byte = startByte r hdus (packetStart primary utc)
  /-- What is asked for earlier does not come later. -/
  earlier : ∀ utc' ≤ utc, ∀ t r hdus,
    stopByte t (dueByte primary code utc') ≤ stopByte t (dueByte primary code utc) ∧
    startByte r hdus (packetStart primary utc') ≤ startByte r hdus (packetStart primary utc)

section Timing

open Outcome

variable {lib : Scanner} {primary primary' : Pwc} {cmd : Control} {code : CommandCode}
  {args : String} {utc utc' : ℤ} {pwcm : PwcMain} {r : Round} {hdus : ℕ} {t u w : Transfer}

/-! ## Rounding -/

theorem observationByte_mono (primary : Pwc) (h : utc ≤ utc') :
    observationByte primary utc ≤ observationByte primary utc' :=
  Nat.mul_le_mul_right _ (Int.toNat_le_toNat (by omega))

theorem dueByte_mono (h : utc ≤ utc') : dueByte primary code utc ≤ dueByte primary code utc' := by
  have hbyte := observationByte_mono primary h
  have hstart : packetStart primary utc ≤ packetStart primary utc' :=
    Nat.mul_le_mul_right _ (Nat.div_le_div_right hbyte)
  unfold dueByte packetEnd
  split
  · exact hstart
  · split
    · exact hbyte
    · exact Nat.add_le_add_right hstart _

theorem stopByte_mono {m n : ℕ} (h : m ≤ n) : stopByte t m ≤ stopByte t n := by
  unfold stopByte
  omega

theorem startByte_mono {m n : ℕ} (h : m ≤ n) : startByte r hdus m ≤ startByte r hdus n := by
  unfold startByte
  omega

/-- The byte count of a command that is not too far ahead. -/
theorem commandByte_eq {command : PwcCommand} (hafter : primary.utcStart ≤ command.utc)
    (hrate : primary.bytesPerSecond ≠ 0) (hres : 1 ≤ primary.byteResolution)
    (hbound : observationByte primary command.utc + primary.byteResolution < 2 ^ 64)
    (hcmd : Timed cmd command.code) :
    commandByte primary command = dueByte primary command.code command.utc := by
  have hbyte : toUInt64 (command.utc - primary.utcStart) * primary.bytesPerSecond % 2 ^ 64 =
      observationByte primary command.utc := by
    have hle : (command.utc - primary.utcStart).toNat ≤ observationByte primary command.utc :=
      Nat.le_mul_of_pos_right _ (Nat.pos_of_ne_zero hrate)
    have hsecs : toUInt64 (command.utc - primary.utcStart) =
        (command.utc - primary.utcStart).toNat := by
      rw [toUInt64, Int.emod_eq_of_lt (by omega) (by omega)]
    rw [hsecs]
    exact Nat.mod_eq_of_lt (by rw [← observationByte]; omega)
  have hpacket : packetStart primary command.utc ≤ observationByte primary command.utc :=
    Nat.div_mul_le_self _ _
  unfold commandByte
  rw [hbyte]
  dsimp only
  by_cases hone : primary.byteResolution = 1
  · have hstart : packetStart primary command.utc = observationByte primary command.utc := by
      rw [packetStart, hone, Nat.div_one, Nat.mul_one]
    rw [if_neg (by omega), dueByte, packetEnd, if_pos hone, hstart, ite_self]
  · rw [if_pos (by omega), dueByte, packetEnd, if_neg hone, ← packetStart]
    have hmod : (packetStart primary command.utc + primary.byteResolution) % 2 ^ 64 =
        packetStart primary command.utc + primary.byteResolution := Nat.mod_eq_of_lt (by omega)
    rw [hmod]
    generalize command.code = code at hcmd ⊢
    cases hcmd with
    | recStart => rfl
    | recStop => rfl
    | stop => rfl

/-! ## Acceptance -/

/-- A timed command whose argument is a time, as it is set in the slot. -/
theorem timedCommand_accepted {command : PwcCommand} (hconv : primary.convertToBytes = true)
    (hutc : command.utc ≠ 0) (hafter : primary.utcStart ≤ command.utc)
    (h : (timedCommand primary command).finish primary = some (0, primary')) :
    primary.bytesPerSecond ≠ 0 ∧
      primary'.command = { command with byteCount := commandByte primary command } := by
  unfold timedCommand at h
  cases hset : dadaPwcCommandSetByteCount primary command with
  | none =>
    rw [hset] at h
    cases h
  | some set =>
    rw [hset] at h
    unfold dadaPwcCommandSetByteCount at hset
    rw [hconv, if_neg (by simp), if_neg hutc] at hset
    split at hset
    · cases hset
    · split at hset
      · cases hset
      · rename_i hrate
        rw [if_neg (by omega)] at hset
        cases hset
        simp only [Pending.finish, dadaPwcCommandSet] at h
        split at h
        · cases h
        · split at h
          · cases h
            exact ⟨hrate, rfl⟩
          · cases h

theorem Timed.accepted (hcmd : Timed cmd code) (hargs : lib.strptime args = some utc)
    (hconv : primary.convertToBytes = true) (hutc : utc ≠ 0) (hafter : primary.utcStart ≤ utc)
    (haccept : cmd.call lib primary (some args) = some (0, primary')) :
    primary.bytesPerSecond ≠ 0 ∧ primary'.command =
      ⟨code, utc, commandByte primary { PwcCommand.init with code := code, utc := utc }, false⟩ := by
  have hparse : dadaPwcParseTime lib (some args) = utc := by
    simp only [dadaPwcParseTime, str2utctime, hargs, Option.getD_some, ite_eq_right_iff]
    exact Eq.symm
  cases hcmd with
  | recStart =>
    simp only [Control.call, Control.begin, dadaPwcCmdRecordStart, hparse, hutc, if_false] at haccept
    exact timedCommand_accepted hconv hutc hafter haccept
  | recStop =>
    simp only [Control.call, Control.begin, dadaPwcCmdRecordStop, hparse, hutc, if_false] at haccept
    exact timedCommand_accepted hconv hutc hafter haccept
  | stop =>
    simp only [Control.call, Control.begin, dadaPwcCmdStop, hparse] at haccept
    exact timedCommand_accepted hconv hutc hafter haccept

/-! ## Execution -/

/-- A timed command that the loop takes. -/
theorem takeCommand_timed {command : PwcCommand} (hcmd : Timed cmd command.code)
    (hslot : r.command = some command) :
    ∃ u, takeCommand pwcm r immediateTotal t = .next u ∧ u.command = command ∧
      u.transitByte = stopByte t command.byteCount := by
  have hutc : command.code ≠ .setUtcStart := by
    intro h
    rw [h] at hcmd
    cases hcmd
  have hcode : ¬ (command.code ≠ .recordStop ∧ command.code ≠ .recordStart ∧
      command.code ≠ .stop) := by
    generalize command.code = code at hcmd
    cases hcmd with
    | recStart => exact fun h => h.2.1 rfl
    | recStop => exact fun h => h.1 rfl
    | stop => exact fun h => h.2.2 rfl
  unfold takeCommand
  rw [hslot]
  dsimp only
  rw [if_neg hutc, if_neg hcode]
  by_cases hdated : command.byteCount > t.totalBytesWritten
  · refine ⟨_, if_pos hdated, rfl, ?_⟩
    have himm : immediateTotal t.totalBytesWritten ≤ command.byteCount := by
      unfold immediateTotal
      split <;> omega
    exact (max_eq_left himm).symm
  · refine ⟨_, if_neg hdated, rfl, ?_⟩
    have himm : command.byteCount ≤ immediateTotal t.totalBytesWritten := by
      unfold immediateTotal
      split <;> omega
    exact (max_eq_right himm).symm

/-- What is logged for one data block after the other. -/
theorem forHdus_mem {body : ℕ → Transfer → Outcome} (event : ℕ → PwcEvent) {e : PwcEvent}
    (hbody : ∀ i u v, body i u = .next v → v.log = u.log ++ [event i])
    (h : forHdus body hdus t = .next w) (he : e ∈ w.log) : e ∈ t.log ∨ ∃ i, e = event i := by
  induction hdus generalizing w with
  | zero =>
    cases h
    exact .inl he
  | succ n ih =>
    obtain ⟨u, hu, hw⟩ := andThen_eq_next.mp h
    rw [hbody n u w hw, List.mem_append, List.mem_singleton] at he
    rcases he with he | he
    · exact ih hu he
    · exact .inr ⟨n, he⟩

/-- The byte at which recording starts. -/
theorem recordStart_mem {i soclock minimum byte : ℕ} (h : recordStart pwcm r hdus t = .next w)
    (he : .start i soclock minimum byte ∈ w.log) :
    .start i soclock minimum byte ∈ t.log ∨ byte = startByte r hdus t.command.byteCount := by
  unfold recordStart at h
  dsimp only at h
  generalize hv : (if r.soclockByte (hdus - 1) + t.command.byteCount < r.startMinimum (hdus - 1) then
    { t with command := { t.command with
      byteCount := usub (r.startMinimum (hdus - 1)) (r.soclockByte (hdus - 1)) } } else t) = v at h
  have hlog : v.log = t.log := by
    subst hv
    split
    · rfl
    · rfl
  split at h
  · cases h
  · obtain ⟨u, hu, h⟩ := andThen_eq_next.mp h
    have hw : w.log = u.log := by
      split at h
      · cases h
        rfl
      · split at h
        · cases h
          rfl
        · cases h
    rw [hw] at he
    have hmem := forHdus_mem (fun i => .start i (r.soclockByte (hdus - 1))
      (r.startMinimum (hdus - 1)) (startByte r hdus t.command.byteCount)) (fun i x y hxy => ?_) hu he
    · rw [hlog] at hmem
      rcases hmem with hmem | ⟨j, hj⟩
      · exact .inl hmem
      · cases hj
        exact .inr rfl
    · split at hxy
      · cases hxy
        rfl
      · cases hxy

/-- The library calls where every text stands for one time, or for none. -/
def Scanner.clock (time : Option ℤ) (unfilled : ℤ) : Scanner where
  get := fun _ _ => none
  rate := fun _ _ => none
  set := fun header _ _ => header
  strptime := fun _ => time
  unfilled := fun _ => unfilled

/-- A connection of a client that is clocking since second 100. -/
def Pwc.clocking (bytesPerSecond byteResolution : ℕ) : Pwc :=
  { Pwc.create 4096 with
    state := .clocking
    utcStart := 100
    bytesPerSecond := bytesPerSecond
    byteResolution := byteResolution }

end Timing

end Psrdada
