import Psrdada.Pwc.Recorder

/-! # Loops that agree

Two loops agree when their pieces, one after the other, end alike.  The pieces that are shared do not
look at the variables that concern the current buffer only, so that the loops may differ in these. -/

namespace Psrdada

/-- A command that changes between clocking and recording. -/
def CommandCode.Changes (c : CommandCode) : Prop := c = .recordStart ∨ c = .recordStop

/-- The variables that concern the current buffer only, taken from `s`. -/
def Transfer.withScratch (t s : Transfer) : Transfer :=
  { t with
    buffer := s.buffer
    bufBytes := s.bufBytes
    bufferSize := s.bufferSize
    dataTransferErrorState := s.dataTransferErrorState }

namespace Outcome

variable {Q R S : Transfer → Transfer → Prop} {o p : Outcome} {f g : Transfer → Outcome}
  {t u w : Transfer}

/-- The variables at the end replaced. -/
def map (f : Transfer → Transfer) : Outcome → Outcome
  | .next t => .next (f t)
  | .ret rval t => .ret rval (f t)
  | .abort t => .abort (f t)

/-- Two pieces that end alike: in `R` when they go on, in `S` when the loop is left. -/
def Related (R S : Transfer → Transfer → Prop) : Outcome → Outcome → Prop
  | .next t, .next u => R t u
  | .ret rval t, .ret rval' u => rval = rval' ∧ S t u
  | .abort t, .abort u => S t u
  | _, _ => False

theorem andThen_eq_next : o.andThen f = .next w ↔ ∃ v, o = .next v ∧ f v = .next w := by
  cases o with
  | next v =>
    constructor
    · intro h
      exact ⟨v, rfl, h⟩
    · rintro ⟨u, ⟨⟩, h⟩
      exact h
  | ret rval v => simp [andThen]
  | abort v => simp [andThen]

theorem andThen_assoc (o : Outcome) (f g : Transfer → Outcome) :
    (o.andThen f).andThen g = o.andThen fun t => (f t).andThen g := by
  cases o with
  | next t => rfl
  | ret rval t => rfl
  | abort t => rfl

theorem andThen_next (o : Outcome) : o.andThen .next = o := by
  cases o with
  | next t => rfl
  | ret rval t => rfl
  | abort t => rfl

theorem map_andThen {k : Transfer → Transfer} (h : ∀ t, g (k t) = (f t).map k) :
    (o.map k).andThen g = (o.andThen f).map k := by
  cases o with
  | next t => exact h t
  | ret rval t => rfl
  | abort t => rfl

theorem related_map {k : Transfer → Transfer} (hR : ∀ t, R t (k t)) (hS : ∀ t, S t (k t))
    (o : Outcome) : Related R S o (o.map k) := by
  cases o with
  | next t => exact hR t
  | ret rval t => exact ⟨rfl, hS t⟩
  | abort t => exact hS t

theorem related_refl (hR : ∀ t, R t t) (hS : ∀ t, S t t) (o : Outcome) : Related R S o o := by
  cases o with
  | next t => exact hR t
  | ret rval t => exact ⟨rfl, hS t⟩
  | abort t => exact hS t

theorem Related.of_next (h : Related R S (.next t) p) : ∃ u, p = .next u ∧ R t u := by
  cases p with
  | next u => exact ⟨u, rfl, h⟩
  | ret rval u => exact h.elim
  | abort u => exact h.elim

theorem Related.next_of (h : Related R S o (.next u)) : ∃ t, o = .next t ∧ R t u := by
  cases o with
  | next t => exact ⟨t, rfl, h⟩
  | ret rval t => exact h.elim
  | abort t => exact h.elim

theorem Related.mono (h : Related Q S o p) (hQR : ∀ t u, Q t u → R t u) : Related R S o p := by
  cases o with
  | next t =>
    obtain ⟨u, rfl, hu⟩ := h.of_next
    exact hQR t u hu
  | ret rval t => cases p <;> exact h
  | abort t => cases p <;> exact h

/-- Sequential composition. -/
theorem Related.andThen (h : Related R S o p)
    (hfg : ∀ v w, o = .next v → p = .next w → R v w → Related Q S (f v) (g w)) :
    Related Q S (o.andThen f) (p.andThen g) := by
  cases o with
  | next t =>
    cases p with
    | next u => exact hfg t u rfl rfl h
    | ret rval u => exact h.elim
    | abort u => exact h.elim
  | ret rval t =>
    cases p with
    | next u => exact h.elim
    | ret rval u => exact h
    | abort u => exact h.elim
  | abort t =>
    cases p with
    | next u => exact h.elim
    | ret rval u => exact h.elim
    | abort u => exact h

end Outcome

/-! ## The pieces that are shared -/

section Pieces

open Outcome

variable {pwcm : PwcMain} {r : Round} {hdus : ℕ} {t u w : Transfer}

theorem forHdus_map {body : ℕ → Transfer → Outcome} {k : Transfer → Transfer}
    (hbody : ∀ i u, body i (k u) = (body i u).map k) :
    forHdus body hdus (k t) = (forHdus body hdus t).map k := by
  induction hdus with
  | zero => rfl
  | succ n ih =>
    rw [forHdus, ih]
    exact map_andThen (hbody n)

theorem takeCommand_map {immediate : ℕ → ℕ} (s : Transfer) :
    takeCommand pwcm r immediate (t.withScratch s) =
      (takeCommand pwcm r immediate t).map fun u => u.withScratch s := by
  unfold takeCommand
  cases r.command with
  | none => rfl
  | some command =>
    dsimp only [Transfer.note, Transfer.withScratch]
    split
    · unfold takeUtcStart
      dsimp only
      split_ifs <;> rfl
    · split_ifs <;> rfl

theorem recordStart_map (s : Transfer) :
    recordStart pwcm r hdus (t.withScratch s) =
      (recordStart pwcm r hdus t).map fun u => u.withScratch s := by
  unfold recordStart
  dsimp only [Transfer.withScratch]
  -- the byte count may be put right first
  generalize hv : (if r.soclockByte (hdus - 1) + t.command.byteCount < r.startMinimum (hdus - 1) then
    { t with command := { t.command with
      byteCount := usub (r.startMinimum (hdus - 1)) (r.soclockByte (hdus - 1)) } } else t) = v
  generalize hw : (if r.soclockByte (hdus - 1) + t.command.byteCount < r.startMinimum (hdus - 1) then
    Transfer.mk _ _ _ _ _ _ _ _ _ _ _ _ _ else Transfer.mk _ _ _ _ _ _ _ _ _ _ _ _ _) = w
  have hvw : w = v.withScratch s := by
    subst hv
    subst hw
    split
    · rfl
    · rfl
  rw [hvw]
  split
  · rfl
  · rw [forHdus_map (k := fun u => u.withScratch s)]
    · refine map_andThen fun u => ?_
      dsimp only [Transfer.withScratch]
      split_ifs <;> rfl
    · intro i u
      dsimp only [Transfer.note, Transfer.withScratch]
      split
      · rfl
      · rfl

theorem takeUtcStart_next {command : PwcCommand} (h : takeUtcStart pwcm r t command = .next w) :
    w = { t with headerValid := w.headerValid, utcStartSet := true } ∧
      (w.headerValid = t.headerValid ∨ w.headerValid = checkHeader pwcm r) := by
  unfold takeUtcStart at h
  split at h
  · cases h
  · split at h
    · rename_i hset
      cases h
      exact ⟨by rw [← hset], .inl rfl⟩
    · split at h
      · cases h
      · split at h
        · dsimp only at h
          split at h
          · cases h
          · cases h
            exact ⟨rfl, .inr rfl⟩
        · cases h
          exact ⟨rfl, .inl rfl⟩

/-- A change of state leaves the scratch variables alone. -/
theorem changeState_map (s : Transfer) :
    changeState pwcm r hdus (t.withScratch s) =
      (changeState pwcm r hdus t).map fun u => u.withScratch s := by
  unfold changeState
  have hcode : (t.withScratch s).command.code = t.command.code := rfl
  rw [hcode]
  cases t.command.code with
  | recordStop =>
    dsimp only
    rw [forHdus_map (k := fun u => u.withScratch s)]
    · exact map_andThen fun u => rfl
    · intro i u
      dsimp only [Transfer.note, Transfer.withScratch]
      split
      · rfl
      · rfl
  | recordStart =>
    dsimp only
    rw [recordStart_map]
    exact map_andThen fun u => rfl
  | setUtcStart | clock | start =>
    dsimp only [Transfer.note, Transfer.withScratch]
    by_cases htotal : t.totalBytesWritten = 0
    · simp [htotal, map]
    · simp [htotal, map]
  | _ => rfl

theorem takeCommand_self {immediate : ℕ → ℕ} : takeCommand pwcm r immediate t =
    (takeCommand pwcm r immediate t).map fun v => v.withScratch t := takeCommand_map (t := t) t

theorem changeState_self : changeState pwcm r hdus t =
    (changeState pwcm r hdus t).map fun v => v.withScratch t := changeState_map (t := t) t

/-- The loop goes on after a change between clocking and recording only. -/
theorem changes_of_next (h : changeState pwcm r hdus t = .next w) (hpos : t.totalBytesWritten ≠ 0) :
    t.command.code.Changes := by
  unfold changeState at h
  cases hcode : t.command.code with
  | recordStop => exact .inr rfl
  | recordStart => exact .inl rfl
  | setUtcStart | clock | start =>
    rw [hcode] at h
    simp [hpos] at h
  | _ =>
    rw [hcode] at h
    cases h

/-- Nothing is written, and the transit byte is left alone. -/
def NotWritten (t u : Transfer) : Prop :=
  u.transitByte = t.transitByte ∧
    ∀ hdu buf off len, .write hdu buf off len ∈ u.log → .write hdu buf off len ∈ t.log

theorem forHdus_notWritten {body : ℕ → Transfer → Outcome}
    (hbody : ∀ i u v, body i u = .next v → NotWritten u v) (h : forHdus body hdus t = .next w) :
    NotWritten t w := by
  induction hdus generalizing w with
  | zero =>
    cases h
    exact ⟨rfl, fun _ _ _ _ h => h⟩
  | succ n ih =>
    rw [forHdus, andThen_eq_next] at h
    obtain ⟨u, hu, hw⟩ := h
    have hfirst := ih hu
    have hlast := hbody n u w hw
    refine ⟨hlast.1.trans hfirst.1, fun hdu buf off len hmem => ?_⟩
    exact hfirst.2 _ _ _ _ (hlast.2 _ _ _ _ hmem)

theorem recordStart_next (h : recordStart pwcm r hdus t = .next w) : NotWritten t w := by
  unfold recordStart at h
  dsimp only at h
  generalize hv : (if r.soclockByte (hdus - 1) + t.command.byteCount < r.startMinimum (hdus - 1) then
    { t with command := { t.command with
      byteCount := usub (r.startMinimum (hdus - 1)) (r.soclockByte (hdus - 1)) } } else t) = v at h
  have hsame : v.transitByte = t.transitByte ∧ v.log = t.log := by
    subst hv
    split
    · exact ⟨rfl, rfl⟩
    · exact ⟨rfl, rfl⟩
  split at h
  · cases h
  · obtain ⟨u, hu, h⟩ := andThen_eq_next.mp h
    have hstart : NotWritten v u := by
      refine forHdus_notWritten (fun i x y hxy => ?_) hu
      split at hxy
      · cases hxy
        exact ⟨rfl, by simp [Transfer.note]⟩
      · cases hxy
    have hw : w.transitByte = u.transitByte ∧ w.log = u.log := by
      split at h
      · cases h
        exact ⟨rfl, rfl⟩
      · split at h
        · cases h
          exact ⟨rfl, rfl⟩
        · cases h
    rw [NotWritten, hw.1, hw.2, ← hsame.1, ← hsame.2]
    exact hstart

/-- A change of state does not write. -/
theorem changeState_next (h : changeState pwcm r hdus t = .next w) : NotWritten t w := by
  unfold changeState at h
  cases hcode : t.command.code with
  | recordStop =>
    rw [hcode] at h
    obtain ⟨u, hu, h⟩ := andThen_eq_next.mp h
    cases h
    show NotWritten t u
    refine forHdus_notWritten (fun i x y hxy => ?_) hu
    dsimp only at hxy
    split at hxy
    · cases hxy
      exact ⟨rfl, by simp [Transfer.note]⟩
    · cases hxy
  | recordStart =>
    rw [hcode] at h
    obtain ⟨u, hu, h⟩ := andThen_eq_next.mp h
    cases h
    show NotWritten t u
    exact recordStart_next hu
  | setUtcStart | clock | start =>
    rw [hcode] at h
    dsimp only at h
    split at h
    · cases h
    · cases h
      exact ⟨rfl, fun _ _ _ _ h => h⟩
  | _ =>
    rw [hcode] at h
    cases h

/-- A piece that leaves the scratch variables alone. -/
theorem withScratch_of_map {o : Outcome} (h : o = o.map fun v => v.withScratch t) (hu : o = .next u) :
    u = u.withScratch t := by
  rw [hu] at h
  exact next.inj h

/-- A command that takes effect at once counts from the same total in all loops when something has been
written. -/
theorem takeCommand_immediate
    (hnow : ∀ command, r.command = some command →
      command.code = .recordStop ∨ command.code = .recordStart ∨ command.code = .stop →
      command.byteCount ≤ t.totalBytesWritten → t.totalBytesWritten ≠ 0) :
    takeCommand pwcm r immediateTotal t = takeCommand pwcm r id t := by
  unfold takeCommand
  cases hc : r.command with
  | none => rfl
  | some command =>
    dsimp only
    split
    · rfl
    · split
      · rfl
      · rename_i hcode
        split
        · rfl
        · rename_i hdated
          have hmem : command.code = .recordStop ∨ command.code = .recordStart ∨
              command.code = .stop := by
            by_contra hne
            simp only [not_or] at hne
            exact hcode hne
          have himm : immediateTotal t.totalBytesWritten = t.totalBytesWritten :=
            if_neg (hnow command hc hmem (Nat.not_lt.mp hdated))
          simp only [Transfer.note, himm, id]

/-- Nothing remains of the buffer. -/
theorem writeRemainder_nothing (hrest : usub t.bufferSize.toNat t.bufBytes = 0) :
    writeRemainder r t =
      .next { t with buffer := t.buffer.map fun b => (b.1, b.2 + t.bufBytes), bufBytes := 0 } := by
  simp [writeRemainder, hrest]

/-- Something remains of the buffer. -/
theorem writeRemainder_rest {k n : ℕ} (hbuf : t.buffer = some (k, 0))
    (hrest : usub t.bufferSize.toNat t.bufBytes = n) (hn : n ≠ 0) :
    writeRemainder r t =
      if r.spaceRest 0 < n ∧ (!t.utcStartSet) = true then
        .ret dadaErrorFatal { t with buffer := some (k, t.bufBytes), bufBytes := n }
      else .next { t.note (.write 0 k t.bufBytes n) with
        buffer := some (k, t.bufBytes)
        bufBytes := n
        totalBytesWritten := t.totalBytesWritten + n } := by
  simp [writeRemainder, hbuf, hrest, hn, Transfer.note]

/-- The transit byte has not been reached. -/
theorem transit_not (h : ¬ (t.transitByte ≠ 0 ∧ t.transitByte ≤ t.totalBytesWritten)) :
    transit pwcm r t = .next t := if_neg h

/-- The transit byte has been reached. -/
theorem transit_reached (hxfer : pwcm.xferPendingFunction = false)
    (h : t.transitByte ≠ 0 ∧ t.transitByte ≤ t.totalBytesWritten) :
    transit pwcm r t =
      if t.command.code = .stop then .ret 0 (Transfer.note { t with transitByte := 0 } .left)
      else (changeState pwcm r 1 { t with transitByte := 0 }).andThen (writeRemainder r) := by
  rw [transit, if_pos h]
  dsimp only
  rw [hxfer]
  rfl

/-- The client quits, or the loop has given up. -/
theorem dadaPwcMainRound_done (h : r.quit = true ∨ t.dataTransferErrorState > 1) :
    dadaPwcMainRound pwcm r t = .ret 0 t := if_pos h

/-- An iteration, piece by piece. -/
theorem dadaPwcMainRound_pieces (h : ¬ (r.quit = true ∨ t.dataTransferErrorState > 1)) :
    dadaPwcMainRound pwcm r t = (takeCommand pwcm r immediateTotal t).andThen fun u =>
      (transferBuffer pwcm r u).andThen (transit pwcm r) := by
  rw [dadaPwcMainRound, if_neg h, andThen_assoc]

end Pieces

end Psrdada
