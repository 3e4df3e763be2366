import Psrdada.Pwc.Agreement

/-! # Blocks in place of buffers

The loop that has the blocks of the data block filled in place does what the loop with buffers does when
it is given the same data, as long as every block is filled whole and no change comes inside a block.
It differs where the source does: at a total of 0 it does not notice a command that takes effect at
once, and it drops what remains of a block. -/

namespace Psrdada

/-- The rounds in which the two loops agree: a block is filled whole, a command that takes effect at once
comes when something has been written, and a change between clocking and recording comes at the end of
a block. -/
structure InBlocks (blockSize : ℕ) (r : Round) (t : Transfer) : Prop where
  opens : r.opens = true
  closes : r.closes = r.writes 0
  full : r.size = blockSize
  buffer : r.null = false
  space : t.utcStartSet = true ∨ blockSize ≤ r.spaceLeft 0
  header : t.headerValid = true ∨ r.headerValid = false ∨ r.markFilled = true
  now : ∀ command, r.command = some command →
    command.code = .recordStop ∨ command.code = .recordStart ∨ command.code = .stop →
    command.byteCount ≤ t.totalBytesWritten → t.totalBytesWritten ≠ 0
  rest : ∀ command, r.command = some command → command.code.Changes →
    command.byteCount ≤ t.totalBytesWritten → t.bufferSize = t.bufBytes
  edge : ∀ command, r.command = some command → command.code.Changes →
    t.totalBytesWritten < command.byteCount → blockSize ≤ command.byteCount - t.totalBytesWritten
  pending : r.command = none → t.command.code.Changes → t.transitByte ≠ 0 →
    blockSize ≤ t.bytesToWrite

/-- What is known when a command has been taken. -/
structure Commanded (blockSize : ℕ) (r : Round) (t : Transfer) : Prop where
  space : t.utcStartSet = true ∨ blockSize ≤ r.spaceLeft 0
  header : t.headerValid = true ∨ r.headerValid = false ∨ r.markFilled = true
  rest : t.command.code.Changes → t.transitByte ≠ 0 → t.bytesToWrite = 0 → t.bufferSize = t.bufBytes
  edge : t.command.code.Changes → t.transitByte ≠ 0 → t.bytesToWrite ≠ 0 → blockSize ≤ t.bytesToWrite

/-- All is the same but the variables that concern the current buffer only; no error is pending. -/
def SameBlocks (t u : Transfer) : Prop :=
  t.dataTransferErrorState = 0 ∧ ∃ b n, u = { t with buffer := b, bufBytes := n }

/-- The loops have done the same and are left in the same state. -/
def SameEnd (t u : Transfer) : Prop := t.log = u.log ∧ t.state = u.state ∧ t.command = u.command

/-- A block has been used. -/
structure Used (blockSize : ℕ) (t u : Transfer) : Prop where
  error : u.dataTransferErrorState = 0
  command : u.command = t.command
  transit : u.transitByte = t.transitByte
  size : u.bufferSize = blockSize
  part : u.bufBytes =
    if t.transitByte ≠ 0 ∧ blockSize > t.bytesToWrite then t.bytesToWrite else blockSize
  total : u.totalBytesWritten = t.totalBytesWritten + u.bufBytes
  bytes : u.bytesToWrite =
    if t.bytesToWrite ≠ 0 then usub t.bytesToWrite u.bufBytes else t.bytesToWrite
  log : u.log = t.log ++ [.fetched blockSize, .write 0 t.fetched 0 u.bufBytes]

section Blocks

open Outcome

variable {pwcm : PwcMain} {blockSize : ℕ} {r : Round} {t u v w : Transfer}

theorem InBlocks.commanded (h : InBlocks blockSize r t) (hpos : 0 < blockSize)
    (hv : takeCommand pwcm r id t = .next v) : Commanded blockSize r v := by
  unfold takeCommand at hv
  cases hc : r.command with
  | none =>
    rw [hc] at hv
    cases hv
    refine ⟨h.space, h.header, fun hcode hbusy hbytes => ?_, fun hcode hbusy _ => ?_⟩
    · have hle := h.pending hc hcode hbusy
      omega
    · exact h.pending hc hcode hbusy
  | some command =>
    rw [hc] at hv
    dsimp only at hv
    split at hv
    · rename_i hutc
      obtain ⟨hv, hheader⟩ := takeUtcStart_next hv
      have hset : v.utcStartSet = true := by rw [hv]
      have hnot : ¬ v.command.code.Changes := by
        rw [hv]
        rintro (hne | hne)
        · cases hutc.symm.trans hne
        · cases hutc.symm.trans hne
      refine ⟨.inl hset, ?_, fun hcode => absurd hcode hnot, fun hcode => absurd hcode hnot⟩
      rcases hheader with hheader | hheader
      · rw [hheader]
        exact h.header
      · rw [hheader, checkHeader]
        cases hvalid : r.headerValid with
        | false => exact .inr (.inl rfl)
        | true =>
          left
          split <;> rfl
    · split at hv
      · cases hv
      · split at hv
        · rename_i hdated
          cases hv
          refine ⟨h.space, h.header, fun _ _ hbytes => ?_, fun hcode _ _ => ?_⟩
          · have hdated : t.totalBytesWritten < command.byteCount := hdated
            have hbytes : command.byteCount - t.totalBytesWritten = 0 := hbytes
            omega
          · exact h.edge command hc hcode hdated
        · rename_i hnow
          cases hv
          refine ⟨h.space, h.header, fun hcode _ _ => ?_, fun _ _ hbytes => absurd rfl hbytes⟩
          exact h.rest command hc hcode (Nat.not_lt.mp hnow)

/-- A whole block is used in the same way in both loops. -/
theorem transferBlock_related (hxfer : pwcm.xferPendingFunction = false) (h : InBlocks blockSize r t)
    (hpos : 0 < blockSize) (hk : Commanded blockSize r v) (herr : v.dataTransferErrorState = 0)
    (hgets : v.transitByte = 0 ∨ v.bytesToWrite ≠ 0) (b : Option (ℕ × ℕ)) (n : ℕ) :
    (transferBuffer pwcm r v).Related (fun x y => x = y ∧ Used blockSize v x) SameEnd
      (transferBlock pwcm r blockSize { v with buffer := b, bufBytes := n }) := by
  have hneg : ¬ (blockSize : ℤ) < 0 := by omega
  have hzero : ¬ (blockSize : ℤ) = 0 := by omega
  have hroom : ∀ k, k ≤ blockSize → ¬ (v.utcStartSet = false ∧ r.spaceLeft 0 < k) := by
    rintro k hk' ⟨hset, hlt⟩
    rcases hk.space with hspace | hspace
    · rw [hset] at hspace
      cases hspace
    · omega
  have hmark : ¬ ((v.headerValid = false ∧ v.state = .recording) ∧ r.headerValid = true ∧
      r.markFilled = false) := by
    rintro ⟨⟨hinvalid, -⟩, hvalid, hfail⟩
    rcases hk.header with hheader | hheader | hheader
    · rw [hinvalid] at hheader
      cases hheader
    · rw [hvalid] at hheader
      cases hheader
    · rw [hfail] at hheader
      cases hheader
  have hclip : (if v.transitByte ≠ 0 ∧ blockSize > v.bytesToWrite then v.bytesToWrite else blockSize) ≤
      blockSize := by
    split <;> omega
  simp only [transferBlock, transferBuffer, getBuffer, useBuffer, writeBuffer, forHdus, closeBlock,
    Outcome.andThen, Transfer.note, h.full, h.opens, h.buffer, hxfer, herr, hgets, hneg, hzero,
    h.closes, Int.toNat_natCast, if_true, if_false, Bool.not_true, Bool.not_false, Bool.false_eq_true]
  cases hwrites : r.writes 0 with
  | false => simp [hroom _ hclip, hmark, Related, SameEnd]
  | true =>
    simp [hroom _ hclip, hmark, Related]
    constructor <;> simp

/-- Nothing remains of a block that is used up to a change. -/
theorem Used.rest (h : Used blockSize v w) (hk : Commanded blockSize r v)
    (hgets : v.transitByte = 0 ∨ v.bytesToWrite ≠ 0) (hcode : w.command.code.Changes)
    (hbusy : w.transitByte ≠ 0) : usub w.bufferSize.toNat w.bufBytes = 0 := by
  rw [h.command] at hcode
  rw [h.transit] at hbusy
  have hedge := hk.edge hcode hbusy (hgets.resolve_left hbusy)
  rw [h.size, h.part, if_neg (by omega), Int.toNat_natCast]
  simp [usub]

/-- Nothing remains of the last block when a change comes at once. -/
theorem Commanded.rest_of_not (hk : Commanded blockSize r v)
    (hgets : ¬ (v.transitByte = 0 ∨ v.bytesToWrite ≠ 0)) (hcode : v.command.code.Changes)
    (hbusy : v.transitByte ≠ 0) : usub v.bufferSize.toNat v.bufBytes = 0 := by
  rw [not_or, not_not] at hgets
  rw [hk.rest hcode hbusy hgets.2]
  simp [usub]

/-- The transit byte has not been reached. -/
theorem transitBlock_not (h : ¬ (t.transitByte ≠ 0 ∧ t.transitByte ≤ t.totalBytesWritten)) :
    transitBlock pwcm r t = .next t := if_neg h

/-- The transit byte has been reached. -/
theorem transitBlock_reached (hxfer : pwcm.xferPendingFunction = false)
    (h : t.transitByte ≠ 0 ∧ t.transitByte ≤ t.totalBytesWritten) :
    transitBlock pwcm r t =
      if t.command.code = .stop then .ret 0 (Transfer.note { t with transitByte := 0 } .left)
      else changeState pwcm r 1 { t with transitByte := 0 } := by
  rw [transitBlock, if_pos h]
  dsimp only
  rw [hxfer]
  rfl

/-- Both loops change state, with nothing left of the block. -/
theorem transitBlock_related (hxfer : pwcm.xferPendingFunction = false)
    (herr : v.dataTransferErrorState = 0) (b : Option (ℕ × ℕ)) (n : ℕ)
    (hrest : v.command.code.Changes → v.transitByte ≠ 0 → usub v.bufferSize.toNat v.bufBytes = 0) :
    (transit pwcm r v).Related SameBlocks SameEnd
      (transitBlock pwcm r { v with buffer := b, bufBytes := n }) := by
  by_cases hreach : v.transitByte ≠ 0 ∧ v.transitByte ≤ v.totalBytesWritten
  · rw [transit_reached hxfer hreach,
      transitBlock_reached (t := { v with buffer := b, bufBytes := n }) hxfer hreach]
    dsimp only
    split
    · exact ⟨rfl, rfl, rfl, rfl⟩
    · have hmap : changeState pwcm r 1 { v with transitByte := 0, buffer := b, bufBytes := n } =
          (changeState pwcm r 1 { v with transitByte := 0 }).map fun x =>
            x.withScratch { v with buffer := b, bufBytes := n } :=
        changeState_map (t := { v with transitByte := 0 }) { v with buffer := b, bufBytes := n }
      rw [hmap, ← andThen_next (Outcome.map _ _)]
      have hrelated := related_map (R := fun x y => y = x.withScratch { v with buffer := b, bufBytes := n })
        (S := SameEnd) (k := fun x => x.withScratch { v with buffer := b, bufBytes := n })
        (fun _ => rfl) (fun _ => ⟨rfl, rfl, rfl⟩) (changeState pwcm r 1 { v with transitByte := 0 })
      refine hrelated.andThen fun x y hx _ hy => ?_
      have hscratch := withScratch_of_map changeState_self hx
      have hchanges := changes_of_next hx (show v.totalBytesWritten ≠ 0 by omega)
      have hbytes : usub x.bufferSize.toNat x.bufBytes = 0 := by
        rw [hscratch]
        exact hrest hchanges hreach.1
      rw [writeRemainder_nothing hbytes]
      refine ⟨?_, b, n, ?_⟩
      · rw [hscratch]
        exact herr
      · rw [hy, hscratch]
        rfl
  · rw [transit_not hreach, transitBlock_not (t := { v with buffer := b, bufBytes := n }) hreach]
    exact ⟨herr, b, n, rfl⟩

/-- **One iteration** does in both loops the same. -/
theorem dadaPwcMainBlockRound_related (hxfer : pwcm.xferPendingFunction = false)
    (h : InBlocks blockSize r t) (hpos : 0 < blockSize) (hsame : SameBlocks t u) :
    (dadaPwcMainRound pwcm r t).Related SameBlocks SameEnd
      (dadaPwcMainBlockRound pwcm r blockSize u) := by
  obtain ⟨herr, b, n, rfl⟩ := hsame
  unfold dadaPwcMainBlockRound
  by_cases hdone : r.quit = true ∨ t.dataTransferErrorState > 1
  · rw [dadaPwcMainRound_done hdone]
    dsimp only
    rw [if_pos hdone]
    exact ⟨rfl, rfl, rfl, rfl⟩
  · rw [dadaPwcMainRound_pieces hdone]
    dsimp only
    rw [if_neg hdone, andThen_assoc, takeCommand_immediate h.now]
    have hmap : takeCommand pwcm r id { t with buffer := b, bufBytes := n } =
        (takeCommand pwcm r id t).map fun x =>
          x.withScratch { t with buffer := b, bufBytes := n } :=
      takeCommand_map { t with buffer := b, bufBytes := n }
    rw [hmap]
    have hrelated := related_map (R := fun x y => y = x.withScratch { t with buffer := b, bufBytes := n })
      (S := SameEnd) (k := fun x => x.withScratch { t with buffer := b, bufBytes := n })
      (fun _ => rfl) (fun _ => ⟨rfl, rfl, rfl⟩) (takeCommand pwcm r id t)
    refine hrelated.andThen fun v w hv _ hw => ?_
    have hscratch := withScratch_of_map takeCommand_self hv
    have hk := h.commanded hpos hv
    have hverr : v.dataTransferErrorState = 0 := by
      rw [hscratch]
      exact herr
    have hw : w = { v with buffer := b, bufBytes := n } := by
      rw [hw, hscratch]
      rfl
    rw [hw]
    by_cases hgets : v.transitByte = 0 ∨ v.bytesToWrite ≠ 0
    · refine (transferBlock_related hxfer h hpos hk hverr hgets b n).andThen fun x y hx _ hxy => ?_
      obtain ⟨rfl, hused⟩ := hxy
      exact transitBlock_related hxfer hused.error x.buffer x.bufBytes (hused.rest hk hgets)
    · have hget : transferBuffer pwcm r v = .next v := if_neg hgets
      have hget' : transferBlock pwcm r blockSize { v with buffer := b, bufBytes := n } =
          .next { v with buffer := b, bufBytes := 0 } := if_neg hgets
      rw [hget, hget']
      exact transitBlock_related hxfer hverr b 0 (hk.rest_of_not hgets)

/-! ## Whole blocks -/

/-- What is due comes later; every block so far has been closed whole. -/
structure Whole (blockSize : ℕ) (t : Transfer) : Prop where
  due : t.transitByte ≠ 0 →
    t.totalBytesWritten < t.transitByte ∧ t.bytesToWrite = t.transitByte - t.totalBytesWritten
  whole : ∀ hdu buf off len, .write hdu buf off len ∈ t.log → len = blockSize

theorem Whole.of_take (h : Whole blockSize t) (hv : takeCommand pwcm r id t = .next v) :
    (Whole blockSize v ∨ v.transitByte = v.totalBytesWritten ∧ v.bytesToWrite = 0) ∧
      ∀ hdu buf off len, .write hdu buf off len ∈ v.log → len = blockSize := by
  have hwhole : ∀ command hdu buf off len,
      .write hdu buf off len ∈ (t.note (.took command)).log → len = blockSize := by
    intro command hdu buf off len hmem
    simp only [Transfer.note, List.mem_append, List.mem_singleton, reduceCtorEq, or_false] at hmem
    exact h.whole hdu buf off len hmem
  unfold takeCommand at hv
  cases hc : r.command with
  | none =>
    rw [hc] at hv
    cases hv
    exact ⟨.inl h, h.whole⟩
  | some command =>
    rw [hc] at hv
    dsimp only at hv
    split at hv
    · obtain ⟨hv, -⟩ := takeUtcStart_next hv
      rw [hv]
      exact ⟨.inl ⟨h.due, hwhole command⟩, hwhole command⟩
    · split at hv
      · cases hv
      · split at hv
        · rename_i hdated
          cases hv
          exact ⟨.inl ⟨fun _ => ⟨hdated, rfl⟩, hwhole command⟩, hwhole command⟩
        · cases hv
          exact ⟨.inr ⟨rfl, rfl⟩, hwhole command⟩

/-- A change that has come leaves nothing due, and writes nothing. -/
theorem of_transit (hxfer : pwcm.xferPendingFunction = false) (herr : v.dataTransferErrorState = 0)
    (hrest : v.command.code.Changes → v.transitByte ≠ 0 → usub v.bufferSize.toNat v.bufBytes = 0)
    (hreach : v.transitByte ≠ 0 ∧ v.transitByte ≤ v.totalBytesWritten)
    (hnext : transit pwcm r v = .next w) :
    v.command.code.Changes ∧ w.transitByte = 0 ∧
      ∀ hdu buf off len, .write hdu buf off len ∈ w.log → .write hdu buf off len ∈ v.log := by
  have hrelated := transitBlock_related (r := r) hxfer herr v.buffer v.bufBytes hrest
  rw [hnext] at hrelated
  obtain ⟨u, hu, -, b, n, rfl⟩ := hrelated.of_next
  have hu : transitBlock pwcm r v = .next { w with buffer := b, bufBytes := n } := hu
  rw [transitBlock_reached hxfer hreach] at hu
  split at hu
  · cases hu
  · have hchanges := changes_of_next hu (show v.totalBytesWritten ≠ 0 by omega)
    have hwritten := changeState_next hu
    exact ⟨hchanges, hwritten.1, hwritten.2⟩

theorem Whole.of_round (hxfer : pwcm.xferPendingFunction = false) (h : InBlocks blockSize r t)
    (hpos : 0 < blockSize) (herr : t.dataTransferErrorState = 0) (hwhole : Whole blockSize t)
    (hnext : dadaPwcMainRound pwcm r t = .next w) : Whole blockSize w := by
  by_cases hdone : r.quit = true ∨ t.dataTransferErrorState > 1
  · rw [dadaPwcMainRound_done hdone] at hnext
    cases hnext
  · rw [dadaPwcMainRound_pieces hdone, takeCommand_immediate h.now] at hnext
    obtain ⟨v, hv, hnext⟩ := andThen_eq_next.mp hnext
    obtain ⟨x, hx, hnext⟩ := andThen_eq_next.mp hnext
    have hk := h.commanded hpos hv
    have hscratch := withScratch_of_map takeCommand_self hv
    have hverr : v.dataTransferErrorState = 0 := by
      rw [hscratch]
      exact herr
    obtain ⟨hdue, hlog⟩ := hwhole.of_take hv
    by_cases hgets : v.transitByte = 0 ∨ v.bytesToWrite ≠ 0
    · have hrelated := transferBlock_related (t := t) hxfer h hpos hk hverr hgets none 0
      rw [hx] at hrelated
      obtain ⟨_, -, -, hused⟩ := hrelated.of_next
      have hlog : x.bufBytes = blockSize →
          ∀ hdu buf off len, .write hdu buf off len ∈ x.log → len = blockSize := by
        intro hpart hdu buf off len hmem
        rw [hused.log] at hmem
        simp only [List.mem_append, List.mem_cons, reduceCtorEq, List.not_mem_nil, or_false,
          false_or] at hmem
        rcases hmem with hmem | hmem
        · exact hlog hdu buf off len hmem
        · cases hmem
          exact hpart
      have hvdue : v.transitByte ≠ 0 → v.totalBytesWritten < v.transitByte ∧
          v.bytesToWrite = v.transitByte - v.totalBytesWritten := by
        intro hbusy
        rcases hdue with hdue | hnow
        · exact hdue.due hbusy
        · exact absurd hnow.2 (hgets.resolve_left hbusy)
      have htransit := hused.transit
      have htotal := hused.total
      have hpart := hused.part
      have hbytes := hused.bytes
      by_cases hreach : x.transitByte ≠ 0 ∧ x.transitByte ≤ x.totalBytesWritten
      · obtain ⟨hchanges, hidle, hmem⟩ :=
          of_transit hxfer hused.error (hused.rest hk hgets) hreach hnext
        rw [hused.command] at hchanges
        have hbusy : v.transitByte ≠ 0 := htransit ▸ hreach.1
        have hedge := hk.edge hchanges hbusy (hgets.resolve_left hbusy)
        rw [if_neg (by omega)] at hpart
        exact ⟨fun h => absurd hidle h, fun hdu buf off len hw =>
          hlog hpart hdu buf off len (hmem hdu buf off len hw)⟩
      · rw [transit_not hreach] at hnext
        cases hnext
        by_cases hidle : v.transitByte = 0
        · rw [if_neg (fun h => h.1 hidle)] at hpart
          exact ⟨fun h => absurd (htransit.trans hidle) h, hlog hpart⟩
        · obtain ⟨hlt, hleft⟩ := hvdue hidle
          have hsmall : ¬ (v.transitByte ≠ 0 ∧ blockSize > v.bytesToWrite) := by
            intro hclip
            rw [if_pos hclip] at hpart
            apply hreach
            omega
          rw [if_neg hsmall] at hpart
          rw [if_pos (hgets.resolve_left hidle), usub, if_pos (by omega)] at hbytes
          refine ⟨fun _ => ?_, hlog hpart⟩
          omega
    · have hget : transferBuffer pwcm r v = .next v := if_neg hgets
      rw [hget] at hx
      cases hx
      have hreach : v.transitByte ≠ 0 ∧ v.transitByte ≤ v.totalBytesWritten := by
        rw [not_or, not_not] at hgets
        refine ⟨hgets.1, ?_⟩
        rcases hdue with hdue | hnow
        · have hlt := hdue.due hgets.1
          omega
        · omega
      obtain ⟨-, hidle, hmem⟩ := of_transit hxfer hverr (hk.rest_of_not hgets) hreach hnext
      exact ⟨fun h => absurd hidle h, fun hdu buf off len hw =>
        hlog hdu buf off len (hmem hdu buf off len hw)⟩

/-! ## The loops -/

/-- Any number of iterations. -/
theorem dadaPwcMainTransferDataBlock_related (hxfer : pwcm.xferPendingFunction = false)
    (hpos : 0 < blockSize) {rounds : List Round}
    (h : EachRound (dadaPwcMainRound pwcm) (InBlocks blockSize) rounds t) (hsame : SameBlocks t u)
    (hwhole : Whole blockSize t) :
    (dadaPwcMainTransferData pwcm rounds t).Related
      (fun t u => SameBlocks t u ∧ Whole blockSize t) SameEnd
      (dadaPwcMainTransferDataBlock pwcm blockSize rounds u) := by
  induction rounds generalizing t u with
  | nil => exact ⟨hsame, hwhole⟩
  | cons r rounds ih =>
    obtain ⟨hr, hrest⟩ := h
    refine (dadaPwcMainBlockRound_related hxfer hr hpos hsame).andThen fun v w hv _ hvw => ?_
    exact ih (hrest v hv) hvw (hwhole.of_round hxfer hr hpos hsame.1 hv)

/-- A block of 4 bytes and a round in which all that is called succeeds. -/
theorem inBlocks_smooth {command : Option PwcCommand}
    (hcommand : ∀ c, command = some c → ¬ c.code.Changes ∧ t.totalBytesWritten < c.byteCount)
    (hidle : t.transitByte = 0) : InBlocks 4 (.smooth command 4) t := by
  refine ⟨rfl, rfl, rfl, rfl, .inr ?_, .inr (.inr rfl), ?_, ?_, ?_, fun _ _ h => absurd hidle h⟩
  · show 4 ≤ 64
    decide
  · intro c hc _ hle
    exact absurd (hcommand c hc).2 (Nat.not_lt.mpr hle)
  · intro c hc hcode
    exact absurd hcode (hcommand c hc).1
  · intro c hc hcode
    exact absurd hcode (hcommand c hc).1

end Blocks

end Psrdada
