import Psrdada.Session.Streams

/-! # What is still to be read is still there

A sub-block that has been announced to the reader in a slot is *pending* until the reader clears it.  A
ring is shared by all readers and the writer goes round it, so that a pending sub-block must not be
written again: at every moment the pending sub-blocks of a slot hold, one behind the other, what their
session has written, from the first byte on that the reader has not cleared. -/

namespace Psrdada

open Concurrency Outline

variable {g : Geometry}

/-! ## Pending sub-blocks -/

/-- What has been announced to the reader in a slot and cleared by it. -/
def Ring.released (s : Ring) (i : ℕ) : List Desc := (s.full i).take (s.posts (.clear i))

/-- What has been announced to the reader in a slot and not been cleared by it. -/
def Ring.pending (s : Ring) (i : ℕ) : List Desc := (s.full i).drop (s.posts (.clear i))

/-- The valid bytes of a sub-block that has been announced, as they are in memory now. -/
def Ring.valid (g : Geometry) (s : Ring) (d : Desc) : List UInt8 :=
  slice (s.buffer (d.blk % g.nbufs)) d.start d.stop

/-- How many valid bytes of a transfer a list of sub-blocks has. -/
def Desc.total (x : ℕ) (l : List Desc) : ℕ :=
  ((l.filter fun d => d.xfer = x).map fun d => d.stop - d.start).sum

/-- The pending sub-blocks of a slot hold what the session of a transfer has written behind what has been
released, and all of that once the end of the transfer has been announced. -/
structure Ring.Intact (g : Geometry) (s : Ring) (i x : ℕ) : Prop where
  held : ((s.pending i).filter fun d => d.xfer = x).flatMap (s.valid g) <+:
    ((writerSessions s.notes).getD x []).drop (Desc.total x (s.released i))
  whole : (∃ d ∈ s.full i, d.xfer = x ∧ d.eod = true) →
    ((s.pending i).filter fun d => d.xfer = x).flatMap (s.valid g) =
      ((writerSessions s.notes).getD x []).drop (Desc.total x (s.released i))

/-! ## From the log -/

/-- The valid bytes of a transfer in well-formed sub-blocks. -/
theorem total_eq_length {l : List Tok} (hl : ∀ t ∈ l, t.WellFormed g) (x : ℕ) :
    Desc.total x (l.map Tok.toDesc) = (streamOf l x).length := by
  induction l with
  | nil => rfl
  | cons t l ih =>
    have ht := (hl t (by simp)).length
    have hrest := ih fun u hu => hl u (by simp [hu])
    have hstream : streamOf (t :: l) x = (if t.xfer = x then t.bytes else []) ++ streamOf l x := by
      by_cases hx : t.xfer = x <;> simp [streamOf, hx]
    rw [hstream, List.length_append, ← hrest]
    by_cases hx : t.xfer = x <;> simp [Desc.total, hx, ht]

/-- What memory holds of sub-blocks that are as the log says. -/
theorem flatMap_valid_eq {s : Ring} {l : List Tok}
    (hl : ∀ t ∈ l, t.bytes = slice (s.buffer (t.blk % g.nbufs)) t.start t.stop) (x : ℕ) :
    ((l.map Tok.toDesc).filter fun d => d.xfer = x).flatMap (s.valid g) = streamOf l x := by
  induction l with
  | nil => rfl
  | cons t l ih =>
    have ht := hl t (by simp)
    have hrest := ih fun u hu => hl u (by simp [hu])
    rw [List.map_cons, List.filter_cons]
    by_cases hx : t.xfer = x
    · have hstream : streamOf (t :: l) x = t.bytes ++ streamOf l x := by simp [streamOf, hx]
      rw [if_pos (by simpa using hx), List.flatMap_cons, hrest, hstream, ht]
      rfl
    · have hstream : streamOf (t :: l) x = streamOf l x := by simp [streamOf, hx]
      rw [if_neg (by simpa using hx), hrest, hstream]

/-- What has been announced to a slot is a first part of the log, and what of it has not been cleared is
in memory as the log says. -/
theorem Inv.pending_eq {C : Contract g} {γ : C.Log} {G : ℕ → Ghost C} {s : Ring} (h : Inv C γ G s)
    {i : ℕ} (hi : i < g.nReaders) : ∃ l r, l ++ r <+: γ.toks ∧
      s.released i = l.map Tok.toDesc ∧ s.pending i = r.map Tok.toDesc ∧
      ∀ t ∈ r, t.bytes = slice (s.buffer (t.blk % g.nbufs)) t.start t.stop := by
  have hfull : s.full i = (γ.toks.take (s.posts (.full i))).map Tok.toDesc := h.winv.full i hi
  have hclr : s.takes (.clear i) ≤ s.posts (.clear i) := (Inv.bounds h.coherent hi).clr
  refine ⟨(γ.toks.take (s.posts (.full i))).take (s.posts (.clear i)),
    (γ.toks.take (s.posts (.full i))).drop (s.posts (.clear i)), ?_, ?_, ?_, fun t ht => ?_⟩
  · rw [List.take_append_drop]
    exact γ.take_le _
  · rw [Ring.released, hfull, ← List.map_take]
  · rw [Ring.pending, hfull, ← List.map_drop]
  · -- what the reader has not cleared, the writer has not reclaimed from it
    refine h.winv.bytes i hi t ?_
    have hsub : t ∈ γ.toks.drop (s.posts (.clear i)) := by
      rw [List.drop_take] at ht
      exact List.mem_of_mem_take ht
    have hle : γ.toks.drop (s.posts (.clear i)) =
        (γ.toks.drop (s.takes (.clear i))).drop (s.posts (.clear i) - s.takes (.clear i)) := by
      rw [List.drop_drop]
      congr 1
      omega
    rw [hle] at hsub
    exact List.mem_of_mem_drop hsub

/-- In every reachable configuration of whole sessions the pending sub-blocks are intact. -/
theorem Inv.intact {γ : (sessionContract g).Log} {G : ℕ → Ghost (sessionContract g)} {s : Ring}
    (h : Inv (sessionContract g) γ G s) {i : ℕ} (hi : i < g.nReaders) (x : ℕ) : s.Intact g i x := by
  obtain ⟨l, r, hpre, hrel, hpend, hbytes⟩ := h.pending_eq hi
  have hpub : Published γ.toks (writerSessions s.notes) := by
    rw [← writerSessions_filter]
    exact h.winv.note
  have hwf : ∀ t ∈ l, t.WellFormed g := fun t ht =>
    γ.wellFormed t (hpre.subset (List.mem_append_left _ ht))
  have htotal : Desc.total x (s.released i) = (streamOf l x).length := by
    rw [hrel, total_eq_length hwf]
  have hheld : ((s.pending i).filter fun d => d.xfer = x).flatMap (s.valid g) = streamOf r x := by
    rw [hpend, flatMap_valid_eq hbytes]
  have hfull : s.full i = (l ++ r).map Tok.toDesc := by
    rw [List.map_append, ← hrel, ← hpend]
    exact (List.take_append_drop _ _).symm
  refine ⟨?_, fun ⟨d, hd, hdx, hde⟩ => ?_⟩
  · have hstream : streamOf l x ++ streamOf r x <+: (writerSessions s.notes).getD x [] := by
      rw [← streamOf_append]
      exact (streamOf_mono hpre x).trans (hpub.stream x)
    obtain ⟨u, hu⟩ := hstream
    rw [hheld, htotal, ← hu, List.append_assoc, List.drop_left]
    exact List.prefix_append _ u
  · -- the end has been announced, so that the log has the whole transfer
    have hended : Ended (l ++ r) x := by
      rw [hfull] at hd
      obtain ⟨t, ht, rfl⟩ := List.mem_map.mp hd
      exact ⟨t, ht, hde, hdx⟩
    have hall : streamOf l x ++ streamOf r x = (writerSessions s.notes).getD x [] := by
      rw [← streamOf_append, ← PubLog.streamOf_eq_of_ended hpre hended]
      exact hpub.ended x (hended.mono hpre)
    rw [hheld, htotal, ← hall, List.drop_left]

/-! ## The result -/

/-- **What is still to be read is intact.** Whatever the interleaving of whole sessions, at every moment
the memory holds for each slot what its reader has still to get of each transfer. -/
theorem Session.pending_intact (g : Geometry) (clients : ℕ → List Session)
    (hwhole : ∀ p, ∀ s ∈ clients p, s.IsWhole g) (c : Config ringSig Ring)
    (hc : Reach (ringMachine g) anyStep (Session.system g clients) c) (i : ℕ) (hi : i < g.nReaders)
    (x : ℕ) : c.state.Intact g i x := by
  obtain ⟨γ, G, hinv, -⟩ := Session.reach_inv hwhole hc
  exact hinv.intact hi x

/-- The writer has written two sub-blocks and the reader has cleared the first. -/
theorem byteClients_reach_cleared :
    ∃ c, Reach (ringMachine .small) anyStep (Session.system .small byteClients) c ∧
      Desc.total 0 (c.state.released 0) = 2 ∧ (writerSessions c.state.notes).getD 0 [] = [1, 2, 3] ∧
      (∃ d ∈ c.state.full 0, d.xfer = 0 ∧ d.eod = true) :=
  Machine.exists_reach_of_schedule [(0, 71), (1, 30)] (by decide +kernel)

/-- The last byte is in memory for the reader. -/
theorem pending_intact_byteClients :
    ∃ c, Reach (ringMachine .small) anyStep (Session.system .small byteClients) c ∧
      ((c.state.pending 0).filter fun d => d.xfer = 0).flatMap (c.state.valid .small) = [3] := by
  obtain ⟨c, hc, htotal, hsession, hend⟩ := byteClients_reach_cleared
  refine ⟨c, hc, ?_⟩
  rw [(Session.pending_intact .small byteClients (fun p s hs => .inl (byteClients_isByte p s hs)) c hc 0
    (by decide) 0).whole hend, htotal, hsession]
  rfl

end Psrdada
