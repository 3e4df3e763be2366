import Psrdada.Num.Agreement
import Psrdada.Session.Streams

/-! # The number test of a ring

`dada_numdb` fills a ring with numbers and `dada_dbnum` checks them on the other side.  The test is
sound: whatever the processes that use the ring do meanwhile, and whenever the checker looks, it finds
the numbers that the generator has written, and it finds the end where the generator has stopped. -/

namespace Psrdada

open Concurrency

/-! ## Part of what has been written -/

/-- The checker accepts every first part of what the generator leaves, in whatever calls it comes. -/
theorem Dbnum.run_of_prefix {startNum interleaveBytes xferSkipNum : BitVec 64}
    {header header' : List UInt8} {blocks out chunks : List (List UInt8)}
    (hnum : 8 ≤ interleaveBytes.toNat) (hblocks : WordChunks blocks)
    (hout : Numdb.run startNum interleaveBytes header blocks = some out) (hchunks : WordChunks chunks)
    (hpre : chunks.flatten <+: out.flatten) :
    ∃ last, Dbnum.run startNum interleaveBytes xferSkipNum header' chunks = some last := by
  have hne : interleaveBytes / 8 ≠ 0 := by
    intro h
    have := congrArg BitVec.toNat h
    rw [BitVec.toNat_udiv] at this
    change interleaveBytes.toNat / 8 = 0 at this
    omega
  obtain ⟨out', rest, hout', hflat, hrest⟩ :=
    @Numdb.calls_eq ⟨startNum, interleaveBytes / 8, startNum, true⟩ hne rfl _ hblocks
  obtain rfl : out = out' := Option.some.inj (hout.symm.trans hout')
  rw [Dbnum.run_isSome_iff hchunks]
  -- the complete numbers of the part are the first of the numbers that have been written
  obtain ⟨tail, htail⟩ := hpre
  have hlen : chunks.flatten.length + tail.length =
      8 * (blocks.flatten.length / 8) + rest.length := by
    rw [← List.length_append, htail, hflat, List.length_append, length_numberBytes]
  obtain ⟨more, hmore⟩ : ∃ more,
      blocks.flatten.length / 8 = chunks.flatten.length / 8 + more := ⟨_, (Nat.add_sub_cancel' (by omega)).symm⟩
  have htake : chunks.flatten.take (8 * (chunks.flatten.length / 8)) =
      out.flatten.take (8 * (chunks.flatten.length / 8)) := by
    rw [← htail, List.take_append_of_le_length (Nat.mul_div_le _ _)]
  rw [htake, hflat, hmore, numberBytes_add, List.append_assoc,
    List.take_left' (length_numberBytes _ _ _)]

/-! ## Through a ring -/

/-- **The number test is sound.** While the generator writes its numbers in the `k`-th session of the
writers, the checker accepts what the `k`-th session on a slot has got so far, however it was read; and
once it has been told of the end of data, that is all the generator has written. -/
theorem numbers_through_ring (g : Geometry) (clients : ℕ → List Session)
    (hwhole : ∀ p, ∀ s ∈ clients p, s.IsWhole g) (c : Config ringSig Ring)
    (hc : Reach (ringMachine g) anyStep (Session.system g clients) c) (i : ℕ) (hi : i < g.nReaders)
    (k : ℕ) (startNum interleaveBytes xferSkipNum : BitVec 64) (header header' : List UInt8)
    (blocks out : List (List UInt8)) (hnum : 8 ≤ interleaveBytes.toNat) (hblocks : WordChunks blocks)
    (hout : Numdb.run startNum interleaveBytes header blocks = some out)
    (hwritten : (writerSessions c.state.notes).getD k [] <+: out.flatten)
    (bytes : List UInt8) (ended : Bool)
    (hread : (readerSessions i c.state.notes)[k]? = some (bytes, ended)) :
    (∀ chunks, WordChunks chunks → chunks.flatten = bytes →
      ∃ last, Dbnum.run startNum interleaveBytes xferSkipNum header' chunks = some last) ∧
    (ended = true → bytes = (writerSessions c.state.notes).getD k []) := by
  obtain ⟨γ, G, hinv, -⟩ := Session.reach_inv hwhole hc
  obtain ⟨hgot, hall⟩ := hinv.stream_exact hi hread
  refine ⟨fun chunks hchunks hflat => ?_, fun hended => ?_⟩
  · refine Dbnum.run_of_prefix hnum hblocks hout hchunks ?_
    rw [hflat]
    exact hgot.trans hwritten
  · rw [List.getD_eq_getElem?_getD, hall hended, Option.getD_some]

/-- Two numbers from `5` on, and a reader that asks for eight bytes at a time. -/
def numberClients : ℕ → List Session
  | 0 => [.byteWriter [[0, 0, 0, 0, 0, 0, 0, 5], [0, 0, 0, 0, 0, 0, 0, 6]]]
  | 1 => [.byteReader fun _ => 8]
  | _ => []

theorem numberClients_isByte (p : ℕ) : ∀ s ∈ numberClients p, s.IsByte := by
  rcases p with _ | _ | p <;> simp [numberClients, Session.IsByte]

theorem sixteen_nReaders_le : 1 ≤ 8 := by decide

theorem sixteen_bufsz_pos : 0 < 16 := Nat.zero_lt_succ 15

/-- Two sub-blocks of sixteen bytes and one reader slot. -/
def Geometry.sixteen : Geometry where
  nbufs := 2
  bufsz := 16
  nReaders := 1
  nbufs_pos := Nat.zero_lt_two
  bufsz_pos := sixteen_bufsz_pos
  nReaders_pos := Nat.one_pos
  nReaders_le := sixteen_nReaders_le

/-- The reader has got the first number. -/
theorem numberClients_reach :
    ∃ c, Reach (ringMachine .sixteen) anyStep (Session.system .sixteen numberClients) c ∧
      (writerSessions c.state.notes).getD 0 [] = [0, 0, 0, 0, 0, 0, 0, 5, 0, 0, 0, 0, 0, 0, 0, 6] ∧
      (readerSessions 0 c.state.notes)[0]? = some ([0, 0, 0, 0, 0, 0, 0, 5], false) :=
  Machine.exists_reach_of_schedule [(0, 70), (1, 30)] (by decide +kernel)

/-- The checker accepts it. -/
theorem numbers_through_ring_numberClients :
    ∃ last, Dbnum.run 5 64 0 [] [[0, 0, 0, 0, 0, 0, 0, 5], []] = some last := by
  obtain ⟨c, hc, hwritten, hread⟩ := numberClients_reach
  refine (numbers_through_ring .sixteen numberClients (fun p s hs => .inl (numberClients_isByte p s hs))
    c hc 0 (by decide) 0 5 64 0 [] [] [List.replicate 16 0]
    [[0, 0, 0, 0, 0, 0, 0, 5, 0, 0, 0, 0, 0, 0, 0, 6]] (by decide) (by decide) (by decide +kernel) ?_
    [0, 0, 0, 0, 0, 0, 0, 5] false hread).1 [[0, 0, 0, 0, 0, 0, 0, 5], []] (by decide) rfl
  rw [hwritten]
  exact List.prefix_rfl

end Psrdada
