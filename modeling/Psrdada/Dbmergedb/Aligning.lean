import Psrdada.Dbmergedb.Chunks

/-! # Aligning the inputs

The threads compare their times in rounds, in any order.  The later input stays as it is; the earlier one
discards data once both have started, and fails where the difference is not a multiple of the resolution or
the data ends before (`Stage`).  A thread that fails does not unlock the mutex, so that the other one never
returns. -/

namespace Psrdada

/-! ## Discarding -/

/-- The block in which `n` bytes end, from the place that is kept for them, and the blocks that follow. -/
def discardBlocks (bufsz : ℕ) : List (List UInt8) → ℕ → Option (List UInt8 × List (List UInt8))
  | [], _ => none
  | b :: blocks, n =>
    if bufsz < n then discardBlocks bufsz blocks (n - bufsz) else some (b.drop (bufsz - n), blocks)

namespace DadaBlock

/-- A thread changes its times and its state only, apart from discarding data. -/
structure SameInput (db db' : DadaBlock) : Prop where
  /-- The size of the blocks. -/
  bufsz : db'.bufsz = db.bufsz
  /-- The start in the header. -/
  headerStart : db'.headerStart = db.headerStart
  /-- The thread. -/
  thread : db'.thread = db.thread

/-- What is left after data has been discarded. -/
theorem discard_spec (blocks : List (List UInt8)) {db : DadaBlock} (h : db.Tidy)
    (hclosed : db.blockOpen = false) (hblocks : db.source.blocks = blocks) {n : ℕ} (hn : 0 < n) :
    (discardBlocks db.bufsz db.fullBlocks n = none → db.discard n = none) ∧
    ∀ first rest, discardBlocks db.bufsz db.fullBlocks n = some (first, rest) →
      ∃ db', db.discard n = some db' ∧ db'.Tidy ∧ db.SameInput db' ∧
        ∀ beyond size, db'.chunks beyond size =
          chunksOf beyond size first ++ rest.flatMap (chunksOf beyond size) := by
  induction blocks generalizing db n with
  | nil =>
    have hsource := h.closed hclosed
    rw [hblocks] at hsource
    have heod : db.source.eod = true := by
      rw [hsource]
      rfl
    have hfull : db.fullBlocks = [] := by rw [fullBlocks, hblocks, List.takeWhile_nil]
    have hopen : db.openBlock db.bufsz = none := by simp [openBlock, hclosed, heod]
    rw [hfull, discard, if_neg (Nat.pos_iff_ne_zero.mp hn)]
    refine ⟨fun _ => ?_, fun first rest hr => by simp [discardBlocks] at hr⟩
    split
    · rfl
    · rename_i heq
      rw [hopen] at heq
      simp at heq
  | cons next blocks ih =>
    have hsource := h.closed hclosed
    rw [hblocks] at hsource
    have heod : db.source.eod = false := by
      rw [hsource]
      rfl
    have hnext : db.source.ipcioOpenBlockRead = some (next, ⟨blocks, some next, 0, Nat.zero_le _⟩) := by
      rw [hsource]
      rfl
    rw [discard, if_neg (Nat.pos_iff_ne_zero.mp hn)]
    by_cases hfull : next.length = db.bufsz
    · have hblocksFull : db.fullBlocks =
          next :: blocks.takeWhile (fun b => decide (b.length = db.bufsz)) := by
        rw [fullBlocks, hblocks, List.takeWhile_cons_of_pos (by simpa using hfull)]
      have hopen : db.openBlock db.bufsz = some { db with
          currBuf := next
          source := ⟨blocks, some next, 0, Nat.zero_le _⟩
          bytes := db.bufsz
          blockOpen := true } := by
        simp [openBlock, hclosed, heod, hnext, hfull]
      split
      · rename_i heq
        rw [hopen] at heq
        simp at heq
      · rename_i opened heq
        obtain rfl := Option.some.inj (hopen.symm.trans heq)
        rw [hblocksFull, discardBlocks]
        show (_ → (if db.bufsz < n then _ else _) = none) ∧
          ∀ first rest, _ → ∃ db', (if db.bufsz < n then _ else _) = some db' ∧ _
        by_cases hlt : db.bufsz < n
        · -- the whole block is discarded
          rw [if_pos hlt, if_pos hlt]
          have hclose : ((⟨blocks, some next, 0, Nat.zero_le _⟩ : Source).ipcioCloseBlockRead db.bufsz).2 =
              .between blocks := by
            rw [← hfull]
            exact congrArg Prod.snd (Source.ipcioCloseBlockRead_whole next blocks)
          have hdb : ({ closeBlock { db with
                currBuf := next
                source := ⟨blocks, some next, 0, Nat.zero_le _⟩
                bytes := db.bufsz
                blockOpen := true } with bytes := 0 } : DadaBlock) =
              { db with currBuf := next, source := .between blocks, bytes := 0, blockOpen := false } := by
            simp only [closeBlock, hclose]
          rw [hdb]
          have hih := @ih { db with
              currBuf := next, source := .between blocks, bytes := 0, blockOpen := false }
            ⟨h.bufsz_pos, fun _ => rfl, fun hc => absurd hc (by simp)⟩ rfl rfl (n - db.bufsz) (by omega)
          refine ⟨hih.1, fun first rest hr => ?_⟩
          obtain ⟨db', hdb', htidy, hsame, hchunks⟩ := hih.2 first rest hr
          exact ⟨db', hdb', htidy, ⟨hsame.bufsz, hsame.headerStart, hsame.thread⟩, hchunks⟩
        · rw [if_neg hlt, if_neg hlt]
          refine ⟨fun hnone => by simp at hnone, fun first rest hr => ?_⟩
          obtain ⟨rfl, rfl⟩ := Prod.mk.inj (Option.some.inj hr)
          refine ⟨_, rfl, ⟨h.bufsz_pos, fun hc => absurd hc (by simp), fun _ => ⟨hfull, ?_, rfl⟩⟩,
            ⟨rfl, rfl, rfl⟩, fun beyond size => ?_⟩
          · show db.bufsz - n < db.bufsz
            have := h.bufsz_pos
            omega
          · rfl
    · have hblocksFull : db.fullBlocks = [] := by
        rw [fullBlocks, hblocks, List.takeWhile_cons_of_neg (by simpa using hfull)]
      have hopen : db.openBlock db.bufsz = none := by
        simp [openBlock, hclosed, heod, hnext, hfull]
      rw [hblocksFull]
      refine ⟨fun _ => ?_, fun first rest hr => by simp [discardBlocks] at hr⟩
      split
      · rfl
      · rename_i heq
        rw [hopen] at heq
        simp at heq

end DadaBlock

end Psrdada
