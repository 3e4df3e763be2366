import Mathlib.Logic.Function.Iterate
import Psrdada.Num.Numbers

/-! # Generator and checker agree

Both go through the same sequence of numbers, however the data are divided into calls: what the generator
leaves begins with the bytes of that sequence, and the checker accepts exactly the data that begin so. -/

namespace Psrdada

/-! ## The sequence of numbers -/

/-- The number after `index` where `num` numbers are interleaved. -/
def nextIndex (num index : BitVec 64) : BitVec 64 :=
  if num ≠ 0 ∧ (index + 1) % num = 0 then index + 1 + num else index + 1

/-- The bytes of `count` numbers from `index` on. -/
def numberBytes (num : BitVec 64) : ℕ → BitVec 64 → List UInt8
  | 0, _ => []
  | count + 1, index => encodeIndex index ++ numberBytes num count (nextIndex num index)

theorem length_numberBytes (num : BitVec 64) (count : ℕ) (index : BitVec 64) :
    (numberBytes num count index).length = 8 * count := by
  induction count generalizing index with
  | zero => rfl
  | succ count ih => rw [numberBytes, List.length_append, length_encodeIndex, ih, Nat.mul_succ, Nat.add_comm]

theorem numberBytes_add (num : BitVec 64) (a b : ℕ) (index : BitVec 64) :
    numberBytes num (a + b) index =
      numberBytes num a index ++ numberBytes num b ((nextIndex num)^[a] index) := by
  induction a generalizing index with
  | zero => rw [Nat.zero_add]; rfl
  | succ a ih =>
    rw [Nat.succ_add, numberBytes, ih, numberBytes, List.append_assoc, Function.iterate_succ_apply]

theorem Numdb.advance_eq {numdb : Numdb} (h : numdb.interleaveNum ≠ 0) :
    numdb.advance = some { numdb with index := nextIndex numdb.interleaveNum numdb.index } := by
  rw [advance, if_neg h, nextIndex]
  by_cases hz : (numdb.index + 1) % numdb.interleaveNum = 0
  · rw [if_pos hz, if_pos ⟨h, hz⟩]
  · rw [if_neg hz, if_neg fun hc => hz hc.2]

theorem Dbnum.advance_eq (dbnum : Dbnum) :
    dbnum.advance = { dbnum with index := nextIndex dbnum.interleaveSkipNum dbnum.index } := by
  rw [advance, nextIndex]
  by_cases h : dbnum.interleaveSkipNum ≠ 0
  · by_cases hz : (dbnum.index + 1) % dbnum.interleaveSkipNum = 0
    · rw [if_pos h, if_pos hz, if_pos ⟨h, hz⟩]
    · rw [if_pos h, if_neg hz, if_neg fun hc => hz hc.2]
  · rw [if_neg h, if_neg fun hc => h hc.1]

/-! ## One call -/

/-- The generator writes the next numbers. -/
theorem Numdb.words_eq {numdb : Numdb} (h : numdb.interleaveNum ≠ 0) (data : List UInt8) (count : ℕ) :
    numdb.words data count =
      some ({ numdb with index := (nextIndex numdb.interleaveNum)^[count] numdb.index },
        numberBytes numdb.interleaveNum count numdb.index ++ data.drop (8 * count)) := by
  induction count generalizing numdb data with
  | zero => rfl
  | succ count ih =>
    have hih := @ih { numdb with index := nextIndex numdb.interleaveNum numdb.index } h
      (data.drop 8)
    rw [words, advance_eq h]
    simp only [Option.bind_eq_bind, Option.bind_some, hih]
    rw [Function.iterate_succ_apply, numberBytes, List.append_assoc, List.drop_drop, Nat.mul_succ,
      Nat.add_comm 8]
    rfl

/-- The checker accepts the next numbers and nothing else. -/
theorem Dbnum.words_eq (dbnum : Dbnum) {data : List UInt8} {count : ℕ} (h : 8 * count ≤ data.length) :
    dbnum.words data count =
      if data.take (8 * count) = numberBytes dbnum.interleaveSkipNum count dbnum.index then
        some { dbnum with index := (nextIndex dbnum.interleaveSkipNum)^[count] dbnum.index }
      else none := by
  induction count generalizing dbnum data with
  | zero => rw [Nat.mul_zero, List.take_zero, numberBytes, if_pos rfl]; rfl
  | succ count ih =>
    have hlen : 8 * count ≤ (data.drop 8).length := by rw [List.length_drop]; omega
    have htake : data.take (8 * (count + 1)) = data.take 8 ++ (data.drop 8).take (8 * count) := by
      rw [Nat.mul_succ, Nat.add_comm, List.take_add]
    rw [words, htake, numberBytes, dbnum.advance_eq, ih _ hlen]
    by_cases hseq : decodeSeq data = dbnum.index
    · have hword : data.take 8 = encodeIndex dbnum.index := by
        rw [← encodeIndex_decodeSeq (by omega), hseq]
      rw [if_neg (not_not.2 hseq), hword, Function.iterate_succ_apply]
      simp only [List.append_cancel_left_eq]
    · rw [if_pos hseq, if_neg]
      intro heq
      have hword := (List.append_inj heq (by
        rw [length_encodeIndex, List.length_take_of_le (by omega)])).1
      apply hseq
      rw [← List.take_append_drop 8 data, hword, decodeSeq_encodeIndex]

/-! ## The calls of a transfer -/

/-- The data are divided at multiples of eight bytes, except that the last call may have a rest. -/
def WordChunks (chunks : List (List UInt8)) : Prop := ∀ data ∈ chunks.dropLast, 8 ∣ data.length

instance (chunks : List (List UInt8)) : Decidable (WordChunks chunks) :=
  inferInstanceAs (Decidable (∀ data ∈ chunks.dropLast, 8 ∣ data.length))

theorem WordChunks.tail {data : List UInt8} {chunks : List (List UInt8)} (h : WordChunks (data :: chunks)) :
    WordChunks chunks := by
  intro c hc
  cases chunks with
  | nil => exact absurd hc List.not_mem_nil
  | cons d chunks => exact h c (List.mem_cons_of_mem _ hc)

/-- The numbers in a call and those in the later ones are the numbers in all of them. -/
theorem WordChunks.words {data : List UInt8} {chunks : List (List UInt8)} (h : WordChunks (data :: chunks)) :
    (chunks = [] ∧ (data :: chunks).flatten = data) ∨
      (8 ∣ data.length ∧
        (data :: chunks).flatten.length / 8 = data.length / 8 + chunks.flatten.length / 8 ∧
        (data :: chunks).flatten.length % 8 = chunks.flatten.length % 8) := by
  cases chunks with
  | nil => exact .inl ⟨rfl, by rw [List.flatten_cons, List.flatten_nil, List.append_nil]⟩
  | cons d chunks =>
    have hdvd : 8 ∣ data.length := h data (by rw [List.dropLast_cons_cons]; exact List.mem_cons_self)
    refine .inr ⟨hdvd, ?_⟩
    rw [List.flatten_cons, List.length_append]
    omega

/-- **What the generator leaves** are the bytes of its numbers, and a rest of less than eight bytes. -/
theorem Numdb.calls_eq {numdb : Numdb} (h : numdb.interleaveNum ≠ 0) (hread : numdb.headerRead = true)
    {blocks : List (List UInt8)} (hb : WordChunks blocks) :
    ∃ out rest, numdb.calls blocks = some out ∧
      out.flatten = numberBytes numdb.interleaveNum (blocks.flatten.length / 8) numdb.index ++ rest ∧
      rest.length = blocks.flatten.length % 8 := by
  induction blocks generalizing numdb with
  | nil => exact ⟨[], [], rfl, rfl, rfl⟩
  | cons data blocks ih =>
    obtain ⟨next, hnext⟩ : ∃ next, next = { numdb with
      index := (nextIndex numdb.interleaveNum)^[data.length / 8] numdb.index } := ⟨_, rfl⟩
    obtain ⟨out, rest, hout, hflat, hrest⟩ :=
      @ih next (by rw [hnext]; exact h) (by rw [hnext]; exact hread) hb.tail
    have hcalls : numdb.calls (data :: blocks) = some ((numberBytes numdb.interleaveNum (data.length / 8)
        numdb.index ++ data.drop (8 * (data.length / 8))) :: out) := by
      rw [calls, dadaNumdbIo, if_pos hread, words_eq h, ← hnext]
      simp only [Option.bind_eq_bind, Option.bind_some, hout]
      rfl
    obtain ⟨hnil, hdata⟩ | ⟨hdvd, hcount, hmod⟩ := hb.words
    · subst hnil
      have hout' : out = [] := by rw [calls] at hout; exact (Option.some.inj hout).symm
      subst hout'
      refine ⟨_, data.drop (8 * (data.length / 8)), hcalls, ?_, ?_⟩
      · rw [hdata, List.flatten_cons, List.flatten_nil, List.append_nil]
      · rw [hdata, List.length_drop]
        omega
    · refine ⟨_, rest, hcalls, ?_, by rw [hmod, hrest]⟩
      have hdrop : data.drop (8 * (data.length / 8)) = [] := by
        rw [Nat.mul_div_cancel' hdvd, List.drop_length]
      rw [List.flatten_cons, hdrop, List.append_nil, hflat, hcount, numberBytes_add, List.append_assoc,
        hnext]

/-- **What the checker accepts** are data that begin with the bytes of its numbers. -/
theorem Dbnum.calls_isSome_iff {dbnum : Dbnum} (hread : dbnum.headerRead = true)
    {chunks : List (List UInt8)} (hc : WordChunks chunks) :
    (∃ last, dbnum.calls chunks = some last) ↔
      chunks.flatten.take (8 * (chunks.flatten.length / 8)) =
        numberBytes dbnum.interleaveSkipNum (chunks.flatten.length / 8) dbnum.index := by
  induction chunks generalizing dbnum with
  | nil => exact iff_of_true ⟨dbnum, rfl⟩ rfl
  | cons data chunks ih =>
    obtain ⟨next, hnext⟩ : ∃ next, next = { dbnum with
      index := (nextIndex dbnum.interleaveSkipNum)^[data.length / 8] dbnum.index } := ⟨_, rfl⟩
    have hcalls : dbnum.calls (data :: chunks) =
        if data.take (8 * (data.length / 8)) =
          numberBytes dbnum.interleaveSkipNum (data.length / 8) dbnum.index then next.calls chunks
        else none := by
      rw [calls, dadaDbnumIo, if_pos hread, words_eq _ (Nat.mul_div_le _ _), ← hnext]
      split <;> rfl
    rw [hcalls]
    obtain ⟨hnil, hdata⟩ | ⟨hdvd, hcount, -⟩ := hc.words
    · subst hnil
      rw [hdata]
      by_cases htake : data.take (8 * (data.length / 8)) =
          numberBytes dbnum.interleaveSkipNum (data.length / 8) dbnum.index
      · rw [if_pos htake]
        exact iff_of_true ⟨next, rfl⟩ htake
      · rw [if_neg htake]
        exact iff_of_false (fun ⟨_, h⟩ => nomatch h) htake
    · have hih := @ih next (by rw [hnext]; exact hread) hc.tail
      have hlen : 8 * (data.length / 8) = data.length := Nat.mul_div_cancel' hdvd
      have htake : (data :: chunks).flatten.take (8 * ((data :: chunks).flatten.length / 8)) =
          data ++ chunks.flatten.take (8 * (chunks.flatten.length / 8)) := by
        rw [hcount, Nat.mul_add, hlen, List.flatten_cons, List.take_length_add_append]
      rw [htake, hcount, numberBytes_add, hlen, List.take_length]
      have hnum : next.interleaveSkipNum = dbnum.interleaveSkipNum := by rw [hnext]
      have hindex : next.index = (nextIndex dbnum.interleaveSkipNum)^[data.length / 8] dbnum.index := by
        rw [hnext]
      rw [hnum, hindex] at hih
      by_cases hd : data = numberBytes dbnum.interleaveSkipNum (data.length / 8) dbnum.index
      · rw [if_pos hd, hih]
        exact ⟨fun h => by rw [h]; exact congrArg (· ++ _) hd, fun h =>
          (List.append_inj h (by rw [length_numberBytes, hlen])).2⟩
      · rw [if_neg hd]
        refine iff_of_false (fun ⟨_, h⟩ => nomatch h) fun heq => hd ?_
        exact (List.append_inj heq (by rw [length_numberBytes, hlen])).1

/-- Without numbers to interleave the generator takes a remainder by 0 after its first number. -/
theorem Numdb.calls_zero {numdb : Numdb} (h : numdb.interleaveNum = 0) (hread : numdb.headerRead = true)
    {blocks : List (List UInt8)} (hb : WordChunks blocks) :
    numdb.calls blocks = if blocks.flatten.length < 8 then some blocks else none := by
  induction blocks with
  | nil => rfl
  | cons data blocks ih =>
    have hwords (count : ℕ) : numdb.words data count = if count = 0 then some (numdb, data) else none := by
      cases count with
      | zero => rfl
      | succ count => rw [words, advance, if_pos h, if_neg (Nat.succ_ne_zero count)]; rfl
    rw [calls, dadaNumdbIo, if_pos hread, hwords]
    by_cases hlen : data.length < 8
    · rw [if_pos (Nat.div_eq_of_lt hlen)]
      simp only [Option.bind_eq_bind, Option.bind_some, ih hb.tail]
      obtain ⟨hnil, hdata⟩ | ⟨hdvd, -, -⟩ := hb.words
      · subst hnil
        rw [hdata, if_pos hlen]
        rfl
      · have hzero : data.length = 0 := Nat.eq_zero_of_dvd_of_lt hdvd hlen
        rw [List.flatten_cons, List.length_append, hzero, Nat.zero_add]
        split <;> rfl
    · have hge : 8 ≤ (data :: blocks).flatten.length := by
        rw [List.flatten_cons, List.length_append]
        omega
      rw [if_neg (by omega), if_neg (Nat.not_lt.2 hge)]
      rfl

/-! ## Agreement -/

/-- A word of 64 bits of a stream. -/
def word (stream : List UInt8) (k : ℕ) : List UInt8 := (stream.drop (8 * k)).take 8

/-- **The agreement of generator and checker**: there is a stream; the checker accepts it in any division
into calls, and it does not accept a stream in which a word differs. -/
def Agree (startNum interleaveBytes xferSkipNum : BitVec 64) (header header' : List UInt8)
    (blocks : List (List UInt8)) : Prop :=
  ∃ out, Numdb.run startNum interleaveBytes header blocks = some out ∧
    (∀ chunks, WordChunks chunks → chunks.flatten = out.flatten →
      ∃ last, Dbnum.run startNum interleaveBytes xferSkipNum header' chunks = some last) ∧
    ∀ chunks, WordChunks chunks → chunks.flatten.length = out.flatten.length →
      (∃ k, 8 * k + 8 ≤ out.flatten.length ∧ word chunks.flatten k ≠ word out.flatten k) →
      Dbnum.run startNum interleaveBytes xferSkipNum header' chunks = none

/-- What the checker accepts, from the beginning of the transfer. -/
theorem Dbnum.run_isSome_iff {startNum interleaveBytes xferSkipNum : BitVec 64} {header : List UInt8}
    {chunks : List (List UInt8)} (hc : WordChunks chunks) :
    (∃ last, run startNum interleaveBytes xferSkipNum header chunks = some last) ↔
      chunks.flatten.take (8 * (chunks.flatten.length / 8)) =
        numberBytes (interleaveBytes / 8) (chunks.flatten.length / 8) startNum :=
  @calls_isSome_iff ⟨startNum, interleaveBytes / 8, startNum, xferSkipNum, true⟩ rfl _ hc

/-- A stream of as many complete words with the same bytes has the same words. -/
theorem word_eq_of_take_eq {s t : List UInt8} {n k : ℕ} (h : s.take (8 * n) = t.take (8 * n)) (hk : k < n) :
    word s k = word t k := by
  have hword (s : List UInt8) : word s k = ((s.take (8 * n)).drop (8 * k)).take 8 := by
    rw [word, List.drop_take, List.take_take, Nat.min_eq_left (by omega)]
  rw [hword, hword, h]

/-- **They agree** where at least eight bytes are interleaved, or where no complete number is written. -/
theorem agree_iff (startNum interleaveBytes xferSkipNum : BitVec 64) (header header' : List UInt8)
    (blocks : List (List UInt8)) (hb : WordChunks blocks) :
    Agree startNum interleaveBytes xferSkipNum header header' blocks ↔
      8 ≤ interleaveBytes.toNat ∨ blocks.flatten.length < 8 := by
  have hnum : interleaveBytes / 8 = 0 ↔ interleaveBytes.toNat < 8 := by
    rw [← BitVec.toNat_inj, BitVec.toNat_udiv]
    change interleaveBytes.toNat / 8 = 0 ↔ _
    omega
  have hrun : Numdb.run startNum interleaveBytes header blocks =
      Numdb.calls ⟨startNum, interleaveBytes / 8, startNum, true⟩ blocks := rfl
  -- the checker is right about every stream that begins with the numbers
  have hagree {out : List (List UInt8)} {rest : List UInt8}
      (hout : Numdb.run startNum interleaveBytes header blocks = some out)
      (hflat : out.flatten =
        numberBytes (interleaveBytes / 8) (blocks.flatten.length / 8) startNum ++ rest)
      (hrest : rest.length = blocks.flatten.length % 8) :
      Agree startNum interleaveBytes xferSkipNum header header' blocks := by
    have hlen : out.flatten.length / 8 = blocks.flatten.length / 8 := by
      rw [hflat, List.length_append, length_numberBytes]
      omega
    have htake : out.flatten.take (8 * (out.flatten.length / 8)) =
        numberBytes (interleaveBytes / 8) (out.flatten.length / 8) startNum := by
      rw [hlen, hflat, List.take_left' (length_numberBytes _ _ _)]
    refine ⟨out, hout, fun chunks hc heq => ?_, fun chunks hc heq hdiffer => ?_⟩
    · rw [Dbnum.run_isSome_iff hc, heq, htake]
    · obtain ⟨k, hk, hne⟩ := hdiffer
      rw [Option.eq_none_iff_forall_not_mem]
      intro last hlast
      have haccept := (Dbnum.run_isSome_iff hc).1 ⟨last, hlast⟩
      rw [heq, ← htake] at haccept
      exact hne (word_eq_of_take_eq haccept (by omega))
  by_cases hzero : interleaveBytes / 8 = 0
  · have hcalls := @Numdb.calls_zero ⟨startNum, interleaveBytes / 8, startNum, true⟩ hzero rfl _ hb
    rw [← hrun] at hcalls
    by_cases hlt : blocks.flatten.length < 8
    · rw [if_pos hlt] at hcalls
      refine iff_of_true (@hagree _ blocks.flatten hcalls ?_ (Nat.mod_eq_of_lt hlt).symm) (.inr hlt)
      rw [Nat.div_eq_of_lt hlt]
      rfl
    · rw [if_neg hlt] at hcalls
      refine iff_of_false ?_ ?_
      · rintro ⟨out, hout, -⟩
        rw [hcalls] at hout
        cases hout
      · have := hnum.1 hzero
        omega
  · obtain ⟨out, rest, hout, hflat, hrest⟩ :=
      @Numdb.calls_eq ⟨startNum, interleaveBytes / 8, startNum, true⟩ hzero rfl _ hb
    refine iff_of_true (hagree hout hflat hrest) (.inl ?_)
    by_contra hlt
    exact hzero (hnum.2 (by omega))

/-- With the numbers 5, 6, 7 and groups of two numbers. -/
theorem agree_iff_16 :
    Agree 5 16 0 [] [] [List.replicate 16 0, List.replicate 13 0] ↔
      8 ≤ (16 : BitVec 64).toNat ∨ [List.replicate 16 (0 : UInt8), List.replicate 13 0].flatten.length < 8 :=
  agree_iff 5 16 0 [] [] [List.replicate 16 0, List.replicate 13 0] (by decide)

/-- With fewer than eight bytes to interleave the generator divides by 0. -/
theorem not_agree_4 : ¬ Agree 0 4 0 [] [] [List.replicate 8 0] := by
  rintro ⟨out, hout, -⟩
  have hnone : Numdb.run 0 4 [] [List.replicate 8 0] = none := by decide +kernel
  rw [hnone] at hout
  cases hout

end Psrdada
