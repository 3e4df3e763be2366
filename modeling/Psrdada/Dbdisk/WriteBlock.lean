import Mathlib.Data.List.Range
import Psrdada.Client.Switching

/-! # Writing a block to disk

`file_write_function` calls `write` until a block has been written.  A call may write less than it was
given, or fail, and the results are added up in unsigned arithmetic: a failure counts as minus one byte.
`Faithful` says what a call shall do with a block, and `faithful_iff` for which results of `write` it
does. -/

namespace Psrdada

/-! ## The code -/

/-- A call of `write`: where in the block its data begins, how much there is, and the result. -/
structure WriteCall where
  /-- The address, from the beginning of the block. -/
  offset : ℕ
  /-- The number of bytes. -/
  length : ℕ
  /-- The number of bytes that were written, or `-1`. -/
  result : ℤ

/-- What a call of `file_write_function` does. -/
structure WriteOutcome where
  /-- The calls of `write`. -/
  calls : List WriteCall
  /-- The return value. -/
  returned : ℤ

/-- A block that is to be written, and the results of `write`. -/
structure DiskWriter where
  /-- `data_size`. -/
  dataSize : ℕ
  /-- `optimal_bytes`, 0 when it is not set. -/
  optimalBytes : ℕ
  /-- The sizes fit in 63 bits. -/
  fits : dataSize + optimalBytes < 2 ^ 63
  /-- `o_direct`. -/
  oDirect : Bool
  /-- Whether `disk_array_reopen` succeeds. -/
  reopens : Bool
  /-- The result of the `i`-th call of `write`, for so many bytes. -/
  write : ℕ → ℕ → ℤ
  /-- A call that fails returns `-1`. -/
  failure_le : ∀ i n, -1 ≤ write i n
  /-- No more is written than was given. -/
  le_length : ∀ i n, write i n ≤ n

/-- `written += wrote`, in `uint64_t`. -/
def addWrote (written : ℕ) (wrote : ℤ) : ℕ := (written + asUnsigned wrote) % 2 ^ 64

namespace DiskWriter

variable (d : DiskWriter)

/-- `to_write`. -/
def toWrite (written : ℕ) : ℕ :=
  if d.optimalBytes ≠ 0 then
    if (written + d.optimalBytes) % 2 ^ 64 > d.dataSize then d.dataSize - written else d.optimalBytes
  else d.dataSize

/-- Whether the data of a call must be written without `O_DIRECT` from some byte on. -/
def Remainder (written : ℕ) : Prop := d.oDirect = true ∧ d.toWrite written % 512 ≠ 0

instance (written : ℕ) : Decidable (d.Remainder written) := inferInstanceAs (Decidable (_ ∧ _))

/-- All but the remainder is written, the file is opened without `O_DIRECT`, and the remainder is
written. -/
def writeRemainder (i written : ℕ) : WriteOutcome :=
  let toWrite := d.toWrite written
  let aligned := toWrite / 512 * 512
  let wrote := d.write i aligned
  let first : WriteCall := ⟨written, aligned, wrote⟩
  let written := addWrote written wrote
  if d.reopens then
    let rest := (toWrite + 2 ^ 64 - asUnsigned wrote) % 2 ^ 64
    let wrote := d.write (i + 1) rest
    ⟨[first, ⟨written, rest, wrote⟩], toInt64 (addWrote written wrote)⟩
  else ⟨[first], toInt64 written⟩

/-- The loop of `file_write_function` from the `i`-th call of `write` on, with so many bytes written: none
when it goes on for more than `fuel` rounds. -/
def fileWriteLoop : (fuel i written : ℕ) → Option WriteOutcome
  | 0, _, _ => none
  | fuel + 1, i, written =>
    if written < d.dataSize then
      if d.Remainder written then some (d.writeRemainder i written)
      else
        let toWrite := d.toWrite written
        let wrote := d.write i toWrite
        (fileWriteLoop fuel (i + 1) (addWrote written wrote)).map fun rest =>
          { rest with calls := ⟨written, toWrite, wrote⟩ :: rest.calls }
    else some ⟨[], toInt64 written⟩

end DiskWriter

/-! ## What is meant -/

/-- The bytes of the block that calls append to the file. -/
def appended (calls : List WriteCall) : List ℕ :=
  calls.flatMap fun call => List.range' call.offset call.result.toNat

/-- Whether a call of `file_write_function` does what it shall: every call of `write` stays inside the
block, the bytes that are appended are the beginning of the block, and their number is returned, or a
negative number where a call has failed. -/
structure Faithful (dataSize : ℕ) (outcome : WriteOutcome) : Prop where
  /-- All data is taken from the block. -/
  inside : ∀ call ∈ outcome.calls, call.offset + call.length ≤ dataSize
  /-- A beginning of the block is written, and its length or an error is returned. -/
  written : ∃ n ≤ dataSize, appended outcome.calls = List.range n ∧
    (outcome.returned = n ∨ outcome.returned < 0 ∧ ∃ call ∈ outcome.calls, call.result = -1)

namespace DiskWriter

variable (d : DiskWriter)

/-- Whether `file_write_function` returns and does what it shall. -/
def Writes : Prop := ∃ fuel outcome, d.fileWriteLoop fuel 0 0 = some outcome ∧ Faithful d.dataSize outcome

/-- No result is zero for ever. -/
def Progresses : Prop := ∀ i, ∃ j ≥ i, ∀ n > 0, d.write j n ≠ 0

/-- The number of bytes that the calls before the `i`-th have written, less the number of failures. -/
def count (d : DiskWriter) : ℕ → ℤ
  | 0 => 0
  | i + 1 => d.count i + d.write i (d.toWrite (d.count i).toNat)

/-- Whether the loop comes to the `i`-th call: the count has been in the block, and no remainder has been
written. -/
def Reaches (i : ℕ) : Prop :=
  (∀ j ≤ i, 0 ≤ d.count j ∧ d.count j < d.dataSize) ∧ ∀ j < i, ¬ d.Remainder (d.count j).toNat

/-- Whether no call before the `i`-th has failed. -/
def Unfailed (i : ℕ) : Prop := ∀ j < i, d.write j (d.toWrite (d.count j).toNat) ≠ -1

/-- The results that do no harm in the loop: nothing is written after a failure, and, without
`optimal_bytes`, nothing but the whole block. -/
def Harmless (i : ℕ) : Prop :=
  0 < d.write i (d.toWrite (d.count i).toNat) →
    d.Unfailed i ∧ (d.optimalBytes = 0 → d.write i (d.toWrite (d.count i).toNat) = d.dataSize)

/-- The results that do no harm in the remainder: nothing is written after a failure, a failure of the
first call does not come before the first byte, and all failures together outnumber the bytes. -/
def HarmlessRemainder (i : ℕ) : Prop :=
  let toWrite := d.toWrite (d.count i).toNat
  let first := d.write i (toWrite / 512 * 512)
  let second := d.write (i + 1) (toWrite - first).toNat
  (0 < first → d.Unfailed i) ∧
    (d.reopens = true → (first = -1 → d.count i ≠ 0) ∧ (0 < second → d.Unfailed i ∧ first ≠ -1)) ∧
    (¬ d.Unfailed i ∨ first = -1 ∨ d.reopens = true ∧ second = -1 →
      d.count i + first + (if d.reopens then second else 0) < 0)

/-- Whether the results of `write` do no harm in any call that the loop comes to. -/
def Orderly : Prop :=
  ∀ i, d.Reaches i →
    if d.Remainder (d.count i).toNat then d.HarmlessRemainder i else d.Harmless i

/-! ## Calls one by one -/

/-- Whether calls, after others that have appended the first `n` bytes of the block, do what they
shall. -/
def GoodFrom (n : ℕ) (failed : Prop) (calls : List WriteCall) (returned : ℤ) : Prop :=
  (∀ call ∈ calls, call.offset + call.length ≤ d.dataSize) ∧
    ∃ m ≤ d.dataSize, List.range n ++ appended calls = List.range m ∧
      (returned = m ∨ returned < 0 ∧ (failed ∨ ∃ call ∈ calls, call.result = -1))

theorem faithful_iff_goodFrom (outcome : WriteOutcome) :
    Faithful d.dataSize outcome ↔ d.GoodFrom 0 False outcome.calls outcome.returned := by
  constructor
  · rintro ⟨hinside, m, hm, happ, hret⟩
    exact ⟨hinside, m, hm, by simpa using happ, by simpa using hret⟩
  · rintro ⟨hinside, m, hm, happ, hret⟩
    exact ⟨hinside, m, hm, by simpa using happ, by simpa using hret⟩

variable {d} {n : ℕ} {failed : Prop}

theorem goodFrom_nil {returned : ℤ} :
    d.GoodFrom n failed [] returned ↔ n ≤ d.dataSize ∧ (returned = n ∨ returned < 0 ∧ failed) := by
  constructor
  · rintro ⟨-, m, hm, happ, hret⟩
    obtain rfl : n = m := by
      have := congrArg List.length happ
      simpa [appended] using this
    exact ⟨hm, by simpa using hret⟩
  · rintro ⟨hn, hret⟩
    exact ⟨by simp, n, hn, by simp [appended], by simpa using hret⟩

/-- A call that writes goes on where the others have ended. -/
theorem offset_eq {calls : List WriteCall} {call : WriteCall} {m : ℕ} (hpos : 0 < call.result)
    (h : List.range n ++ appended (call :: calls) = List.range m) : call.offset = n := by
  have hsome : (List.range n ++ appended (call :: calls))[n]? = some call.offset := by
    rw [List.getElem?_append_right (by rw [List.length_range]), List.length_range, Nat.sub_self,
      appended, List.flatMap_cons]
    have hlen : 0 < call.result.toNat := by omega
    rw [List.getElem?_append_left (by rw [List.length_range']; exact hlen),
      List.getElem?_range' hlen]
    simp
  rw [h] at hsome
  obtain ⟨hlt, hget⟩ := List.getElem?_eq_some_iff.mp hsome
  rw [List.getElem_range] at hget
  exact hget.symm

/-- What a first call does: it stays inside the block, and it writes nothing, or goes on where the others
have ended. -/
theorem goodFrom_cons {call : WriteCall} {calls : List WriteCall} {returned : ℤ} :
    d.GoodFrom n failed (call :: calls) returned ↔
      call.offset + call.length ≤ d.dataSize ∧
      (call.result ≤ 0 → d.GoodFrom n (failed ∨ call.result = -1) calls returned) ∧
      (0 < call.result → call.offset = n ∧
        d.GoodFrom (n + call.result.toNat) failed calls returned) := by
  have happend (hle : call.result ≤ 0) : appended (call :: calls) = appended calls := by
    rw [appended, List.flatMap_cons, Int.toNat_of_nonpos hle]
    rfl
  have hmore (hoffset : call.offset = n) : List.range n ++ appended (call :: calls) =
      List.range (n + call.result.toNat) ++ appended calls := by
    rw [appended, List.flatMap_cons, hoffset, List.range_eq_range', List.range_eq_range',
      ← List.append_assoc]
    congr 1
    have := @List.range'_append 0 n call.result.toNat 1
    simpa using this
  constructor
  · rintro ⟨hinside, m, hm, happ, hret⟩
    refine ⟨hinside call List.mem_cons_self, fun hle => ?_, fun hpos => ?_⟩
    · refine ⟨fun c hc => hinside c (List.mem_cons_of_mem _ hc), m, hm, happend hle ▸ happ, ?_⟩
      refine hret.imp_right (And.imp_right ?_)
      rintro (hf | ⟨c, hc, hfail⟩)
      · exact .inl (.inl hf)
      · rcases List.mem_cons.mp hc with rfl | hc
        · exact .inl (.inr hfail)
        · exact .inr ⟨c, hc, hfail⟩
    · have hoffset := offset_eq hpos happ
      refine ⟨hoffset, fun c hc => hinside c (List.mem_cons_of_mem _ hc), m, hm,
        hmore hoffset ▸ happ, ?_⟩
      refine hret.imp_right (And.imp_right ?_)
      rintro (hf | ⟨c, hc, hfail⟩)
      · exact .inl hf
      · rcases List.mem_cons.mp hc with rfl | hc
        · omega
        · exact .inr ⟨c, hc, hfail⟩
  · rintro ⟨hfirst, hzero, hpos⟩
    by_cases hlt : 0 < call.result
    · obtain ⟨hoffset, hinside, m, hm, happ, hret⟩ := hpos hlt
      refine ⟨?_, m, hm, (hmore hoffset).trans happ, ?_⟩
      · intro c hc
        rcases List.mem_cons.mp hc with rfl | hc
        · exact hfirst
        · exact hinside c hc
      · refine hret.imp_right (And.imp_right (Or.imp_right ?_))
        rintro ⟨c, hc, hfail⟩
        exact ⟨c, List.mem_cons_of_mem _ hc, hfail⟩
    · have hle : call.result ≤ 0 := Int.not_lt.mp hlt
      obtain ⟨hinside, m, hm, happ, hret⟩ := hzero hle
      refine ⟨?_, m, hm, (congrArg _ (happend hle)).trans happ, ?_⟩
      · intro c hc
        rcases List.mem_cons.mp hc with rfl | hc
        · exact hfirst
        · exact hinside c hc
      · refine hret.imp_right (And.imp_right ?_)
        rintro ((hf | hfail) | ⟨c, hc, hfail⟩)
        · exact .inl hf
        · exact .inr ⟨call, List.mem_cons_self, hfail⟩
        · exact .inr ⟨c, List.mem_cons_of_mem _ hc, hfail⟩

/-! ## Unsigned sums -/

theorem addWrote_of_nonneg {v : ℕ} {r : ℤ} (hr : 0 ≤ r) (hfit : (v : ℤ) + r < 2 ^ 63) :
    addWrote v r = v + r.toNat := by
  unfold addWrote asUnsigned
  rw [if_neg (Int.not_lt.mpr hr)]
  omega

theorem addWrote_failure {v : ℕ} (hv : 0 < v) (hfit : v < 2 ^ 63) : addWrote v (-1) = v - 1 := by
  have hminus : asUnsigned (-1) = 2 ^ 64 - 1 := rfl
  rw [addWrote, hminus]
  omega

theorem addWrote_zero : addWrote 0 (-1) = 2 ^ 64 - 1 := rfl

theorem toInt64_of_lt {v : ℕ} (hv : v < 2 ^ 63) : toInt64 v = v := by
  unfold toInt64
  omega

theorem toInt64_max : toInt64 ((2 ^ 64 - 1 : ℕ) : ℤ) = -1 := by
  decide

/-- What is asked for is some part of what is left; without `optimal_bytes` it is as much as the whole
block. -/
theorem toWrite_spec {v : ℕ} (hv : v < d.dataSize) :
    0 < d.toWrite v ∧ d.toWrite v ≤ d.dataSize ∧
      (d.optimalBytes ≠ 0 → v + d.toWrite v ≤ d.dataSize) ∧
        (d.optimalBytes = 0 → d.toWrite v = d.dataSize) := by
  have hfits := d.fits
  have hmod : (v + d.optimalBytes) % 2 ^ 64 = v + d.optimalBytes := Nat.mod_eq_of_lt (by omega)
  unfold toWrite
  rw [hmod]
  split
  · split
    all_goals exact ⟨by omega, by omega, fun _ => by omega, fun h => by omega⟩
  · exact ⟨by omega, Nat.le_refl _, fun h => by omega, fun _ => rfl⟩

/-- The result of a call. -/
theorem write_cases (i n : ℕ) :
    d.write i n = -1 ∨ d.write i n = 0 ∨ 0 < d.write i n := by
  have := d.failure_le i n
  omega

/-- Whether, from the `i`-th call on with `v` bytes written, the loop returns and does what it shall after
calls that have appended the first `n` bytes. -/
def WritesFrom (d : DiskWriter) (i v n : ℕ) (failed : Prop) : Prop :=
  ∃ fuel outcome, d.fileWriteLoop fuel i v = some outcome ∧
    d.GoodFrom n failed outcome.calls outcome.returned

theorem writes_iff : d.Writes ↔ d.WritesFrom 0 0 0 False := by
  simp only [Writes, WritesFrom, faithful_iff_goodFrom]

/-- The loop ends. -/
theorem writesFrom_end {i v : ℕ} (hv : ¬ v < d.dataSize) :
    d.WritesFrom i v n failed ↔
      n ≤ d.dataSize ∧ (toInt64 v = n ∨ toInt64 v < 0 ∧ failed) := by
  rw [← goodFrom_nil]
  constructor
  · rintro ⟨fuel, outcome, hrun, hgood⟩
    cases fuel with
    | zero => simp [fileWriteLoop] at hrun
    | succ fuel =>
      rw [fileWriteLoop, if_neg hv] at hrun
      obtain rfl := Option.some.inj hrun
      exact hgood
  · intro hgood
    exact ⟨1, _, by rw [fileWriteLoop, if_neg hv], hgood⟩

/-- The remainder is written. -/
theorem writesFrom_remainder {i v : ℕ} (hv : v < d.dataSize) (hrem : d.Remainder v) :
    d.WritesFrom i v n failed ↔
      d.GoodFrom n failed (d.writeRemainder i v).calls (d.writeRemainder i v).returned := by
  constructor
  · rintro ⟨fuel, outcome, hrun, hgood⟩
    cases fuel with
    | zero => simp [fileWriteLoop] at hrun
    | succ fuel =>
      rw [fileWriteLoop, if_pos hv, if_pos hrem] at hrun
      obtain rfl := Option.some.inj hrun
      exact hgood
  · intro hgood
    exact ⟨1, _, by rw [fileWriteLoop, if_pos hv, if_pos hrem], hgood⟩

/-- One round of the loop. -/
theorem writesFrom_round {i v : ℕ} (hv : v < d.dataSize) (hrem : ¬ d.Remainder v) :
    d.WritesFrom i v n failed ↔
      v + d.toWrite v ≤ d.dataSize ∧
      (d.write i (d.toWrite v) ≤ 0 → d.WritesFrom (i + 1) (addWrote v (d.write i (d.toWrite v))) n
        (failed ∨ d.write i (d.toWrite v) = -1)) ∧
      (0 < d.write i (d.toWrite v) → v = n ∧
        d.WritesFrom (i + 1) (addWrote v (d.write i (d.toWrite v)))
          (n + (d.write i (d.toWrite v)).toNat) failed) := by
  constructor
  · rintro ⟨fuel, outcome, hrun, hgood⟩
    cases fuel with
    | zero => simp [fileWriteLoop] at hrun
    | succ fuel =>
      rw [fileWriteLoop, if_pos hv, if_neg hrem] at hrun
      obtain ⟨rest, hrest, rfl⟩ := Option.map_eq_some_iff.mp hrun
      obtain ⟨hinside, hzero, hpos⟩ := goodFrom_cons.mp hgood
      exact ⟨hinside, fun h => ⟨fuel, rest, hrest, hzero h⟩,
        fun h => ⟨(hpos h).1, fuel, rest, hrest, (hpos h).2⟩⟩
  · rintro ⟨hinside, hzero, hpos⟩
    have hstep {fuel : ℕ} {rest : WriteOutcome}
        (hrest : d.fileWriteLoop fuel (i + 1) (addWrote v (d.write i (d.toWrite v))) = some rest) :
        d.fileWriteLoop (fuel + 1) i v =
          some { rest with calls := ⟨v, d.toWrite v, d.write i (d.toWrite v)⟩ :: rest.calls } := by
      rw [fileWriteLoop, if_pos hv, if_neg hrem]
      simp only [hrest, Option.map_some]
    by_cases hlt : 0 < d.write i (d.toWrite v)
    · obtain ⟨hn, fuel, rest, hrest, hgood⟩ := hpos hlt
      refine ⟨fuel + 1, _, hstep hrest, goodFrom_cons.mpr ⟨hinside, fun h => ?_, fun _ => ⟨hn, hgood⟩⟩⟩
      exact absurd hlt (Int.not_lt.mpr h)
    · obtain ⟨fuel, rest, hrest, hgood⟩ := hzero (Int.not_lt.mp hlt)
      exact ⟨fuel + 1, _, hstep hrest,
        goodFrom_cons.mpr ⟨hinside, fun _ => hgood, fun h => absurd h hlt⟩⟩

/-! ## The remainder -/

/-- What is returned after a call: the sum, a failure counted as minus one. -/
theorem toInt64_addWrote {v : ℕ} {r : ℤ} (hr : -1 ≤ r) (hv : v < 2 ^ 63) (hfit : (v : ℤ) + r < 2 ^ 63) :
    toInt64 (addWrote v r) = v + r := by
  by_cases hneg : r = -1
  · subst hneg
    rcases Nat.eq_zero_or_pos v with rfl | hpos
    · exact toInt64_max
    · rw [addWrote_failure hpos hv, toInt64_of_lt (by omega)]
      omega
  · rw [addWrote_of_nonneg (by omega) hfit, toInt64_of_lt (by omega)]
    omega

/-- The sum after a call, unless a failure comes before the first byte. -/
theorem addWrote_eq {v : ℕ} {r : ℤ} (hr : -1 ≤ r) (hv : v < 2 ^ 63) (hfit : (v : ℤ) + r < 2 ^ 63)
    (hne : ¬ (v = 0 ∧ r = -1)) : (addWrote v r : ℤ) = v + r := by
  by_cases hneg : r = -1
  · have hpos : 0 < v := by omega
    rw [hneg, addWrote_failure hpos hv]
    omega
  · rw [addWrote_of_nonneg (by omega) hfit]
    omega

/-- What is left to write after a call. -/
theorem rest_eq {toWrite : ℕ} {r : ℤ} (hr : -1 ≤ r) (hle : r ≤ toWrite) (hfit : toWrite < 2 ^ 63) :
    (toWrite + 2 ^ 64 - asUnsigned r) % 2 ^ 64 = ((toWrite : ℤ) - r).toNat := by
  unfold asUnsigned
  split
  all_goals omega

/-- The number of bytes that earlier calls have appended, against the count. -/
structure Appends (d : DiskWriter) (i n : ℕ) : Prop where
  /-- No more than the block. -/
  le_size : n ≤ d.dataSize
  /-- Without a failure the count is exact. -/
  exact : d.Unfailed i → d.count i = n
  /-- After one it is too small. -/
  behind : ¬ d.Unfailed i → d.count i < n

/-- The remainder is written as it shall be if and only if the results do no harm. -/
theorem goodFrom_remainder {i v : ℕ} (hv : v < d.dataSize) (hcount : d.count i = v)
    (happ : d.Appends i n) (hinside : v + d.toWrite v ≤ d.dataSize) :
    d.GoodFrom n (¬ d.Unfailed i) (d.writeRemainder i v).calls (d.writeRemainder i v).returned ↔
      d.HarmlessRemainder i := by
  obtain ⟨hn, hexact, hbehind⟩ := happ
  have hfits := d.fits
  have htoNat : (d.count i).toNat = v := by omega
  rw [hcount] at hexact hbehind
  unfold HarmlessRemainder writeRemainder
  simp only [htoNat]
  have haligned : d.toWrite v / 512 * 512 ≤ d.toWrite v := Nat.div_mul_le_self _ _
  generalize d.toWrite v / 512 * 512 = aligned at haligned ⊢
  have hfirst := d.failure_le i aligned
  have hfirst' := d.le_length i aligned
  generalize d.write i aligned = first at hfirst hfirst' ⊢
  rw [rest_eq hfirst (by omega) (by omega)]
  have hsecond := d.failure_le (i + 1) ((d.toWrite v : ℤ) - first).toNat
  have hsecond' := d.le_length (i + 1) ((d.toWrite v : ℤ) - first).toNat
  generalize d.write (i + 1) ((d.toWrite v : ℤ) - first).toNat = second at hsecond hsecond' ⊢
  have hsmall : v < 2 ^ 63 := by omega
  have hfit : (v : ℤ) + first < 2 ^ 63 := by omega
  have hfit' : (v : ℤ) + first + second < 2 ^ 63 := by omega
  have hrest : v + ((d.toWrite v : ℤ) - first).toNat + first ≤ d.dataSize := by omega
  have hret := toInt64_addWrote hfirst hsmall hfit
  by_cases hreopens : d.reopens = true
  · simp only [hreopens, if_true, goodFrom_cons, goodFrom_nil]
    rw [hcount]
    by_cases hzero : v = 0 ∧ first = -1
    · -- the second call begins before the block
      have hoffset : addWrote v first = 2 ^ 64 - 1 := by
        rw [hzero.1, hzero.2]
        exact addWrote_zero
      have hneg : first ≤ 0 := by
        rw [hzero.2]
        decide
      constructor
      · rintro ⟨-, hz, -⟩
        have hle : addWrote v first ≤ d.dataSize := Nat.le_of_add_right_le (hz hneg).1
        rw [hoffset] at hle
        clear hexact hbehind hz hret
        omega
      · rintro ⟨-, hr, -⟩
        exact absurd (congrArg Nat.cast hzero.1) ((hr trivial).1 hzero.2)
    · have hoffset := addWrote_eq hfirst hsmall hfit hzero
      have hsmall' : addWrote v first < 2 ^ 63 := by
        clear hret
        revert hoffset
        generalize addWrote v first = offset
        intro hoffset
        omega
      have hret' := toInt64_addWrote hsecond hsmall' (hoffset ▸ hfit')
      rw [hret', hoffset]
      clear hret hret'
      revert hoffset hsmall'
      generalize addWrote v first = offset
      intro hoffset hsmall'
      by_cases huf : d.Unfailed i
      · have hvn := hexact huf
        clear hexact hbehind
        simp only [huf, not_true, false_or, and_false, or_false, true_and, forall_true_left]
        rcases (by omega : first = -1 ∨ first = 0 ∨ 0 < first) with rfl | rfl | hpos
        · grind
        · grind
        · grind
      · have hvn := hbehind huf
        clear hexact hbehind
        simp only [huf, not_false_eq_true, true_or, and_true, false_and, imp_false]
        grind
  · simp only [hreopens, Bool.false_eq_true, if_false, false_implies, goodFrom_cons, goodFrom_nil, hret,
      hcount]
    clear hret
    by_cases huf : d.Unfailed i
    · have hvn := hexact huf
      clear hexact hbehind
      simp only [huf, not_true, false_or, and_false, or_false, true_and]
      grind
    · have hvn := hbehind huf
      clear hexact hbehind
      simp only [huf, not_false_eq_true, true_or, and_true, false_and, imp_false]
      grind

/-! ## The loop -/

theorem WritesFrom.congr {i v : ℕ} {failed' : Prop} (h : failed ↔ failed') :
    d.WritesFrom i v n failed ↔ d.WritesFrom i v n failed' := by
  rw [propext h]

theorem unfailed_succ (i : ℕ) : d.Unfailed (i + 1) ↔
    d.Unfailed i ∧ d.write i (d.toWrite (d.count i).toNat) ≠ -1 := by
  constructor
  · exact fun h => ⟨fun j hj => h j (Nat.lt_succ_of_lt hj), h i (Nat.lt_succ_self i)⟩
  · rintro ⟨h, hi⟩ j hj
    rcases Nat.lt_succ_iff_lt_or_eq.mp hj with hj | rfl
    · exact h j hj
    · exact hi

theorem not_unfailed_succ (i : ℕ) : ¬ d.Unfailed (i + 1) ↔
    ¬ d.Unfailed i ∨ d.write i (d.toWrite (d.count i).toNat) = -1 := by
  rw [unfailed_succ, not_and_or, not_not]

theorem reaches_zero (h : 0 < d.dataSize) : d.Reaches 0 := by
  refine ⟨fun j hj => ?_, fun j hj => absurd hj (Nat.not_lt_zero j)⟩
  obtain rfl : j = 0 := by omega
  exact ⟨Int.le_refl 0, Int.natCast_pos.mpr h⟩

/-- The loop comes to the next call when the count stays in the block. -/
theorem reaches_succ (i : ℕ) : d.Reaches (i + 1) ↔
    d.Reaches i ∧ ¬ d.Remainder (d.count i).toNat ∧
      0 ≤ d.count (i + 1) ∧ d.count (i + 1) < d.dataSize := by
  constructor
  · rintro ⟨hcount, hrem⟩
    refine ⟨⟨fun j hj => hcount j (Nat.le_succ_of_le hj), fun j hj => hrem j (Nat.lt_succ_of_lt hj)⟩,
      hrem i (Nat.lt_succ_self i), hcount (i + 1) (Nat.le_refl _)⟩
  · rintro ⟨⟨hcount, hrem⟩, hi, hnext⟩
    constructor
    · intro j hj
      rcases Nat.le_succ_iff.mp hj with hj | rfl
      · exact hcount j hj
      · exact hnext
    · intro j hj
      rcases Nat.lt_succ_iff_lt_or_eq.mp hj with hj | rfl
      · exact hrem j hj
      · exact hi

/-- A call that the loop comes to begins inside the block. -/
theorem Reaches.exists_count {i : ℕ} (h : d.Reaches i) :
    ∃ v < d.dataSize, d.count i = v ∧ (d.count i).toNat = v := by
  obtain ⟨h0, hlt⟩ := h.1 i (Nat.le_refl i)
  exact ⟨(d.count i).toNat, by omega, by omega, rfl⟩

/-- Without `optimal_bytes`, a remainder is written in the first round or never. -/
theorem remainder_inside {i v : ℕ} (h : d.Reaches i) (hv : v < d.dataSize) (hcount : d.count i = v)
    (hrem : d.Remainder v) : v + d.toWrite v ≤ d.dataSize := by
  obtain ⟨-, hle, hset, hunset⟩ := toWrite_spec hv
  by_cases hoptimal : d.optimalBytes = 0
  · have hzero : v = 0 := by
      cases i with
      | zero => exact (Int.ofNat_inj.mp hcount).symm
      | succ i =>
        have hfirst := h.2 0 (Nat.succ_pos i)
        have hsame : d.toWrite (d.count 0).toNat = d.toWrite v := by
          rw [hunset hoptimal]
          exact (toWrite_spec (d := d) (v := 0) (Nat.lt_of_le_of_lt (Nat.zero_le v) hv)).2.2.2 hoptimal
        exact absurd ⟨hrem.1, hsame ▸ hrem.2⟩ hfirst
    omega
  · exact hset hoptimal

/-- The bytes that have been appended when the loop comes to a call. -/
theorem Appends.succ {i v : ℕ} (h : d.Appends i n) (hcount : d.count i = v)
    (hle : d.write i (d.toWrite v) ≤ 0) : d.Appends (i + 1) n := by
  have htoNat : (d.count i).toNat = v := by rw [hcount]; rfl
  have hnext : d.count (i + 1) = v + d.write i (d.toWrite v) := by
    rw [count, htoNat, hcount]
  refine ⟨h.le_size, fun huf => ?_, fun huf => ?_⟩
  · obtain ⟨huf, hne⟩ := (unfailed_succ i).mp huf
    rw [htoNat] at hne
    have hexact := h.exact huf
    rcases write_cases (d := d) i (d.toWrite v) with hr | hr | hr
    · exact absurd hr hne
    · rw [hnext, hr, ← hcount, hexact, Int.add_zero]
    · exact absurd hle (Int.not_le.mpr hr)
  · rw [hnext]
    rcases (not_unfailed_succ i).mp huf with hbefore | hr
    · have := h.behind hbefore
      rw [hcount] at this
      omega
    · rw [htoNat] at hr
      rw [hr]
      by_cases hbefore : d.Unfailed i
      · have := h.exact hbefore
        rw [hcount] at this
        omega
      · have := h.behind hbefore
        rw [hcount] at this
        omega

/-- A call that writes after calls without a failure. -/
theorem Appends.write {i v : ℕ} (h : d.Appends i n) (hcount : d.count i = v) (huf : d.Unfailed i)
    (hpos : 0 < d.write i (d.toWrite v)) (hle : v + d.write i (d.toWrite v) ≤ d.dataSize) :
    d.Appends (i + 1) (n + (d.write i (d.toWrite v)).toNat) := by
  have htoNat : (d.count i).toNat = v := by rw [hcount]; rfl
  have hnext : d.count (i + 1) = v + d.write i (d.toWrite v) := by
    rw [count, htoNat, hcount]
  have hexact := h.exact huf
  rw [hcount] at hexact
  have hne : d.write i (d.toWrite v) ≠ -1 := by omega
  have huf' : d.Unfailed (i + 1) := (unfailed_succ i).mpr ⟨huf, htoNat ▸ hne⟩
  refine ⟨by omega, fun _ => ?_, fun hf => absurd huf' hf⟩
  rw [hnext]
  omega

/-- When a call does what it shall, the loop does from every call that it comes to. -/
theorem writesFrom_of_writes (h : d.Writes) {i : ℕ} (hreach : d.Reaches i) :
    ∃ n, d.Appends i n ∧ d.WritesFrom i (d.count i).toNat n (¬ d.Unfailed i) := by
  induction i with
  | zero =>
    have huf : d.Unfailed 0 := fun j hj => absurd hj (Nat.not_lt_zero j)
    refine ⟨0, ⟨Nat.zero_le _, fun _ => rfl, fun hf => absurd huf hf⟩, ?_⟩
    exact (WritesFrom.congr (by simp [huf])).mpr (writes_iff.mp h)
  | succ i ih =>
    obtain ⟨hreach, hrem, hnonneg, hlt⟩ := (reaches_succ i).mp hreach
    obtain ⟨n, happ, hfrom⟩ := ih hreach
    obtain ⟨v, hv, hcount, htoNat⟩ := hreach.exists_count
    rw [htoNat] at hfrom hrem
    obtain ⟨hinside, hzero, hpos⟩ := (writesFrom_round hv hrem).mp hfrom
    have hnext : d.count (i + 1) = v + d.write i (d.toWrite v) := by
      rw [count, htoNat, hcount]
    have hfits := d.fits
    rw [hnext] at hnonneg hlt
    have hsum := addWrote_eq (d.failure_le i (d.toWrite v)) (by omega : v < 2 ^ 63) (by omega) (by omega)
    have hadd : (d.count (i + 1)).toNat = addWrote v (d.write i (d.toWrite v)) := by
      rw [hnext, ← hsum]
      rfl
    have hfailed := not_unfailed_succ (d := d) i
    rw [htoNat] at hfailed
    rw [hadd]
    by_cases hwrote : 0 < d.write i (d.toWrite v)
    · obtain ⟨hvn, hrest⟩ := hpos hwrote
      have huf : d.Unfailed i := by
        by_contra huf
        have := happ.behind huf
        rw [hcount, hvn] at this
        exact Int.lt_irrefl _ this
      refine ⟨_, happ.write hcount huf hwrote (Int.le_of_lt hlt), (WritesFrom.congr ?_).mpr hrest⟩
      rw [hfailed]
      exact or_iff_left (by omega)
    · have hle := Int.not_lt.mp hwrote
      exact ⟨n, happ.succ hcount hle, (WritesFrom.congr hfailed).mpr (hzero hle)⟩

/-- Only results that do no harm let a call do what it shall. -/
theorem orderly_of_writes (h : d.Writes) : d.Orderly := by
  intro i hreach
  obtain ⟨n, happ, hfrom⟩ := writesFrom_of_writes h hreach
  obtain ⟨v, hv, hcount, htoNat⟩ := hreach.exists_count
  rw [htoNat] at hfrom ⊢
  split
  · rename_i hrem
    exact (goodFrom_remainder hv hcount happ (remainder_inside hreach hv hcount hrem)).mp
      ((writesFrom_remainder hv hrem).mp hfrom)
  · rename_i hrem
    obtain ⟨hinside, -, hpos⟩ := (writesFrom_round hv hrem).mp hfrom
    intro hwrote
    rw [htoNat] at hwrote ⊢
    obtain ⟨hvn, hrest⟩ := hpos hwrote
    refine ⟨?_, fun hoptimal => ?_⟩
    · by_contra huf
      have := happ.behind huf
      rw [hcount, hvn] at this
      exact Int.lt_irrefl _ this
    · -- after a short count the next call would go past the end of the block
      have hwhole := (toWrite_spec hv).2.2.2 hoptimal
      rw [hwhole] at hinside
      obtain rfl : v = 0 := by omega
      have hle := d.le_length i (d.toWrite 0)
      rw [hwhole] at hle hrest hwrote ⊢
      have hfits := d.fits
      by_contra hshort
      have hsum : addWrote 0 (d.write i d.dataSize) = (d.write i d.dataSize).toNat := by
        rw [addWrote_of_nonneg (Int.le_of_lt hwrote) (by omega), Nat.zero_add]
      rw [hsum] at hrest
      have hlt : (d.write i d.dataSize).toNat < d.dataSize := by omega
      have hwhole' := (toWrite_spec hlt).2.2.2 hoptimal
      have hrem' : ¬ d.Remainder (d.write i d.dataSize).toNat := by
        intro hr
        exact hrem ⟨hr.1, by rw [hwhole, ← hwhole']; exact hr.2⟩
      have hpast := ((writesFrom_round hlt hrem').mp hrest).1
      rw [hwhole'] at hpast
      omega

/-- Without `optimal_bytes`, nothing has been written when the loop comes to a call. -/
theorem Orderly.count_zero (h : d.Orderly) (hoptimal : d.optimalBytes = 0) {i : ℕ}
    (hreach : d.Reaches i) : d.count i = 0 := by
  induction i with
  | zero => rfl
  | succ i ih =>
    obtain ⟨hreach, hrem, hnonneg, hlt⟩ := (reaches_succ i).mp hreach
    have hharmless := h i hreach
    rw [if_neg hrem] at hharmless
    rw [count, ih hreach] at hnonneg hlt ⊢
    by_cases hwrote : 0 < d.write i (d.toWrite (d.count i).toNat)
    · have hall := (hharmless hwrote).2 hoptimal
      rw [ih hreach] at hall
      omega
    · rw [ih hreach] at hwrote
      omega

/-- A bound on what is left to do: to write the rest of the block, and then, after a failure, to fail once
for every byte. -/
structure LeftToDo (d : DiskWriter) (i m : ℕ) : Prop where
  /-- Before a failure. -/
  unfailed : d.Unfailed i → 2 * (d.dataSize : ℤ) ≤ m + d.count i
  /-- After one. -/
  failed : ¬ d.Unfailed i → d.count i ≤ m

/-- A failure behind the first byte leaves less to do. -/
theorem LeftToDo.fail {i m v : ℕ} (h : d.LeftToDo i m) (hcount : d.count i = v) (hv : v < d.dataSize)
    (hpos : 0 < v) (hr : d.write i (d.toWrite v) = -1) : v - 1 < m ∧ d.LeftToDo (i + 1) (v - 1) := by
  have htoNat : (d.count i).toNat = v := by rw [hcount]; rfl
  have hnext : d.count (i + 1) = v - 1 := by
    rw [count, htoNat, hcount, hr]
    omega
  have huf : ¬ d.Unfailed (i + 1) := (not_unfailed_succ i).mpr (.inr (htoNat ▸ hr))
  refine ⟨?_, fun h => absurd h huf, fun _ => by omega⟩
  by_cases hbefore : d.Unfailed i
  · have := h.unfailed hbefore
    omega
  · have := h.failed hbefore
    omega

/-- So does a call that writes. -/
theorem LeftToDo.write {i m v : ℕ} (h : d.LeftToDo i m) (hcount : d.count i = v) (huf : d.Unfailed i)
    (hpos : 0 < d.write i (d.toWrite v)) (hlt : v + d.write i (d.toWrite v) < d.dataSize) :
    m - (d.write i (d.toWrite v)).toNat < m ∧
      d.LeftToDo (i + 1) (m - (d.write i (d.toWrite v)).toNat) := by
  have htoNat : (d.count i).toNat = v := by rw [hcount]; rfl
  have hnext : d.count (i + 1) = v + d.write i (d.toWrite v) := by
    rw [count, htoNat, hcount]
  have hleft := h.unfailed huf
  have hne : d.write i (d.toWrite v) ≠ -1 := by omega
  have huf' : d.Unfailed (i + 1) := (unfailed_succ i).mpr ⟨huf, htoNat ▸ hne⟩
  exact ⟨by omega, fun _ => by omega, fun h => absurd huf' h⟩

/-- A call that writes nothing leaves as much to do. -/
theorem LeftToDo.zero {i m v : ℕ} (h : d.LeftToDo i m) (hcount : d.count i = v)
    (hr : d.write i (d.toWrite v) = 0) : d.LeftToDo (i + 1) m := by
  have htoNat : (d.count i).toNat = v := by rw [hcount]; rfl
  have hnext : d.count (i + 1) = d.count i := by
    rw [count, htoNat, hr, Int.add_zero]
  have hne : d.write i (d.toWrite (d.count i).toNat) ≠ -1 := by
    rw [htoNat, hr]
    decide
  refine ⟨fun huf => ?_, fun huf => ?_⟩
  · rw [hnext]
    exact h.unfailed ((unfailed_succ i).mp huf).1
  · rw [hnext]
    exact h.failed (((not_unfailed_succ i).mp huf).resolve_right hne)

/-- Where the results do no harm, a round of the loop stays in the block. -/
theorem Orderly.inside (h : d.Orderly) {i v : ℕ} (hreach : d.Reaches i) (hv : v < d.dataSize)
    (hcount : d.count i = v) : v + d.toWrite v ≤ d.dataSize := by
  obtain ⟨-, hle, hset, -⟩ := toWrite_spec hv
  by_cases hoptimal : d.optimalBytes = 0
  · have hzero := h.count_zero hoptimal hreach
    omega
  · exact hset hoptimal

/-- Where the results do no harm and are not zero for ever, the loop does what it shall. -/
theorem writesFrom_of_orderly (h : d.Orderly) (hprogress : d.Progresses) (m : ℕ) {i : ℕ}
    (hreach : d.Reaches i) (happ : d.Appends i n) (hleft : d.LeftToDo i m) :
    d.WritesFrom i (d.count i).toNat n (¬ d.Unfailed i) := by
  induction m using Nat.strong_induction_on generalizing i n with
  | _ m ih =>
    -- the number of calls up to the next one that does not write nothing
    obtain ⟨j, hij, hj⟩ := hprogress i
    obtain ⟨gap, hgap⟩ : ∃ gap, j < i + gap := ⟨j - i + 1, by omega⟩
    induction gap generalizing i n with
    | zero => omega
    | succ gap ihgap =>
      obtain ⟨v, hv, hcount, htoNat⟩ := hreach.exists_count
      have hfits := d.fits
      have hinside := h.inside hreach hv hcount
      have hharmless := h i hreach
      have hfailed := not_unfailed_succ (d := d) i
      have hnext : d.count (i + 1) = v + d.write i (d.toWrite v) := by
        rw [count, htoNat, hcount]
      rw [htoNat] at hharmless hfailed ⊢
      by_cases hrem : d.Remainder v
      · rw [if_pos hrem] at hharmless
        exact (writesFrom_remainder hv hrem).mpr
          ((goodFrom_remainder hv hcount happ hinside).mpr hharmless)
      rw [if_neg hrem] at hharmless
      have hstay (hlt : 0 ≤ (v : ℤ) + d.write i (d.toWrite v) ∧
          (v : ℤ) + d.write i (d.toWrite v) < d.dataSize) : d.Reaches (i + 1) :=
        (reaches_succ i).mpr ⟨hreach, htoNat ▸ hrem, hnext ▸ hlt.1, hnext ▸ hlt.2⟩
      apply (writesFrom_round hv hrem).mpr
      refine ⟨hinside, fun hle => ?_, fun hpos => ?_⟩
      · rcases write_cases (d := d) i (d.toWrite v) with hr | hr | hr
        · rcases Nat.eq_zero_or_pos v with rfl | hpos
          · -- the error is returned at once
            rw [hr, addWrote_zero]
            refine (writesFrom_end (by omega)).mpr ⟨happ.le_size, .inr ⟨?_, .inr rfl⟩⟩
            rw [toInt64_max]
            decide
          · obtain ⟨hless, hleft'⟩ := hleft.fail hcount hv hpos hr
            have hreach' := hstay (by omega)
            have hrest := ih (v - 1) hless hreach' (happ.succ hcount hle) hleft'
            have hadd : (d.count (i + 1)).toNat = addWrote v (d.write i (d.toWrite v)) := by
              rw [hnext, hr, addWrote_failure hpos (by omega)]
              omega
            rw [hadd] at hrest
            exact (WritesFrom.congr hfailed).mp hrest
        · have hreach' := hstay (by omega)
          have hne : j ≠ i := by
            rintro rfl
            exact hj _ (toWrite_spec hv).1 hr
          have hrest := ihgap hreach' (happ.succ hcount hle) (hleft.zero hcount hr) (by omega) (by omega)
          have hadd : (d.count (i + 1)).toNat = addWrote v (d.write i (d.toWrite v)) := by
            rw [hnext, hr, addWrote_of_nonneg (Int.le_refl 0) (by omega)]
            omega
          rw [hadd] at hrest
          exact (WritesFrom.congr hfailed).mp hrest
        · exact absurd hle (Int.not_le.mpr hr)
      · unfold Harmless at hharmless
        rw [htoNat] at hharmless
        obtain ⟨huf, -⟩ := hharmless hpos
        have hvn : v = n := by
          have := happ.exact huf
          rw [hcount] at this
          exact Int.ofNat_inj.mp this
        have hlen := d.le_length i (d.toWrite v)
        have hsum := addWrote_of_nonneg (v := v) (Int.le_of_lt hpos) (by omega)
        refine ⟨hvn, ?_⟩
        by_cases hlt : (v : ℤ) + d.write i (d.toWrite v) < d.dataSize
        · obtain ⟨hless, hleft'⟩ := hleft.write hcount huf hpos hlt
          have hreach' := hstay ⟨by omega, hlt⟩
          have hrest := ih _ hless hreach' (happ.write hcount huf hpos (Int.le_of_lt hlt)) hleft'
          have hadd : (d.count (i + 1)).toNat = addWrote v (d.write i (d.toWrite v)) := by
            rw [hnext, hsum]
            omega
          rw [hadd] at hrest
          refine (WritesFrom.congr ?_).mp hrest
          rw [hfailed]
          exact or_iff_left (by omega)
        · -- all of the block has been written
          rw [hsum]
          refine (writesFrom_end (by omega)).mpr ⟨by omega, .inl ?_⟩
          rw [toInt64_of_lt (by omega), hvn]

/-- **Writing a block.** A call of `file_write_function` returns and does what it shall with the block if
and only if the results of `write` do no harm, unless they are zero for ever. -/
theorem writes_iff_orderly (d : DiskWriter) (hprogress : d.Progresses) : d.Writes ↔ d.Orderly := by
  refine ⟨orderly_of_writes, fun h => writes_iff.mpr ?_⟩
  by_cases hpos : 0 < d.dataSize
  · have huf : d.Unfailed 0 := fun j hj => absurd hj (Nat.not_lt_zero j)
    have hrun := writesFrom_of_orderly h hprogress (2 * d.dataSize) (reaches_zero hpos)
      (n := 0) ⟨Nat.zero_le _, fun _ => rfl, fun hf => absurd huf hf⟩
      ⟨fun _ => by rw [count]; omega, fun hf => absurd huf hf⟩
    exact (WritesFrom.congr (by simp [huf])).mp hrun
  · exact (writesFrom_end hpos).mpr ⟨Nat.zero_le _, .inl rfl⟩

/-- A block of four bytes and a disk whose first call of `write` writes one byte at most. -/
def shortFirst (optimalBytes : ℕ) (h : 4 + optimalBytes < 2 ^ 63) : DiskWriter where
  dataSize := 4
  optimalBytes := optimalBytes
  fits := h
  oDirect := false
  reopens := true
  write i n := if i = 0 then min 1 (n : ℤ) else n
  failure_le i n := by
    split
    all_goals omega
  le_length i n := by
    split
    all_goals omega

theorem shortFirst_progresses (optimalBytes : ℕ) (h : 4 + optimalBytes < 2 ^ 63) :
    (shortFirst optimalBytes h).Progresses := by
  intro i
  refine ⟨i, Nat.le_refl i, fun n hn => ?_⟩
  show (if i = 0 then min 1 (n : ℤ) else n) ≠ 0
  split
  all_goals omega

theorem two_bytes_written : (shortFirst 2 (by decide)).Writes := by
  apply (writes_iff_orderly _ (shortFirst_progresses 2 (by decide))).mpr
  intro i _
  rw [if_neg fun h => absurd h.1 Bool.false_ne_true]
  refine fun _ => ⟨fun j _ => ?_, fun h => absurd h (by decide)⟩
  show (if j = 0 then min 1 (((shortFirst 2 (by decide)).toWrite _ : ℕ) : ℤ) else _) ≠ -1
  split
  all_goals omega

/-- After a short count a whole block is written again, from behind what has been written. -/
theorem short_count_overruns : ¬ ∀ d : DiskWriter, d.Progresses → d.Writes := by
  intro h
  have horderly := orderly_of_writes (h _ (shortFirst_progresses 0 (by decide)))
  have hharmless := horderly 0 (reaches_zero (by decide))
  rw [if_neg fun h => absurd h.1 Bool.false_ne_true] at hharmless
  exact absurd ((hharmless (by decide)).2 rfl) (by decide)

end DiskWriter

end Psrdada
