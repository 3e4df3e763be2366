import Psrdada.Leda.DbupdbLookup

/-! # What `leda_dbupdb_lookup` leaves in the output block

Whatever the schedule of the threads, a store that is not left to do has its two bytes in the block, since no
other store has the same address.  So the block is promoted exactly when the threads share the groups of
packets evenly, the number of bytes fits into `unsigned`, and none of the bytes is one of those that the table
has with its nibbles exchanged. -/

namespace Psrdada

namespace DbupdbLookup

open Concurrency Assign

variable {ctx : Ctx}

/-! ## The table -/

/-- **The table has the two nibbles in order**, but for those bytes that have a low nibble of 0 and a high one
that is not. -/
theorem lookupByte_iff (b : UInt8) :
    ((lookupByte b).toUInt8 = (b >>> 4) <<< 4 ∧ (lookupByte b >>> 8).toUInt8 = b <<< 4) ↔
      (b.toNat % 16 = 0 → b.toNat = 0) := by
  have hall : ∀ n < 256, ((lookupByte (UInt8.ofNat n)).toUInt8 = (UInt8.ofNat n >>> 4) <<< 4 ∧
      (lookupByte (UInt8.ofNat n) >>> 8).toUInt8 = UInt8.ofNat n <<< 4) ↔ (n % 16 = 0 → n = 0) := by
    decide +kernel
  have h := hall b.toNat b.toNat_lt
  rwa [UInt8.ofNat_toNat] at h

/-! ## The division of the work -/

/-- **The division in `float` is that of integers**, for blocks that are not too large. -/
theorem modPktsPerThr_eq (hT : 0 < ctx.nthreads) {n : ℕ} (hn : n < 2 ^ 18) :
    modPktsPerThr ctx (n * udpData) = 4 * (n / ctx.nthreads / 4) := by
  have hsize : float ((n * udpData : ℕ) : ℚ) = n * 2 ^ 13 := by
    have hcast : ((n * udpData : ℕ) : ℚ) = n * 2 ^ 13 := by
      rw [udpData]
      push_cast
      norm_num
    rw [hcast]
    exact Rounding.roundTo_mul_two_pow (by omega) 13
  have hdata : float (udpData : ℚ) = 2 ^ 13 := by
    have h : float (udpData : ℚ) = (udpData : ℕ) := Rounding.roundTo_natCast (by decide)
    rw [h, udpData]
    norm_num
  have hpkts : nPkts (n * udpData) = n := by
    rw [nPkts, hsize, hdata, mul_div_cancel_right₀ _ (by norm_num)]
    exact Rounding.roundTo_natCast (by omega)
  have hfloor : ⌊pktsPerThr ctx (n * udpData)⌋ = ((n / ctx.nthreads : ℕ) : ℤ) := by
    rw [pktsPerThr, hpkts]
    by_cases hlt : ctx.nthreads < 2 ^ 24
    · have hthreads : float (ctx.nthreads : ℚ) = ctx.nthreads := Rounding.roundTo_natCast hlt
      rw [hthreads]
      exact Rounding.floor_roundTo_div (by omega) hT
    · -- with so many threads there is nothing to do for any of them
      have hpos : (0 : ℚ) < ctx.nthreads := Nat.cast_pos.2 hT
      have hlow : (ctx.nthreads : ℚ) / 2 ≤ float ctx.nthreads := by
        have herror := (abs_le.1 (Rounding.abs_roundTo_sub_le (p := 24) hpos)).1
        have hsmall : (ctx.nthreads : ℚ) / 2 ^ 24 ≤ ctx.nthreads / 2 :=
          div_le_div_of_nonneg_left hpos.le (by norm_num) (by norm_num)
        unfold float
        linarith
      have hhalf : (n : ℚ) / float ctx.nthreads ≤ 1 / 2 := by
        have hmany : (2 ^ 24 : ℚ) ≤ ctx.nthreads := by exact_mod_cast Nat.le_of_not_lt hlt
        have hfew : (n : ℚ) ≤ 2 ^ 18 := by exact_mod_cast hn.le
        have hpos' : 0 < float ctx.nthreads := by linarith
        rw [div_le_iff₀ hpos']
        linarith
      have hdiv : n / ctx.nthreads = 0 := Nat.div_eq_of_lt (by omega)
      rw [hdiv, Nat.cast_zero]
      refine Rounding.floor_roundTo_of_le_half (by decide) ?_ hhalf
      exact div_nonneg (Nat.cast_nonneg n) (by linarith)
  have hint : intPktsPerThr ctx (n * udpData) = n / ctx.nthreads := by
    have := Nat.div_le_self n ctx.nthreads
    rw [intPktsPerThr, hfloor, Int.toNat_natCast]
    exact Nat.mod_eq_of_lt (by omega)
  rw [modPktsPerThr, hint]
  omega

/-- As many packets as are given to the threads are there. -/
theorem mul_share_le (T n : ℕ) : T * (n / T / 4) ≤ n / 4 := by
  rw [Nat.div_div_eq_div_mul, Nat.mul_comm T 4, ← Nat.div_div_eq_div_mul, Nat.mul_comm]
  exact Nat.div_mul_le_self _ _

/-- The bytes that are declared are those of the packets that are given to the threads. -/
theorem bytesToWrite_eq (hT : 0 < ctx.nthreads) (hbit : ctx.bitP = 2) {n : ℕ} (hn : n < 2 ^ 18) :
    bytesToWrite ctx (n * udpData) = 2 * (4 * (ctx.nthreads * (n / ctx.nthreads / 4)) * udpData) := by
  have hle := mul_share_le ctx.nthreads n
  rw [bytesToWrite, modPktsPerThr_eq hT hn, hbit, udpData]
  have hsum : 4 * (n / ctx.nthreads / 4) * ctx.nthreads * 8192 * 2 =
      2 * (4 * (ctx.nthreads * (n / ctx.nthreads / 4)) * 8192) := by ring
  rw [hsum]
  exact Nat.mod_eq_of_lt (by omega)

/-! ## The stores -/

theorem mem_packets {data : Memory UInt8} {inDat outDat : ℕ} {st : Store} :
    st ∈ packets data inDat outDat ↔ ∃ c < 1024, ∃ p < 4, ∃ a < 8,
      ⟨outDat + 2 * (4 * (8 * c) + 8 * p + a), lookupByte (data (inDat + (8 * c + p * udpData + a)))⟩ = st := by
  have hcount : udpData / 8 = 1024 := by decide
  simp only [packets, hcount, List.mem_flatMap, List.mem_map, List.mem_range]

/-- The addresses that are stored to for four packets. -/
theorem map_addr_packets (data : Memory UInt8) (inDat outDat : ℕ) :
    (packets data inDat outDat).map Store.addr = (List.range 32768).map fun e => outDat + 2 * e := by
  have hrange : List.range 32768 = (List.range 1024).flatMap fun c => (List.range 4).flatMap fun p =>
      (List.range 8).map fun a => c * 32 + (p * 8 + a) := by
    rw [← range_mul 1024 32]
    refine List.flatMap_congr fun c _ => ?_
    rw [← range_mul 4 8, List.map_flatMap]
    simp only [List.map_map]
    rfl
  have hcount : udpData / 8 = 1024 := by decide
  rw [hrange, packets, hcount]
  simp only [List.map_flatMap, List.map_map]
  refine List.flatMap_congr fun c _ => List.flatMap_congr fun p _ => List.map_congr_left fun a _ => ?_
  simp only [Function.comp_apply]
  omega

section

variable (hchan : 8 * ctx.nchan = udpData) (hpol : ctx.npol = 2) (hdim : ctx.ndim = 2)

include hchan hpol hdim in
theorem outTimeSampleStride_eq : outTimeSampleStride ctx = 65536 := by
  have hn : ctx.nchan = 1024 := by
    rw [udpData] at hchan
    omega
  rw [outTimeSampleStride, hn, hpol, hdim]
  decide

include hchan hpol hdim in
/-- The loop goes through the groups of packets one after the other. -/
theorem promote_eq (data : Memory UInt8) (k a : ℕ) :
    promote ctx data (4 * a) (4 * (a + k)) (32768 * a) (65536 * a) =
      (List.range k).flatMap fun j => packets data (32768 * (a + j)) (65536 * (a + j)) := by
  induction k generalizing a with
  | zero =>
    rw [promote, if_neg (by omega)]
    rfl
  | succ k ih =>
    have hin : 32768 * a + udpData * 4 = 32768 * (a + 1) := by rw [udpData]; omega
    have hout : 65536 * a + outTimeSampleStride ctx = 65536 * (a + 1) := by
      rw [outTimeSampleStride_eq hchan hpol hdim]
      omega
    have hfin : 4 * (a + (k + 1)) = 4 * (a + 1 + k) := by omega
    have hnext : 4 * a + 4 = 4 * (a + 1) := by omega
    have hshift : ((List.range k).flatMap fun j => packets data (32768 * (a + 1 + j)) (65536 * (a + 1 + j))) =
        (List.range k).flatMap fun j => packets data (32768 * (a + (j + 1))) (65536 * (a + (j + 1))) := by
      refine List.flatMap_congr fun j _ => ?_
      have hj : a + 1 + j = a + (j + 1) := by omega
      rw [hj]
    unfold promote
    simp only [hin, hout, hfin, hnext, ih, hshift, List.range_succ_eq_map, List.flatMap_cons, List.flatMap_map,
      Nat.add_zero, Nat.succ_eq_add_one]
    exact if_pos (by omega)

variable (hT : 0 < ctx.nthreads) {n : ℕ} (hn : n < 2 ^ 18)

include hchan hpol hdim hT hn

/-- A thread goes through its share of the groups. -/
theorem threadStores_eq (data : Memory UInt8) {i : ℕ} (hi : i < ctx.nthreads) :
    threadStores ctx (n * udpData) data i = (List.range (n / ctx.nthreads / 4)).flatMap fun j =>
      packets data (32768 * (i * (n / ctx.nthreads / 4) + j)) (65536 * (i * (n / ctx.nthreads / 4) + j)) := by
  obtain ⟨k, hk⟩ : ∃ k, n / ctx.nthreads / 4 = k := ⟨_, rfl⟩
  have hstart : thrStartPacket ctx (n * udpData) i = 4 * (i * k) := by
    have hle := mul_share_le ctx.nthreads n
    have hi' : i * k ≤ ctx.nthreads * k := Nat.mul_le_mul_right k hi.le
    rw [thrStartPacket, modPktsPerThr_eq hT hn, hk, Nat.mul_left_comm]
    rw [hk] at hle
    exact Nat.mod_eq_of_lt (by omega)
  have hend : thrEndPacket ctx (n * udpData) i = 4 * (i * k + k) := by
    rw [thrEndPacket, hstart, modPktsPerThr_eq hT hn, hk, Nat.mul_add]
  have hin : udpData * (4 * (i * k)) = 32768 * (i * k) := by rw [udpData]; omega
  have hout : udpData * (4 * (i * k)) * 2 = 65536 * (i * k) := by rw [udpData]; omega
  rw [threadStores, hstart, hend, hout, hin, hk]
  exact promote_eq hchan hpol hdim data k (i * k)

/-- **The threads together** go through the groups that they are given, one after the other. -/
theorem flatMap_threadStores (data : Memory UInt8) :
    ((List.range ctx.nthreads).flatMap fun i => threadStores ctx (n * udpData) data i) =
      (List.range (ctx.nthreads * (n / ctx.nthreads / 4))).flatMap fun g =>
        packets data (32768 * g) (65536 * g) := by
  rw [← range_mul, List.flatMap_assoc]
  refine List.flatMap_congr fun i hi => ?_
  rw [List.flatMap_map]
  exact threadStores_eq hchan hpol hdim hT hn data (List.mem_range.1 hi)

/-- Each element of the block is stored to once. -/
theorem map_addr_threadStores (data : Memory UInt8) :
    (((List.range ctx.nthreads).flatMap fun i => threadStores ctx (n * udpData) data i).map Store.addr) =
      (List.range (4 * (ctx.nthreads * (n / ctx.nthreads / 4)) * udpData)).map (2 * ·) := by
  have hsize : 4 * (ctx.nthreads * (n / ctx.nthreads / 4)) * udpData =
      ctx.nthreads * (n / ctx.nthreads / 4) * 32768 := by rw [udpData]; omega
  rw [flatMap_threadStores hchan hpol hdim hT hn, hsize,
    ← range_mul (ctx.nthreads * (n / ctx.nthreads / 4)) 32768, List.map_flatMap, List.map_flatMap]
  refine List.flatMap_congr fun g _ => ?_
  rw [map_addr_packets, List.map_map]
  refine List.map_congr_left fun e _ => ?_
  simp only [Function.comp_apply]
  omega

end

/-! ## Any schedule -/

/-- The stores that a thread has left to do, if `stores` are all. -/
def Worker.left (stores : List Store) : Worker → List Store
  | .idle => []
  | .active => stores
  | .working l => l

/-- The two bytes of a store are in the block. -/
def Store.Done (st : Store) (out : Memory UInt8) : Prop :=
  out st.addr = st.value.toUInt8 ∧ out (st.addr + 1) = (st.value >>> 8).toUInt8

/-- A store is done when it has been applied, -/
theorem Store.done_apply (st : Store) (out : Memory UInt8) : st.Done (st.apply out) := by
  refine ⟨?_, Function.update_self _ _ _⟩
  rw [Store.apply, Function.update_of_ne (Nat.ne_of_lt (Nat.lt_succ_self _)), Function.update_self]

/-- and it stays so when one to another address is. -/
theorem Store.Done.apply {st st' : Store} {out : Memory UInt8} (h : st.Done out)
    (haddr : st.addr + 1 < st'.addr ∨ st'.addr + 1 < st.addr) : st.Done (st'.apply out) := by
  refine ⟨?_, ?_⟩
  · rw [Store.apply, Function.update_of_ne (by omega), Function.update_of_ne (by omega)]
    exact h.1
  · rw [Store.apply, Function.update_of_ne (by omega), Function.update_of_ne (by omega)]
    exact h.2

section

variable {inDataSize : ℕ} {data out : Memory UInt8} {s s' : State}

/-- **What the schedule keeps**: the threads that are not idle are those that have been set to work, what a
thread has not left to do is done, and the block is closed when all are idle. -/
structure Scheduled (ctx : Ctx) (inDataSize : ℕ) (data : Memory UInt8) (s : State) : Prop where
  waiting : s.activated = false → (∀ i, s.workers i = .idle) ∧ s.closed = none
  outside : ∀ i, ctx.nthreads ≤ i → s.workers i = .idle
  left_sub : ∀ i, ∀ st ∈ (s.workers i).left (threadStores ctx inDataSize data i),
    st ∈ threadStores ctx inDataSize data i
  closed : ∀ bytes, s.closed = some bytes →
    bytes = bytesToWrite ctx inDataSize ∧ s.activated = true ∧ ∀ i, s.workers i = .idle

/-- No two stores of the threads share a byte. -/
def Apart (ctx : Ctx) (inDataSize : ℕ) (data : Memory UInt8) : Prop :=
  ∀ i < ctx.nthreads, ∀ i' < ctx.nthreads, ∀ st ∈ threadStores ctx inDataSize data i,
    ∀ st' ∈ threadStores ctx inDataSize data i', st = st' ∨ st.addr + 1 < st'.addr ∨ st'.addr + 1 < st.addr

/-- What is not left to do is done. -/
def AllDone (ctx : Ctx) (inDataSize : ℕ) (data : Memory UInt8) (s : State) : Prop :=
  s.activated = true → ∀ i < ctx.nthreads, ∀ st ∈ threadStores ctx inDataSize data i,
    st ∈ (s.workers i).left (threadStores ctx inDataSize data i) ∨ st.Done s.out

/-- What one step does. -/
theorem step_cases {l : Label} (h : step ctx inDataSize data s l = some s') :
    (l = .activate ∧ s.activated = false ∧ s' = { s with
      activated := true, workers := fun i => if i < ctx.nthreads then .active else s.workers i }) ∨
    (∃ i, l = .begin i ∧ s.workers i = .active ∧
      s' = { s with workers := Function.update s.workers i (.working (threadStores ctx inDataSize data i)) }) ∨
    (∃ i st stores, l = .store i ∧ s.workers i = .working (st :: stores) ∧
      s' = { s with workers := Function.update s.workers i (.working stores), out := st.apply s.out }) ∨
    (∃ i, l = .finish i ∧ s.workers i = .working [] ∧
      s' = { s with workers := Function.update s.workers i .idle }) ∨
    (l = .close ∧ (s.activated = true ∧ s.closed = none ∧ ∀ i < ctx.nthreads, s.workers i = .idle) ∧
      s' = { s with closed := some (bytesToWrite ctx inDataSize) }) := by
  cases l with
  | activate =>
    rw [step, Option.ite_none_left_eq_some, Option.some.injEq, Bool.not_eq_true] at h
    exact .inl ⟨rfl, h.1, h.2.symm⟩
  | begin i =>
    rw [step] at h
    split at h
    · next hi => exact .inr (.inl ⟨i, rfl, hi, (Option.some.inj h).symm⟩)
    · cases h
  | store i =>
    rw [step] at h
    split at h
    · next st stores hi => exact .inr (.inr (.inl ⟨i, st, stores, rfl, hi, (Option.some.inj h).symm⟩))
    · cases h
  | finish i =>
    rw [step] at h
    split at h
    · next hi => exact .inr (.inr (.inr (.inl ⟨i, rfl, hi, (Option.some.inj h).symm⟩)))
    · cases h
  | close =>
    rw [step, Option.ite_none_right_eq_some, Option.some.injEq] at h
    exact .inr (.inr (.inr (.inr ⟨rfl, h.1, h.2.symm⟩)))

/-- A thread that works has been set to work, and the block is not closed. -/
theorem Scheduled.of_working (h : Scheduled ctx inDataSize data s) {i : ℕ} (hi : s.workers i ≠ .idle) :
    i < ctx.nthreads ∧ s.activated = true ∧ s.closed = none := by
  refine ⟨Nat.lt_of_not_le fun hle => hi (h.outside i hle), ?_, ?_⟩
  · rw [← Bool.not_eq_false]
    exact fun hw => hi ((h.waiting hw).1 i)
  · cases hc : s.closed with
    | none => rfl
    | some bytes => exact absurd ((h.closed bytes hc).2.2 i) hi

/-- Another state of one thread that works. -/
theorem Scheduled.update (h : Scheduled ctx inDataSize data s) {i : ℕ} (hi : s.workers i ≠ .idle) {w : Worker}
    (hw : ∀ st ∈ w.left (threadStores ctx inDataSize data i), st ∈ threadStores ctx inDataSize data i)
    (out : Memory UInt8) :
    Scheduled ctx inDataSize data { s with workers := Function.update s.workers i w, out := out } := by
  obtain ⟨hlt, hactive, hopen⟩ := h.of_working hi
  refine ⟨fun hwaiting => ?_, fun j hj => ?_, fun j st hst => ?_, fun bytes hbytes => ?_⟩
  · rw [hactive] at hwaiting
    cases hwaiting
  · dsimp only
    rw [Function.update_of_ne (by omega)]
    exact h.outside j hj
  · dsimp only at hst
    by_cases hji : j = i
    · subst hji
      rw [Function.update_self] at hst
      exact hw st hst
    · rw [Function.update_of_ne hji] at hst
      exact h.left_sub j st hst
  · rw [hopen] at hbytes
    cases hbytes

/-- **One step** keeps the schedule. -/
theorem Scheduled.step (h : Scheduled ctx inDataSize data s) {l : Label}
    (hstep : step ctx inDataSize data s l = some s') : Scheduled ctx inDataSize data s' := by
  obtain ⟨-, hidle, rfl⟩ | ⟨i, -, hi, rfl⟩ | ⟨i, st, stores, -, hi, rfl⟩ | ⟨i, -, hi, rfl⟩ |
    ⟨-, ⟨hactive, -, hidle⟩, rfl⟩ := step_cases hstep
  · obtain ⟨hworkers, hopen⟩ := h.waiting hidle
    refine ⟨fun hw => (nomatch hw), fun i hi => ?_, fun i st hst => ?_, fun bytes hbytes => ?_⟩
    · dsimp only
      rw [if_neg (Nat.not_lt.2 hi)]
      exact hworkers i
    · dsimp only at hst
      by_cases hlt : i < ctx.nthreads
      · rwa [if_pos hlt] at hst
      · rw [if_neg hlt, hworkers i] at hst
        cases hst
    · rw [hopen] at hbytes
      cases hbytes
  · exact h.update (w := .working (threadStores ctx inDataSize data i)) (by rw [hi]; exact Worker.noConfusion)
      (fun st hst => hst) s.out
  · refine h.update (by rw [hi]; exact Worker.noConfusion) (fun st' hst' => h.left_sub i st' ?_) _
    rw [hi]
    exact List.mem_cons_of_mem _ hst'
  · exact h.update (w := .idle) (by rw [hi]; exact Worker.noConfusion) (fun st hst => nomatch hst) s.out
  · refine ⟨fun hw => ?_, h.outside, h.left_sub, fun bytes hbytes => ?_⟩
    · rw [hactive] at hw
      cases hw
    · refine ⟨(Option.some.inj hbytes).symm, hactive, fun i => ?_⟩
      rcases Nat.lt_or_ge i ctx.nthreads with hlt | hge
      · exact hidle i hlt
      · exact h.outside i hge

theorem scheduled_start (out : Memory UInt8) : Scheduled ctx inDataSize data (start out) :=
  ⟨fun _ => ⟨fun _ => rfl, rfl⟩, fun _ _ => rfl, fun _ _ hst => (nomatch hst), fun _ hb => nomatch hb⟩

/-- **Every state of a call** keeps the schedule. -/
theorem Reaches.scheduled (h : Reaches ctx inDataSize data out s) : Scheduled ctx inDataSize data s :=
  Reached.invariant h (scheduled_start out) fun _ _ _ ht _ hstep => ht.step hstep

/-- **One step** leaves nothing undone, if no two stores share a byte. -/
theorem AllDone.step (hdone : AllDone ctx inDataSize data s) (h : Scheduled ctx inDataSize data s)
    (hapart : Apart ctx inDataSize data) {l : Label} (hstep : step ctx inDataSize data s l = some s') :
    AllDone ctx inDataSize data s' := by
  intro hactive j hj st hst
  obtain ⟨-, hidle, rfl⟩ | ⟨i, -, hi, rfl⟩ | ⟨i, st', stores, -, hi, rfl⟩ | ⟨i, -, hi, rfl⟩ |
    ⟨-, -, rfl⟩ := step_cases hstep
  · left
    dsimp only
    rw [if_pos hj]
    exact hst
  · refine (hdone hactive j hj st hst).imp_left fun hleft => ?_
    dsimp only
    by_cases hji : j = i
    · subst hji
      rw [Function.update_self]
      exact hst
    · rwa [Function.update_of_ne hji]
  · -- the store that is done now, and those that were left or done before
    have hi' : s.workers i ≠ .idle := by
      rw [hi]
      exact Worker.noConfusion
    have hst' : st' ∈ threadStores ctx inDataSize data i := by
      refine h.left_sub i st' ?_
      rw [hi]
      exact List.mem_cons_self
    obtain rfl | haddr := hapart j hj i (h.of_working hi').1 st hst st' hst'
    · exact .inr (st.done_apply s.out)
    · refine (hdone hactive j hj st hst).imp (fun hleft => ?_) fun hd => hd.apply haddr
      dsimp only
      by_cases hji : j = i
      · subst hji
        rw [hi] at hleft
        rw [Function.update_self]
        refine (List.mem_cons.1 hleft).resolve_left ?_
        rintro rfl
        omega
      · rwa [Function.update_of_ne hji]
  · refine (hdone hactive j hj st hst).imp_left fun hleft => ?_
    dsimp only
    by_cases hji : j = i
    · subst hji
      rw [hi] at hleft
      cases hleft
    · rwa [Function.update_of_ne hji]
  · exact hdone hactive j hj st hst

/-- **When the block is closed, all stores are done.** -/
theorem Reaches.done_of_closed (h : Reaches ctx inDataSize data out s) (hapart : Apart ctx inDataSize data)
    {bytes : ℕ} (hclosed : s.closed = some bytes) {i : ℕ} (hi : i < ctx.nthreads) {st : Store}
    (hst : st ∈ threadStores ctx inDataSize data i) : st.Done s.out := by
  have hstart : AllDone ctx inDataSize data (start out) := fun hactive => Bool.noConfusion hactive
  have hall : Scheduled ctx inDataSize data s ∧ AllDone ctx inDataSize data s :=
    Reached.invariant h (I := fun t => Scheduled ctx inDataSize data t ∧ AllDone ctx inDataSize data t)
      ⟨scheduled_start out, hstart⟩ fun _ _ _ ht _ hstep => ⟨ht.1.step hstep, ht.2.step ht.1 hapart hstep⟩
  obtain ⟨-, hactive, hidle⟩ := hall.1.closed bytes hclosed
  refine (hall.2 hactive i hi st hst).resolve_left fun hleft => ?_
  rw [hidle i] at hleft
  cases hleft

/-! ## A schedule that ends -/

variable (ctx inDataSize data) in
/-- A thread that works can go on until it is idle. -/
theorem exists_finish (stores : List Store) {i : ℕ} (hi : s.workers i = .working stores) :
    ∃ out', Reached (step ctx inDataSize data) (fun _ _ => True) s
      { s with workers := Function.update s.workers i .idle, out := out' } := by
  induction stores generalizing s with
  | nil =>
    refine ⟨s.out, .single ⟨.finish i, trivial, ?_⟩⟩
    rw [step, hi]
  | cons st stores ih =>
    have hstore : step ctx inDataSize data s (.store i) = some { s with
        workers := Function.update s.workers i (.working stores), out := st.apply s.out } := by
      rw [step, hi]
    obtain ⟨out', hrest⟩ := ih (s := { s with
      workers := Function.update s.workers i (.working stores), out := st.apply s.out }) (Function.update_self _ _ _)
    simp only [Function.update_idem] at hrest
    exact ⟨out', .head ⟨.store i, trivial, hstore⟩ hrest⟩

variable (ctx inDataSize data) in
/-- The threads can work one after the other. -/
theorem exists_idle (out : Memory UInt8) (k : ℕ) (hk : k ≤ ctx.nthreads) :
    ∃ out', Reaches ctx inDataSize data out
      ⟨true, fun i => if i < ctx.nthreads ∧ k ≤ i then .active else .idle, out', none⟩ := by
  induction k with
  | zero =>
    refine ⟨out, .single ⟨.activate, trivial, ?_⟩⟩
    unfold step start
    simp only [Bool.false_eq_true, if_false, Nat.zero_le, and_true]
  | succ k ih =>
    obtain ⟨out', hreach⟩ := ih (Nat.le_of_succ_le hk)
    obtain ⟨s, hs⟩ : ∃ s, s = State.mk true
      (fun i => if i < ctx.nthreads ∧ k ≤ i then Worker.active else Worker.idle) out' none := ⟨_, rfl⟩
    rw [← hs] at hreach
    have hactive : s.workers k = .active := by
      rw [hs]
      exact if_pos ⟨hk, Nat.le_refl k⟩
    have hbegin : step ctx inDataSize data s (.begin k) = some { s with
        workers := Function.update s.workers k (.working (threadStores ctx inDataSize data k)) } := by
      rw [step, hactive]
    obtain ⟨out'', hfinish⟩ := exists_finish ctx inDataSize data
      (threadStores ctx inDataSize data k) (s := { s with
        workers := Function.update s.workers k (.working (threadStores ctx inDataSize data k)) })
      (Function.update_self _ _ _)
    refine ⟨out'', ?_⟩
    have hall := (hreach.tail ⟨.begin k, trivial, hbegin⟩).trans hfinish
    simp only [Function.update_idem] at hall
    have hworkers : Function.update s.workers k .idle =
        fun i => if i < ctx.nthreads ∧ k + 1 ≤ i then Worker.active else Worker.idle := by
      funext i
      by_cases hi : i = k
      · rw [hi, Function.update_self, if_neg fun h => absurd h.2 (Nat.not_succ_le_self k)]
      · rw [Function.update_of_ne hi, hs]
        have hiff : (i < ctx.nthreads ∧ k ≤ i) ↔ (i < ctx.nthreads ∧ k + 1 ≤ i) := by omega
        simp only [hiff]
    rw [hworkers, hs] at hall
    exact hall

variable (ctx inDataSize data) in
/-- **A call can come to its end.** -/
theorem exists_closed (out : Memory UInt8) : ∃ s, Reaches ctx inDataSize data out s ∧
    s.closed = some (bytesToWrite ctx inDataSize) := by
  obtain ⟨out', hreach⟩ := exists_idle ctx inDataSize data out ctx.nthreads
    (Nat.le_refl _)
  refine ⟨_, hreach.tail ⟨.close, trivial, if_pos ⟨rfl, rfl, fun i hi => if_neg fun h => ?_⟩⟩, rfl⟩
  omega

end

/-! ## What is promoted -/

/-- **The block is promoted**: as many bytes are declared as the complete time samples have, each element is
stored to once, by one thread, and each input byte has given the two bytes of its nibbles in order, at the
place of its channel and antenna. -/
structure Promoted (ctx : Ctx) (n : ℕ) (data : Memory UInt8) (bytes : ℕ) (out : Memory UInt8) : Prop where
  declared : bytes = 2 * (4 * (n / 4) * udpData)
  once : (((List.range ctx.nthreads).flatMap fun i => threadStores ctx (n * udpData) data i).map Store.addr).Perm
    ((List.range (4 * (n / 4) * udpData)).map (2 * ·))
  apart : ∀ i < ctx.nthreads, ∀ i' < ctx.nthreads, i ≠ i' → ∀ st ∈ threadStores ctx (n * udpData) data i,
    ∀ st' ∈ threadStores ctx (n * udpData) data i', st.addr + 1 < st'.addr ∨ st'.addr + 1 < st.addr
  /-- group `g` of four packets, packet `p` of it, channel `c` and byte `a` of the antenna group -/
  value : ∀ g < n / 4, ∀ p < 4, ∀ c < ctx.nchan, ∀ a < 8,
    out (2 * (4 * g * udpData + (32 * c + 8 * p + a))) = (data ((4 * g + p) * udpData + (8 * c + a)) >>> 4) <<< 4 ∧
      out (2 * (4 * g * udpData + (32 * c + 8 * p + a)) + 1) = data ((4 * g + p) * udpData + (8 * c + a)) <<< 4

/-- Under every schedule of the threads the block is promoted. -/
def Promotes (ctx : Ctx) (n : ℕ) (data : Memory UInt8) : Prop :=
  ∀ out s bytes, Reaches ctx (n * udpData) data out s → s.closed = some bytes → Promoted ctx n data bytes s.out

section

variable (hchan : 8 * ctx.nchan = udpData) (hpol : ctx.npol = 2) (hdim : ctx.ndim = 2) (hT : 0 < ctx.nthreads)
  {n : ℕ} (hn : n < 2 ^ 18)

include hchan hpol hdim hT hn

/-- The stores of the threads have even addresses, and no two the same one. -/
theorem addr_threadStores (data : Memory UInt8) :
    (((List.range ctx.nthreads).flatMap fun i => threadStores ctx (n * udpData) data i).map Store.addr).Nodup ∧
      ∀ i < ctx.nthreads, ∀ st ∈ threadStores ctx (n * udpData) data i, 2 ∣ st.addr := by
  have hmap := map_addr_threadStores hchan hpol hdim hT hn data
  refine ⟨?_, fun i hi st hst => ?_⟩
  · rw [hmap]
    exact List.nodup_range.map fun a b h => Nat.eq_of_mul_eq_mul_left (Nat.succ_pos 1) h
  · have hmem : st.addr ∈ ((List.range ctx.nthreads).flatMap fun i =>
        threadStores ctx (n * udpData) data i).map Store.addr :=
      List.mem_map_of_mem (List.mem_flatMap.2 ⟨i, List.mem_range.2 hi, hst⟩)
    rw [hmap] at hmem
    obtain ⟨e, -, he⟩ := List.mem_map.1 hmem
    exact ⟨e, he.symm⟩

theorem apart_threadStores (data : Memory UInt8) : Apart ctx (n * udpData) data := by
  obtain ⟨hnodup, heven⟩ := addr_threadStores hchan hpol hdim hT hn data
  intro i hi i' hi' st hst st' hst'
  have hmem : st ∈ (List.range ctx.nthreads).flatMap fun i => threadStores ctx (n * udpData) data i :=
    List.mem_flatMap.2 ⟨i, List.mem_range.2 hi, hst⟩
  have hmem' : st' ∈ (List.range ctx.nthreads).flatMap fun i => threadStores ctx (n * udpData) data i :=
    List.mem_flatMap.2 ⟨i', List.mem_range.2 hi', hst'⟩
  by_cases heq : st.addr = st'.addr
  · exact .inl (List.inj_on_of_nodup_map hnodup hmem hmem' heq)
  · have := heven i hi st hst
    have := heven i' hi' st' hst'
    exact .inr (by omega)

/-- Two threads do not share a byte. -/
theorem apart_threads (data : Memory UInt8) {i i' : ℕ} (hi : i < ctx.nthreads) (hi' : i' < ctx.nthreads)
    (hne : i ≠ i') {st st' : Store} (hst : st ∈ threadStores ctx (n * udpData) data i)
    (hst' : st' ∈ threadStores ctx (n * udpData) data i') :
    st.addr + 1 < st'.addr ∨ st'.addr + 1 < st.addr := by
  obtain ⟨hnodup, heven⟩ := addr_threadStores hchan hpol hdim hT hn data
  have hdisjoint := (List.nodup_flatMap.1 (hnodup.of_map Store.addr)).2
  refine (apart_threadStores hchan hpol hdim hT hn data i hi i' hi' st hst st' hst').resolve_left ?_
  rintro rfl
  have hpairs := List.pairwise_iff_getElem.1 hdisjoint
  rcases Nat.lt_or_gt_of_ne hne with hlt | hgt
  · have h := hpairs i i' (by rwa [List.length_range]) (by rwa [List.length_range]) hlt
    rw [List.getElem_range, List.getElem_range] at h
    exact h hst hst'
  · have h := hpairs i' i (by rwa [List.length_range]) (by rwa [List.length_range]) hgt
    rw [List.getElem_range, List.getElem_range] at h
    exact h hst' hst

/-- **What is in the block when it is closed**: the element of the table for each byte. -/
theorem out_of_closed (hshare : ctx.nthreads * (n / ctx.nthreads / 4) = n / 4) {data out : Memory UInt8}
    {s : State} {bytes : ℕ} (hs : Reaches ctx (n * udpData) data out s) (hclosed : s.closed = some bytes)
    {g p c a : ℕ} (hg : g < n / 4) (hp : p < 4) (hc : c < ctx.nchan) (ha : a < 8) :
    s.out (2 * (4 * g * udpData + (32 * c + 8 * p + a))) =
        (lookupByte (data ((4 * g + p) * udpData + (8 * c + a)))).toUInt8 ∧
      s.out (2 * (4 * g * udpData + (32 * c + 8 * p + a)) + 1) =
        (lookupByte (data ((4 * g + p) * udpData + (8 * c + a))) >>> 8).toUInt8 := by
  have hn' : ctx.nchan = 1024 := by
    rw [udpData] at hchan
    omega
  have hin : 32768 * g + (8 * c + p * udpData + a) = (4 * g + p) * udpData + (8 * c + a) := by
    rw [udpData]
    omega
  have hout : 65536 * g + 2 * (4 * (8 * c) + 8 * p + a) = 2 * (4 * g * udpData + (32 * c + 8 * p + a)) := by
    rw [udpData]
    omega
  have hmem : (⟨2 * (4 * g * udpData + (32 * c + 8 * p + a)),
      lookupByte (data ((4 * g + p) * udpData + (8 * c + a)))⟩ : Store) ∈
        (List.range ctx.nthreads).flatMap fun i => threadStores ctx (n * udpData) data i := by
    rw [flatMap_threadStores hchan hpol hdim hT hn, hshare, ← hin, ← hout]
    exact List.mem_flatMap.2 ⟨g, List.mem_range.2 hg, mem_packets.2 ⟨c, by omega, p, hp, a, ha, rfl⟩⟩
  obtain ⟨i, hi, hst⟩ := List.mem_flatMap.1 hmem
  exact hs.done_of_closed (apart_threadStores hchan hpol hdim hT hn data) hclosed (List.mem_range.1 hi) hst

end

section

variable {n : ℕ} {data : Memory UInt8} (hbit : ctx.bitP = 2) (hchan : 8 * ctx.nchan = udpData)
  (hpol : ctx.npol = 2) (hdim : ctx.ndim = 2) (hT : 0 < ctx.nthreads)

include hbit hchan hpol hdim hT

/-- What a block that is promoted is like. -/
theorem of_promotes (h : Promotes ctx n data) : n < 2 ^ 18 ∧ ctx.nthreads ∣ n / 4 ∧
    ∀ x < 4 * (n / 4) * udpData, (data x).toNat % 16 = 0 → (data x).toNat = 0 := by
  obtain ⟨s, hs, hclosed⟩ := exists_closed ctx (n * udpData) data fun _ => 0
  obtain ⟨hdeclared, -, -, hvalue⟩ := h _ s _ hs hclosed
  have hn : n < 2 ^ 18 := by
    have hlt : bytesToWrite ctx (n * udpData) < 2 ^ 32 := Nat.mod_lt _ (Nat.two_pow_pos 32)
    rw [hdeclared, udpData] at hlt
    omega
  have hshare : ctx.nthreads * (n / ctx.nthreads / 4) = n / 4 := by
    rw [bytesToWrite_eq hT hbit hn, udpData] at hdeclared
    omega
  refine ⟨hn, Dvd.intro _ hshare, fun x hx => (lookupByte_iff (data x)).1 ?_⟩
  -- the coordinates of the byte
  have hx' : (4 * (x / 32768) + x / 8192 % 4) * udpData + (8 * (x / 8 % 1024) + x % 8) = x := by
    rw [udpData]
    omega
  rw [udpData] at hx
  have hc : x / 8 % 1024 < ctx.nchan := by
    rw [udpData] at hchan
    omega
  have hg : x / 32768 < n / 4 := by omega
  have hp : x / 8192 % 4 < 4 := by omega
  have ha : x % 8 < 8 := by omega
  have hspec := hvalue _ hg _ hp _ hc _ ha
  have hout := out_of_closed hchan hpol hdim hT hn hshare hs hclosed hg hp hc ha
  rw [hx'] at hspec hout
  exact ⟨hout.1.symm.trans hspec.1, hout.2.symm.trans hspec.2⟩

/-- Such a block is promoted. -/
theorem promotes_of (hn : n < 2 ^ 18) (hdvd : ctx.nthreads ∣ n / 4)
    (hbytes : ∀ x < 4 * (n / 4) * udpData, (data x).toNat % 16 = 0 → (data x).toNat = 0) :
    Promotes ctx n data := by
  intro out s bytes hs hclosed
  have hshare : ctx.nthreads * (n / ctx.nthreads / 4) = n / 4 := by
    rw [Nat.div_div_eq_div_mul, Nat.mul_comm ctx.nthreads 4, ← Nat.div_div_eq_div_mul]
    exact Nat.mul_div_cancel' hdvd
  have hmap := map_addr_threadStores hchan hpol hdim hT hn data
  rw [hshare] at hmap
  refine ⟨?_, List.Perm.of_eq hmap, fun i hi i' hi' hne st hst st' hst' =>
    apart_threads hchan hpol hdim hT hn data hi hi' hne hst hst', fun g hg p hp c hc a ha => ?_⟩
  · rw [(hs.scheduled.closed bytes hclosed).1, bytesToWrite_eq hT hbit hn, hshare]
  · obtain ⟨hlow, hhigh⟩ := out_of_closed hchan hpol hdim hT hn hshare hs hclosed hg hp hc ha
    have hlt : (4 * g + p) * udpData + (8 * c + a) < 4 * (n / 4) * udpData := by
      rw [udpData] at hchan ⊢
      omega
    have hlookup := (lookupByte_iff _).2 (hbytes _ hlt)
    exact ⟨hlow.trans hlookup.1, hhigh.trans hlookup.2⟩

end

/-- **Under every schedule the block is promoted, exactly when** its bytes can be counted in `unsigned`, the
number of threads divides that of the complete time samples, and none of their bytes has a low nibble of 0 and
a high one that is not. -/
theorem promotes_iff (ctx : Ctx) (n : ℕ) (data : Memory UInt8) (hbit : ctx.bitP = 2)
    (hchan : 8 * ctx.nchan = udpData) (hpol : ctx.npol = 2) (hdim : ctx.ndim = 2) (hT : 0 < ctx.nthreads) :
    Promotes ctx n data ↔ n < 2 ^ 18 ∧ ctx.nthreads ∣ n / 4 ∧
      ∀ x < 4 * (n / 4) * udpData, (data x).toNat % 16 = 0 → (data x).toNat = 0 :=
  ⟨of_promotes hbit hchan hpol hdim hT, fun ⟨hn, hdvd, hbytes⟩ =>
    promotes_of hbit hchan hpol hdim hT hn hdvd hbytes⟩

/-- Eight packets with two threads. -/
theorem promotes_iff_eight : Promotes ⟨2, 2, 1024, 2, 2⟩ 8 (fun _ => 0x11) ↔ 8 < 2 ^ 18 ∧ 2 ∣ 8 / 4 ∧
    ∀ x < 4 * (8 / 4) * udpData, (0x11 : UInt8).toNat % 16 = 0 → (0x11 : UInt8).toNat = 0 :=
  promotes_iff ⟨2, 2, 1024, 2, 2⟩ 8 (fun _ => 0x11) rfl rfl rfl rfl (by decide)

/-- A byte with the nibbles 1 and 0 gives them in the other order, and three threads leave all of eight packets
out. -/
theorem not_promotes : ¬Promotes ⟨2, 1, 1024, 2, 2⟩ 4 (fun _ => 0x10) ∧
    ¬Promotes ⟨2, 3, 1024, 2, 2⟩ 8 (fun _ => 0) := by
  constructor
  · intro h
    have hbytes := (of_promotes rfl rfl rfl rfl (by decide) h).2.2 0 (by decide) rfl
    exact absurd hbytes (by decide)
  · intro h
    have hdvd := (of_promotes rfl rfl rfl rfl (by decide) h).2.1
    exact absurd hdvd (by decide)

end DbupdbLookup

end Psrdada
