import Psrdada.Ring.SharedMemory
import Mathlib.Data.List.Chain
import Mathlib.Order.Defs.PartialOrder

/-! # The publication log

What a ring is for: the writer appends sub-blocks to a log, and every reader receives the log in
order.  A `Tok` is one published sub-block and a `PubLog` is a log whose neighbours fit together
(`Tok.Follows`): transfers are numbered from `0`, each is a run of consecutive sub-blocks, and the
next begins behind the one that ends it.

The log is the abstract model of the ring.  Nothing here mentions semaphores or the circular arrays
of `ipcsync_t`; `Psrdada.Ring.Invariant` relates the two. -/

namespace Psrdada

/-- A published sub-block: what its post announces, whether it begins its transfer, and its valid
bytes. -/
structure Tok extends Desc where
  /-- Whether the transfer begins here. -/
  sod : Bool
  /-- The bytes from `start` to `stop`. -/
  bytes : List UInt8

namespace Tok

/-- A sub-block is valid from its first byte unless it begins a transfer, and to its last byte
unless it ends one. -/
structure WellFormed (g : Geometry) (t : Tok) : Prop where
  start : t.sod = false → t.start = 0
  stop : t.eod = false → t.stop = g.bufsz
  length : t.bytes.length = t.stop - t.start

/-- Which sub-block may be published right behind another.  A `strict` log never publishes a
sub-block behind a later one; the last of a transfer may be the first of the next. -/
def Follows (strict : Prop) (a b : Tok) : Prop :=
  if a.eod then
    b.sod = true ∧ b.xfer = a.xfer + 1 ∧
      (strict → a.blk < b.blk ∨ a.blk = b.blk ∧ b.eod = false)
  else b.sod = false ∧ b.xfer = a.xfer ∧ b.blk = a.blk + 1

/-- What holds of any two sub-blocks of a log in this order. -/
structure Before (strict : Prop) (a b : Tok) : Prop where
  xfer_le : a.xfer ≤ b.xfer
  xfer_lt : a.eod = true → a.xfer < b.xfer
  blk : strict → a.blk < b.blk ∨ a.blk = b.blk ∧ a.eod = true ∧ b.eod = false

theorem Follows.before {strict : Prop} {a b : Tok} (h : Follows strict a b) :
    Before strict a b := by
  unfold Follows at h
  split at h
  case isTrue ha =>
    obtain ⟨-, hx, hb⟩ := h
    refine ⟨by omega, fun _ => by omega, fun hs => ?_⟩
    rcases hb hs with hlt | ⟨heq, hne⟩
    · exact .inl hlt
    · exact .inr ⟨heq, ha, hne⟩
  case isFalse ha =>
    obtain ⟨-, hx, hb⟩ := h
    exact ⟨hx.ge, fun h => absurd h ha, fun _ => .inl (by omega)⟩

instance Before.instTrans {strict : Prop} :
    Trans (Before strict) (Before strict) (Before strict) where
  trans {a b c} hab hbc := by
    refine ⟨hab.xfer_le.trans hbc.xfer_le, fun ha => (hab.xfer_lt ha).trans_le hbc.xfer_le,
      fun hs => ?_⟩
    have h₁ := hab.blk hs
    have h₂ := hbc.blk hs
    rcases h₁ with h₁ | ⟨h₁, h₁a, h₁b⟩ <;> rcases h₂ with h₂ | ⟨h₂, h₂b, h₂c⟩
    · exact .inl (h₁.trans h₂)
    · exact .inl (h₂ ▸ h₁)
    · exact .inl (h₁ ▸ h₂)
    · simp [h₁b] at h₂b

end Tok

/-- The transfer that the sub-block behind a list belongs to. -/
def nextXfer (l : List Tok) : ℕ :=
  match l.getLast? with
  | none => 0
  | some t => if t.eod then t.xfer + 1 else t.xfer

/-- A list that stops between two transfers. -/
def Between (l : List Tok) : Prop := ∀ t ∈ l.getLast?, t.eod = true

/-- The bytes of a transfer that have been published. -/
def streamOf (l : List Tok) (x : ℕ) : List UInt8 :=
  (l.filter fun t => t.xfer = x).flatMap Tok.bytes

/-- The end of a transfer has been published. -/
def Ended (l : List Tok) (x : ℕ) : Prop := ∃ t ∈ l, t.eod = true ∧ t.xfer = x

@[simp] theorem nextXfer_nil : nextXfer [] = 0 := rfl

@[simp] theorem nextXfer_concat (l : List Tok) (t : Tok) :
    nextXfer (l ++ [t]) = if t.eod then t.xfer + 1 else t.xfer := by
  simp [nextXfer]

@[simp] theorem between_nil : Between [] := by simp [Between]

@[simp] theorem between_concat (l : List Tok) (t : Tok) :
    Between (l ++ [t]) ↔ t.eod = true := by
  simp [Between]

@[simp] theorem streamOf_nil (x : ℕ) : streamOf [] x = [] := rfl

theorem streamOf_append (l l' : List Tok) (x : ℕ) :
    streamOf (l ++ l') x = streamOf l x ++ streamOf l' x := by
  simp [streamOf]

theorem streamOf_concat (l : List Tok) (t : Tok) (x : ℕ) :
    streamOf (l ++ [t]) x = streamOf l x ++ if t.xfer = x then t.bytes else [] := by
  rw [streamOf_append]
  by_cases h : t.xfer = x <;> simp [streamOf, h]

/-- A longer list has published more of each transfer. -/
theorem streamOf_mono {l l' : List Tok} (h : l <+: l') (x : ℕ) :
    streamOf l x <+: streamOf l' x := by
  obtain ⟨r, rfl⟩ := h
  exact ⟨streamOf r x, (streamOf_append l r x).symm⟩

/-- A publication log. -/
structure PubLog (g : Geometry) (strict : Prop) where
  /-- The published sub-blocks. -/
  toks : List Tok
  /-- The first transfer has ended, or it did not begin at the first sub-block of a new ring. -/
  settled : Bool
  first : ∀ t ∈ toks.head?, t.sod = true ∧ t.xfer = 0
  chain : toks.IsChain (Tok.Follows strict)
  wellFormed : ∀ t ∈ toks, t.WellFormed g

namespace PubLog

variable {g : Geometry} {strict : Prop}

/-- The log of a new ring. -/
def empty : PubLog g strict where
  toks := []
  settled := false
  first := by simp
  chain := .nil
  wellFormed := by simp

/-- A log only grows. -/
instance : Preorder (PubLog g strict) where
  le γ γ' := γ.toks <+: γ'.toks ∧ (γ.settled = true → γ'.settled = true)
  le_refl γ := ⟨List.prefix_rfl, id⟩
  le_trans _ _ _ h h' := ⟨h.1.trans h'.1, h'.2 ∘ h.2⟩

theorem le_def {γ γ' : PubLog g strict} :
    γ ≤ γ' ↔ γ.toks <+: γ'.toks ∧ (γ.settled = true → γ'.settled = true) := Iff.rfl

variable (γ : PubLog g strict)

/-- Any two sub-blocks of a log are in order. -/
theorem pairwise : γ.toks.Pairwise (Tok.Before strict) :=
  (γ.chain.imp fun _ _ h => h.before).pairwise

/-- The log goes on from any of its prefixes. -/
theorem take_le (n : ℕ) : γ.toks.take n <+: γ.toks := List.take_prefix n γ.toks

variable {γ}

/-- What follows a sub-block that is not the first. -/
theorem follows_of_getLast? {n : ℕ} {a t : Tok} (ha : (γ.toks.take n).getLast? = some a)
    (ht : γ.toks[n]? = some t) : Tok.Follows strict a t := by
  obtain ⟨l, hl⟩ := List.getLast?_eq_some_iff.mp ha
  have hn : n < γ.toks.length := (List.getElem?_eq_some_iff.mp ht).1
  have hlen : l.length + 1 = n := by
    have := congrArg List.length hl
    simp only [List.length_take, List.length_append, List.length_singleton] at this
    omega
  have hsplit : γ.toks.take (n + 1) = l ++ [a, t] := by
    rw [List.take_add_one, hl, ht]
    simp
  have hchain := γ.chain.take (n + 1)
  rw [hsplit] at hchain
  simpa using (List.isChain_append.mp hchain).2.1

/-- Between two transfers, the next sub-block begins one. -/
theorem next_of_between {n : ℕ} {t : Tok} (hb : Between (γ.toks.take n))
    (ht : γ.toks[n]? = some t) : t.sod = true ∧ t.xfer = nextXfer (γ.toks.take n) := by
  cases ha : (γ.toks.take n).getLast? with
  | none =>
    have hn : n < γ.toks.length := (List.getElem?_eq_some_iff.mp ht).1
    have h0 : n = 0 := by
      have := List.getLast?_eq_none_iff.mp ha
      rw [List.take_eq_nil_iff] at this
      rcases this with h | h
      · exact h
      · simp [h] at hn
    subst h0
    simpa using γ.first t (by rw [Option.mem_def, ← ht, List.head?_eq_getElem?])
  | some a =>
    have hf := follows_of_getLast? ha ht
    have he : a.eod = true := hb a ha
    simp only [Tok.Follows, he, if_true] at hf
    simp [nextXfer, ha, he, hf.1, hf.2.1]

/-- Within a transfer, the next sub-block continues it. -/
theorem next_of_mid {n : ℕ} {a t : Tok} (ha : (γ.toks.take n).getLast? = some a)
    (he : a.eod = false) (ht : γ.toks[n]? = some t) :
    t.sod = false ∧ t.xfer = a.xfer ∧ t.blk = a.blk + 1 := by
  simpa [Tok.Follows, he] using follows_of_getLast? ha ht

/-- Every sub-block belongs to the next transfer or to one before it. -/
theorem xfer_le_nextXfer {t : Tok} (ht : t ∈ γ.toks) : t.xfer ≤ nextXfer γ.toks := by
  rcases List.eq_nil_or_concat' γ.toks with h | ⟨l, a, h⟩
  · simp [h] at ht
  · have hp := γ.pairwise
    rw [h] at hp ht ⊢
    rw [nextXfer_concat]
    have hlast : t.xfer ≤ a.xfer := by
      rcases List.mem_append.mp ht with hl | hl
      · exact ((List.pairwise_append.mp hp).2.2 t hl a (by simp)).xfer_le
      · rw [List.mem_singleton.mp hl]
    split <;> omega

/-- Between two transfers, every sub-block belongs to a transfer before the next. -/
theorem xfer_lt_nextXfer (hb : Between γ.toks) {t : Tok} (ht : t ∈ γ.toks) :
    t.xfer < nextXfer γ.toks := by
  rcases List.eq_nil_or_concat' γ.toks with h | ⟨l, a, h⟩
  · simp [h] at ht
  · have hp := γ.pairwise
    rw [h] at hp ht hb ⊢
    rw [between_concat] at hb
    rw [nextXfer_concat, if_pos hb]
    rcases List.mem_append.mp ht with hl | hl
    · have := ((List.pairwise_append.mp hp).2.2 t hl a (by simp)).xfer_le
      omega
    · rw [List.mem_singleton.mp hl]
      omega

/-- Between two transfers, nothing of the next has been published. -/
theorem streamOf_eq_nil (hb : Between γ.toks) {x : ℕ} (hx : nextXfer γ.toks ≤ x) :
    streamOf γ.toks x = [] := by
  have hnone : γ.toks.filter (fun t => t.xfer = x) = [] := by
    rw [List.filter_eq_nil_iff]
    intro t ht
    have := γ.xfer_lt_nextXfer hb ht
    simp only [decide_eq_true_eq]
    omega
  simp [streamOf, hnone]

/-- A transfer that has ended is before the next one. -/
theorem xfer_lt_of_eod {t : Tok} (ht : t ∈ γ.toks) (he : t.eod = true) :
    t.xfer < nextXfer γ.toks := by
  rcases List.eq_nil_or_concat' γ.toks with h | ⟨l, a, h⟩
  · simp [h] at ht
  · have hp := γ.pairwise
    rw [h] at hp ht ⊢
    rw [nextXfer_concat]
    rcases List.mem_append.mp ht with hl | hl
    · have := ((List.pairwise_append.mp hp).2.2 t hl a (by simp)).xfer_lt he
      split <;> omega
    · obtain rfl := List.mem_singleton.mp hl
      simp [he]

/-- A transfer whose end has been published does not grow. -/
theorem streamOf_eq_of_ended {l : List Tok} (hl : l <+: γ.toks) {x : ℕ} (he : Ended l x) :
    streamOf γ.toks x = streamOf l x := by
  obtain ⟨r, hr⟩ := hl
  obtain ⟨t, ht, hte, rfl⟩ := he
  have hp := γ.pairwise
  rw [← hr] at hp ⊢
  have hnone : r.filter (fun b => b.xfer = t.xfer) = [] := by
    rw [List.filter_eq_nil_iff]
    intro b hb
    have := ((List.pairwise_append.mp hp).2.2 t ht b hb).xfer_lt hte
    simp only [decide_eq_true_eq]
    omega
  rw [streamOf_append]
  simp [streamOf, hnone]

/-- In a strict log at most two sub-blocks have the same number. -/
theorem length_filter_blk_le (hs : strict) {l : List Tok} (hl : l.Sublist γ.toks) (b : ℕ) :
    (l.filter fun t => t.blk = b).length ≤ 2 := by
  have hp : (l.filter fun t => t.blk = b).Pairwise (Tok.Before strict) :=
    (γ.pairwise.sublist hl).filter _
  have hm : ∀ t ∈ l.filter (fun t => t.blk = b), t.blk = b := fun t ht => by
    simpa using (List.mem_filter.mp ht).2
  generalize l.filter (fun t => t.blk = b) = m at hp hm
  rcases m with _ | ⟨t₁, _ | ⟨t₂, _ | ⟨t₃, m⟩⟩⟩
  · simp
  · simp
  · simp
  · simp only [List.pairwise_cons, List.mem_cons, forall_eq_or_imp] at hp hm
    have h₁₂ := (hp.1.1).blk hs
    have h₂₃ := (hp.2.1.1).blk hs
    obtain ⟨h₁, h₂, h₃, -⟩ := hm
    rcases h₁₂ with h | ⟨-, -, h⟩
    · omega
    · rcases h₂₃ with h' | ⟨-, h', -⟩
      · omega
      · simp [h] at h'

variable (γ) in
/-- Publish one more sub-block. -/
def push (t : Tok) (first : γ.toks = [] → t.sod = true ∧ t.xfer = 0)
    (follows : ∀ a ∈ γ.toks.getLast?, Tok.Follows strict a t) (wellFormed : t.WellFormed g) :
    PubLog g strict where
  toks := γ.toks ++ [t]
  settled := γ.settled
  first a ha := by
    cases hl : γ.toks with
    | nil =>
      obtain rfl : t = a := by simpa [hl] using ha
      exact first hl
    | cons b l => exact γ.first a (by simpa [hl] using ha)
  chain := List.isChain_append.mpr ⟨γ.chain, .singleton t, fun a ha b hb => by
    obtain rfl : t = b := by simpa using hb
    exact follows a ha⟩
  wellFormed a ha := (List.mem_append.mp ha).elim (γ.wellFormed a) fun h =>
    List.mem_singleton.mp h ▸ wellFormed

variable (γ) in
/-- The first sub-blocks of a log. -/
def take (n : ℕ) : PubLog g strict where
  toks := γ.toks.take n
  settled := γ.settled
  first t ht := γ.first t (by
    cases n with
    | zero => simp at ht
    | succ n => simpa [List.head?_take] using ht)
  chain := γ.chain.take n
  wellFormed t ht := γ.wellFormed t (List.mem_of_mem_take ht)

variable (γ) in
/-- Settle the log. -/
def settle (b : Bool) : PubLog g strict := { γ with settled := γ.settled || b }

@[simp] theorem settle_toks (b : Bool) : (γ.settle b).toks = γ.toks := rfl

@[simp] theorem settle_false : γ.settle false = γ := by simp [settle]

theorem le_settle (b : Bool) : γ ≤ γ.settle b :=
  ⟨List.prefix_rfl, fun h => by simp [settle, h]⟩

theorem le_push {t : Tok} {first follows wellFormed} :
    γ ≤ γ.push t first follows wellFormed :=
  ⟨List.prefix_append _ _, id⟩

end PubLog

end Psrdada
