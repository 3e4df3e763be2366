import Mathlib.Data.List.Basic
import Mathlib.Data.Nat.Notation

/-! # Two ends of a connection

Two programs talk over a connection: a message goes to the receive buffers that the other end has
posted, in order, and waits while there is none; a write goes to the other end's memory.  Both arrive in
the order in which they were sent.

A program sees only what has arrived for it, in order, so it does not matter in which order the two ends
and the two directions of the connection take their steps: steps commute (`Net.diamond`), and
one run that ends tells how all runs end (`Diamond.completes`).  `Peer.Paced` says that a
program has at most one receive outstanding, so that no message overwrites a buffer before it has been
read. -/

namespace Connection

/-! ## Steps that commute -/

section Commuting

variable {A N : Type*} {step : A → N → Option N} {n n' n'' : N} {k l : ℕ}

/-- Different steps that are possible in the same state stay possible and lead to the same state. -/
def Diamond (step : A → N → Option N) : Prop :=
  ∀ {a b : A} {n n₁ n₂ : N}, a ≠ b → step a n = some n₁ → step b n = some n₂ →
    ∃ n₃, step b n₁ = some n₃ ∧ step a n₂ = some n₃

/-- A run of so many steps. -/
inductive Steps (step : A → N → Option N) : ℕ → N → N → Prop
  | refl (n : N) : Steps step 0 n n
  | head {k : ℕ} {n n' n'' : N} (a : A) : step a n = some n' → Steps step k n' n'' →
      Steps step (k + 1) n n''

/-- Nothing can happen any more. -/
def Final (step : A → N → Option N) (n : N) : Prop := ∀ a, step a n = none

theorem Steps.trans (h : Steps step k n n') (h' : Steps step l n' n'') : Steps step (k + l) n n'' := by
  induction h with
  | refl n => rwa [Nat.zero_add]
  | head a hstep _ ih =>
    rw [Nat.add_right_comm]
    exact .head a hstep (ih h')

/-- A step does not lead away from the end of a run. -/
theorem Diamond.strip (hd : Diamond step) (h : Steps step k n n') (hfinal : Final step n') {a : A}
    (ha : step a n = some n'') : ∃ l, k = l + 1 ∧ Steps step l n'' n' := by
  induction h generalizing n'' with
  | refl n =>
    rw [hfinal a] at ha
    cases ha
  | @head k n n₁ n' b hb hrest ih =>
    by_cases hab : a = b
    · subst hab
      rw [hb] at ha
      obtain rfl := Option.some.inj ha
      exact ⟨k, rfl, hrest⟩
    · obtain ⟨n₃, hb', ha'⟩ := hd hab ha hb
      obtain ⟨l, rfl, hl⟩ := ih hfinal ha'
      exact ⟨l + 1, rfl, .head b hb' hl⟩

/-- One run to an end is enough: every run is at most as long, and goes on to that end. -/
theorem Diamond.completes (hd : Diamond step) (h : Steps step k n n') (hfinal : Final step n')
    (h' : Steps step l n n'') : ∃ m, k = l + m ∧ Steps step m n'' n' := by
  induction h' generalizing k with
  | refl n => exact ⟨k, (Nat.zero_add k).symm, h⟩
  | head a ha _ ih =>
    obtain ⟨k', rfl, hk⟩ := hd.strip h hfinal ha
    obtain ⟨m, rfl, hm⟩ := ih hk
    exact ⟨m, by omega, hm⟩

/-- All runs that come to an end come to the same one. -/
theorem Diamond.unique (hd : Diamond step) (h : Steps step k n n') (hfinal : Final step n')
    (h' : Steps step l n n'') (hfinal' : Final step n'') : n'' = n' := by
  obtain ⟨m, -, hm⟩ := hd.completes h hfinal h'
  cases hm with
  | refl => rfl
  | head a ha => rw [hfinal' a] at ha; cases ha

end Commuting

/-! ## Programs -/

section

variable (B W M E R : Type)

/-- The program of one end: `B` are its receive buffers, `W` the writes to the other end's memory, `M` the
messages, `E` the events that it leaves behind and `R` its results. -/
inductive Peer : Type
  /-- The program has ended. -/
  | done (r : R)
  /-- A receive buffer is posted. -/
  | post (b : B) (next : Peer)
  /-- A message is sent. -/
  | send (m : M) (next : Peer)
  /-- A write to the other end's memory is sent. -/
  | write (w : W) (next : Peer)
  /-- An event. -/
  | emit (e : E) (next : Peer)
  /-- Wait until a message has arrived in a buffer: the message, and what has been written to this end's
  memory by then. -/
  | wait (b : B) (next : M → List W → Peer)

/-- What is under way. -/
inductive Item : Type
  | message (m : M)
  | write (w : W)

/-- One end of a connection. -/
structure Endpoint where
  /-- What its program has to do. -/
  prog : Peer B W M E R
  /-- The posted receive buffers, oldest first. -/
  posted : List B
  /-- The messages that have arrived and were not waited for, with the writes before them. -/
  arrived : List (B × M × List W)
  /-- The writes that have arrived. -/
  written : List W
  /-- What is under way to this end. -/
  inbox : List (Item W M)
  /-- The events so far. -/
  events : List E

end

variable {B W M E R : Type} [DecidableEq B]

/-- The first message for a buffer, and the messages without it. -/
def takeFirst {V : Type} (b : B) : List (B × V) → Option (V × List (B × V))
  | [] => none
  | (b', v) :: rest =>
    if b' = b then some (v, rest) else (takeFirst b rest).map fun r => (r.1, (b', v) :: r.2)

theorem takeFirst_append {V : Type} {b : B} {l l' : List (B × V)} {v : V}
    (h : takeFirst b l = some (v, l')) (t : List (B × V)) :
    takeFirst b (l ++ t) = some (v, l' ++ t) := by
  induction l generalizing l' with
  | nil => cases h
  | cons p l ih =>
    obtain ⟨b', v'⟩ := p
    rw [List.cons_append, takeFirst]
    rw [takeFirst] at h
    by_cases hb : b' = b
    · rw [if_pos hb] at h ⊢
      obtain ⟨rfl, rfl⟩ := Prod.mk.inj (Option.some.inj h)
      rfl
    · rw [if_neg hb] at h ⊢
      obtain ⟨⟨w, r⟩, hr, hp⟩ := Option.map_eq_some_iff.mp h
      obtain ⟨rfl, rfl⟩ := Prod.mk.inj hp
      rw [ih hr]
      rfl

namespace Endpoint

/-- The program takes a step, with what it sends. -/
def act (e : Endpoint B W M E R) : Option (Endpoint B W M E R × List (Item W M)) :=
  match e.prog with
  | .done _ => none
  | .post b next => some ({ e with prog := next, posted := e.posted ++ [b] }, [])
  | .send m next => some ({ e with prog := next }, [.message m])
  | .write w next => some ({ e with prog := next }, [.write w])
  | .emit v next => some ({ e with prog := next, events := e.events ++ [v] }, [])
  | .wait b next =>
    (takeFirst b e.arrived).map fun r => ({ e with prog := next r.1.1 r.1.2, arrived := r.2 }, [])

/-- The next thing under way to this end arrives. -/
def receive (e : Endpoint B W M E R) : Option (Endpoint B W M E R) :=
  match e.inbox, e.posted with
  | [], _ => none
  | .write w :: rest, _ => some { e with written := e.written ++ [w], inbox := rest }
  | .message _ :: _, [] => none
  | .message m :: rest, b :: posted =>
    some { e with posted := posted, arrived := e.arrived ++ [(b, m, e.written)], inbox := rest }

/-- More is under way to this end. -/
def put (e : Endpoint B W M E R) (items : List (Item W M)) : Endpoint B W M E R :=
  { e with inbox := e.inbox ++ items }

variable {e e' e'' : Endpoint B W M E R} {items out : List (Item W M)}

/-- What is under way to an end does not matter to a step of its program. -/
theorem act_put (h : e.act = some (e', out)) : (e.put items).act = some (e'.put items, out) := by
  obtain ⟨prog, posted, arrived, written, inbox, events⟩ := e
  cases prog with
  | done r => cases h
  | post b next | send m next | write w next | emit v next =>
    obtain ⟨rfl, rfl⟩ := Prod.mk.inj (Option.some.inj h)
    rfl
  | wait b next =>
    obtain ⟨r, hr, hp⟩ := Option.map_eq_some_iff.mp h
    obtain ⟨rfl, rfl⟩ := Prod.mk.inj hp
    show (takeFirst b arrived).map _ = _
    rw [show takeFirst b arrived = some r from hr]
    rfl

omit [DecidableEq B] in
/-- What is sent later arrives later. -/
theorem receive_put (h : e.receive = some e') : (e.put items).receive = some (e'.put items) := by
  obtain ⟨prog, posted, arrived, written, inbox, events⟩ := e
  rcases inbox with - | ⟨m | w, rest⟩
  · cases h
  · cases posted with
    | nil => cases h
    | cons b posted =>
      obtain rfl := Option.some.inj h
      rfl
  · obtain rfl := Option.some.inj h
    rfl

/-- What arrives does not disturb a step of the program. -/
theorem act_receive (h : e.act = some (e', out)) (h' : e.receive = some e'') :
    ∃ e₃, e'.receive = some e₃ ∧ e''.act = some (e₃, out) := by
  obtain ⟨prog, posted, arrived, written, inbox, events⟩ := e
  rcases inbox with - | ⟨m | w, rest⟩
  · cases h'
  · cases posted with
    | nil => cases h'
    | cons b' posted =>
      obtain rfl := Option.some.inj h'
      cases prog with
      | done r => cases h
      | post b next | send m next | write w next | emit v next =>
        obtain ⟨rfl, rfl⟩ := Prod.mk.inj (Option.some.inj h)
        exact ⟨_, rfl, rfl⟩
      | wait b next =>
        obtain ⟨⟨v, l⟩, hr, hp⟩ := Option.map_eq_some_iff.mp h
        obtain ⟨rfl, rfl⟩ := Prod.mk.inj hp
        refine ⟨_, rfl, ?_⟩
        show (takeFirst b (arrived ++ [(b', m, written)])).map _ = _
        rw [takeFirst_append hr]
        rfl
  · obtain rfl := Option.some.inj h'
    cases prog with
    | done r => cases h
    | post b next | send m next | write w next | emit v next =>
      obtain ⟨rfl, rfl⟩ := Prod.mk.inj (Option.some.inj h)
      exact ⟨_, rfl, rfl⟩
    | wait b next =>
      obtain ⟨r, hr, hp⟩ := Option.map_eq_some_iff.mp h
      obtain ⟨rfl, rfl⟩ := Prod.mk.inj hp
      refine ⟨_, rfl, ?_⟩
      show (takeFirst b arrived).map _ = _
      rw [show takeFirst b arrived = some r from hr]
      rfl

end Endpoint

/-! ## The two ends -/

/-- The two ends of a connection. -/
structure Net (B W M E R : Type) where
  /-- One end. -/
  left : Endpoint B W M E R
  /-- The other end. -/
  right : Endpoint B W M E R

/-- What can happen next: a step of a program, or an arrival. -/
inductive NetAction
  | actLeft
  | actRight
  | toLeft
  | toRight
deriving DecidableEq

namespace Net

/-- What happens. -/
def step : NetAction → Net B W M E R → Option (Net B W M E R)
  | .actLeft, n => n.left.act.map fun r => ⟨r.1, n.right.put r.2⟩
  | .actRight, n => n.right.act.map fun r => ⟨n.left.put r.2, r.1⟩
  | .toLeft, n => n.left.receive.map fun e => ⟨e, n.right⟩
  | .toRight, n => n.right.receive.map fun e => ⟨n.left, e⟩

/-- The connection seen from the other end. -/
def swap (n : Net B W M E R) : Net B W M E R := ⟨n.right, n.left⟩

omit [DecidableEq B] in
@[simp] theorem swap_swap (n : Net B W M E R) : n.swap.swap = n := rfl

end Net

/-- The same step, seen from the other end. -/
def NetAction.swap : NetAction → NetAction
  | .actLeft => .actRight
  | .actRight => .actLeft
  | .toLeft => .toRight
  | .toRight => .toLeft

namespace Net

theorem step_swap (a : NetAction) (n : Net B W M E R) :
    step a.swap n.swap = (step a n).map swap := by
  cases a
  all_goals
    simp only [step, NetAction.swap, swap, Option.map_map]
    rfl

/-- Two steps lead to the same state in both orders. -/
def Commute (a b : NetAction) : Prop :=
  ∀ n n₁ n₂ : Net B W M E R, step a n = some n₁ → step b n = some n₂ →
    ∃ n₃, step b n₁ = some n₃ ∧ step a n₂ = some n₃

variable {a b : NetAction}

theorem Commute.symm (h : Commute (B := B) (W := W) (M := M) (E := E) (R := R) a b) :
    Commute (B := B) (W := W) (M := M) (E := E) (R := R) b a := by
  intro n n₁ n₂ h₁ h₂
  obtain ⟨n₃, h₃, h₄⟩ := h n n₂ n₁ h₂ h₁
  exact ⟨n₃, h₄, h₃⟩

theorem Commute.swap (h : Commute (B := B) (W := W) (M := M) (E := E) (R := R) a b) :
    Commute (B := B) (W := W) (M := M) (E := E) (R := R) a.swap b.swap := by
  have hback {c : NetAction} {n n' : Net B W M E R} (hc : step c.swap n = some n') :
      step c n.swap = some n'.swap := by
    have := step_swap c n.swap
    rw [swap_swap, hc] at this
    obtain ⟨n'', hn, rfl⟩ := Option.map_eq_some_iff.mp this.symm
    exact hn
  intro n n₁ n₂ h₁ h₂
  obtain ⟨n₃, h₃, h₄⟩ := h _ _ _ (hback h₁) (hback h₂)
  refine ⟨n₃.swap, ?_, ?_⟩
  · rw [← swap_swap n₁, step_swap, h₃]
    rfl
  · rw [← swap_swap n₂, step_swap, h₄]
    rfl

theorem commute_act_act :
    Commute (B := B) (W := W) (M := M) (E := E) (R := R) .actLeft .actRight := by
  rintro ⟨l, r⟩ n₁ n₂ h₁ h₂
  obtain ⟨⟨l', o⟩, hl, rfl⟩ := Option.map_eq_some_iff.mp h₁
  obtain ⟨⟨r', o'⟩, hr, rfl⟩ := Option.map_eq_some_iff.mp h₂
  refine ⟨⟨l'.put o', r'.put o⟩, ?_, ?_⟩
  · show (Endpoint.act (r.put o)).map _ = _
    rw [Endpoint.act_put hr]
    rfl
  · show (Endpoint.act (l.put o')).map _ = _
    rw [Endpoint.act_put hl]
    rfl

theorem commute_act_arrival :
    Commute (B := B) (W := W) (M := M) (E := E) (R := R) .actLeft .toLeft := by
  rintro ⟨l, r⟩ n₁ n₂ h₁ h₂
  obtain ⟨⟨l', o⟩, hl, rfl⟩ := Option.map_eq_some_iff.mp h₁
  obtain ⟨l'', hl', rfl⟩ := Option.map_eq_some_iff.mp h₂
  obtain ⟨l₃, hrec, hact⟩ := Endpoint.act_receive hl hl'
  refine ⟨⟨l₃, r.put o⟩, ?_, ?_⟩
  · show (Endpoint.receive l').map _ = _
    rw [hrec]
    rfl
  · show (Endpoint.act l'').map _ = _
    rw [hact]
    rfl

theorem commute_act_departure :
    Commute (B := B) (W := W) (M := M) (E := E) (R := R) .actLeft .toRight := by
  rintro ⟨l, r⟩ n₁ n₂ h₁ h₂
  obtain ⟨⟨l', o⟩, hl, rfl⟩ := Option.map_eq_some_iff.mp h₁
  obtain ⟨r', hr, rfl⟩ := Option.map_eq_some_iff.mp h₂
  refine ⟨⟨l', r'.put o⟩, ?_, ?_⟩
  · show (Endpoint.receive (r.put o)).map _ = _
    rw [Endpoint.receive_put hr]
    rfl
  · show (Endpoint.act l).map _ = _
    rw [hl]
    rfl

theorem commute_arrivals :
    Commute (B := B) (W := W) (M := M) (E := E) (R := R) .toLeft .toRight := by
  rintro ⟨l, r⟩ n₁ n₂ h₁ h₂
  obtain ⟨l', hl, rfl⟩ := Option.map_eq_some_iff.mp h₁
  obtain ⟨r', hr, rfl⟩ := Option.map_eq_some_iff.mp h₂
  refine ⟨⟨l', r'⟩, ?_, ?_⟩
  · show (Endpoint.receive r).map _ = _
    rw [hr]
    rfl
  · show (Endpoint.receive l).map _ = _
    rw [hl]
    rfl

/-- The order of steps does not matter. -/
theorem diamond : Diamond (step (B := B) (W := W) (M := M) (E := E) (R := R)) := by
  intro a b n n₁ n₂ hab h₁ h₂
  -- a pair of steps is one of four, in one order or the other, from one end or the other
  cases a with
  | actLeft =>
    cases b with
    | actLeft => exact absurd rfl hab
    | actRight => exact commute_act_act n n₁ n₂ h₁ h₂
    | toLeft => exact commute_act_arrival n n₁ n₂ h₁ h₂
    | toRight => exact commute_act_departure n n₁ n₂ h₁ h₂
  | actRight =>
    cases b with
    | actLeft => exact commute_act_act.symm n n₁ n₂ h₁ h₂
    | actRight => exact absurd rfl hab
    | toLeft => exact commute_act_departure.swap n n₁ n₂ h₁ h₂
    | toRight => exact commute_act_arrival.swap n n₁ n₂ h₁ h₂
  | toLeft =>
    cases b with
    | actLeft => exact commute_act_arrival.symm n n₁ n₂ h₁ h₂
    | actRight => exact commute_act_departure.swap.symm n n₁ n₂ h₁ h₂
    | toLeft => exact absurd rfl hab
    | toRight => exact commute_arrivals n n₁ n₂ h₁ h₂
  | toRight =>
    cases b with
    | actLeft => exact commute_act_departure.symm n n₁ n₂ h₁ h₂
    | actRight => exact commute_act_arrival.swap.symm n n₁ n₂ h₁ h₂
    | toLeft => exact commute_arrivals.symm n n₁ n₂ h₁ h₂
    | toRight => exact absurd rfl hab

end Net

/-! ## What a run keeps -/

namespace Endpoint

/-- One end has gone on: its events and the writes to it are as before, perhaps followed by others, and if
its program has ended it stays so. -/
structure Grows (e e' : Endpoint B W M E R) : Prop where
  events : e.events <+: e'.events
  written : e.written <+: e'.written
  done : ∀ r, e.prog = .done r → e'.prog = .done r

omit [DecidableEq B] in
theorem Grows.refl (e : Endpoint B W M E R) : Grows e e := ⟨List.prefix_rfl, List.prefix_rfl, fun _ h => h⟩

omit [DecidableEq B] in
theorem Grows.trans {e e' e'' : Endpoint B W M E R} (h : Grows e e') (h' : Grows e' e'') : Grows e e'' :=
  ⟨h.events.trans h'.events, h.written.trans h'.written, fun r hr => h'.done r (h.done r hr)⟩

omit [DecidableEq B] in
theorem grows_put (e : Endpoint B W M E R) (items : List (Item W M)) : Grows e (e.put items) :=
  ⟨List.prefix_rfl, List.prefix_rfl, fun _ h => h⟩

theorem grows_act {e e' : Endpoint B W M E R} {out : List (Item W M)} (h : e.act = some (e', out)) :
    Grows e e' := by
  obtain ⟨prog, posted, arrived, written, inbox, events⟩ := e
  cases prog with
  | done r => cases h
  | post b next | send m next | write w next =>
    obtain ⟨rfl, rfl⟩ := Prod.mk.inj (Option.some.inj h)
    exact ⟨List.prefix_rfl, List.prefix_rfl, fun r hr => by cases hr⟩
  | emit v next =>
    obtain ⟨rfl, rfl⟩ := Prod.mk.inj (Option.some.inj h)
    exact ⟨List.prefix_append _ _, List.prefix_rfl, fun r hr => by cases hr⟩
  | wait b next =>
    obtain ⟨r, hr, hp⟩ := Option.map_eq_some_iff.mp h
    obtain ⟨rfl, rfl⟩ := Prod.mk.inj hp
    exact ⟨List.prefix_rfl, List.prefix_rfl, fun r hr => by cases hr⟩

omit [DecidableEq B] in
theorem grows_receive {e e' : Endpoint B W M E R} (h : e.receive = some e') : Grows e e' := by
  obtain ⟨prog, posted, arrived, written, inbox, events⟩ := e
  rcases inbox with - | ⟨m | w, rest⟩
  · cases h
  · cases posted with
    | nil => cases h
    | cons b posted =>
      obtain rfl := Option.some.inj h
      exact ⟨List.prefix_rfl, List.prefix_rfl, fun _ h => h⟩
  · obtain rfl := Option.some.inj h
    exact ⟨List.prefix_rfl, List.prefix_append _ _, fun _ h => h⟩

end Endpoint

/-- Whether a program with `n` receives outstanding never has more than one. -/
def Peer.Paced : ℕ → Peer B W M E R → Prop
  | _, .done _ => True
  | n, .post _ next => n = 0 ∧ next.Paced 1
  | n, .send _ next => next.Paced n
  | n, .write _ next => next.Paced n
  | n, .emit _ next => next.Paced n
  | _, .wait _ next => ∀ m s, (next m s).Paced 0

namespace Endpoint

/-- The number of messages that this end can receive or has received and not looked at. -/
def outstanding (e : Endpoint B W M E R) : ℕ := e.posted.length + e.arrived.length

/-- At most one receive is outstanding, and will be. -/
structure Paced (e : Endpoint B W M E R) : Prop where
  le : e.outstanding ≤ 1
  prog : e.prog.Paced e.outstanding

theorem length_takeFirst {V : Type} {b : B} {l l' : List (B × V)} {v : V}
    (h : takeFirst b l = some (v, l')) : l.length = l'.length + 1 := by
  induction l generalizing l' with
  | nil => cases h
  | cons p l ih =>
    rw [takeFirst] at h
    split at h
    · obtain ⟨-, rfl⟩ := Prod.mk.inj (Option.some.inj h)
      rfl
    · obtain ⟨⟨w, r⟩, hr, hp⟩ := Option.map_eq_some_iff.mp h
      obtain ⟨rfl, rfl⟩ := Prod.mk.inj hp
      have := ih hr
      simp only [List.length_cons]
      omega

theorem Paced.act {e e' : Endpoint B W M E R} {out : List (Item W M)} (hp : e.Paced)
    (h : e.act = some (e', out)) : e'.Paced := by
  obtain ⟨prog, posted, arrived, written, inbox, events⟩ := e
  obtain ⟨hle, hprog⟩ := hp
  cases prog with
  | done r => cases h
  | send m next | write w next | emit v next =>
    obtain ⟨rfl, rfl⟩ := Prod.mk.inj (Option.some.inj h)
    exact ⟨hle, hprog⟩
  | post b next =>
    obtain ⟨rfl, rfl⟩ := Prod.mk.inj (Option.some.inj h)
    obtain ⟨hzero, hnext⟩ := hprog
    have hone : (posted ++ [b]).length + arrived.length = 1 := by
      simp only [outstanding] at hzero
      simp only [List.length_append, List.length_singleton]
      omega
    exact ⟨Nat.le_of_eq hone, by rw [outstanding, hone]; exact hnext⟩
  | wait b next =>
    obtain ⟨⟨⟨m, s⟩, rest⟩, hr, heq⟩ := Option.map_eq_some_iff.mp h
    obtain ⟨rfl, rfl⟩ := Prod.mk.inj heq
    have hlen : arrived.length = rest.length + 1 := length_takeFirst hr
    have hzero : posted.length + rest.length = 0 := by
      simp only [outstanding] at hle
      omega
    exact ⟨by rw [outstanding, hzero]; exact Nat.zero_le 1, by rw [outstanding, hzero]; exact hprog m s⟩

omit [DecidableEq B] in
theorem Paced.receive {e e' : Endpoint B W M E R} (hp : e.Paced) (h : e.receive = some e') : e'.Paced := by
  obtain ⟨prog, posted, arrived, written, inbox, events⟩ := e
  obtain ⟨hle, hprog⟩ := hp
  rcases inbox with - | ⟨m | w, rest⟩
  · cases h
  · cases posted with
    | nil => cases h
    | cons b posted =>
      obtain rfl := Option.some.inj h
      have hsame : posted.length + (arrived ++ [(b, m, written)]).length =
          (b :: posted).length + arrived.length := by
        simp only [List.length_append, List.length_cons, List.length_nil]
        omega
      exact ⟨by rw [outstanding, hsame]; exact hle, by rw [outstanding, hsame]; exact hprog⟩
  · obtain rfl := Option.some.inj h
    exact ⟨hle, hprog⟩

end Endpoint

namespace Net

variable {n n' : Net B W M E R} {k : ℕ}

/-- A step leaves both ends as they were, or further on. -/
theorem grows_step {a : NetAction} (h : step a n = some n') :
    n.left.Grows n'.left ∧ n.right.Grows n'.right := by
  cases a
  case actLeft =>
    obtain ⟨⟨e, o⟩, he, rfl⟩ := Option.map_eq_some_iff.mp h
    exact ⟨Endpoint.grows_act he, Endpoint.grows_put _ _⟩
  case actRight =>
    obtain ⟨⟨e, o⟩, he, rfl⟩ := Option.map_eq_some_iff.mp h
    exact ⟨Endpoint.grows_put _ _, Endpoint.grows_act he⟩
  case toLeft =>
    obtain ⟨e, he, rfl⟩ := Option.map_eq_some_iff.mp h
    exact ⟨Endpoint.grows_receive he, Endpoint.Grows.refl _⟩
  case toRight =>
    obtain ⟨e, he, rfl⟩ := Option.map_eq_some_iff.mp h
    exact ⟨Endpoint.Grows.refl _, Endpoint.grows_receive he⟩

theorem grows (h : Steps step k n n') : n.left.Grows n'.left ∧ n.right.Grows n'.right := by
  induction h with
  | refl n => exact ⟨Endpoint.Grows.refl _, Endpoint.Grows.refl _⟩
  | head a ha _ ih =>
    obtain ⟨hl, hr⟩ := grows_step ha
    exact ⟨hl.trans ih.1, hr.trans ih.2⟩

/-- A step keeps both ends to one receive at a time. -/
theorem paced_step {a : NetAction} (h : step a n = some n') (hl : n.left.Paced) (hr : n.right.Paced) :
    n'.left.Paced ∧ n'.right.Paced := by
  cases a
  case actLeft =>
    obtain ⟨⟨e, o⟩, he, rfl⟩ := Option.map_eq_some_iff.mp h
    exact ⟨hl.act he, ⟨hr.le, hr.prog⟩⟩
  case actRight =>
    obtain ⟨⟨e, o⟩, he, rfl⟩ := Option.map_eq_some_iff.mp h
    exact ⟨⟨hl.le, hl.prog⟩, hr.act he⟩
  case toLeft =>
    obtain ⟨e, he, rfl⟩ := Option.map_eq_some_iff.mp h
    exact ⟨hl.receive he, hr⟩
  case toRight =>
    obtain ⟨e, he, rfl⟩ := Option.map_eq_some_iff.mp h
    exact ⟨hl, hr.receive he⟩

theorem paced (h : Steps step k n n') (hl : n.left.Paced) (hr : n.right.Paced) :
    n'.left.Paced ∧ n'.right.Paced := by
  induction h with
  | refl n => exact ⟨hl, hr⟩
  | head a ha _ ih =>
    obtain ⟨hl', hr'⟩ := paced_step ha hl hr
    exact ih hl' hr'

/-! ## Schedules -/

/-- A given order of steps. -/
def schedule : List NetAction → Net B W M E R → Option (Net B W M E R)
  | [], n => some n
  | a :: as, n => (step a n).bind (schedule as)

theorem steps_of_schedule {as : List NetAction} (h : schedule as n = some n') :
    Steps step as.length n n' := by
  induction as generalizing n with
  | nil =>
    obtain rfl := Option.some.inj h
    exact .refl n
  | cons a as ih =>
    obtain ⟨n₁, ha, has⟩ := Option.bind_eq_some_iff.mp h
    exact .head a ha (ih has)

/-- Some run leads from a state to another. -/
def Leads (n n' : Net B W M E R) : Prop := ∃ k, Steps step k n n'

theorem Leads.refl (n : Net B W M E R) : Leads n n := ⟨0, .refl n⟩

theorem Leads.trans {n'' : Net B W M E R} (h : Leads n n') (h' : Leads n' n'') : Leads n n'' := by
  obtain ⟨k, hk⟩ := h
  obtain ⟨l, hl⟩ := h'
  exact ⟨k + l, hk.trans hl⟩

theorem Leads.of_schedule (as : List NetAction) (h : schedule as n = some n') : Leads n n' :=
  ⟨as.length, steps_of_schedule h⟩

end Net

end Connection
