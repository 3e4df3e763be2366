import Mathlib.Data.List.Count
import Mathlib.Data.List.Perm.Basic
import Psrdada.Pwc.Control

/-! # `dada_pwc_nexus_update_state`: the state of a nexus

A nexus commands several primary write clients, its nodes, and reports one state for all of them.  The
loop over the nodes counts the three kinds of error and leaves early when two of the other nodes differ;
it knows the first node without error by the index being the sum of the three counters. -/

namespace Psrdada

/-! ## The loop over the nodes -/

/-- The state is one of the three errors. -/
def PwcState.isError : PwcState → Bool
  | .softError | .hardError | .fatalError => true
  | _ => false

/-- The local variables of `dada_pwc_nexus_update_state`. -/
structure Tally where
  /-- `inode` -/
  inode : ℕ
  /-- `nsoft_err` -/
  nsoftErr : ℕ
  /-- `nhard_err` -/
  nhardErr : ℕ
  /-- `nfatal_err` -/
  nfatalErr : ℕ
  /-- `state` -/
  state : PwcState
  deriving DecidableEq, Repr

namespace Tally

/-- The variables before the loop. -/
def init : Tally where
  inode := 0
  nsoftErr := 0
  nhardErr := 0
  nfatalErr := 0
  state := .undefined

/-- The number of nodes found in an error state. -/
def nErr (t : Tally) : ℕ := t.nsoftErr + t.nhardErr + t.nfatalErr

/-- The loop over the states of the nodes. -/
def updateLoop (t : Tally) : List PwcState → Tally
  | [] => t
  | .softError :: nodes => updateLoop { t with inode := t.inode + 1, nsoftErr := t.nsoftErr + 1 } nodes
  | .hardError :: nodes => updateLoop { t with inode := t.inode + 1, nhardErr := t.nhardErr + 1 } nodes
  | .fatalError :: nodes => updateLoop { t with inode := t.inode + 1, nfatalErr := t.nfatalErr + 1 } nodes
  | node :: nodes =>
    if t.inode = t.nErr then
      -- set state of the first non error node
      updateLoop { t with inode := t.inode + 1, state := node } nodes
    else if t.state ≠ node then { t with state := .undefined }
    else updateLoop { t with inode := t.inode + 1 } nodes

/-- The state that is set after the loop over `nnode` nodes. -/
def conclude (t : Tally) (nnode : ℕ) : PwcState :=
  if t.nErr = nnode then
    if t.nfatalErr ≠ 0 then .fatalError
    else if t.nhardErr ≠ 0 then .hardError
    else if t.nsoftErr ≠ 0 then .softError
    else t.state
  else t.state

end Tally

/-- `dada_pwc_nexus_update_state`, as the state of the nexus that follows from those of its nodes. -/
def dadaPwcNexusUpdateState (nodes : List PwcState) : PwcState :=
  (Tally.init.updateLoop nodes).conclude nodes.length

/-! ## What the loop finds -/

namespace Tally

variable {t : Tally} {node : PwcState} {nodes : List PwcState}

/-- A node in an error state is counted. -/
theorem updateLoop_error (t : Tally) (nodes : List PwcState) (h : node.isError = true) :
    ∃ u : Tally, t.updateLoop (node :: nodes) = u.updateLoop nodes ∧ u.inode = t.inode + 1 ∧
      u.nErr = t.nErr + 1 ∧ u.state = t.state ∧
      u.nsoftErr = t.nsoftErr + [node].count .softError ∧
      u.nhardErr = t.nhardErr + [node].count .hardError ∧
      u.nfatalErr = t.nfatalErr + [node].count .fatalError := by
  cases node with
  | softError => exact ⟨_, rfl, rfl, by simp only [nErr]; omega, rfl, rfl, rfl, rfl⟩
  | hardError => exact ⟨_, rfl, rfl, by simp only [nErr]; omega, rfl, rfl, rfl, rfl⟩
  | fatalError => exact ⟨_, rfl, rfl, by simp only [nErr]; omega, rfl, rfl, rfl, rfl⟩
  | _ => cases h

/-- A node without error is the first of them, or compared with the first. -/
theorem updateLoop_sound (h : node.isError = false) :
    t.updateLoop (node :: nodes) =
      if t.inode = t.nErr then updateLoop { t with inode := t.inode + 1, state := node } nodes
      else if t.state ≠ node then { t with state := .undefined }
      else updateLoop { t with inode := t.inode + 1 } nodes := by
  cases node with
  | softError | hardError | fatalError => cases h
  | _ => rfl

/-- After a node without error, the loop compares the others with it, and fewer errors are counted than
there are nodes. -/
theorem updateLoop_compare (nodes : List PwcState) (ht : t.nErr < t.inode) :
    (t.updateLoop nodes).nErr < t.inode + nodes.length ∧
      (t.updateLoop nodes).state =
        if ∀ node ∈ nodes, node.isError = false → node = t.state then t.state else .undefined := by
  induction nodes generalizing t with
  | nil => exact ⟨ht, (if_pos fun _ hn => absurd hn List.not_mem_nil).symm⟩
  | cons node nodes ih =>
    rw [List.length_cons]
    cases he : node.isError with
    | true =>
      obtain ⟨u, hu, hi, hn, hs, -⟩ := updateLoop_error t nodes he
      obtain ⟨hlt, hstate⟩ := ih (t := u) (by omega)
      refine ⟨by rw [hu]; omega, ?_⟩
      rw [hu, hstate, hs]
      simp only [List.forall_mem_cons, he, Bool.true_eq_false, false_implies, true_and]
    | false =>
      rw [updateLoop_sound he, if_neg (by omega)]
      by_cases hs : t.state = node
      · rw [if_neg (not_not.2 hs)]
        obtain ⟨hlt, hstate⟩ := ih (t := { t with inode := t.inode + 1 }) (Nat.lt_succ_of_lt ht)
        refine ⟨by simp only at hlt; omega, ?_⟩
        rw [hstate]
        simp only [List.forall_mem_cons, hs, implies_true, true_and]
      · rw [if_pos hs]
        refine ⟨by simp only [nErr] at ht ⊢; omega, (if_neg fun hall => ?_).symm⟩
        exact hs (hall node List.mem_cons_self he).symm

/-- Where all nodes are in an error state, the loop counts them. -/
theorem updateLoop_errors (h : ∀ node ∈ nodes, node.isError = true) :
    (t.updateLoop nodes).nErr = t.nErr + nodes.length ∧ (t.updateLoop nodes).state = t.state ∧
      (t.updateLoop nodes).nsoftErr = t.nsoftErr + nodes.count .softError ∧
      (t.updateLoop nodes).nhardErr = t.nhardErr + nodes.count .hardError ∧
      (t.updateLoop nodes).nfatalErr = t.nfatalErr + nodes.count .fatalError := by
  induction nodes generalizing t with
  | nil => exact ⟨rfl, rfl, rfl, rfl, rfl⟩
  | cons node nodes ih =>
    obtain ⟨hnode, hnodes⟩ := List.forall_mem_cons.1 h
    obtain ⟨u, hu, -, hn, hs, hsoft, hhard, hfatal⟩ := updateLoop_error t nodes hnode
    obtain ⟨ihn, ihs, ihsoft, ihhard, ihfatal⟩ := ih (t := u) hnodes
    have hcount : ∀ s, (node :: nodes).count s = [node].count s + nodes.count s := fun s => by
      rw [← List.count_append, List.singleton_append]
    rw [hu, List.length_cons, ihn, ihs, ihsoft, ihhard, ihfatal, hn, hs, hsoft, hhard, hfatal, hcount,
      hcount, hcount]
    exact ⟨by omega, rfl, by omega, by omega, by omega⟩

/-- The first node without error gives the state, with which the others are compared. -/
theorem updateLoop_first {state : PwcState} (hi : t.inode = t.nErr) (hmem : state ∈ nodes)
    (hs : state.isError = false) :
    ∃ first ∈ nodes, first.isError = false ∧
      (t.updateLoop nodes).nErr < t.inode + nodes.length ∧
      (t.updateLoop nodes).state =
        if ∀ node ∈ nodes, node.isError = false → node = first then first else .undefined := by
  induction nodes generalizing t with
  | nil => exact absurd hmem List.not_mem_nil
  | cons node nodes ih =>
    rw [List.length_cons]
    cases he : node.isError with
    | true =>
      obtain ⟨u, hu, hui, hun, -⟩ := updateLoop_error t nodes he
      have hmem' : state ∈ nodes := by
        refine (List.mem_cons.1 hmem).resolve_left fun heq => ?_
        rw [heq, he] at hs
        cases hs
      obtain ⟨first, hfirst, hsound, hlt, hstate⟩ := ih (t := u) (by omega) hmem'
      refine ⟨first, List.mem_cons_of_mem _ hfirst, hsound, by rw [hu]; omega, ?_⟩
      rw [hu, hstate]
      simp only [List.forall_mem_cons, he, Bool.true_eq_false, false_implies, true_and]
    | false =>
      rw [updateLoop_sound he, if_pos hi]
      obtain ⟨hlt, hstate⟩ := updateLoop_compare nodes
        (t := { t with inode := t.inode + 1, state := node }) (by simp only [nErr] at hi ⊢; omega)
      refine ⟨node, List.mem_cons_self, he, by simp only at hlt; omega, ?_⟩
      rw [hstate]
      simp only [List.forall_mem_cons, implies_true, true_and]

end Tally

/-! ## The state of the nexus -/

section

variable {nodes : List PwcState} {state : PwcState}

/-- Where the nodes without error agree, the nexus has their state. -/
theorem dadaPwcNexusUpdateState_agree (hmem : state ∈ nodes) (hs : state.isError = false)
    (hall : ∀ node ∈ nodes, node.isError = false → node = state) :
    dadaPwcNexusUpdateState nodes = state := by
  obtain ⟨first, hfirst, hsound, hlt, hstate⟩ :=
    Tally.updateLoop_first (t := Tally.init) rfl hmem hs
  have hfirst : first = state := hall first hfirst hsound
  subst hfirst
  rw [if_pos hall] at hstate
  rw [dadaPwcNexusUpdateState, Tally.conclude, if_neg (by simp only [Tally.init] at hlt ⊢; omega), hstate]

/-- Where two nodes without error differ, the state of the nexus is undefined. -/
theorem dadaPwcNexusUpdateState_differ {other : PwcState} (hmem : state ∈ nodes)
    (hs : state.isError = false) (hother : other ∈ nodes) (ho : other.isError = false)
    (hne : state ≠ other) : dadaPwcNexusUpdateState nodes = .undefined := by
  obtain ⟨first, -, -, hlt, hstate⟩ := Tally.updateLoop_first (t := Tally.init) rfl hmem hs
  have hdiffer : ¬ ∀ node ∈ nodes, node.isError = false → node = first := fun hall =>
    hne ((hall state hmem hs).trans (hall other hother ho).symm)
  rw [if_neg hdiffer] at hstate
  rw [dadaPwcNexusUpdateState, Tally.conclude, if_neg (by simp only [Tally.init] at hlt ⊢; omega), hstate]

/-- The strongest error among the nodes. -/
def strongestError (nodes : List PwcState) : PwcState :=
  if .fatalError ∈ nodes then .fatalError
  else if .hardError ∈ nodes then .hardError
  else .softError

/-- Where all nodes are in an error state, the nexus is in the strongest of them. -/
theorem dadaPwcNexusUpdateState_errors (hne : nodes ≠ []) (h : ∀ node ∈ nodes, node.isError = true) :
    dadaPwcNexusUpdateState nodes = strongestError nodes := by
  obtain ⟨hn, -, hsoft, hhard, hfatal⟩ := Tally.updateLoop_errors (t := Tally.init) h
  simp only [Tally.init, Tally.nErr, Nat.zero_add] at hn hsoft hhard hfatal
  rw [dadaPwcNexusUpdateState, Tally.conclude, if_pos (by simp only [Tally.init, Tally.nErr]; exact hn),
    strongestError]
  simp only [Tally.init, hsoft, hhard, hfatal, ne_eq, List.count_eq_zero, not_not]
  by_cases hf : PwcState.fatalError ∈ nodes
  · rw [if_pos hf, if_pos hf]
  · by_cases hh : PwcState.hardError ∈ nodes
    · rw [if_neg hf, if_neg hf, if_pos hh, if_pos hh]
    · have hsome : PwcState.softError ∈ nodes := by
        obtain ⟨node, hnode⟩ := List.exists_mem_of_ne_nil nodes hne
        have herr := h node hnode
        cases node with
        | softError => exact hnode
        | hardError => exact absurd hnode hh
        | fatalError => exact absurd hnode hf
        | _ => cases herr
      rw [if_neg hf, if_neg hf, if_neg hh, if_neg hh, if_pos hsome]

/-- The nodes without error agree, or two of them differ, or there are none. -/
theorem agree_or_differ (nodes : List PwcState) :
    (∃ state ∈ nodes, state.isError = false ∧ ∀ node ∈ nodes, node.isError = false → node = state) ∨
      (∃ state ∈ nodes, ∃ other ∈ nodes, state.isError = false ∧ other.isError = false ∧
        state ≠ other) ∨
      ∀ node ∈ nodes, node.isError = true := by
  by_cases herr : ∀ node ∈ nodes, node.isError = true
  · exact .inr (.inr herr)
  · push Not at herr
    obtain ⟨state, hmem, hs⟩ := herr
    rw [ne_eq, Bool.not_eq_true] at hs
    by_cases hall : ∀ node ∈ nodes, node.isError = false → node = state
    · exact .inl ⟨state, hmem, hs, hall⟩
    · push Not at hall
      obtain ⟨other, hother, ho, hne⟩ := hall
      exact .inr (.inl ⟨state, hmem, other, hother, hs, ho, hne.symm⟩)

/-- **The state of the nexus**: the common state of the nodes without error, undefined where two of them
differ, and the strongest error where all nodes have one.  It does not depend on the order of the nodes. -/
theorem dadaPwcNexusUpdateState_eq (nodes : List PwcState) :
    (∀ state ∈ nodes, state.isError = false →
        (∀ node ∈ nodes, node.isError = false → node = state) → dadaPwcNexusUpdateState nodes = state) ∧
      (∀ state ∈ nodes, ∀ other ∈ nodes, state.isError = false → other.isError = false →
        state ≠ other → dadaPwcNexusUpdateState nodes = .undefined) ∧
      (nodes ≠ [] → (∀ node ∈ nodes, node.isError = true) →
        dadaPwcNexusUpdateState nodes = strongestError nodes) ∧
      ∀ nodes', nodes.Perm nodes' → dadaPwcNexusUpdateState nodes = dadaPwcNexusUpdateState nodes' := by
  refine ⟨fun state hmem hs hall => dadaPwcNexusUpdateState_agree hmem hs hall,
    fun state hmem other hother hs ho hne => dadaPwcNexusUpdateState_differ hmem hs hother ho hne,
    dadaPwcNexusUpdateState_errors, fun nodes' hperm => ?_⟩
  obtain ⟨state, hmem, hs, hall⟩ | ⟨state, hmem, other, hother, hs, ho, hne⟩ | herr :=
    agree_or_differ nodes
  · rw [dadaPwcNexusUpdateState_agree hmem hs hall,
      dadaPwcNexusUpdateState_agree (hperm.mem_iff.1 hmem) hs fun node hnode =>
        hall node (hperm.mem_iff.2 hnode)]
  · rw [dadaPwcNexusUpdateState_differ hmem hs hother ho hne,
      dadaPwcNexusUpdateState_differ (hperm.mem_iff.1 hmem) hs (hperm.mem_iff.1 hother) ho hne]
  · by_cases hnil : nodes = []
    · subst hnil
      rw [List.nil_perm.1 hperm]
    · have hnil' : nodes' ≠ [] := fun hc => hnil (List.perm_nil.1 (hc ▸ hperm))
      rw [dadaPwcNexusUpdateState_errors hnil herr, dadaPwcNexusUpdateState_errors hnil' fun node hnode =>
        herr node (hperm.mem_iff.2 hnode), strongestError, strongestError]
      simp only [hperm.mem_iff]

end

end Psrdada
