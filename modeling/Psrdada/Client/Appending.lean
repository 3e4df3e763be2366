import Psrdada.Client.Splitting
import Psrdada.Diskdb.Files

/-! # What the calls of `io_function` leave behind

A program that keeps what it is given: a relation between the client before and after a call, along with
the bytes that were consumed, which composes as the bytes do (`Appends`).  Such a relation holds of a whole
transfer with the header and all the data that was taken (`Appends.transfer`). -/

namespace Psrdada

open CString

variable {κ : Type}

/-- The keyword `OBS_OFFSET`. -/
def obsOffsetWord : Word := ⟨obsOffsetKey, by decide, plain_of_all (by decide)⟩

theorem zero_obsOffsetWord : '\x00' ∉ obsOffsetWord.text := by decide

/-- The keyword `HDR_SIZE`. -/
def hdrSizeWord : Word := ⟨"HDR_SIZE".toList, by decide, plain_of_all (by decide)⟩

/-- The first `n` bytes behind the pointer that `io_function` is given.  A header ends with a zero, and
zeros follow it in its buffer. -/
def Payload.bytes (n : ℕ) : Payload → List UInt8
  | .header text => (toBytes text ++ List.replicate (n - text.length) 0).take n
  | .data bytes => bytes.take n

theorem Payload.length_bytes_le (n : ℕ) (p : Payload) : (p.bytes n).length ≤ n := by
  cases p with
  | header text => exact List.length_take_le n _
  | data bytes => exact List.length_take_le n _

/-- A transfer to a target that consumes everything does not go past its size. -/
theorem Consumer.length_taken_le (F : Consumer κ) (c : Client κ) (s : Source)
    (hsize : (dadaClientTransfer F.toFunctions c s).output.transferBytes ≠ 0) :
    (dadaClientTransfer F.toFunctions c s).output.taken.length ≤
      (dadaClientTransfer F.toFunctions c s).output.transferBytes := by
  revert hsize
  unfold dadaClientTransfer
  simp only []
  obtain ⟨hsent, hsentSize⟩ := sendHeader_consumer F (F.openFunction c).2
  have hclose (c : Client κ) (n : ℕ) : ¬ (F.closeFunction c n).1 < 0 := Int.not_lt.mpr (F.closes c n)
  have hheader : ¬ asUnsigned (sendHeader F.toFunctions (F.openFunction c).2).1 <
      (F.openFunction c).2.headerSize := by
    rw [hsent, asUnsigned_natCast]
    exact Nat.lt_irrefl _
  rw [if_neg (Int.not_lt.mpr (F.opens c)), if_neg (by simp [F.stays]), if_neg hheader, if_neg (hclose _ _)]
  obtain ⟨bufferSize, hb, c', hrun, hwith⟩ :=
    runLoop_of_byBytes F.byBytes (sendHeader F.toFunctions (F.openFunction c).2).2 s
  rw [hrun]
  have hsize : c'.transferBytes = (F.openFunction c).2.transferBytes := by
    rw [← hsentSize]
    rcases hwith with rfl | rfl <;> rfl
  obtain ⟨htaken, hreported, -, hbounded⟩ := ioLoop_consumer F bufferSize hb c' s 0
  intro hne
  have hlen := hbounded (hsize ▸ hne) (Nat.zero_le _)
  show (takenBy (ioLoop F.toFunctions bufferSize hb c' s 0).calls).length ≤ (F.openFunction c).2.transferBytes
  rw [htaken, ← hreported, ← hsize]
  omega

/-- Every call consumes everything, and keeps a relation with the bytes that it has consumed. -/
structure Appends (F : Functions κ) (R : Client κ → Client κ → List UInt8 → Prop) : Prop where
  /-- Nothing is consumed when nothing is done. -/
  refl : ∀ c, R c c []
  /-- What is consumed in two steps is consumed in one. -/
  trans : ∀ {c c' c'' a b}, R c c' a → R c' c'' b → R c c'' (a ++ b)
  /-- A call consumes its bytes. -/
  write : ∀ c p n, (F.ioFunction c p n).1 = n ∧ R c (F.ioFunction c p n).2 (p.bytes n)
  /-- A size is set for the chunks. -/
  sized : ∀ c n, R c { c with optimalBytes := n } []

namespace Appends

variable {F : Functions κ} {R : Client κ → Client κ → List UInt8 → Prop}

/-- The I/O loop consumes what its calls take. -/
theorem loop (h : Appends F R) (bufferSize : ℕ) (hb : 0 < bufferSize) (c : Client κ) (s : Source)
    (done : ℕ) :
    R c (ioLoop F bufferSize hb c s done).client (takenBy (ioLoop F bufferSize hb c s done).calls) := by
  induction c, s, done using ioLoop_induct F bufferSize hb with
  | stop c s done _ => exact h.refl c
  | fail c s done _ _ hneg =>
    have hcount : (ioRound F bufferSize c s done).call.2 =
        ((s.ipcioRead (c.chunk bufferSize done)).1.length : ℤ) :=
      (h.write c (.data (s.ipcioRead (c.chunk bufferSize done)).1) _).1
    omega
  | next c s done rest _ _ _ ih =>
    set data := (s.ipcioRead (c.chunk bufferSize done)).1 with hdata
    obtain ⟨hcount, happend⟩ := h.write c (.data data) data.length
    have htaken : (ioRound F bufferSize c s done).call.taken = Payload.bytes data.length (.data data) := by
      show data.take (F.ioFunction c (.data data) data.length).1.toNat = _
      rw [hcount, Int.toNat_natCast]
      rfl
    rw [takenBy, List.flatMap_cons, htaken]
    exact h.trans happend ih

/-- A transfer consumes the header and the data that is taken, and then calls `close_function`. -/
theorem transfer (h : Appends F R) {c : Client κ} {s : Source} (hopen : 0 ≤ (F.openFunction c).1)
    (hquit : (F.openFunction c).2.quit = false) (htransfer : (F.openFunction c).2.headerTransfer = true)
    (hbytes : F.ioBlockFunction = none) (hclose : ∀ c n, 0 ≤ (F.closeFunction c n).1)
    (hdelivers : Delivers c s (dadaClientTransfer F c s)) :
    ∃ c', R (F.openFunction c).2 c'
        (Payload.bytes (F.openFunction c).2.headerSize (.header (F.openFunction c).2.header) ++
          (dadaClientTransfer F c s).output.taken) ∧
      (dadaClientTransfer F c s).client =
        (F.closeFunction c' (dadaClientTransfer F c s).output.taken.length).2 ∧
      (dadaClientTransfer F c s).output.transferBytes = (F.openFunction c).2.transferBytes := by
  have hcount := hdelivers.count
  revert hcount
  set opened := (F.openFunction c).2 with hopened
  have hsend : sendHeader F opened = F.ioFunction opened (.header opened.header) opened.headerSize := by
    rw [sendHeader, if_pos htransfer]
  obtain ⟨hsent, hheader⟩ := h.write opened (.header opened.header) opened.headerSize
  rw [← hsend] at hsent hheader
  obtain ⟨n, hn, c', hrun, hwith⟩ := runLoop_of_byBytes hbytes (sendHeader F opened).2 s
  have hdata : R (sendHeader F opened).2 (runLoop F (sendHeader F opened).2 s).client
      (takenBy (runLoop F (sendHeader F opened).2 s).calls) := by
    rw [hrun]
    have hloop := h.loop n hn c' s 0
    rcases hwith with rfl | rfl
    · exact hloop
    · exact h.trans (h.sized _ _) hloop
  have hroom : ¬ asUnsigned (sendHeader F opened).1 < opened.headerSize := by
    rw [hsent, asUnsigned_natCast]
    exact Nat.lt_irrefl _
  unfold dadaClientTransfer
  simp only []
  rw [← hopened, if_neg (Int.not_lt.mpr hopen), if_neg (by rw [hquit]; decide), if_neg hroom,
    if_neg (Int.not_lt.mpr (hclose _ _))]
  intro hcount
  set r := runLoop F (sendHeader F opened).2 s
  have hcount' : r.count = (takenBy r.calls).length := hcount
  refine ⟨r.client, h.trans hheader hdata, ?_, rfl⟩
  show (F.closeFunction r.client (asUnsigned r.count)).2 = (F.closeFunction r.client (takenBy r.calls).length).2
  rw [hcount', asUnsigned_natCast]

end Appends

end Psrdada
