import Psrdada.Client.Offsets
import Psrdada.Header.Stamps
import Psrdada.Nic.Nicdb

/-! # Data that is sent to nodes in turn

`dada_dbnic` cuts the data of a ring into transfers of `TRANSFER_SIZE` bytes and sends each to the next
node.  `dada_nicdb` there passes to its ring what was sent to it, with a header that has the place of the
first byte; so the rings of the nodes together hold the data, as long as every transfer fills a header
block (`Scattered.scatters`).

Without a size for the transfers there is one with all the data.  The node then acknowledges a header that
is not the one that was sent, since it sets the size. -/

namespace Psrdada

open CString

/-- The keyword `TRANSFER_SIZE`. -/
def transferSizeWord : Word := ⟨transferSizeKey, by decide, plain_of_all (by decide)⟩

/-- The characters of a header that can be sent: a blank is white space for `%s` and for numbers. -/
def Sendable (c : Char) : Prop := (0 < c.toNat ∧ c.toNat < 128) ∧ isspace c = c.isWhitespace

instance (c : Char) : Decidable (Sendable c) := inferInstanceAs (Decidable (_ ∧ _))

theorem sendable_digit {c : Char} (h : c.isDigit = true) : Sendable c := by
  have hspace : c.isWhitespace = false := by
    by_contra hw
    have hw' : c.isWhitespace = true := by simpa using hw
    simp only [Char.isWhitespace, Bool.or_eq_true, decide_eq_true_eq] at hw'
    rcases hw' with ((rfl | rfl) | rfl) | rfl
    all_goals simp at h
  have hspace' : isspace c = false := by
    by_contra hw
    have hw' : isspace c = true := by simpa using hw
    simp only [isspace, Bool.or_eq_true, decide_eq_true_eq] at hw'
    rcases hw' with ((((rfl | rfl) | rfl) | rfl) | rfl) | rfl
    all_goals simp at h
  rw [Char.isDigit_iff_toNat] at h
  exact ⟨⟨Nat.lt_of_lt_of_le (by decide) h.1, Nat.lt_of_le_of_lt h.2 (by decide)⟩, by rw [hspace, hspace']⟩

/-- A number that is not there is not read. -/
theorem asciiHeaderGetUnsigned_of_get_none {header keyword : Text}
    (hblank : ∀ c ∈ header, isspace c = c.isWhitespace) (h : asciiHeaderGet header keyword = none) :
    asciiHeaderGetUnsigned header keyword = none := by
  unfold asciiHeaderGet at h
  unfold asciiHeaderGetUnsigned
  cases hkey : asciiHeaderFind header keyword with
  | none => rfl
  | some key =>
    simp only [hkey] at h ⊢
    set t := (header.drop key).drop (strcspn (header.drop key) whitespace) with ht
    have hmem : ∀ c ∈ t, c ∈ header := fun c hc => List.mem_of_mem_drop (List.mem_of_mem_drop hc)
    have hnil : t.dropWhile isspace = [] := by
      unfold scanWord at h
      cases hd : t.dropWhile isspace with
      | nil => rfl
      | cons c rest => simp [hd] at h
    have hblanks : ∀ c ∈ t, isspace c = true := List.dropWhile_eq_nil_iff.mp hnil
    have hwhite : t.dropWhile Char.isWhitespace = [] := by
      refine List.dropWhile_eq_nil_iff.mpr fun c hc => ?_
      rw [← hblank c (hmem c hc), hblanks c hc]
    rw [scanUnsigned, hwhite]
    rfl

/-- An observation in a ring, with what the programs need of its header. -/
structure Scattered (hdrSize : ℕ) where
  /-- The header. -/
  header : Store
  /-- The data. -/
  data : DataStream
  /-- The size of the transfers. -/
  transferSize : ℕ
  /-- The header can be sent. -/
  sendable : ∀ c ∈ header.text, Sendable c
  /-- Its first line does not have the place of the data. -/
  free_offset : header.Free obsOffsetWord
  /-- Nor does it have the size of the transfers. -/
  free_size : header.Free transferSizeWord
  /-- There is room for two more lines. -/
  room : header.text.length + 38 * 2 < hdrSize
  /-- The size of the header is a number of 64 bits. -/
  hdrSize_lt : hdrSize < 2 ^ 64
  /-- The header gives it. -/
  hdrSize_eq : header.contents hdrSizeWord = some (decimal hdrSize)
  /-- The size of the transfers is a number of 64 bits. -/
  transferSize_lt : transferSize < 2 ^ 64
  /-- The header gives it, unless it is the default. -/
  transferSize_eq : header.contents transferSizeWord = some (decimal transferSize) ∨
    header.contents transferSizeWord = none ∧ transferSize = defaultXferSize
  /-- The place in the observation is a number of 64 bits. -/
  bounded : (asciiHeaderGetUnsigned header.text obsOffsetKey).getD 0 + data.data.length < 2 ^ 64

/-- What is sent to a node. -/
structure Piece where
  /-- The place of its first byte in the observation. -/
  offset : ℕ
  /-- The data. -/
  data : List UInt8

namespace Scattered

variable {hdrSize : ℕ} (x : Scattered hdrSize)

/-- `OBS_OFFSET`: where the data begins. -/
def start : ℕ := (asciiHeaderGetUnsigned x.header.text obsOffsetKey).getD 0

/-- The client of `dada_dbnic` when the header has been read. -/
def client (d : Dbnic) (transferBytes optimalBytes : ℕ) : Client Dbnic :=
  ⟨d, x.header.text, hdrSize, true, transferBytes, optimalBytes, false⟩

/-- The two entries of a header that change. -/
def stamps (offset size : ℕ) : List Stamp :=
  [⟨obsOffsetWord, zero_obsOffsetWord, offset⟩, ⟨transferSizeWord, by decide, size⟩]

/-- The header with a place and a size. -/
def headerWith (offset size : ℕ) : Store := x.header.stampAll (stamps offset size)

/-- The connection for a piece. -/
def connection (node : Node) (p : Piece) : Connection where
  node := node
  sent := Payload.bytes hdrSize (.header (x.headerWith p.offset x.transferSize).text) ++ p.data
  expected := (x.headerWith p.offset
    (if p.data.length < x.transferSize then p.data.length else x.transferSize)).text

/-- Pieces that follow one another from a place in the observation on, each but the last one full. -/
def Consecutive : ℕ → List Piece → Prop
  | _, [] => True
  | o, p :: ps =>
    p.offset = o ∧ (ps = [] ∨ p.data.length = x.transferSize) ∧
      (x.transferSize ≠ 0 → p.data.length ≤ x.transferSize) ∧ Consecutive (o + p.data.length) ps

variable {x} {offset size : ℕ}

theorem keys_stamps (offset size : ℕ) :
    (stamps offset size).map Stamp.key = [obsOffsetWord, transferSizeWord] := rfl

theorem free_stamps (x : Scattered hdrSize) {s : Store} (hfirst : s.first = x.header.first) (offset size : ℕ) :
    ∀ y ∈ stamps offset size, s.Free y.key := by
  intro y hy
  have hmem : y.key ∈ [obsOffsetWord, transferSizeWord] :=
    keys_stamps offset size ▸ List.mem_map_of_mem hy
  rw [Store.Free, hfirst]
  rcases List.mem_pair.mp hmem with h | h <;> rw [h]
  · exact x.free_offset
  · exact x.free_size

theorem range_stamps (ho : offset < 2 ^ 64) (hs : size < 2 ^ 64) : ∀ y ∈ stamps offset size, y.number < 2 ^ 64 :=
  List.forall_mem_cons.mpr ⟨ho, List.forall_mem_singleton.mpr hs⟩

/-- The header may have a place and a size already. -/
def Between (x : Scattered hdrSize) (header : Text) : Prop :=
  header = x.header.text ∨ ∃ offset, offset < 2 ^ 64 ∧ header = (x.headerWith offset x.transferSize).text

theorem contents_headerWith (x : Scattered hdrSize) (offset size : ℕ) :
    (x.headerWith offset size).contents = Function.update (Function.update x.header.contents
      obsOffsetWord (some (decimal offset))) transferSizeWord (some (decimal size)) :=
  Store.contents_stampAll (x.free_stamps rfl offset size)

theorem sendable_headerWith (x : Scattered hdrSize) (offset size : ℕ) :
    ∀ c ∈ (x.headerWith offset size).text, Sendable c := by
  refine Store.forall_text_stampAll x.sendable ?_ (by decide) fun c => sendable_digit
  intro y hy
  have hmem : y.key ∈ [obsOffsetWord, transferSizeWord] :=
    keys_stamps offset size ▸ List.mem_map_of_mem hy
  exact (by decide : ∀ k ∈ [obsOffsetWord, transferSizeWord], ∀ c ∈ k.text, Sendable c) _ hmem

/-- A header that is sent can be received. -/
theorem receivable (x : Scattered hdrSize) (ho : offset < 2 ^ 64) :
    Receivable (x.headerWith offset x.transferSize).text hdrSize x.transferSize where
  ascii c hc := (x.sendable_headerWith _ _ c hc).1
  short := by
    have hlen : (x.headerWith offset x.transferSize).text.length ≤ x.header.text.length + 38 * 2 := by
      refine Store.length_stampAll (by decide : 12 ≤ 13) fun y hy =>
        ⟨?_, range_stamps ho x.transferSize_lt y hy⟩
      have hmem : y.key ∈ [obsOffsetWord, transferSizeWord] :=
        keys_stamps offset x.transferSize ▸ List.mem_map_of_mem hy
      exact (by decide : ∀ k ∈ [obsOffsetWord, transferSizeWord], k.text.length ≤ 13) _ hmem
    exact Nat.lt_of_le_of_lt hlen x.room
  hdrSize_eq := by
    refine asciiHeaderGetUnsigned_of_get x.hdrSize_lt (fun c hc => (x.sendable_headerWith _ _ c hc).2) ?_
    refine (Store.get_text _ hdrSizeWord).trans ?_
    rw [contents_headerWith, Function.update_of_ne (by decide), Function.update_of_ne (by decide),
      x.hdrSize_eq]
  transferSize_eq := by
    refine asciiHeaderGetUnsigned_of_get x.transferSize_lt (fun c hc => (x.sendable_headerWith _ _ c hc).2) ?_
    refine (Store.get_text _ transferSizeWord).trans ?_
    rw [contents_headerWith, Function.update_self]

/-- The header of the observation that is left, as a store. -/
theorem Between.store {header : Text} (h : x.Between header) : ∃ s : Store, header = s.text ∧
    s.first = x.header.first ∧ (∀ c ∈ s.text, Sendable c) ∧
    (s.contents transferSizeWord = some (decimal x.transferSize) ∨
      s.contents transferSizeWord = none ∧ x.transferSize = defaultXferSize) ∧
    ∀ offset size, s.stampAll (stamps offset size) = x.headerWith offset size := by
  rcases h with rfl | ⟨g, hg, rfl⟩
  · exact ⟨x.header, rfl, rfl, x.sendable, x.transferSize_eq, fun _ _ => rfl⟩
  · refine ⟨x.headerWith g x.transferSize, rfl, Store.first_stampAll _ _, x.sendable_headerWith _ _,
      .inl ?_, fun offset size => ?_⟩
    · rw [contents_headerWith, Function.update_self]
    · exact Store.stampAll_again rfl (by
        show [obsOffsetWord, transferSizeWord].Nodup
        decide)

/-- Whichever it is, the header of the next transfer has its place, and the size is kept. -/
theorem Between.next {header : Text} (h : x.Between header) (ho : offset < 2 ^ 64) :
    xferSizeOf (asciiHeaderSet header obsOffsetKey (decimal offset)) = x.transferSize ∧
      ∀ size < 2 ^ 64, asciiHeaderSet (asciiHeaderSet header obsOffsetKey (decimal offset))
        transferSizeKey (decimal size) = (x.headerWith offset size).text := by
  obtain ⟨s, rfl, hfirst, hsend, hsize, hagain⟩ := h.store
  have hall (size : ℕ) (hs : size < 2 ^ 64) :
      stampText s.text (stamps offset size) = (s.stampAll (stamps offset size)).text :=
    Store.text_stampAll fun y hy => ⟨x.free_stamps hfirst _ _ y hy, range_stamps ho hs y hy⟩
  constructor
  · -- the place has been set
    have hfree : s.Free obsOffsetWord := by
      rw [Store.Free, hfirst]
      exact x.free_offset
    have hone : asciiHeaderSet s.text obsOffsetKey (decimal offset) =
        (s.stampAll [⟨obsOffsetWord, zero_obsOffsetWord, offset⟩]).text :=
      @Store.text_stampAll s [⟨obsOffsetWord, zero_obsOffsetWord, offset⟩] (List.forall_mem_singleton.mpr ⟨hfree, ho⟩)
    have hblank : ∀ c ∈ (s.stampAll [⟨obsOffsetWord, zero_obsOffsetWord, offset⟩]).text, isspace c = c.isWhitespace := by
      intro c hc
      refine (Store.forall_text_stampAll hsend ?_ (by decide) (fun c => sendable_digit) c hc).2
      exact List.forall_mem_singleton.mpr (by decide : ∀ c ∈ obsOffsetWord.text, Sendable c)
    have hget : asciiHeaderGet (s.stampAll [⟨obsOffsetWord, zero_obsOffsetWord, offset⟩]).text transferSizeKey =
        s.contents transferSizeWord := by
      refine (Store.get_text _ transferSizeWord).trans ?_
      rw [Store.contents_stampAll (List.forall_mem_singleton.mpr hfree), List.foldl_cons, List.foldl_nil,
        Function.update_of_ne (by decide : transferSizeWord ≠ obsOffsetWord)]
    rw [xferSizeOf, hone]
    rcases hsize with hsize | ⟨hsize, hdefault⟩
    · rw [asciiHeaderGetUnsigned_of_get x.transferSize_lt hblank (hget.trans hsize)]
      rfl
    · rw [asciiHeaderGetUnsigned_of_get_none hblank (hget.trans hsize), hdefault]
      rfl
  · intro size hs
    refine (hall size hs).trans ?_
    rw [hagain]

/-- The size is set again. -/
theorem set_size (x : Scattered hdrSize) (offset size : ℕ) {size' : ℕ} (hs : size' < 2 ^ 64) :
    asciiHeaderSet (x.headerWith offset size).text transferSizeKey (decimal size') =
      (x.headerWith offset size').text := by
  have hfree : (x.headerWith offset size).Free transferSizeWord := by
    rw [Store.Free, headerWith, Store.first_stampAll]
    exact x.free_size
  have hset : asciiHeaderSet (x.headerWith offset size).text transferSizeKey (decimal size') =
      ((x.headerWith offset size).stamp ⟨transferSizeWord, by decide, size'⟩).text :=
    @Store.text_stampAll _ [⟨transferSizeWord, by decide, size'⟩]
      (List.forall_mem_singleton.mpr ⟨hfree, hs⟩)
  rw [hset]
  exact congrArg Store.text (Store.stamp_again rfl)

/-- The node at a place of the array, after the current one. -/
theorem node_next (a : NodeArray) (i : ℕ) :
    NodeArray.node { a with cnode := a.cnode % a.nodes.length + 1 } (a.cnode % a.nodes.length + 1 + i) =
      a.node (a.cnode + (i + 1)) := by
  have hmod : (a.cnode % a.nodes.length + 1 + i) % a.nodes.length = (a.cnode + (i + 1)) % a.nodes.length := by
    rw [Nat.add_assoc, Nat.mod_add_mod, Nat.add_comm 1 i]
  simp only [NodeArray.node, hmod]

variable {net : Network}

/-- The transfers of an observation send pieces that follow one another, with all the data, to one node
after the other. -/
theorem readLoop_sends (h : net.Reliable) (x : Scattered hdrSize) (fuel : ℕ) (c : Client Dbnic) (src : Source)
    (o : ℕ) (hheader : src.eod = false → x.Between c.header) (hquit : c.quit = false)
    (htransfer : c.headerTransfer = true) (hsize : c.headerSize = hdrSize)
    (hbound : o + src.left.length < 2 ^ 64) :
    (src.size < fuel → (readLoop (dbnic net) fuel c src o).isSome) ∧
      ∀ r, readLoop (dbnic net) fuel c src o = some r → r.status = 0 ∧
        ∃ ps : List Piece, (src.eod = true → ps = []) ∧ x.Consecutive o ps ∧
          ps.flatMap Piece.data = src.left ∧
          r.client.context.closed.reverse = c.context.closed.reverse ++
            ps.mapIdx fun i p => x.connection (c.context.array.node (c.context.array.cnode + i)) p := by
  induction fuel generalizing c src o with
  | zero =>
    refine ⟨fun h => absurd h (Nat.not_lt_zero _), fun r hr => ?_⟩
    simp [readLoop] at hr
  | succ fuel ih =>
    rw [readLoop]
    by_cases heod : src.eod = true
    · rw [if_pos heod]
      refine ⟨fun _ => rfl, fun r hr => ?_⟩
      obtain rfl := Option.some.inj hr
      rw [Source.left_of_eod heod]
      exact ⟨rfl, [], fun _ => rfl, trivial, rfl, (List.append_nil _).symm⟩
    · rw [if_neg heod]
      have heod' : src.eod = false := by simpa using heod
      obtain ⟨hxfer, hset⟩ := (hheader heod').next (show o < 2 ^ 64 by omega)
      obtain ⟨hd, hs⟩ := dbnic_transfer h
        (c := { c with header := asciiHeaderSet c.header obsOffsetKey (decimal o) }) hquit htransfer heod'
      set t := dadaClientTransfer (dbnic net)
        { c with header := asciiHeaderSet c.header obsOffsetKey (decimal o) } src
      simp only []
      rw [if_neg (by rw [hd.count]; omega)]
      have hlen := congrArg List.length hd.taken
      rw [List.length_append] at hlen
      have hcount : t.count.toNat = t.output.taken.length := by rw [hd.count, Int.toNat_natCast]
      have hsent : transferHeader (asciiHeaderSet c.header obsOffsetKey (decimal o)) =
          (x.headerWith o x.transferSize).text := by
        rw [transferHeader, hxfer]
        exact hset _ x.transferSize_lt
      set p : Piece := ⟨o, t.output.taken⟩ with hp
      have hleft : t.client.header = (x.headerWith o
          (if p.data.length < x.transferSize then p.data.length else x.transferSize)).text := by
        rw [hs.header, hxfer, hsent]
        show (if p.data.length < x.transferSize then _ else _) = _
        split_ifs with hshort
        · exact x.set_size o _ (Nat.lt_trans hshort x.transferSize_lt)
        · rfl
      have hfull : t.source.eod = true ∨ p.data.length = x.transferSize := by
        rw [← hxfer, ← hs.transferBytes]
        exact hd.full
      obtain ⟨hterm, hrest⟩ := ih t.client t.source (o + t.output.taken.length)
        (fun he => .inr ⟨o, by omega, by
          rw [hleft, if_neg (by rw [hfull.resolve_left (by rw [he]; decide)]; exact Nat.lt_irrefl _)]⟩)
        (hs.quit.trans hquit) (hs.headerTransfer.trans htransfer) (hs.headerSize.trans hsize) (by omega)
      rw [← hcount] at hterm hrest
      constructor
      · intro hlt
        rw [Option.isSome_map]
        have := hd.size_lt heod'
        exact hterm (by omega)
      · intro r hr
        obtain ⟨rest, hr', rfl⟩ := Option.map_eq_some_iff.mp hr
        obtain ⟨hstatus, ps, hnil, hps, hdata, hclosed⟩ := hrest rest hr'
        rw [hcount] at hps
        refine ⟨hstatus, p :: ps, fun h => absurd h heod, ⟨rfl, hfull.imp_left hnil, ?_, hps⟩, ?_, ?_⟩
        · intro hne
          have := hs.bounded (by rw [hxfer]; exact hne)
          rw [hxfer] at this
          exact this
        · rw [List.flatMap_cons, hdata]
          exact hd.taken
        · show rest.client.context.closed.reverse = _
          rw [hclosed, hs.closed, hs.array, hsent, hleft, List.reverse_cons, List.append_assoc,
            List.mapIdx_cons]
          simp only [node_next]
          show _ ++ ([_] ++ _) = _
          rw [Nat.add_zero]
          subst hsize
          rfl

theorem Consecutive.offset_lt {o : ℕ} {ps : List Piece} (h : x.Consecutive o ps)
    (hbound : o + (ps.flatMap Piece.data).length < 2 ^ 64) : ∀ p ∈ ps, p.offset < 2 ^ 64 := by
  induction ps generalizing o with
  | nil => simp
  | cons p ps ih =>
    obtain ⟨hoffset, -, -, hrest⟩ := h
    rw [List.flatMap_cons, List.length_append] at hbound
    exact List.forall_mem_cons.mpr ⟨by omega, ih hrest (by omega)⟩

theorem Consecutive.bounded {o : ℕ} {ps : List Piece} (h : x.Consecutive o ps) :
    ∀ p ∈ ps, x.transferSize ≠ 0 → p.data.length ≤ x.transferSize := by
  induction ps generalizing o with
  | nil => simp
  | cons p ps ih => exact List.forall_mem_cons.mpr ⟨h.2.2.1, ih h.2.2.2⟩

theorem length_lt_of_mem {ps : List Piece} {p : Piece} (hp : p ∈ ps) :
    p.data.length ≤ (ps.flatMap Piece.data).length := by
  induction ps with
  | nil => cases hp
  | cons q ps ih =>
    rw [List.flatMap_cons, List.length_append]
    rcases List.mem_cons.mp hp with rfl | hp
    · omega
    · have := ih hp
      omega

/-- The header that a node sends back is the expected one, unless the transfer was to have no end. -/
theorem acknowledged_iff (x : Scattered hdrSize) (node : Node) (p : Piece)
    (hlen : p.data.length < 2 ^ 64) (hbound : x.transferSize ≠ 0 → p.data.length ≤ x.transferSize) :
    asciiHeaderSet (x.headerWith p.offset x.transferSize).text transferSizeKey (decimal p.data.length) =
        (x.connection node p).expected ↔ x.transferSize ≠ 0 ∨ p.data = [] := by
  rw [x.set_size _ _ hlen, connection]
  simp only []
  by_cases hsame : (if p.data.length < x.transferSize then p.data.length else x.transferSize) = p.data.length
  · rw [hsame]
    refine iff_of_true rfl ?_
    by_cases hzero : x.transferSize = 0
    · rw [hzero, if_neg (Nat.not_lt_zero _)] at hsame
      exact .inr (List.length_eq_zero_iff.mp hsame.symm)
    · exact .inl hzero
  · have hzero : x.transferSize = 0 := by
      by_contra hne
      have := hbound hne
      split_ifs at hsame <;> omega
    rw [if_neg (by omega), hzero] at hsame
    rw [if_neg (by omega), hzero]
    refine iff_of_false (fun heq => hsame ?_) ?_
    · -- the two headers hold different sizes
      have hget := congrArg (fun t => asciiHeaderGet t transferSizeWord.text) heq
      simp only [Store.get_text, contents_headerWith, Function.update_self, Option.some.injEq] at hget
      have hvalue := congrArg digitsValue hget
      rw [digitsValue_decimal, digitsValue_decimal] at hvalue
      exact hvalue.symm
    · rintro (hne | hnil)
      · exact hne rfl
      · exact hsame (by rw [hnil]; rfl)

end Scattered

/-- A header that asks for transfers of six bytes. -/
def sixByteHeader : Store where
  first := "HEADER DADA".toList
  lines := ["HDR_SIZE 256".toList, "TRANSFER_SIZE 6".toList]
  plain := by decide
  noData := by decide
  leads := leads_headerDada
  valued := by
    have hall : ∀ l ∈ ["HDR_SIZE 256".toList, "TRANSFER_SIZE 6".toList], (lineValue l).isSome = true := by
      decide
    exact fun l hl _ _ => hall l hl
  single := by
    refine List.pairwise_cons.mpr ⟨fun l hl => holdsKey_apart (k := hdrSizeWord) (by decide) ?_,
      List.pairwise_singleton _ _⟩
    revert l
    decide

/-- Eight bytes, in two transfers. -/
def twoTransfers : Scattered 256 where
  header := sixByteHeader
  data := eightBytes
  transferSize := 6
  sendable := by decide
  free_offset := by decide
  free_size := by decide
  room := by decide
  hdrSize_lt := by decide
  hdrSize_eq := by decide +kernel
  transferSize_lt := by decide
  transferSize_eq := .inl (by decide +kernel)
  bounded := by decide +kernel

/-- A network on which everything arrives. -/
def goodNetwork : Network := ⟨fun _ => true, fun _ n => n, fun _ n => n⟩

/-- Two nodes, neither of which has been sent anything. -/
def twoNodes : Dbnic where
  array := ⟨[⟨"n0".toList, 40000⟩, ⟨"n1".toList, 40000⟩], by decide, 0⟩
  opened := 0
  sends := 0
  acks := 0
  current := none
  closed := []

end Psrdada
