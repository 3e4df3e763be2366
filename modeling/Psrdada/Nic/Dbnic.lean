import Psrdada.Client.Appending

/-! # dada_dbnic

`dada_dbnic` sends the data of a ring to a number of nodes in turn.  Each transfer has a connection of its
own: the header, the data, the end of the stream, and then the header that the node sends back.

The nodes are those that `setup_nodes` has set up for the observation. -/

namespace Psrdada

open CString

/-- `node_t`. -/
structure Node where
  /-- `name`. -/
  name : Text
  /-- `port`. -/
  port : ℕ

/-- `node_array_t`: the nodes, of which there is at least one, and the current one. -/
structure NodeArray where
  /-- `nodes`. -/
  nodes : List Node
  /-- There are some. -/
  nonempty : nodes ≠ []
  /-- `cnode`. -/
  cnode : ℕ

namespace NodeArray

variable (a : NodeArray)

/-- The node at a place, round by round. -/
def node (i : ℕ) : Node :=
  a.nodes.get ⟨i % a.nodes.length, Nat.mod_lt _ (List.length_pos_iff.mpr a.nonempty)⟩

/-- `node_array_open`: the node to which a connection has been opened, if `sock_open` succeeds. -/
def nodeArrayOpen (connected : Bool) : Option Node × NodeArray :=
  let cnode := a.cnode % a.nodes.length
  if connected then (some (a.node cnode), { a with cnode := cnode + 1 })
  else (none, { a with cnode := cnode })

end NodeArray

/-- What the network does. -/
structure Network where
  /-- Whether the call of `sock_open` with this number succeeds. -/
  opens : ℕ → Bool
  /-- What the call of `send` with this number returns for so many bytes. -/
  sends : ℕ → ℕ → ℤ
  /-- What `recv` returns for the acknowledgement with this number, of so many bytes. -/
  acks : ℕ → ℕ → ℤ

/-- Everything that is sent is sent at once, and every acknowledgement comes. -/
structure Network.Reliable (net : Network) : Prop where
  /-- Every connection is opened. -/
  opens : ∀ n, net.opens n = true
  /-- Everything is sent. -/
  sends : ∀ n size, net.sends n size = size
  /-- Every acknowledgement is received. -/
  acks : ∀ n size, net.acks n size = size

/-- A connection that has been closed. -/
structure Connection where
  /-- The node. -/
  node : Node
  /-- The bytes that were sent to it. -/
  sent : List UInt8
  /-- The header that the acknowledgement is compared with. -/
  expected : Text

/-- `dada_dbnic_t`, with the connections. -/
structure Dbnic where
  /-- `array`. -/
  array : NodeArray
  /-- How often `sock_open` has been called. -/
  opened : ℕ
  /-- How often `send` has been called. -/
  sends : ℕ
  /-- How often an acknowledgement has been awaited. -/
  acks : ℕ
  /-- The connection that is open, and what has been sent. -/
  current : Option (Node × List UInt8)
  /-- The connections that have been closed, the last one first. -/
  closed : List Connection

/-- The keyword `TRANSFER_SIZE`. -/
def transferSizeKey : Text := "TRANSFER_SIZE".toList

/-- `DADA_DEFAULT_XFERSIZE`. -/
def defaultXferSize : ℕ := 640000000

/-- `xfer_size`. -/
def xferSizeOf (header : Text) : ℕ := (asciiHeaderGetUnsigned header transferSizeKey).getD defaultXferSize

namespace Dbnic

variable (net : Network)

/-- `sock_open_function`, for an observation whose nodes have been set up. -/
def sockOpenFunction (c : Client Dbnic) : ℤ × Client Dbnic :=
  let xferSize := xferSizeOf c.header
  let header := asciiHeaderSet c.header transferSizeKey (decimal xferSize)
  let d := c.context
  match d.array.nodeArrayOpen (net.opens d.opened) with
  | (none, array) => (-1, { c with header := header, context := { d with array, opened := d.opened + 1 } })
  | (some node, array) => (0, { c with
      header := header
      transferBytes := xferSize
      optimalBytes := 512 * 4096
      context := { d with array, opened := d.opened + 1, current := some (node, []) } })

/-- `sock_send_function`. -/
def sockSendFunction (c : Client Dbnic) (p : Payload) (dataSize : ℕ) : ℤ × Client Dbnic :=
  let d := c.context
  let sent := net.sends d.sends dataSize
  (sent, { c with context := { d with
    sends := d.sends + 1
    current := d.current.map fun x => (x.1, x.2 ++ (p.bytes dataSize).take sent.toNat) } })

/-- `sock_close_function`.  An acknowledgement that is not the expected one is only reported. -/
def sockCloseFunction (c : Client Dbnic) (bytesWritten : ℕ) : ℤ × Client Dbnic :=
  let d := c.context
  -- transfer stopped early
  let header := if bytesWritten < c.transferBytes then
      asciiHeaderSet c.header transferSizeKey (decimal bytesWritten)
    else c.header
  if asUnsigned (net.acks d.acks c.headerSize) < c.headerSize then
    (-1, { c with header := header, context := { d with acks := d.acks + 1 } })
  else (0, { c with header := header, context := { d with
    acks := d.acks + 1
    current := none
    closed := (d.current.map fun x => ⟨x.1, x.2, header⟩).toList ++ d.closed } })

end Dbnic

/-- The functions of `dada_dbnic`. -/
def dbnic (net : Network) : Functions Dbnic where
  openFunction := Dbnic.sockOpenFunction net
  ioFunction := Dbnic.sockSendFunction net
  ioBlockFunction := none
  closeFunction := Dbnic.sockCloseFunction net

/-! ## One transfer -/

variable {net : Network}

theorem nodeArrayOpen_true (a : NodeArray) : a.nodeArrayOpen true =
    (some (a.node a.cnode), { a with cnode := a.cnode % a.nodes.length + 1 }) := by
  rw [NodeArray.nodeArrayOpen, if_pos rfl]
  simp only [NodeArray.node, Nat.mod_mod]

/-- What is opened on a reliable network. -/
theorem dbnic_open (h : net.Reliable) (c : Client Dbnic) : (dbnic net).openFunction c =
    (0, { c with
      header := asciiHeaderSet c.header transferSizeKey (decimal (xferSizeOf c.header))
      transferBytes := xferSizeOf c.header
      optimalBytes := 512 * 4096
      context := { c.context with
        array := { c.context.array with cnode := c.context.array.cnode % c.context.array.nodes.length + 1 }
        opened := c.context.opened + 1
        current := some (c.context.array.node c.context.array.cnode, []) } }) := by
  show Dbnic.sockOpenFunction net c = _
  unfold Dbnic.sockOpenFunction
  simp only [h.opens, nodeArrayOpen_true]

/-- A client that has sent bytes, and is otherwise as it was. -/
structure Sent (c c' : Client Dbnic) (bytes : List UInt8) : Prop where
  /-- The bytes are sent behind those before. -/
  current : c'.context.current = c.context.current.map fun x => (x.1, x.2 ++ bytes)
  /-- The other connections are left alone. -/
  closed : c'.context.closed = c.context.closed
  /-- The nodes. -/
  array : c'.context.array = c.context.array
  /-- The header. -/
  header : c'.header = c.header
  /-- Its size. -/
  headerSize : c'.headerSize = c.headerSize
  /-- It is to be transferred as before. -/
  headerTransfer : c'.headerTransfer = c.headerTransfer
  /-- The size of the transfer. -/
  transferBytes : c'.transferBytes = c.transferBytes
  /-- The client quits as before. -/
  quit : c'.quit = c.quit

theorem Sent.refl (c : Client Dbnic) : Sent c c [] :=
  ⟨by simp, rfl, rfl, rfl, rfl, rfl, rfl, rfl⟩

theorem Sent.trans {c c' c'' : Client Dbnic} {a b : List UInt8} (h : Sent c c' a) (h' : Sent c' c'' b) :
    Sent c c'' (a ++ b) where
  current := by
    rw [h'.current, h.current, Option.map_map]
    refine congrArg (fun f => Option.map f c.context.current) (funext fun x => ?_)
    simp [Function.comp]
  closed := h'.closed.trans h.closed
  array := h'.array.trans h.array
  header := h'.header.trans h.header
  headerSize := h'.headerSize.trans h.headerSize
  headerTransfer := h'.headerTransfer.trans h.headerTransfer
  transferBytes := h'.transferBytes.trans h.transferBytes
  quit := h'.quit.trans h.quit

theorem dbnic_appends (h : net.Reliable) : Appends (dbnic net) Sent := by
  refine ⟨.refl, .trans, fun c p n => ?_, fun _ _ => ⟨by simp, rfl, rfl, rfl, rfl, rfl, rfl, rfl⟩⟩
  have hcount : ((dbnic net).ioFunction c p n).1 = n := h.sends _ _
  refine ⟨hcount, ⟨?_, rfl, rfl, rfl, rfl, rfl, rfl, rfl⟩⟩
  show (c.context.current.map fun x => (x.1, x.2 ++ (p.bytes n).take (net.sends c.context.sends n).toNat)) = _
  rw [h.sends, Int.toNat_natCast, List.take_of_length_le (p.length_bytes_le n)]

/-- What is closed on a reliable network. -/
theorem dbnic_close (h : net.Reliable) (c : Client Dbnic) (n : ℕ) :
    ((dbnic net).closeFunction c n).1 = 0 ∧
      ∃ header, header = (if n < c.transferBytes then asciiHeaderSet c.header transferSizeKey (decimal n)
        else c.header) ∧
      ((dbnic net).closeFunction c n).2 = { c with header := header, context := { c.context with
        acks := c.context.acks + 1
        current := none
        closed := (c.context.current.map fun x => ⟨x.1, x.2, header⟩).toList ++ c.context.closed } } := by
  have hroom : ¬ asUnsigned (net.acks c.context.acks c.headerSize) < c.headerSize := by
    rw [h.acks, asUnsigned_natCast]
    exact Nat.lt_irrefl _
  have hclose : (dbnic net).closeFunction c n = Dbnic.sockCloseFunction net c n := rfl
  unfold Dbnic.sockCloseFunction at hclose
  simp only [if_neg hroom] at hclose
  rw [hclose]
  exact ⟨rfl, _, rfl, rfl⟩

/-- On a reliable network, the functions of a client that is not told to quit consume everything. -/
def dbnicConsumer (net : Network) (h : net.Reliable) : Consumer Dbnic where
  openFunction c :=
    let opened := Dbnic.sockOpenFunction net c
    (opened.1, { opened.2 with quit := false })
  ioFunction := Dbnic.sockSendFunction net
  ioBlockFunction := none
  closeFunction := Dbnic.sockCloseFunction net
  opens c := Int.le_of_eq (congrArg Prod.fst (dbnic_open h c)).symm
  stays _ := rfl
  consumes _ _ _ := h.sends _ _
  keepsSize _ _ _ := rfl
  byBytes := rfl
  closes c n := Int.le_of_eq (dbnic_close h c n).1.symm

/-- The header of a transfer. -/
def transferHeader (header : Text) : Text :=
  asciiHeaderSet header transferSizeKey (decimal (xferSizeOf header))

/-- What a transfer leaves behind: one connection more. -/
structure Sends (c : Client Dbnic) (t : TransferResult Dbnic) : Prop where
  /-- The size of the transfer is the one in the header. -/
  transferBytes : t.output.transferBytes = xferSizeOf c.header
  /-- It is not exceeded. -/
  bounded : xferSizeOf c.header ≠ 0 → t.output.taken.length ≤ xferSizeOf c.header
  /-- The header has the number of bytes that were sent, if these are fewer. -/
  header : t.client.header = if t.output.taken.length < xferSizeOf c.header then
      asciiHeaderSet (transferHeader c.header) transferSizeKey (decimal t.output.taken.length)
    else transferHeader c.header
  /-- The header and what was taken from the ring were sent to the current node. -/
  closed : t.client.context.closed = ⟨c.context.array.node c.context.array.cnode,
    Payload.bytes c.headerSize (.header (transferHeader c.header)) ++ t.output.taken, t.client.header⟩ ::
      c.context.closed
  /-- The next node is the current one. -/
  array : t.client.context.array = { c.context.array with
    cnode := c.context.array.cnode % c.context.array.nodes.length + 1 }
  /-- The size of the header. -/
  headerSize : t.client.headerSize = c.headerSize
  /-- The header is to be transferred as before. -/
  headerTransfer : t.client.headerTransfer = c.headerTransfer
  /-- The client quits as before. -/
  quit : t.client.quit = c.quit

/-- A transfer sends the header and data to one node. -/
theorem dbnic_transfer (h : net.Reliable) {c : Client Dbnic} (hquit : c.quit = false)
    (htransfer : c.headerTransfer = true) {s : Source} (heod : s.eod = false) :
    Delivers c s (dadaClientTransfer (dbnic net) c s) ∧ Sends c (dadaClientTransfer (dbnic net) c s) := by
  have hopen := dbnic_open h c
  have hsame : dadaClientTransfer (dbnic net) c s =
      dadaClientTransfer (dbnicConsumer net h).toFunctions c s := by
    have hsameOpen : (dbnic net).openFunction c = (dbnicConsumer net h).openFunction c := by
      refine Prod.ext rfl ?_
      show ((dbnic net).openFunction c).2 = { ((dbnic net).openFunction c).2 with quit := false }
      rw [hopen, ← hquit]
    exact dadaClientTransfer_congr hsameOpen rfl rfl rfl rfl s
  have hdelivers : Delivers c s (dadaClientTransfer (dbnic net) c s) := by
    rw [hsame]
    exact dadaClientTransfer_consumer (dbnicConsumer net h) c heod
  have hbounded := (dbnicConsumer net h).length_taken_le c s
  rw [← hsame] at hbounded
  refine ⟨hdelivers, ?_⟩
  obtain ⟨c', hsent, hclient, htransferBytes⟩ := (dbnic_appends h).transfer
    (Int.le_of_eq (congrArg Prod.fst hopen).symm) (by rw [hopen]; exact hquit) (by rw [hopen]; exact htransfer) rfl
    (fun c n => Int.le_of_eq (dbnic_close h c n).1.symm) hdelivers
  obtain ⟨-, header, hheader, hclosed⟩ := dbnic_close h c' (dadaClientTransfer (dbnic net) c s).output.taken.length
  rw [hclosed] at hclient
  rw [hopen] at hsent htransferBytes
  have hcurrent : c'.context.current = some (c.context.array.node c.context.array.cnode,
      Payload.bytes c.headerSize (.header (transferHeader c.header)) ++
        (dadaClientTransfer (dbnic net) c s).output.taken) := by
    rw [hsent.current]
    rfl
  rw [hsent.transferBytes, hsent.header] at hheader
  rw [htransferBytes] at hbounded
  refine ⟨htransferBytes, hbounded, ?_, ?_, ?_, ?_, ?_, ?_⟩
  all_goals rw [hclient]
  · exact hheader
  · show (c'.context.current.map fun x => Connection.mk x.1 x.2 header).toList ++ c'.context.closed =
      ⟨_, _, header⟩ :: c.context.closed
    rw [hcurrent, hsent.closed]
    rfl
  · exact hsent.array
  · exact hsent.headerSize
  · exact hsent.headerTransfer
  · exact hsent.quit

end Psrdada
