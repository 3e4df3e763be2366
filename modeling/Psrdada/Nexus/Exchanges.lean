import Psrdada.Nexus.Replies

/-! # Every command of a nexus is answered by its own reply

Between two commands nothing is under way: the server waits for a command behind its prompt, and what it
has written is read.  An exchange keeps this as long as the command is one line that the server can hold
and its reply fits and arrives. -/

namespace CommandReplies

open CString Stdio

variable {σ : Type}

/-! ## What the server writes -/

/-- A command in one line is read, run and answered, and the server waits for the next. -/
theorem commandParser_command (server : Server σ) {command : Text} {ret : ℤ} {output : Text}
    {context : σ} (hserving : server.serving = true)
    (hinput : server.input = ⟨command ++ ['\n'], false⟩) (hline : '\n' ∉ command)
    (hlength : command.length ≤ 4094)
    (hparse : commandParseOutput server.cmds (command ++ ['\n']) server.context =
      some (ret, output, context))
    (hret : ret ≠ commandParseExit) (turns : ℕ) :
    commandParser (turns + 2) server =
      (output ++ statusLine ret ++ prompt, { server with context, input := ⟨[], false⟩ }) := by
  have hread : fgets 4096 server.input = .got (command ++ ['\n']) ⟨[], false⟩ := by
    rw [hinput]
    exact fgets_line hline (by omega) false
  have hwait : fgets 4096 ⟨[], false⟩ = .waits := fgets_waits (by decide)
  simp only [commandParser, hserving, not_true_eq_false, if_false, hread, hparse, if_neg hret, hwait,
    List.append_nil]

/-! ## Between two commands -/

/-- Nothing is under way between a node and its server. -/
structure Node.Ready (node : Node σ) : Prop where
  serving : node.server.serving = true
  input : node.server.input = ⟨[], false⟩
  stream : node.stream = ⟨[], false⟩

theorem Node.ready_connected (cmds : List (Command σ)) (context : σ) (room : Option ℕ) :
    (Node.connected cmds context room).Ready :=
  ⟨rfl, rfl, rfl⟩

/-- The server can hold the command, and the reply is written, fits and arrives. -/
structure Meets (size : ℕ) (node : Node σ) (command : Text) (ret : ℤ) (output : Text) (context : σ) :
    Prop where
  line : '\n' ∉ command
  length_le : command.length ≤ 4094
  parse : commandParseOutput node.server.cmds (command ++ ['\n']) node.server.context =
    some (ret, output, context)
  not_exit : ret ≠ commandParseExit
  fits : Fits size ret output
  arrives : ∀ k, node.room = some k → (output ++ statusLine ret ++ prompt).length ≤ k

/-- A node whose server has answered one command more. -/
def Node.next (node : Node σ) (context : σ) (written : ℕ) : Node σ where
  server := { node.server with context }
  stream := node.stream
  room := node.room.map (· - written)

theorem Node.Ready.next {node : Node σ} (h : node.Ready) (context : σ) (written : ℕ) :
    (node.next context written).Ready :=
  ⟨h.serving, h.input, h.stream⟩

/-- What the node finds of a reply that arrives. -/
theorem Node.Ready.answer_nodeSend {node : Node σ} (h : node.Ready) {size : ℕ} {command : Text} {ret : ℤ}
    {output : Text} {context : σ} (hmeets : Meets size node command ret output context) :
    (node.nodeSend command).answer =
      { node.next context (output ++ statusLine ret ++ prompt).length with
        stream := ⟨output ++ statusLine ret ++ prompt, false⟩ } := by
  have hserved : commandParser (command.length + 2) { node.server with
      input := ⟨command ++ ['\n'], false⟩ } =
      (output ++ statusLine ret ++ prompt, { node.server with context, input := ⟨[], false⟩ }) :=
    commandParser_command { node.server with input := ⟨command ++ ['\n'], false⟩ } h.serving rfl
      hmeets.line hmeets.length_le hmeets.parse hmeets.not_exit
      command.length
  have hsent : node.nodeSend command =
      { node with server := { node.server with input := ⟨command ++ ['\n'], false⟩ } } := by
    simp [Node.nodeSend, h.input]
  have hserver : { node.server with context, input := ⟨[], false⟩ } = { node.server with context } := by
    rw [← h.input]
  have hlen : (command ++ ['\n']).length + 1 = command.length + 2 := by simp
  rw [hsent, Node.answer]
  dsimp only
  rw [hlen, hserved, hserver]
  dsimp only
  cases hroom : node.room with
  | none => simp [Node.deliver, Node.next, hroom, h.stream, h.serving]
  | some k =>
    have hk := hmeets.arrives k hroom
    have htake : (output ++ statusLine ret ++ prompt).take k = output ++ statusLine ret ++ prompt :=
      List.take_of_length_le hk
    have hnot : ¬k < (output ++ statusLine ret ++ prompt).length := by omega
    simp only [Node.deliver, Node.next, hroom, h.stream, h.serving, htake, hnot, List.nil_append,
      decide_false, Bool.or_false, Bool.not_true, Option.map_some]

/-- What a reply is to the command that it answers, but for the buffer. -/
structure Answers (size : ℕ) (ret : ℤ) (reply : Reply) : Prop where
  status : reply.status = 0 ∧ 0 ≤ ret ∨ reply.status = -1 ∧ ret < 0
  stored_le : reply.stored ≤ size
  stream : reply.stream = ⟨[], false⟩

/-- One command of `nexus_send`: the reply is that of the command, nothing is stored beyond the buffer
and nothing is left to read.  The buffer is left with the output if the command has not failed. -/
theorem Node.Ready.nexusSend {node : Node σ} (h : node.Ready) {size : ℕ} {command : Text} {ret : ℤ}
    {output : Text} {context : σ} (hmeets : Meets size node command ret output context) :
    ∃ reply, Answers size ret reply ∧ (reply.buffer = chomp output ↔ 0 ≤ ret) ∧
      node.nexusSend size command =
        (.ok reply, node.next context (output ++ statusLine ret ++ prompt).length) := by
  have hfit := hmeets.fits.length_lt
  have hstream : { node.next context (output ++ statusLine ret ++ prompt).length with
      stream := ⟨[], false⟩ } = node.next context (output ++ statusLine ret ++ prompt).length := by
    rw [Node.next, h.stream]
  rcases Int.lt_or_le ret 0 with hret | hret
  · obtain ⟨buffer, hlen, hrecv⟩ := nodeRecv_fail hmeets.fits hret [] false
    rw [List.append_nil] at hrecv
    refine ⟨⟨-1, buffer, output.length + (statusLine ret).length + 1, ⟨[], false⟩⟩,
      ⟨.inr ⟨rfl, hret⟩, hfit, rfl⟩, ?_, ?_⟩
    rotate_left
    · rw [Node.nexusSend, h.answer_nodeSend hmeets]
      dsimp only
      rw [hrecv]
      simp only [hstream]
    · -- the status line is still in the buffer
      have hchomp : (chomp output).length ≤ output.length := by
        unfold chomp
        split
        · rw [List.length_dropLast]
          omega
        · exact le_rfl
      refine ⟨fun hb => ?_, fun hb => absurd hret (Int.not_lt.mpr hb)⟩
      dsimp only at hb
      rw [← hb, hlen] at hchomp
      omega
  · have hrecv := nodeRecv_ok hmeets.fits hret [] false
    rw [List.append_nil] at hrecv
    refine ⟨⟨0, chomp output, output.length + (statusLine ret).length + 1, ⟨[], false⟩⟩,
      ⟨.inl ⟨rfl, hret⟩, hfit, rfl⟩, ⟨fun _ => hret, fun _ => rfl⟩, ?_⟩
    rw [Node.nexusSend, h.answer_nodeSend hmeets]
    dsimp only
    rw [hrecv]
    simp only [hstream]

/-! ## Runs -/

/-- The exchange meets what the framing of its reply needs. -/
def Exchange.Meets (size : ℕ) (x : Exchange σ) : Prop :=
  ∃ ret output context, CommandReplies.Meets size x.before x.command ret output context

/-- The exchange is answered by the reply of its own command: what the parser of the server makes of the
command, in the state that the commands before have left, is what is returned and left in the buffer. -/
def Exchange.Answered (size : ℕ) (x : Exchange σ) : Prop :=
  ∃ ret output context reply,
    commandParseOutput x.before.server.cmds (x.command ++ ['\n']) x.before.server.context =
      some (ret, output, context) ∧
    x.received = .ok reply ∧ Answers size ret reply ∧ (reply.buffer = chomp output ↔ 0 ≤ ret) ∧
    x.after.server.context = context ∧ x.after.stream = reply.stream

/-- A run whose first command meets the condition goes on with a node that has answered it. -/
theorem Node.Ready.exchanges_cons {node : Node σ} (h : node.Ready) {size : ℕ} {command : Text} {ret : ℤ}
    {output : Text} {context : σ} (hmeets : CommandReplies.Meets size node command ret output context)
    (commands : List Text) :
    ∃ reply, Answers size ret reply ∧ (reply.buffer = chomp output ↔ 0 ≤ ret) ∧
      exchanges size node (command :: commands) =
        ⟨command, node, .ok reply, node.next context (output ++ statusLine ret ++ prompt).length⟩ ::
        exchanges size (node.next context (output ++ statusLine ret ++ prompt).length) commands := by
  obtain ⟨reply, hanswers, hbuffer, hsend⟩ := h.nexusSend hmeets
  refine ⟨reply, hanswers, hbuffer, ?_⟩
  rw [exchanges, hsend]
  rfl

/-- From a node with nothing under way, every command is answered in its turn. -/
theorem exchanges_of_ready (size : ℕ) (commands : List Text) :
    ∀ {node : Node σ}, node.Ready → (∀ x ∈ exchanges size node commands, x.Meets size) →
      (exchanges size node commands).map (·.command) = commands ∧
      ∀ x ∈ exchanges size node commands, x.Answered size := by
  induction commands with
  | nil => exact fun _ _ => ⟨rfl, by simp [exchanges]⟩
  | cons command commands ih =>
    intro node hready h
    -- the first exchange, whatever it comes to, starts from this node
    have hfirst : (⟨command, node, (node.nexusSend size command).1, (node.nexusSend size command).2⟩ :
        Exchange σ) ∈ exchanges size node (command :: commands) := List.mem_cons_self
    obtain ⟨ret, output, context, hmeets⟩ := h _ hfirst
    obtain ⟨reply, hanswers, hbuffer, hrun⟩ := hready.exchanges_cons hmeets commands
    rw [hrun] at h ⊢
    obtain ⟨hcommands, hall⟩ := ih (hready.next context _) fun y hy => h y (List.mem_cons_of_mem _ hy)
    refine ⟨by rw [List.map_cons, hcommands], List.forall_mem_cons.mpr ⟨?_, hall⟩⟩
    refine ⟨ret, output, context, reply, hmeets.parse, rfl, hanswers, hbuffer, rfl, ?_⟩
    rw [hanswers.stream]
    exact hready.stream

/-- In every run of commands that each meet the condition, every command is answered by the reply that
its server made of it. -/
theorem nexusSend_answered (size : ℕ) (cmds : List (Command σ)) (context : σ) (room : Option ℕ)
    (commands : List Text)
    (h : ∀ x ∈ exchanges size (Node.connected cmds context room) commands, x.Meets size) :
    (exchanges size (Node.connected cmds context room) commands).map (·.command) = commands ∧
      ∀ x ∈ exchanges size (Node.connected cmds context room) commands, x.Answered size :=
  exchanges_of_ready size commands (Node.ready_connected cmds context room) h

/-- A command that reports the state of an idle client. -/
def stateCommand : Command Unit where
  name := "state".toList
  cmd _ _ := (0, "idle\n".toList, ())

/-- A command that writes two lines, the last without newline. -/
def datesCommand : Command Unit where
  name := "dates".toList
  cmd _ _ := (0, "1\n2".toList, ())

/-- A command that is known is answered, and one that is not. -/
theorem nexusSend_answered_state :
    (exchanges 64 (Node.connected [stateCommand] () none) ["state".toList, "stop".toList]).map
        (·.command) = ["state".toList, "stop".toList] ∧
      ∀ x ∈ exchanges 64 (Node.connected [stateCommand] () none) ["state".toList, "stop".toList],
        x.Answered 64 := by
  refine nexusSend_answered 64 [stateCommand] () none _ fun x hx => ?_
  have hstate : Meets 64 (Node.connected [stateCommand] () none) "state".toList 0 "idle\n".toList () :=
    ⟨by decide, by decide, by decide, by decide,
      ⟨by decide, by decide, by decide, by unfold Begins; decide, by unfold Begins; decide,
        fun _ => .inl (by decide)⟩, nofun⟩
  have hstop : Meets 64 (Node.connected [stateCommand] () none) "stop".toList (-1) [] () :=
    ⟨by decide, by decide, by decide, by decide,
      ⟨by decide, by decide, by decide, by unfold Begins; decide, by unfold Begins; decide,
        fun h => absurd h (by decide)⟩, nofun⟩
  obtain ⟨reply, -, -, hrun⟩ :=
    (Node.ready_connected [stateCommand] () none).exchanges_cons hstate ["stop".toList]
  obtain ⟨reply', -, -, hrun'⟩ :=
    (Node.ready_connected [stateCommand] () none).exchanges_cons hstop []
  rw [hrun] at hx
  rcases List.mem_cons.mp hx with rfl | hx
  · exact ⟨_, _, _, hstate⟩
  · have hx' := hrun' ▸ hx
    rcases List.mem_cons.mp hx' with rfl | hx'
    · exact ⟨_, _, _, hstop⟩
    · exact absurd hx' List.not_mem_nil

/-- A peer that disconnects within its reply has the library given the null pointer; a reply longer than the buffer is stored behind its end; of an output that does not end its last
line only what precedes that line is left; and a failure leaves its status line in the buffer. -/
theorem nexusSend_not_framed :
    ((Node.connected [stateCommand] () (some 3)).nexusSend 1024 "state".toList).1 =
        .error .nullPointer ∧
      ((Node.connected [stateCommand] () none).nexusSend 6 "state".toList).1 =
        .ok ⟨0, "idle".toList, 9, ⟨[], false⟩⟩ ∧
      ((Node.connected [datesCommand] () none).nexusSend 1024 "dates".toList).1 =
        .ok ⟨0, "1".toList, 7, ⟨[], false⟩⟩ ∧
      ((Node.connected [datesCommand] () none).nexusSend 1024 "state".toList).1 =
        .ok ⟨-1, "fail\n".toList, 6, ⟨[], false⟩⟩ := by
  decide +kernel

end CommandReplies
