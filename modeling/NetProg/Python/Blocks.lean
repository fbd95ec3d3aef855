import NetProg.System.Receive

/-!
# Block framing in Python

`recvall`, `get_block` and `put_block` of `tcp/send_block/python/blocks.py`, the client of
`tcp_blocks_client.py` for any list of messages, and the loop of `tcp_blocks_server.py`.

A socket object repeats an interrupted call itself, so `recv` and `send` skip the interruptions of the
script. `recvall` reads exactly what it is asked for (`recvall_readsExactly`), so the server's loop follows
`Lib.Decodes`, as the C++ one does. `put_block` calls `send` once for the header and once for the message
and does not look at the counts: what stands on the wire is the accepted part of each argument
(`client_spec`), which is the framed conversation exactly when no send is short (`put_block_iff`).
-/

namespace NetProg.Python
open Lib (run_pure run_bind_ok run_bind_error run_modify_bind)

/-- `sock.recv(length)`. -/
def recv (length : ℕ) : EStateM Stop Rx Bytes := do
  modify fun rx => { rx with script := rx.script.dropWhile (· = .fail .EINTR) }
  let (n, errno, got) ← NetProg.recv length
  if n < 0 then throw (.systemError errno) else return got

/-- The body of the loop, on `blocks` and `length`. -/
def recvallTurn (v : List Bytes × ℕ) : EStateM Stop Rx (List Bytes × ℕ) := do
  let block ← recv v.2
  if block = [] then throw (.eofError v.2)
  else return (v.1 ++ [block], v.2 - block.length)

/-- `recvall(sock, length)`. -/
def recvall (length : ℕ) : EStateM Stop Rx Bytes := fun rx =>
  Lib.whileLoop (fun v => v.2 ≠ 0) recvallTurn (fun v => v.1.flatten) .blocked (rx.script.length + 1) ([], length) rx

/-- `header_struct` is `Struct('!I')`: four bytes, most significant first. -/
def getBlock : EStateM Stop Rx Bytes := Lib.readFrame 4 ofBe recvall

/-- The server takes blocks until the empty one. -/
def server (rx : Rx) : Lib.Served UInt8 Stop Rx := Lib.serve getBlock (rx.script.length + 1) rx

/-- `sock.send(data)`: the number of bytes accepted. -/
def send (data : Bytes) : EStateM Stop Tx ℕ := do
  modify fun tx => { tx with script := tx.script.dropWhile (· = .fail .EINTR) }
  let (n, errno) ← NetProg.send data data.length
  if n < 0 then throw (.systemError errno) else return n.toNat

/-- `header_struct.pack(block_length)`. -/
def packHeader (block_length : ℕ) : EStateM Stop Tx Bytes :=
  if block_length < 2 ^ 32 then return be32 block_length else throw (.structError block_length)

/-- `put_block(sock, message)`. What `sock.send` returns is not looked at. -/
def putBlock (message : Bytes) : EStateM Stop Tx Unit := do
  let header ← packHeader message.length
  let _ ← send header
  let _ ← send message

/-- `client(host, port)` with any messages. -/
def client (messages : List Bytes) : EStateM Stop Tx Unit := do
  messages.forM putBlock
  putBlock []

/-! ### Receiving -/

section recv

variable {length n : ℕ} {input : Bytes} {script : List RecvAnswer}

theorem recv_deliver : recv length ⟨input, .deliver n :: script⟩ =
    .ok (input.take (moved n (min length input.length)))
      ⟨input.drop (moved n (min length input.length)), script⟩ := by
  have hnonneg : ¬ (moved n (min length input.length) : ℤ) < 0 := by omega
  have hscript : (RecvAnswer.deliver n :: script).dropWhile (· = .fail .EINTR) = .deliver n :: script := by
    simp
  rw [recv, run_modify_bind]
  simp only [hscript]
  rw [run_bind_ok NetProg.recv_deliver]
  simp only [if_neg hnonneg, run_pure]

theorem recv_fail {errno : Errno} (herrno : errno ≠ .EINTR) :
    recv length ⟨input, .fail errno :: script⟩ = .error (.systemError (some errno)) ⟨input, script⟩ := by
  have hscript : (RecvAnswer.fail errno :: script).dropWhile (· = .fail .EINTR) = .fail errno :: script := by
    simp [herrno]
  rw [recv, run_modify_bind]
  simp only [hscript]
  rw [run_bind_ok NetProg.recv_fail]
  rfl

theorem recv_blocked : recv length ⟨input, []⟩ = .error .blocked ⟨input, []⟩ := rfl

theorem recvallTurn_receiveTurns (limit : ℕ) :
    ReceiveTurns limit (fun v => v.2) (fun v got => v.1.flatten = got) (fun v => .eofError v.2) recvallTurn where
  deliver v got input m script hholds hpos _ hinput := by
    have hlen : 0 < input.length := List.length_pos_iff.mpr hinput
    have hcount : 0 < moved m (min v.2 input.length) := moved_pos (by omega)
    have hle := moved_le m (min v.2 input.length)
    have htake : (input.take (moved m (min v.2 input.length))).length = moved m (min v.2 input.length) :=
      List.length_take_of_le (by omega)
    have hne : input.take (moved m (min v.2 input.length)) ≠ [] := by
      apply List.ne_nil_of_length_pos
      omega
    refine ⟨(v.1 ++ [input.take (moved m (min v.2 input.length))], v.2 - moved m (min v.2 input.length)), ?_, rfl, ?_⟩
    · rw [recvallTurn, run_bind_ok recv_deliver, if_neg hne, run_pure, htake]
    · rw [List.flatten_append, List.flatten_singleton, hholds]
  ended v got m script _ _ _ := by
    rw [recvallTurn, run_bind_ok recv_deliver, if_pos List.take_nil, List.drop_nil]
    rfl
  -- the interruption is repeated inside the call of `recv`
  eintr v got input script _ _ _ := .inr rfl
  fails v got input errno script _ herrno := ⟨_, _, run_bind_error (recv_fail herrno)⟩
  blocked v input := ⟨_, _, run_bind_error recv_blocked⟩

theorem recvall_eq (length : ℕ) : recvall length = fun rx => Lib.whileLoop (fun v => v.2 > 0) recvallTurn
    (fun v => v.1.flatten) .blocked (rx.script.length + 1) ([], length) rx := by
  unfold recvall
  rw [Lib.whileLoop_congr fun _ => Nat.pos_iff_ne_zero.symm]

theorem recvall_readsExactly (limit : ℕ) :
    Lib.ReadsExactly limit Rx.Benign Rx.input Rx.budget Stop.IsEof recvall := by
  rw [funext recvall_eq]
  exact ReceiveTurns.readsExactly (fun _ => recvallTurn_receiveTurns limit) (fun _ _ hholds => hholds)
    (fun _ _ => trivial) (fun _ => rfl) fun _ => rfl

theorem server_of_decodes {rx : Rx} {blocks : List Bytes} {rest : Bytes} {ending : Lib.Ending}
    (h : Lib.Decodes networkOrder rx.input blocks rest ending) (hbenign : rx.Benign)
    (hbudget : rx.input.length < rx.budget) :
    (server rx).blocks = blocks ∧ (server rx).Ends Rx.input Stop.IsEof rest ending := by
  have hblocks := h.length_blocks_le
  have hscript := rx.budget_le
  exact Lib.serve_of_decodes (recvall_readsExactly (2 ^ 64)) (fun _ _ => rfl)
    (by decide : (4 : ℕ) < 2 ^ 64) (by decide : (2 : ℕ) ^ 32 ≤ 2 ^ 64) h rfl hbenign hbudget (by omega)

end recv

/-! ### Sending -/

/-- The arguments of the calls of `send` that `put_block` of each message makes, in order. -/
def requests (messages : List Bytes) : List Bytes := messages.flatMap fun m => [be32 m.length, m]

/-- What the kernel takes of each argument when it offers these counts. -/
def accepted (counts : List ℕ) (data : List Bytes) : Bytes :=
  (List.zipWith (fun n d => d.take (moved n d.length)) counts data).flatten

/-- Each call of `send` accepts the whole of its argument. -/
def NoShortSend (counts : List ℕ) (data : List Bytes) : Prop :=
  ∀ p ∈ counts.zip data, moved p.1 p.2.length = p.2.length

instance (counts : List ℕ) (data : List Bytes) : Decidable (NoShortSend counts data) :=
  inferInstanceAs (Decidable (∀ p ∈ counts.zip data, moved p.1 p.2.length = p.2.length))

theorem requests_append (ms ms' : List Bytes) : requests (ms ++ ms') = requests ms ++ requests ms' :=
  List.flatMap_append

theorem flatten_requests (messages : List Bytes) :
    (requests messages).flatten = networkOrder.frames messages := by
  induction messages with
  | nil => rfl
  | cons m messages ih =>
    rw [Lib.LengthCode.frames_cons, ← ih]
    simp only [requests, List.flatMap_cons, List.flatten_append, List.flatten_cons, List.flatten_nil,
      List.append_nil]
    rfl

theorem accepted_append {counts counts' : List ℕ} {data data' : List Bytes}
    (hlen : counts.length = data.length) :
    accepted (counts ++ counts') (data ++ data') = accepted counts data ++ accepted counts' data' := by
  rw [accepted, List.zipWith_append hlen, List.flatten_append]
  rfl

theorem accepted_length_le (counts : List ℕ) (data : List Bytes) :
    (accepted counts data).length ≤ data.flatten.length := by
  induction counts generalizing data with
  | nil => simp [accepted]
  | cons n counts ih =>
    cases data with
    | nil => simp [accepted]
    | cons d data =>
      have := ih data
      simp only [accepted, List.zipWith_cons_cons, List.flatten_cons, List.length_append,
        List.length_take] at this ⊢
      omega

/-- A short send anywhere leaves the wire short. -/
theorem accepted_eq_flatten_iff {counts : List ℕ} {data : List Bytes} (hlen : counts.length = data.length) :
    accepted counts data = data.flatten ↔ NoShortSend counts data := by
  induction counts generalizing data with
  | nil =>
    obtain rfl : data = [] := List.length_eq_zero_iff.mp hlen.symm
    exact ⟨fun _ p hp => by simp at hp, fun _ => rfl⟩
  | cons n counts ih =>
    obtain ⟨d, data, rfl⟩ : ∃ d data', data = d :: data' :=
      List.exists_cons_of_ne_nil (by rintro rfl; simp at hlen)
    have hrest : accepted counts data = data.flatten ↔ NoShortSend counts data := ih (by simpa using hlen)
    have hcons : accepted (n :: counts) (d :: data) = d.take (moved n d.length) ++ accepted counts data :=
      rfl
    simp only [NoShortSend, List.zip_cons_cons, List.forall_mem_cons, List.flatten_cons] at hrest ⊢
    rw [hcons, ← hrest]
    constructor
    · intro h
      have hle := accepted_length_le counts data
      have htake : (d.take (moved n d.length)).length = moved n d.length :=
        List.length_take_of_le (moved_le n d.length)
      have hlength := congrArg List.length h
      rw [List.length_append, List.length_append, htake] at hlength
      have hmoved := moved_le n d.length
      have hfull : moved n d.length = d.length := by omega
      refine ⟨hfull, ?_⟩
      rwa [hfull, List.take_length, List.append_cancel_left_eq] at h
    · rintro ⟨hfull, h⟩
      rw [hfull, List.take_length, h]

section send

variable {wire : Bytes} {script : List SendAnswer}

theorem send_accept (n : ℕ) (data : Bytes) : send data ⟨wire, .accept n :: script⟩ =
    .ok (moved n data.length) ⟨wire ++ data.take (moved n data.length), script⟩ := by
  have hnonneg : ¬ (moved n data.length : ℤ) < 0 := by omega
  have hscript : (SendAnswer.accept n :: script).dropWhile (· = .fail .EINTR) = .accept n :: script := by
    simp
  rw [send, run_modify_bind]
  simp only [hscript]
  rw [run_bind_ok NetProg.send_accept]
  simp only [if_neg hnonneg, run_pure, Int.toNat_natCast]

theorem putBlock_accept {message : Bytes} (hlt : message.length < 2 ^ 32) {counts : List ℕ}
    (hcounts : counts.length = 2) :
    putBlock message ⟨wire, counts.map .accept ++ script⟩ =
      .ok () ⟨wire ++ accepted counts (requests [message]), script⟩ := by
  match counts, hcounts with
  | [a, b], _ =>
    have hpack : packHeader message.length ⟨wire, .accept a :: .accept b :: script⟩ =
        .ok (be32 message.length) ⟨wire, .accept a :: .accept b :: script⟩ := by
      rw [packHeader, if_pos hlt, run_pure]
    simp only [List.map_cons, List.map_nil, List.cons_append, List.nil_append]
    rw [putBlock, run_bind_ok hpack, run_bind_ok (send_accept a _), run_bind_ok (send_accept b _), run_pure]
    simp [accepted, requests]

theorem forM_putBlock_accept {messages : List Bytes} (hlt : ∀ m ∈ messages, m.length < 2 ^ 32)
    {counts : List ℕ} (hcounts : counts.length = (requests messages).length) :
    messages.forM putBlock ⟨wire, counts.map .accept ++ script⟩ =
      .ok () ⟨wire ++ accepted counts (requests messages), script⟩ := by
  induction messages generalizing counts wire with
  | nil =>
    obtain rfl : counts = [] := List.length_eq_zero_iff.mp hcounts
    simp [accepted, requests]
  | cons m messages ih =>
    have hsplit : requests (m :: messages) = requests [m] ++ requests messages :=
      requests_append [m] messages
    have htwo : (requests [m]).length = 2 := rfl
    rw [hsplit, List.length_append, htwo] at hcounts
    obtain ⟨first, rest, rfl, hfirst⟩ : ∃ first rest, counts = first ++ rest ∧ first.length = 2 :=
      ⟨counts.take 2, counts.drop 2, (List.take_append_drop _ _).symm, by rw [List.length_take]; omega⟩
    rw [List.length_append] at hcounts
    have hput : putBlock m ⟨wire, first.map .accept ++ (rest.map .accept ++ script)⟩ =
        .ok () ⟨wire ++ accepted first (requests [m]), rest.map .accept ++ script⟩ :=
      putBlock_accept (hlt m List.mem_cons_self) hfirst
    have htail : messages.forM putBlock
        ⟨wire ++ accepted first (requests [m]), rest.map .accept ++ script⟩ =
          .ok () ⟨wire ++ accepted first (requests [m]) ++ accepted rest (requests messages), script⟩ :=
      ih (fun m' hm' => hlt m' (List.mem_cons_of_mem m hm')) (by omega)
    rw [List.map_append, List.append_assoc, Lib.run_forM_cons_ok hput, htail, hsplit,
      accepted_append (hfirst.trans htwo.symm), List.append_assoc]

theorem client_spec {messages : List Bytes} (hlt : ∀ m ∈ messages, m.length < 2 ^ 32) {counts : List ℕ}
    (hcounts : counts.length = (requests (messages ++ [[]])).length) :
    client messages ⟨wire, counts.map .accept⟩ =
      .ok () ⟨wire ++ accepted counts (requests (messages ++ [[]])), []⟩ := by
  have htwo : (requests [[]]).length = 2 := rfl
  rw [requests_append, List.length_append, htwo] at hcounts
  obtain ⟨first, rest, rfl, hfirst⟩ :
      ∃ first rest, counts = first ++ rest ∧ first.length = (requests messages).length :=
    ⟨counts.take (requests messages).length, counts.drop (requests messages).length,
      (List.take_append_drop _ _).symm, by rw [List.length_take]; omega⟩
  rw [List.length_append] at hcounts
  have hput : putBlock [] ⟨wire ++ accepted first (requests messages), rest.map .accept ++ []⟩ =
      .ok () ⟨wire ++ accepted first (requests messages) ++ accepted rest (requests [[]]), []⟩ :=
    putBlock_accept (by simp) (by omega)
  rw [List.append_nil] at hput
  rw [List.map_append, client, run_bind_ok (forM_putBlock_accept hlt hfirst), hput, requests_append,
    accepted_append hfirst, List.append_assoc]

end send

theorem flatten_requests_client (messages : List Bytes) :
    (requests (messages ++ [[]])).flatten = networkOrder.frames messages ++ networkOrder.closing := by
  rw [requests_append, List.flatten_append, flatten_requests, flatten_requests]
  simp

/-- When no send is short the peer gets exactly the messages, and when one is, the wire is not the framed
conversation. -/
theorem put_block_iff (messages : List Bytes) (hmessages : ∀ m ∈ messages, m ≠ [] ∧ m.length < 2 ^ 32)
    (counts : List ℕ) (hcounts : counts.length = (requests (messages ++ [[]])).length)
    (recvs : RecvSchedule) :
    ∃ tx, client messages ⟨[], counts.map .accept⟩ = .ok () tx ∧
      ((tx.wire = networkOrder.frames messages ++ networkOrder.closing ∧
          ∃ N, ∀ n ≥ N, (server ⟨tx.wire, recvs.upTo n⟩).blocks = messages ∧
            (server ⟨tx.wire, recvs.upTo n⟩).outcome = .finished) ↔
        NoShortSend counts (requests (messages ++ [[]]))) := by
  refine ⟨_, client_spec (fun m hm => (hmessages m hm).2) hcounts, ?_⟩
  rw [List.nil_append, ← accepted_eq_flatten_iff hcounts, flatten_requests_client]
  refine ⟨And.left, fun hwire => ⟨hwire, ?_⟩⟩
  rw [hwire]
  have hdecodes := Lib.decodes_frames (c := networkOrder) hmessages []
  rw [List.append_nil] at hdecodes
  obtain ⟨N, hN⟩ :=
    recvs.exists_budget ((networkOrder.frames messages ++ networkOrder.closing).length + 1)
  refine ⟨N, ?_⟩
  intro n hn
  obtain ⟨hblocks, hfinished, _⟩ := server_of_decodes hdecodes (recvs.benign _ n) (hN n hn _)
  exact ⟨hblocks, hfinished⟩

theorem put_block_iff_hi :
    ∃ tx, client [[104, 105], [33]] ⟨[], [4, 2, 4, 1, 4, 0].map .accept⟩ = .ok () tx ∧
      ((tx.wire = networkOrder.frames [[104, 105], [33]] ++ networkOrder.closing ∧
          ∃ N, ∀ n ≥ N, (server ⟨tx.wire, (RecvSchedule.always 1).upTo n⟩).blocks = [[104, 105], [33]] ∧
            (server ⟨tx.wire, (RecvSchedule.always 1).upTo n⟩).outcome = .finished) ↔
        NoShortSend [4, 2, 4, 1, 4, 0] (requests ([[104, 105], [33]] ++ [[]]))) :=
  put_block_iff [[104, 105], [33]] (by decide) [4, 2, 4, 1, 4, 0] (by decide) (.always 1)

/-- One byte of a message of two is accepted: every later boundary is off by one, and the peer takes a
byte of the closing header for payload. -/
theorem short_send_breaks_framing :
    client [[104, 105]] ⟨[], [4, 1, 4, 0].map .accept⟩ = .ok () ⟨[0, 0, 0, 2, 104, 0, 0, 0, 0], []⟩ ∧
      [0, 0, 0, 2, 104, 0, 0, 0, 0] ≠ networkOrder.frames [[104, 105]] ++ networkOrder.closing ∧
      server ⟨[0, 0, 0, 2, 104, 0, 0, 0, 0], List.replicate 5 (.deliver 9)⟩ =
        ⟨[[104, 0]], .failed (.eofError 1), ⟨[], [.deliver 9]⟩⟩ := by
  refine ⟨rfl, by decide, by decide⟩

end NetProg.Python
