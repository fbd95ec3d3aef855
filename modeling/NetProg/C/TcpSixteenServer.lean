import NetProg.C.Wrapsock
import NetProg.Lib.Sessions
import NetProg.System.Peer

/-!
# The C server of sixteen bytes

The loop of `tcp_sixteen_server.c`. The array `message` is that of the function, so a session leaves its
sixteen bytes in it for the next one. `printf` takes `message` for a C string and reads on behind the
sixteen bytes, up to a terminator that the client may have sent or that happens to stand in the rest of the
array.
-/

namespace NetProg.C.TcpSixteenServer
open Lib

/-- `printf("  Incoming sixteen-octet message: %s\n", message)`, as far as it depends on the message. -/
def printMessage (message : Bytes) : EStateM Stop Peer Unit :=
  if 0 ∈ message then return () else throw (.outOfBounds message.length message.length)

/-- One turn of `while (1)`: the array `message` afterwards. -/
def session (message : Bytes) : EStateM Stop Peer Bytes :=
  Peer.turn (recvAll message 16) printMessage (sendMsg (literal farewell))

/-- `server`, when `message` has such bytes before the first turn. -/
def server (message : Bytes) (clients : List Peer) : List Peer := serveAll session message clients

theorem printMessage_eq_ok_iff (message : Bytes) (q : Peer) (u : Unit) (q' : Peer) :
    printMessage message q = .ok u q' ↔ 0 ∈ message ∧ q' = q := by
  unfold printMessage
  split
  · rename_i hmem
    rw [run_pure, EStateM.Result.ok.injEq]
    simp [eq_comm, hmem]
  · rename_i hmem
    rw [run_throw]
    simp only [reduceCtorEq, hmem, false_and]

theorem printMessage_fault (message : Bytes) (q : Peer) (h : 0 ∉ message) :
    ∃ stop, printMessage message q = .error stop q :=
  ⟨_, by rw [printMessage, if_neg h, run_throw]⟩

theorem session_eq_ok_iff {message message' : Bytes} {p p' : Peer} :
    session message p = .ok message' p' ↔
      (Peer.Retried p.aborted ∧ p.sockname = none ∧ p.peername = none) ∧
        ∃ rx tx, (recvAll message 16 p.rx = .ok message' rx ∧ 0 ∈ message') ∧
          sendMsg (literal farewell) p.tx = .ok () tx ∧ p.closed = none ∧ p' = { p with rx, tx } :=
  Peer.turn_eq_ok_iff printMessage_eq_ok_iff

theorem strlen_farewell : strlen (literal farewell) = 16 := by
  rw [strlen_literal (by decide), length_farewell]

theorem sendMsg_farewell_cases (tx : Tx) :
    (Offers SendAnswer.Benign SendAnswer.offer 16 tx.script ∧
        ∃ tx', sendMsg (literal farewell) tx = .ok () tx' ∧ tx'.wire = tx.wire ++ farewell) ∨
      (¬ Offers SendAnswer.Benign SendAnswer.offer 16 tx.script ∧
        ∃ e tx', sendMsg (literal farewell) tx = .error e tx') := by
  have hle : 16 ≤ (literal farewell).length := by
    rw [literal, List.length_append, length_farewell]
    omega
  have hcases := sendAll_cases tx hle (by decide)
  rw [literal, ← length_farewell, List.take_left, length_farewell, ← literal] at hcases
  rw [sendMsg, strlen_farewell]
  exact hcases

theorem eq_of_recvAll {message message' : Bytes} {rx rx' : Rx} (hlen : message.length = 128)
    (h : recvAll message 16 rx = .ok message' rx') : message' = rx.input.take 16 ++ message.drop 16 := by
  have hreceived := recvAll_received rx (show 16 ≤ message.length by omega) (by decide)
  rw [h] at hreceived
  obtain ⟨hle, hsplice, -⟩ := hreceived
  rw [hsplice, splice, List.take_zero, List.nil_append, List.length_take_of_le hle]

theorem session_returns_iff {message : Bytes} (hlen : message.length = 128) (p : Peer) :
    (∃ message' p', session message p = .ok message' p') ↔
      (p.Patient ∧ p.closed = none) ∧ (0 ∈ message.drop 16 ∨ 0 ∈ p.rx.input.take 16) := by
  have hrecv := recvAll_returns_iff p.rx (show 16 ≤ message.length by omega) (by decide)
  constructor
  · rintro ⟨message', p', h⟩
    obtain ⟨⟨hretried, hsockname, hpeername⟩, rx, tx, ⟨hmessage, hzero⟩, hsend, hclosed, -⟩ :=
      session_eq_ok_iff.1 h
    obtain ⟨hsends, hdelivered⟩ := hrecv.1 ⟨_, _, hmessage⟩
    rcases sendMsg_farewell_cases p.tx with ⟨htaken, -⟩ | ⟨-, e, tx', hfails⟩
    · rw [eq_of_recvAll hlen hmessage, List.mem_append, or_comm] at hzero
      exact ⟨⟨⟨hretried, hsockname, hpeername, hsends, hdelivered, htaken⟩, hclosed⟩, hzero⟩
    · rw [hfails] at hsend
      cases hsend
  · rintro ⟨⟨hpatient, hclosed⟩, hzero⟩
    obtain ⟨message', rx, hmessage⟩ := hrecv.2 ⟨hpatient.sends, hpatient.delivered⟩
    rcases sendMsg_farewell_cases p.tx with ⟨-, tx, hsend, -⟩ | ⟨htaken, -⟩
    · have hmem : 0 ∈ message' := by
        rw [eq_of_recvAll hlen hmessage, List.mem_append, or_comm]
        exact hzero
      exact ⟨message', _, session_eq_ok_iff.2
        ⟨hpatient.calls, rx, tx, ⟨hmessage, hmem⟩, hsend, hclosed, rfl⟩⟩
    · exact absurd hpatient.taken htaken

theorem session_keeps {message message' : Bytes} {p p' : Peer} (hlen : message.length = 128)
    (h : session message p = .ok message' p') :
    message'.length = 128 ∧ message'.drop 16 = message.drop 16 := by
  obtain ⟨-, rx, tx, ⟨hmessage, -⟩, -⟩ := session_eq_ok_iff.1 h
  obtain ⟨hsends, -⟩ := (recvAll_returns_iff p.rx (show 16 ≤ message.length by omega) (by decide)).1
    ⟨_, _, hmessage⟩
  have htake : (p.rx.input.take 16).length = 16 := List.length_take_of_le hsends
  rw [eq_of_recvAll hlen hmessage]
  refine ⟨?_, ?_⟩
  · rw [List.length_append, htake, List.length_drop, hlen]
  · rw [List.drop_append_of_le_length (by omega), List.drop_eq_nil_of_le (by omega), List.nil_append]

theorem after_session_iff {message : Bytes} (hlen : message.length = 128) {p : Peer} (hpatient : p.Patient)
    (hwire : p.tx.wire = []) :
    (after (session message) p).tx.wire = farewell ↔ 0 ∈ message.drop 16 ∨ 0 ∈ p.rx.input.take 16 := by
  obtain ⟨message', rx, hmessage⟩ := (recvAll_returns_iff p.rx (show 16 ≤ message.length by omega)
    (by decide)).2 ⟨hpatient.sends, hpatient.delivered⟩
  have hmem : 0 ∈ message' ↔ 0 ∈ message.drop 16 ∨ 0 ∈ p.rx.input.take 16 := by
    rw [eq_of_recvAll hlen hmessage, List.mem_append, or_comm]
  rw [← hmem]
  by_cases hzero : 0 ∈ message'
  · refine iff_of_true ?_ hzero
    rcases sendMsg_farewell_cases p.tx with ⟨-, tx, hsend, hsent⟩ | ⟨htaken, -⟩
    · rw [session, Peer.after_turn printMessage_eq_ok_iff hpatient.calls hmessage hzero hsend, hsent, hwire,
        List.nil_append]
    · exact absurd hpatient.taken htaken
  · refine iff_of_false ?_ hzero
    rw [session, Peer.after_turn_of_fault printMessage_fault hpatient.calls hmessage hzero, hwire]
    decide

/-- A patient client gets its reply exactly if the clients before it were patient and could be closed, and if
there is a terminator for each message up to its own. -/
theorem reply_iff {message : Bytes} (hlen : message.length = 128) (before rest : List Peer) {client : Peer}
    (hclient : client.Patient) (hwire : client.tx.wire = []) :
    (∃ p, (server message (before ++ client :: rest))[before.length]? = some p ∧ p.tx.wire = farewell) ↔
      (∀ p ∈ before, p.Patient ∧ p.closed = none) ∧
        (0 ∈ message.drop 16 ∨ ∀ p ∈ before ++ [client], 0 ∈ p.rx.input.take 16) := by
  have hserved : (∃ p, (server message (before ++ client :: rest))[before.length]? = some p ∧
      p.tx.wire = farewell) ↔
        (∀ p ∈ before, (p.Patient ∧ p.closed = none) ∧ (0 ∈ message.drop 16 ∨ 0 ∈ p.rx.input.take 16)) ∧
          (0 ∈ message.drop 16 ∨ 0 ∈ client.rx.input.take 16) := by
    apply served_iff (I := fun m : Bytes => m.length = 128 ∧ m.drop 16 = message.drop 16)
    · intro m p hm
      rw [session_returns_iff hm.1 p, hm.2]
    · intro m p m' p' hm hrun
      exact (session_keeps hm.1 hrun).imp_right (·.trans hm.2)
    · exact ⟨hlen, rfl⟩
    · rw [hwire]
      decide
    · intro m hm
      rw [after_session_iff hm.1 hclient hwire, hm.2]
  rw [hserved]
  by_cases hrest : 0 ∈ message.drop 16
  · simp [hrest]
  · simp only [hrest, false_or, List.forall_mem_append, List.forall_mem_singleton]
    constructor
    · rintro ⟨hall, hclient⟩
      exact ⟨fun p hp => (hall p hp).1, fun p hp => (hall p hp).2, hclient⟩
    · rintro ⟨hpatient, hzero, hclient⟩
      exact ⟨fun p hp => ⟨hpatient p hp, hzero p hp⟩, hclient⟩

end NetProg.C.TcpSixteenServer
