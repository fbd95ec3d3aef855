import NetProg.Cxx.Wrapsock
import NetProg.Lib.Sessions
import NetProg.System.Peer

/-!
# The C++ server of sixteen bytes

The loop of `tcp_sixteen_server.cpp`. Every session makes its own `Socket` and string, and nothing is kept for
the next one; an exception leaves `main`.
-/

namespace NetProg.Cxx.TcpSixteenServer
open Lib Socket

/-- One turn of `while (true)`. The message is printed as a string of sixteen characters. -/
def session : EStateM Stop Peer Bytes :=
  Peer.turn (Socket.recvAll 16) (fun _ => return ()) (Socket.sendAll farewell farewell.length)

/-- `server`. A session has no use for the message of the last one. -/
def server (clients : List Peer) : List Peer := serveAll (fun _ => session) [] clients

theorem print_eq_ok_iff (_message : Bytes) (q : Peer) (u : Unit) (q' : Peer) :
    (pure () : EStateM Stop Peer Unit) q = .ok u q' ↔ True ∧ q' = q := by
  rw [run_pure, EStateM.Result.ok.injEq]
  simp [eq_comm]

theorem session_eq_ok_iff {message : Bytes} {p p' : Peer} :
    session p = .ok message p' ↔
      (Peer.Retried p.aborted ∧ p.sockname = none ∧ p.peername = none) ∧
        ∃ rx tx, (Socket.recvAll 16 p.rx = .ok message rx ∧ True) ∧
          Socket.sendAll farewell farewell.length p.tx = .ok () tx ∧ p.closed = none ∧
            p' = { p with rx, tx } :=
  Peer.turn_eq_ok_iff print_eq_ok_iff

theorem session_returns_iff (p : Peer) :
    (∃ message p', session p = .ok message p') ↔ p.Patient ∧ p.closed = none := by
  have hrecv := Socket.recvAll_returns_iff p.rx (show 16 < 2 ^ 64 by decide)
  have hsend := Socket.sendAll_cases p.tx (show farewell.length < 2 ^ 64 by rw [length_farewell]; decide)
  rw [length_farewell] at hsend
  constructor
  · rintro ⟨message, p', h⟩
    obtain ⟨⟨hretried, hsockname, hpeername⟩, rx, tx, ⟨hmessage, -⟩, hsent, hclosed, -⟩ :=
      session_eq_ok_iff.1 h
    obtain ⟨hsends, hdelivered⟩ := hrecv.1 ⟨_, _, hmessage⟩
    rcases hsend with ⟨htaken, -⟩ | ⟨-, e, tx', hfails⟩
    · exact ⟨⟨hretried, hsockname, hpeername, hsends, hdelivered, htaken⟩, hclosed⟩
    · rw [length_farewell, hfails] at hsent
      cases hsent
  · rintro ⟨hpatient, hclosed⟩
    obtain ⟨message, rx, hmessage⟩ := hrecv.2 ⟨hpatient.sends, hpatient.delivered⟩
    rcases hsend with ⟨-, tx, hsent, -⟩ | ⟨htaken, -⟩
    · rw [← length_farewell] at hsent
      exact ⟨message, _, session_eq_ok_iff.2
        ⟨hpatient.calls, rx, tx, ⟨hmessage, trivial⟩, hsent, hclosed, rfl⟩⟩
    · exact absurd hpatient.taken htaken

theorem after_session {p : Peer} (hpatient : p.Patient) (hwire : p.tx.wire = []) :
    (after session p).tx.wire = farewell := by
  obtain ⟨message, rx, hmessage⟩ := (Socket.recvAll_returns_iff p.rx (show 16 < 2 ^ 64 by decide)).2
    ⟨hpatient.sends, hpatient.delivered⟩
  rcases Socket.sendAll_cases p.tx (show farewell.length < 2 ^ 64 by rw [length_farewell]; decide) with
    ⟨-, tx, hsent, hsame⟩ | ⟨htaken, -⟩
  · rw [session, Peer.after_turn print_eq_ok_iff hpatient.calls hmessage trivial hsent, hsame, hwire,
      List.nil_append]
  · rw [length_farewell] at htaken
    exact absurd hpatient.taken htaken

theorem reply_iff (before rest : List Peer) {client : Peer} (hclient : client.Patient)
    (hwire : client.tx.wire = []) :
    (∃ p, (server (before ++ client :: rest))[before.length]? = some p ∧ p.tx.wire = farewell) ↔
      ∀ p ∈ before, p.Patient ∧ p.closed = none := by
  have hserved : (∃ p, (server (before ++ client :: rest))[before.length]? = some p ∧
      p.tx.wire = farewell) ↔ (∀ p ∈ before, p.Patient ∧ p.closed = none) ∧ True := by
    apply served_iff (I := fun _ => True)
    · exact fun _ p _ => session_returns_iff p
    · exact fun _ _ _ _ _ _ => trivial
    · trivial
    · rw [hwire]
      decide
    · exact fun _ _ => iff_of_true (after_session hclient hwire) trivial
  rw [hserved, and_true]

end NetProg.Cxx.TcpSixteenServer
