import NetProg.C.Clients
import NetProg.Cxx.Clients
import NetProg.Python.Clients
import NetProg.System.Transcript

/-!
# The clients and servers of sixteen bytes

Every client of `tcp/send_fixed_length_bytes` on a connection with the session of every server there, in
whatever order they make their calls, however their bytes are split on the way and however often a call is
interrupted. Each gets the sixteen bytes of the other, and both come to the end.
-/

namespace NetProg
open Lib (Dialogue)
open Conn

namespace SixteenExchange

/-- The clients, up to what they print of the reply. Only the one in C has an array. -/
def client (reply : Bytes) : Language → EStateM Stop Conn Bytes
  | .c => C.TcpSixteenClient.client reply
  | .cxx => Cxx.TcpSixteenClient.client
  | .python => Python.TcpSixteenClient.client

/-- The sessions of the servers, up to the message. -/
def session (message : Bytes) : Language → EStateM Stop Conn Bytes
  | .c => Peer.serving (C.TcpSixteenServer.session message)
  | .cxx => Peer.serving Cxx.TcpSixteenServer.session
  | .python => Peer.serving Python.TcpSixteenServer.session

/-- What stands behind sixteen bytes that were received. -/
def behind (array : Bytes) : Language → Bytes
  | .c => array.drop 16
  | _ => []

/-- What a client does on its connection. -/
def asking : Lib.Speaker UInt8 Errno [.EINTR] :=
  Lib.talk retries retries_EINTR [.say greeting, .hear 16]

/-- What a server does on it. -/
def replying : Lib.Speaker UInt8 Errno [.EINTR] :=
  Lib.talk retries retries_EINTR [.hear 16, .say farewell]

theorem dialogue : Dialogue asking replying greeting farewell := by
  have h := @Lib.dialogue_reply _ _ [.EINTR] retries retries retries_EINTR retries_EINTR [greeting] farewell
  rw [length_farewell, List.flatten_singleton, length_greeting] at h
  exact h

theorem text_eq {bytes rest text : Bytes} (hnul : 0 ∉ bytes) (h : Sockaddr.string (bytes ++ rest) 0 = some text) :
    text = bytes ++ cString rest := by
  rw [C.string_append_of_notMem hnul, Option.map_eq_some_iff] at h
  obtain ⟨behind, hbehind, rfl⟩ := h
  unfold Sockaddr.string at hbehind
  split at hbehind
  · cases hbehind
    rw [List.drop_zero]
  · cases hbehind

theorem client_plays {reply : Bytes} (hlen : reply.length = 128) (hnul : 0 ∈ reply.drop 16) (v : Language) :
    Plays [.say greeting, .hear 16]
      (fun text heard => 0 ∉ heard → text = heard ++ cString (behind reply v)) (client reply v) := by
  cases v with
  | c =>
    apply (C.TcpSixteenClient.client_plays hlen hnul).mono
    intro text heard htext hheard
    exact text_eq hheard htext
  | cxx =>
    apply Cxx.TcpSixteenClient.client_plays.mono
    rintro text heard rfl -
    simp [behind, cString]
  | python =>
    apply Python.TcpSixteenClient.client_plays.mono
    rintro text heard rfl -
    simp [behind, cString]

theorem session_plays {message : Bytes} (hlen : message.length = 128) (hnul : 0 ∈ message.drop 16) (v : Language) :
    Plays [.hear 16, .say farewell] (fun message' heard => message' = heard ++ behind message v)
      (session message v) := by
  cases v with
  | c => exact C.TcpSixteenServer.session_plays hlen hnul
  | cxx =>
    apply Cxx.TcpSixteenServer.session_plays.mono
    rintro message' heard rfl
    simp [behind]
  | python =>
    apply Python.TcpSixteenServer.session_plays.mono
    rintro message' heard rfl
    simp [behind]

theorem zeros : (List.replicate 128 (0 : UInt8)).length = 128 ∧ 0 ∈ (List.replicate 128 (0 : UInt8)).drop 16 := by
  simp

end SixteenExchange

end NetProg
