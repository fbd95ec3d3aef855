import NetProg.Cxx.TcpSixteenServer
import NetProg.System.Calls
import NetProg.System.Collect

/-!
# The clients in C++

What `tcp_sixteen_client.cpp`, `tcp_streamer_client.cpp` and `tcp_daytime_client.cpp` do on their connections,
and the session of `tcp_sixteen_server.cpp` on the other end.
-/

namespace NetProg.Cxx
open Lib (Act run_pure run_bind_ok run_bind_error)
open Conn

theorem sendAll_sendsAll {buf : Bytes} (hlt : buf.length < 2 ^ 64) :
    SendsAll buf (Socket.sendAll buf buf.length) := by
  have hsends := Socket.sendAllTurn_sendTurns.sendsAll
    (x := Socket.sendAll buf buf.length) (fun _ => rfl) le_rfl hlt
  rwa [List.take_length] at hsends

theorem sendAll_plays {buf : Bytes} (hlt : buf.length < 2 ^ 64) :
    Plays [.say buf] (fun _ heard => heard = []) (transmit (Socket.sendAll buf buf.length)) :=
  (sendAll_sendsAll hlt).plays

theorem recvAll_plays {len : ℕ} (hlt : len < 2 ^ 64) :
    Plays [.hear len] (fun message heard => heard.length = len ∧ message = heard)
      (receive (Socket.recvAll len)) := by
  have hplays := (Socket.recvAllTurn_receiveTurns len).plays (v := ([], len))
    (x := Socket.recvAll len) (fun _ => rfl) hlt rfl
  apply hplays.mono
  rintro message heard ⟨hlen, v, rfl, hholds⟩
  exact ⟨hlen, hholds⟩

/-- `client` of `tcp_sixteen_client.cpp` from the connected socket on: the reply that it prints. -/
def TcpSixteenClient.client : EStateM Stop Conn Bytes := do
  transmit (Socket.sendAll greeting greeting.length)
  receive (Socket.recvAll 16)

theorem TcpSixteenClient.client_plays :
    Plays [.say greeting, .hear 16] (fun reply heard => reply = heard) client := by
  show Plays ([.say greeting] ++ [.hear 16]) _ _
  apply (sendAll_plays (by rw [length_greeting]; decide)).bind
  rintro - said rfl
  apply (recvAll_plays (by decide)).mono
  rintro reply heard ⟨-, rfl⟩
  rfl

theorem TcpSixteenServer.session_plays :
    Plays [.hear 16, .say farewell] (fun message heard => message = heard) (Peer.serving session) := by
  apply Peer.serving_plays
  · apply (recvAll_plays (by decide)).mono
    rintro message heard ⟨-, rfl⟩
    rfl
  · exact sendAll_plays (by rw [length_farewell]; decide)
  · exact fun _ _ _ _ => rfl

/-- `client` of `tcp_streamer_client.cpp` from the shut down socket on. -/
def TcpStreamerClient.client : EStateM Stop Conn Unit := do
  let beautiful := ascii "Beautiful is better than ugly.\n"
  transmit (Socket.sendAll beautiful beautiful.length)
  let explicit := ascii "Explicit is better than implicit.\n"
  transmit (Socket.sendAll explicit explicit.length)
  let simple := ascii "Simple is better than complex.\n"
  transmit (Socket.sendAll simple simple.length)

theorem TcpStreamerClient.client_eq :
    client = maxims.forM fun maxim => transmit (Socket.sendAll maxim maxim.length) := by
  simp [client, maxims]

theorem TcpStreamerClient.client_plays : Plays (maxims.map .say) (fun _ heard => heard = []) client := by
  have hmaxims : ∀ maxim ∈ maxims, maxim.length < 2 ^ 64 := by decide
  rw [client_eq]
  rw [List.map_eq_flatMap]
  exact plays_forM fun maxim hmaxim => sendAll_plays (hmaxims maxim hmaxim)

/-! ### The time of day -/

namespace TcpDaytimeClient

/-- The body of `while (true)`, on what has been printed and on whether `break` has been reached. -/
def turn (v : Bytes × Bool) : EStateM Stop Rx (Bytes × Bool) := do
  let recvline ← Socket.recvString 128
  if recvline.isEmpty then return (v.1, true) else return (v.1 ++ recvline, false)

/-- `client` of `tcp_daytime_client.cpp` from the connected socket on: the text that it prints. -/
def client : EStateM Stop Rx Bytes := fun rx =>
  Lib.whileLoop (fun v => v.2 = false) turn Prod.fst .blocked (rx.script.length + 1) ([], false) rx

theorem turn_chunkTurns : ChunkTurns 128 false (fun _ => True) Prod.snd (fun v got => v.1 = got) turn where
  deliver v got input m script hholds heof _ hinput := by
    have hlen := List.length_pos_iff.2 hinput
    have hcount : 0 < moved m (min 128 input.length) := moved_pos (by omega)
    have htake : ¬ (input.take (moved m (min 128 input.length))).isEmpty = true := by
      rw [List.isEmpty_iff, ← List.length_eq_zero_iff, List.length_take]
      omega
    refine ⟨(v.1 ++ input.take (moved m (min 128 input.length)), false), ?_, rfl, by rw [hholds]⟩
    rw [turn, run_bind_ok Socket.recvString_deliver, if_neg htake, run_pure]
  ended v got m script hholds _ _ := by
    refine ⟨(v.1, true), ?_, rfl, hholds⟩
    rw [turn, run_bind_ok Socket.recvString_deliver]
    simp [run_pure]
  repeats hagain := by cases hagain
  fails v got input errno script _ _ := ⟨_, _, run_bind_error Socket.recvString_fail⟩
  blocked v got input _ := ⟨_, _, run_bind_error rfl⟩

end TcpDaytimeClient

end NetProg.Cxx
