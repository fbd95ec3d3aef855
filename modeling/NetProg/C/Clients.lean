import NetProg.C.SixteenMessages
import NetProg.System.Calls
import NetProg.System.Collect

/-!
# The clients in C

What `tcp_sixteen_client.c`, `tcp_streamer_client.c` and `tcp_daytime_client.c` do on their connections, and
the session of `tcp_sixteen_server.c` on the other end. `SendMsg` and `RecvAll` do the two acts of a talk, and
so the functions that are made of them are talks.
-/

namespace NetProg.C
open Lib (Act run_pure run_bind_ok run_bind_error)
open Conn Sockaddr

theorem sendAll_sendsAll {buf : Bytes} {n : ℕ} (hle : n ≤ buf.length) (hlt : n < 2 ^ 64) :
    SendsAll (buf.take n) (sendAll buf n) :=
  sendAllTurn_sendTurns.sendsAll (fun _ => rfl) hle hlt

theorem sendMsg_plays {string : Bytes} (hnul : 0 ∉ string) (hlt : string.length < 2 ^ 64) :
    Plays [.say string] (fun _ heard => heard = []) (transmit (sendMsg (literal string))) := by
  have hsends := @sendAll_sendsAll (literal string) string.length
    (by rw [literal, List.length_append]; omega) hlt
  rw [literal, List.take_left] at hsends
  rw [sendMsg, strlen_literal hnul]
  exact hsends.plays

theorem recvAll_plays {object : Bytes} {n : ℕ} (hfits : n ≤ object.length) (hlt : n < 2 ^ 64) :
    Plays [.hear n] (fun object' heard => heard.length = n ∧ object' = splice object 0 heard)
      (receive (recvAll object n)) := by
  have hplays := (recvAllTurn_receiveTurns object n).plays (v := (object, 0, n))
    (x := recvAll object n) (fun _ => rfl) hlt (stands_start hfits)
  apply hplays.mono
  rintro object' heard ⟨hlen, v, rfl, hstands⟩
  exact ⟨hlen, hstands.1⟩

/-! ### Sixteen bytes -/

namespace TcpSixteenClient

/-- `printf("The server said %s\n", reply)`, as far as it depends on the reply: the text. -/
def printReply (reply : Bytes) : EStateM Stop Conn Bytes :=
  match string reply 0 with
  | some text => return text
  | none => throw (.outOfBounds reply.length reply.length)

/-- `client` from the connected socket on, when the array `reply` has such bytes: the text that it prints. -/
def client (reply : Bytes) : EStateM Stop Conn Bytes := do
  transmit (sendMsg (literal greeting))
  let reply ← receive (recvAll reply 16)
  printReply reply

theorem client_plays {reply : Bytes} (hlen : reply.length = 128) (hnul : 0 ∈ reply.drop 16) :
    Plays [.say greeting, .hear 16]
      (fun text heard => string (heard ++ reply.drop 16) 0 = some text) (client reply) := by
  have hsend := @sendMsg_plays greeting (by decide) (by rw [length_greeting]; decide)
  have hrecv := @recvAll_plays reply 16 (by omega) (by decide)
  show Plays ([.say greeting] ++ ([.hear 16] ++ [])) _ _
  apply hsend.bind
  rintro - said rfl
  apply hrecv.bind
  rintro reply' heard ⟨hheard, rfl⟩
  have hsplice : splice reply 0 heard = heard ++ reply.drop 16 := by
    rw [splice, List.take_zero, List.nil_append, Nat.zero_add, hheard]
  have hmem : 0 ∈ (heard ++ reply.drop 16).drop 0 := List.mem_append_right _ hnul
  obtain ⟨text, htext⟩ := Option.isSome_iff_exists.1 (isSome_string_iff.2 hmem)
  rw [hsplice, printReply, htext]
  apply plays_pure
  rw [List.append_nil, List.nil_append]
  exact htext

end TcpSixteenClient

theorem TcpSixteenServer.session_plays {message : Bytes} (hlen : message.length = 128)
    (hnul : 0 ∈ message.drop 16) :
    Plays [.hear 16, .say farewell]
      (fun message' heard => message' = heard ++ message.drop 16) (Peer.serving (session message)) := by
  apply Peer.serving_plays
  · apply (recvAll_plays (by omega) (by decide)).mono
    rintro message' heard ⟨hheard, rfl⟩
    rw [splice, List.take_zero, List.nil_append, Nat.zero_add, hheard]
  · exact sendMsg_plays (by decide) (by rw [length_farewell]; decide)
  · rintro message' heard rfl q
    exact (printMessage_eq_ok_iff _ q () q).2 ⟨List.mem_append_right heard hnul, rfl⟩

/-! ### A stream -/

namespace TcpStreamerClient

/-- `client` of `tcp_streamer_client.c` from the shut down socket on. -/
def client : EStateM Stop Conn Unit := do
  transmit (sendMsg (literal (ascii "Beautiful is better than ugly.\n")))
  transmit (sendMsg (literal (ascii "Explicit is better than implicit.\n")))
  transmit (sendMsg (literal (ascii "Simple is better than complex.\n")))

theorem client_eq : client = maxims.forM fun maxim => transmit (sendMsg (literal maxim)) := by
  simp [client, maxims]

theorem client_plays : Plays (maxims.map .say) (fun _ heard => heard = []) client := by
  have hmaxims : ∀ maxim ∈ maxims, 0 ∉ maxim ∧ maxim.length < 2 ^ 64 := by decide
  rw [client_eq]
  rw [List.map_eq_flatMap]
  apply plays_forM
  intro maxim hmaxim
  exact sendMsg_plays (hmaxims maxim hmaxim).1 (hmaxims maxim hmaxim).2

end TcpStreamerClient

/-! ### The time of day -/

namespace TcpDaytimeClient

/-- The body of `while`, on what has been printed and on whether the call at its head has returned 0. -/
def turn (v : Bytes × Bool) : EStateM Stop Rx (Bytes × Bool) := do
  let (n, errno, got) ← NetProg.recv 127
  if n < 0 then throw (.systemError errno)
  else if toInt n > 0 then return (v.1 ++ cString (got.take (toSize (toInt n)) ++ [0]), false)
  else return (v.1, true)

/-- `client` of `tcp_daytime_client.c` from the connected socket on: the text that it prints. -/
def client : EStateM Stop Rx Bytes := fun rx =>
  Lib.whileLoop (fun v => v.2 = false) turn Prod.fst .blocked (rx.script.length + 1) ([], false) rx

theorem turn_chunkTurns : ChunkTurns 127 false (fun s => 0 ∉ s) Prod.snd (fun v got => v.1 = got) turn where
  deliver v got input m script hholds heof hfits hinput := by
    have hlen := List.length_pos_iff.2 hinput
    have hcount : 0 < moved m (min 127 input.length) := moved_pos (by omega)
    have hle := moved_le m (min 127 input.length)
    have hint : toInt ((moved m (min 127 input.length) : ℕ) : ℤ) = moved m (min 127 input.length) :=
      toInt_of_le (moved_le_INT_MAX _ _)
    have hnul : 0 ∉ input.take (moved m (min 127 input.length)) := by
      intro hmem
      exact hfits (List.mem_append_right got (List.mem_of_mem_take hmem))
    have hcut : cString (input.take (moved m (min 127 input.length)) ++ [0]) =
        input.take (moved m (min 127 input.length)) := by
      rw [cString_terminated, cString_eq_self hnul]
    refine ⟨(v.1 ++ input.take (moved m (min 127 input.length)), false), ?_, rfl, by rw [hholds]⟩
    rw [turn, run_bind_ok recv_deliver]
    dsimp only
    rw [if_neg (by omega), hint, if_pos (by omega), toSize_of_lt (by omega), List.take_take, min_self, hcut, run_pure]
  ended v got m script hholds _ _ := by
    refine ⟨(v.1, true), ?_, rfl, hholds⟩
    rw [turn, run_bind_ok recv_deliver]
    simp [run_pure, toInt]
  repeats hagain := by cases hagain
  fails v got input errno script _ _ := by
    refine ⟨.systemError (some errno), ⟨input, script⟩, ?_⟩
    rw [turn, run_bind_ok recv_fail]
    rfl
  blocked v got input _ := ⟨.blocked, ⟨input, []⟩, run_bind_error rfl⟩

end TcpDaytimeClient

end NetProg.C
