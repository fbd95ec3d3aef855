import NetProg.Python.Sendall
import NetProg.System.Collect
import Mathlib.Data.Bool.AllAny

/-!
# The clients in Python

What `tcp_sixteen_client.py`, `tcp_streamer_client.py` and `tcp_daytime_client.py` do on their connections, and
the servers on the other end.
-/

namespace NetProg.Python
open Lib (Act run_pure run_bind_ok run_bind_error adapt_ok adapt_error)
open Conn

/-- `data.decode('ascii')`, or none if it raises `UnicodeDecodeError`. -/
def decodeAscii (data : Bytes) : Option Bytes := if data.all (· < 128) then some data else none

theorem decodeAscii_eq_some {data text : Bytes} :
    decodeAscii data = some text ↔ (∀ b ∈ data, b < 128) ∧ text = data := by
  unfold decodeAscii
  split_ifs with h
  · rw [List.all_iff_forall_prop] at h
    rw [Option.some.injEq, and_iff_right h, eq_comm]
  · rw [List.all_iff_forall_prop] at h
    exact iff_of_false (by simp) fun hall => h hall.1

/-- `client` of `tcp_sixteen_client.py` from the connected socket on: the reply that it prints. -/
def TcpSixteenClient.client : EStateM Stop Conn Bytes := do
  transmit (sendall greeting)
  receive (TcpSixteenServer.recvall 16)

theorem TcpSixteenClient.client_plays :
    Plays [.say greeting, .hear 16] (fun reply heard => reply = heard) client := by
  show Plays ([.say greeting] ++ [.hear 16]) _ _
  apply (sendall_plays (by decide)).bind
  rintro - said rfl
  apply (recvall_plays (by decide)).mono
  rintro reply heard ⟨-, rfl⟩
  rfl

/-- One turn of `while True` of `tcp_sixteen_server.py`. A call of `accept` that fails is an exception. -/
def TcpSixteenServer.session : EStateM Stop Peer Bytes := do
  let p ← get
  Peer.check p.aborted.head?
  Peer.check p.sockname
  Peer.check p.peername
  let message ← Peer.receive (recvall 16)
  Peer.transmit (sendall farewell)
  Peer.check p.closed
  return message

theorem TcpSixteenServer.session_plays :
    Plays [.hear 16, .say farewell] (fun message heard => message = heard) (Peer.serving session) := by
  have hsame : Peer.serving session = Peer.serving (Peer.turn (recvall 16) (fun _ => return ()) (sendall farewell)) :=
    rfl
  rw [hsame]
  apply Peer.serving_plays
  · apply (recvall_plays (by decide)).mono
    rintro message heard ⟨-, rfl⟩
    rfl
  · exact sendall_plays (by decide)
  · exact fun _ _ _ _ => rfl

/-- `client` of `tcp_streamer_client.py` from the shut down socket on. -/
def TcpStreamerClient.client : EStateM Stop Conn Unit := do
  transmit (sendall (ascii "Beautiful is better than ugly.\n"))
  transmit (sendall (ascii "Explicit is better than implicit.\n"))
  transmit (sendall (ascii "Simple is better than complex.\n"))

theorem TcpStreamerClient.client_eq : client = maxims.forM fun maxim => transmit (sendall maxim) := by
  simp [client, maxims]

theorem TcpStreamerClient.client_plays : Plays (maxims.map .say) (fun _ heard => heard = []) client := by
  have hmaxims : ∀ maxim ∈ maxims, maxim ≠ [] := by decide
  rw [client_eq]
  rw [List.map_eq_flatMap]
  exact plays_forM fun maxim hmaxim => sendall_plays (hmaxims maxim hmaxim)

/-! ### The server of a stream -/

namespace TcpStreamerServer

/-- The body of `while True`, on `message` and on whether `break` has been reached. -/
def turn (v : Bytes × Bool) : EStateM Stop Rx (Bytes × Bool) := do
  let more ← recv 8192
  if more = [] then return (v.1, true) else return (v.1 ++ more, false)

/-- `server` from the accepted connection on: the text that it prints for the message, or none if
`message.decode('ascii')` raises an exception. -/
def server : EStateM Stop Rx (Option Bytes) := fun rx =>
  Lib.whileLoop (fun v => v.2 = false) turn (fun v => decodeAscii v.1) .blocked (rx.script.length + 1) ([], false) rx

theorem turn_chunkTurns : ChunkTurns 8192 true (fun _ => True) Prod.snd (fun v got => v.1 = got) turn where
  deliver v got input m script hholds heof _ hinput := by
    have hlen := List.length_pos_iff.2 hinput
    have hcount : 0 < moved m (min 8192 input.length) := moved_pos (by omega)
    have htake : input.take (moved m (min 8192 input.length)) ≠ [] := by
      apply List.ne_nil_of_length_pos
      rw [List.length_take]
      omega
    refine ⟨(v.1 ++ input.take (moved m (min 8192 input.length)), false), ?_, rfl, by rw [hholds]⟩
    rw [turn, run_bind_ok recv_deliver, if_neg htake, run_pure]
  ended v got m script hholds _ _ := by
    refine ⟨(v.1, true), ?_, rfl, hholds⟩
    rw [turn, run_bind_ok recv_deliver, if_pos List.take_nil, run_pure, List.drop_nil]
  repeats _ v got input script _ := rfl
  fails v got input errno script _ hinsists := by
    have herrno : errno ≠ .EINTR := by simpa [insists] using hinsists
    exact ⟨_, _, run_bind_error (recv_fail herrno)⟩
  blocked v got input _ := ⟨_, _, run_bind_error recv_blocked⟩

end TcpStreamerServer

/-! ### The time of day -/

namespace TcpDaytime

/-- One turn of `while True` of `tcp_daytime_server.py` on its connection, when `time.ctime()` is `ctime`. -/
def session (ctime : Bytes) : EStateM Stop Conn Unit := transmit (sendall (ctime ++ ascii "\r\n"))

theorem session_plays (ctime : Bytes) :
    Plays ([ctime ++ ascii "\r\n"].map .say) (fun _ heard => heard = []) (session ctime) :=
  sendall_plays (by simp [ascii])

/-- The body of `while True` of `tcp_daytime_client.py`, on what has been printed and on whether `break` has been
reached. -/
def turn (v : Bytes × Bool) : EStateM (Option Stop) Rx (Bytes × Bool) := do
  let data ← EStateM.adaptExcept some (recv 128)
  if data = [] then return (v.1, true)
  else
    match decodeAscii data with
    | some text => return (v.1 ++ text, false)
    | none => throw none

/-- The `try` statement of `client` up to its first handler: the text that it prints. It fails with an error of
`recv`, or with a `UnicodeDecodeError`, which is `none`. -/
def client : EStateM (Option Stop) Rx Bytes := fun rx =>
  Lib.whileLoop (fun v => v.2 = false) turn Prod.fst (some .blocked) (rx.script.length + 1) ([], false) rx

theorem turn_chunkTurns :
    ChunkTurns 128 true (fun s => ∀ b ∈ s, b < 128) Prod.snd (fun v got => v.1 = got) turn where
  deliver v got input m script hholds heof hfits hinput := by
    have hlen := List.length_pos_iff.2 hinput
    have hcount : 0 < moved m (min 128 input.length) := moved_pos (by omega)
    have htake : input.take (moved m (min 128 input.length)) ≠ [] := by
      apply List.ne_nil_of_length_pos
      rw [List.length_take]
      omega
    have hascii : ∀ b ∈ input.take (moved m (min 128 input.length)), b < 128 :=
      fun b hb => hfits b (List.mem_append_right got (List.mem_of_mem_take hb))
    refine ⟨(v.1 ++ input.take (moved m (min 128 input.length)), false), ?_, rfl, by rw [hholds]⟩
    rw [turn, run_bind_ok (adapt_ok _ recv_deliver), if_neg htake, decodeAscii_eq_some.2 ⟨hascii, rfl⟩]
    rfl
  ended v got m script hholds _ _ := by
    refine ⟨(v.1, true), ?_, rfl, hholds⟩
    rw [turn, run_bind_ok (adapt_ok _ recv_deliver), if_pos List.take_nil, run_pure, List.drop_nil]
  repeats _ v got input script _ := rfl
  fails v got input errno script _ hinsists := by
    have herrno : errno ≠ .EINTR := by simpa [insists] using hinsists
    exact ⟨_, _, run_bind_error (adapt_error _ (recv_fail herrno))⟩
  blocked v got input _ := ⟨_, _, run_bind_error (adapt_error _ recv_blocked)⟩

end TcpDaytime

end NetProg.Python
