import NetProg.Cxx.Wrapsock
import NetProg.Lib.Loop
import NetProg.System.Chunked

/-!
# The C++ server of a stream

The loop of `tcp_streamer_server.cpp`, which collects what a client sends in a `std::string` and prints it.
-/

namespace NetProg.Cxx.TcpStreamerServer
open Lib

/-- The body of `while (true)`, on `message` and on whether `break` has been reached. -/
def turn (v : Bytes × Bool) : EStateM Stop Rx (Bytes × Bool) := do
  let (n, got) ← Socket.recvOrThrow 8192
  if n = 0 then return (v.1, true) else return (v.1 ++ got.take (toSize n), false)

/-- `server` from the accepted connection on: the text that it prints for the message. -/
def server : EStateM Stop Rx Bytes := fun rx =>
  whileLoop (fun v => v.2 = false) turn Prod.fst .blocked (rx.script.length + 1) ([], false) rx

/-- What holds at the head of the loop. -/
structure Head (input : Bytes) (v : Bytes × Bool) (rx : Rx) : Prop where
  collected : v.1 ++ rx.input = input
  chunked : v.2 = false → rx.Chunked 8192
  ended : v.2 = true → rx.input = []

theorem recvOrThrow_next {size : ℕ} {rx : Rx} (h : rx.Chunked size) (hsize : size ≤ INT_MAX) :
    ∃ got rx', Socket.recvOrThrow size rx = .ok (got.length, got) rx' ∧ rx.NextChunk size got rx' := by
  obtain ⟨got, rx', hrecv, hnext⟩ := h.recv_next hsize
  refine ⟨got, rx', ?_, hnext⟩
  have hint : toInt got.length = got.length := toInt_of_le (hnext.length_le.trans hsize)
  have hsocket : Socket.recv size rx = .ok (got.length, none, got) rx' := by
    rw [Socket.recv, run_bind_ok hrecv]
    simp [hint]
  rw [Socket.recvOrThrow, run_bind_ok hsocket]
  simp

theorem turns_head (input : Bytes) :
    Turns (fun v : Bytes × Bool => v.2 = false) turn (Head input) (fun rx : Rx => rx.script.length)
      fun _ => False := by
  intro v rx h heof
  obtain ⟨got, rx', hrecv, hstream, hfits, hscript, hrest⟩ := recvOrThrow_next (h.chunked heof) (by decide)
  have hall : v.1 ++ (got ++ rx'.input) = input := by rw [hstream, h.collected]
  rw [turn, run_bind_ok hrecv]
  dsimp only
  rcases hrest with ⟨rfl, hend⟩ | ⟨hne, hmore⟩
  · refine .inl ⟨(v.1, true), rx', by simp, ⟨hall, ?_, fun _ => hend⟩, hscript⟩
    simp
  · have htake : got.take (toSize got.length) = got := by
      rw [toSize_of_lt (hfits.trans_lt (by decide)), List.take_length]
    have hpos : ¬ (got.length : ℤ) = 0 := by simpa using hne
    rw [if_neg hpos, htake]
    refine .inl ⟨(v.1 ++ got, false), rx', by simp, ⟨by simpa using hall, fun _ => hmore, ?_⟩, hscript⟩
    simp

theorem server_eq {input : Bytes} {script : List RecvAnswer} (h : (Rx.mk input script).Chunked 8192) :
    ∃ rx, server ⟨input, script⟩ = .ok input rx := by
  have hstart : Head input ([], false) ⟨input, script⟩ := ⟨rfl, fun _ => h, fun heof => by simp at heof⟩
  rcases (turns_head input).run_cases Prod.fst .blocked hstart (Nat.lt_succ_self _) with
    ⟨v, rx, hhead, heof, hrun⟩ | ⟨-, -, hfails, -⟩
  · have hmessage := hhead.collected
    rw [hhead.ended (by simpa using heof), List.append_nil] at hmessage
    refine ⟨rx, ?_⟩
    rwa [hmessage] at hrun
  · exact hfails.elim

end NetProg.Cxx.TcpStreamerServer
