import NetProg.C.TcpStreamerServer
import NetProg.Cxx.TcpStreamerServer

/-!
# The servers of a stream

Both servers collect what their client sends up to the end of the stream. The C++ server prints it; the C
server prints it as a string, and keeps its length in an `int`.
-/

namespace NetProg
open Lib C.TcpStreamerServer

/-- The C server counts what it receives, in a block with room for one byte more, and prints the message
without a fault, the same as the C++ server. -/
structure CollectsAll (fresh : ℕ → ℕ → UInt8) (buf input : Bytes) (script script' : List RecvAnswer) : Prop where
  counted : ∀ v rx, AtHead (fun v : Vars => v.eof = false) (turn fresh) (start buf) ⟨input, script⟩ v rx →
    v.msg_len + rx.input.length = input.length ∧ v.message.length = v.msg_len + 1
  printed : ∃ text rx rx', server fresh buf ⟨input, script⟩ = .ok text rx ∧
    Cxx.TcpStreamerServer.server ⟨input, script'⟩ = .ok text rx'

theorem cString_eq_self_iff {bytes : Bytes} : cString bytes = bytes ↔ 0 ∉ bytes :=
  ⟨fun h => h ▸ C.notMem_cString bytes, cString_eq_self⟩

/-- In whatever chunks the stream comes to the two servers, the C server collects it like the C++ server
exactly if it has no zero byte, and there is an `int` for one more than its length. -/
theorem collectsAll_iff (fresh : ℕ → ℕ → UInt8) {buf input : Bytes} {script script' : List RecvAnswer}
    (hbuf : buf.length = 8192) (h : (Rx.mk input script).Chunked 8192) (h' : (Rx.mk input script').Chunked 8192) :
    CollectsAll fresh buf input script script' ↔ input.length < INT_MAX ∧ 0 ∉ input := by
  obtain ⟨rx', hcxx⟩ := Cxx.TcpStreamerServer.server_eq h'
  constructor
  · rintro ⟨-, text, rx, rx'', hc, hsame⟩
    rw [hcxx] at hsame
    cases hsame
    rcases server_cases fresh hbuf h with ⟨hlt, rx, hrun⟩ | ⟨-, rx, hrun⟩
    · rw [hrun] at hc
      injection hc with htext
      exact ⟨hlt, cString_eq_self_iff.1 htext⟩
    · rw [hrun] at hc
      cases hc
  · rintro ⟨hlt, hnul⟩
    refine ⟨fun v rx hhead => ?_, ?_⟩
    · obtain ⟨got, hinput, hmessage, hlen, -⟩ := collected_atHead fresh hbuf h hhead
      rw [← hinput, hmessage, hlen]
      simp
    · rcases server_cases fresh hbuf h with ⟨-, rx, hrun⟩ | ⟨hle, -⟩
      · rw [cString_eq_self hnul] at hrun
        exact ⟨input, rx, rx', hrun, hcxx⟩
      · omega

/-- Two letters in two chunks, and in one. -/
theorem collectsAll_iff_ab :
    CollectsAll (fun _ _ => 0) (List.replicate 8192 0) [97, 98] [.deliver 1, .deliver 1, .deliver 0]
      [.deliver 2, .deliver 0] :=
  (collectsAll_iff (fun _ _ => 0) List.length_replicate ⟨[1, 1], by decide, rfl, rfl⟩
    ⟨[2], by decide, rfl, rfl⟩).2 ⟨by decide, by decide⟩

/-- A zero byte between two letters. -/
theorem cut_at_zero :
    (Rx.mk [97, 0, 98] [.deliver 3, .deliver 0]).Chunked 8192 ∧
      ¬ CollectsAll (fun _ _ => 0) (List.replicate 8192 0) [97, 0, 98] [.deliver 3, .deliver 0]
        [.deliver 3, .deliver 0] := by
  have hchunked : (Rx.mk [97, 0, 98] [.deliver 3, .deliver 0]).Chunked 8192 := ⟨[3], by decide, rfl, rfl⟩
  refine ⟨hchunked, fun h => ?_⟩
  obtain ⟨text, rx, rx', hc, hcxx⟩ := h.printed
  obtain ⟨rx₁, hall⟩ := Cxx.TcpStreamerServer.server_eq hchunked
  rw [hall] at hcxx
  cases hcxx
  have hbuf : (List.replicate 8192 (0 : UInt8)).length = 8192 := List.length_replicate
  rcases server_cases (fun _ _ => 0) hbuf hchunked with ⟨-, rx₂, hrun⟩ | ⟨hle, -⟩
  · rw [hrun] at hc
    injection hc with htext
    exact absurd htext (by decide)
  · exact absurd hle (by decide)

end NetProg
