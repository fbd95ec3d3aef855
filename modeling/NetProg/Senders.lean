import NetProg.C.BlockServer
import NetProg.Cxx.Blocks

/-!
# The senders of the two libraries

`SendAll` of the C library and `Socket::SendAll` of the C++ library do the same with every answer of the
kernel. `PutBlock` is built on the latter in C++ and on a single call of `send` in C, and this is where the
two encoders differ.
-/

namespace NetProg
open Lib (run_bind_ok)

/-! ### SendAll -/

/-- Both functions are complete senders, whatever the kernel answers, and interruptions that do not go on for
ever do not keep them from returning. -/
theorem sendAll_complete {buf : Bytes} {n : ℕ} (hle : n ≤ buf.length) (hlt : n < 2 ^ 64) :
    (∀ tx, CompleteSend C.sendAllTurn buf n tx (C.sendAll buf n tx)) ∧
    (∀ tx, CompleteSend Cxx.Socket.sendAllTurn buf n tx (Cxx.Socket.sendAll buf n tx)) ∧
    ∀ wire (sends : SendSchedule),
      (∃ N, ∀ k ≥ N, ∃ tx, C.sendAll buf n ⟨wire, sends.upTo k⟩ = .ok () tx) ∧
        ∃ N, ∀ k ≥ N, ∃ tx, Cxx.Socket.sendAll buf n ⟨wire, sends.upTo k⟩ = .ok () tx :=
  ⟨C.sendAll_completeSend hle hlt, Cxx.Socket.sendAll_completeSend hle hlt, fun wire sends =>
    ⟨C.exists_sendAll_returns hle hlt wire sends, Cxx.Socket.exists_sendAll_returns hle hlt wire sends⟩⟩

/-- Two bytes, one of which goes out before the connection is reset. -/
theorem sendAll_complete_hi :
    CompleteSend C.sendAllTurn [104, 105] 2 ⟨[], [.accept 1, .fail (.other 104)]⟩
        (C.sendAll [104, 105] 2 ⟨[], [.accept 1, .fail (.other 104)]⟩) ∧
      CompleteSend Cxx.Socket.sendAllTurn [104, 105] 2 ⟨[], [.accept 1, .fail (.other 104)]⟩
        (Cxx.Socket.sendAll [104, 105] 2 ⟨[], [.accept 1, .fail (.other 104)]⟩) := by
  have h := @sendAll_complete [104, 105] 2 (by decide) (by decide)
  exact ⟨h.1 _, h.2.1 _⟩

/-! ### The header of PutBlock -/

/-- The run has failed with nothing on the wire, or it has put the header of its message there and the
message, as far as it got. -/
def TruthfulHeader (message : Bytes) (tx : Tx) (run : EStateM.Result Stop Tx Unit) : Prop :=
  (∃ stop tx', run = .error stop tx' ∧ tx'.wire = tx.wire) ∨
    ∃ header, header.length = 4 ∧ ofBe header = message.length ∧ Puts (header ++ message) tx run

theorem truthfulHeader_of_puts {message : Bytes} (hlt : message.length < 2 ^ 32) {tx : Tx}
    {run : EStateM.Result Stop Tx Unit} (h : Puts (be32 message.length ++ message) tx run) :
    TruthfulHeader message tx run :=
  .inr ⟨be32 message.length, length_be32 _, ofBe_be32 hlt, h⟩

theorem not_truthfulHeader {message wire sent : Bytes} (hle : 2 ^ 32 ≤ message.length)
    {script : List SendAnswer} {run : EStateM.Result Stop Tx Unit} {stop : Stop} {tx' : Tx}
    (hrun : run = .error stop tx') (hwire : tx'.wire = wire ++ sent) (hsent : sent ≠ []) :
    ¬ TruthfulHeader message ⟨wire, script⟩ run := by
  rintro (⟨stop', tx'', hrun', hsame⟩ | ⟨header, hlen, hheader, -⟩)
  · rw [hrun] at hrun'
    cases hrun'
    rw [hwire] at hsame
    exact hsent (List.append_right_eq_self.1 hsame)
  · have hlt := ofBe_lt hlen
    omega

theorem take_store_htonl (e : Endian) {n : ℕ} (hlt : n < 2 ^ 32) :
    (store e (htonl e (toU32 n))).take 4 = be32 n := by
  rw [List.take_of_length_le (length_store e _).le, store_htonl_toU32 e hlt]

namespace Cxx

theorem putBlock_puts (e : Endian) {message : Bytes} (hlt : message.length < 2 ^ 32) (tx : Tx) :
    Puts (be32 message.length ++ message) tx (putBlock e message tx) := by
  have hheader := (Socket.sendAll_completeSend (length_store e (htonl e (toU32 message.length))).ge
    (by decide) tx).puts
  have hmessage := fun tx => (Socket.sendAll_completeSend (le_refl message.length) (by omega) tx).puts
  rw [take_store_htonl e hlt] at hheader
  simp only [List.take_length] at hmessage
  exact hheader.bind hmessage

theorem putBlock_header (e : Endian) {message : Bytes} (hpos : 0 < message.length) :
    putBlock e message ⟨[], [.accept 4]⟩ =
      .error .blocked ⟨store e (htonl e (toU32 message.length)), []⟩ := by
  have hheader : Socket.sendAll (store e (htonl e (toU32 message.length))) 4 ⟨[], [.accept 4]⟩ =
      .ok () ⟨store e (htonl e (toU32 message.length)), []⟩ := by
    have hturn := Socket.sendAllTurn_sendTurns.accepts (store e (htonl e (toU32 message.length))) 4 [] 4 []
      (by decide) (by decide)
    rw [show moved 4 4 = 4 by decide, List.take_of_length_le (length_store e _).le] at hturn
    rw [Socket.sendAll, Lib.whileLoop, if_pos (Nat.succ_pos 3), run_bind_ok hturn, List.length_singleton, Lib.whileLoop,
      if_neg (Nat.lt_irrefl 0)]
    rfl
  rw [putBlock, run_bind_ok hheader]
  exact Lib.whileLoop_stopped hpos (Socket.sendAllTurn_sendTurns.blocked message message.length _)

theorem putBlock_truthful_iff (message : Bytes) :
    (∀ e tx, TruthfulHeader message tx (putBlock e message tx)) ↔ message.length < 2 ^ 32 := by
  constructor
  · intro h
    by_contra hle
    rw [Nat.not_lt] at hle
    refine not_truthfulHeader hle (putBlock_header .big (by omega)) (List.nil_append _).symm ?_ (h .big _)
    rw [← List.length_pos_iff, length_store]
    decide
  · intro hlt e tx
    exact truthfulHeader_of_puts hlt (putBlock_puts e hlt tx)

end Cxx

namespace C

theorem putBlock_puts {call : SendCall} (hcall : call.Conforms) (e : Endian) {message : Bytes}
    (hnul : 0 ∉ message) (hlt : message.length < 2 ^ 32) (tx : Tx) :
    Puts (be32 message.length ++ message) tx (putBlock call e (literal message) tx) := by
  have hheader := send_puts hcall tx (length_store e (htonl e (toU32 message.length))).ge (by decide)
  have hmessage := fun tx => send_puts hcall tx
    (show message.length ≤ (literal message).length by simp [literal]) (by omega)
  rw [take_store_htonl e hlt] at hheader
  simp only [literal, List.take_left] at hmessage
  rw [putBlock, strlen_literal hnul]
  exact hheader.bind hmessage

theorem putBlock_header (e : Endian) {message : Bytes} (hnul : 0 ∉ message) :
    putBlock NetProg.send e (literal message) ⟨[], [.accept 4]⟩ =
      .error .blocked ⟨store e (htonl e (toU32 message.length)), []⟩ := by
  have hheader : send NetProg.send (store e (htonl e (toU32 message.length))) 4 ⟨[], [.accept 4]⟩ =
      .ok () ⟨store e (htonl e (toU32 message.length)), []⟩ := by
    rw [send, run_bind_ok send_accept, List.nil_append,
      List.take_of_length_le (by rw [length_store]; decide)]
    rfl
  rw [putBlock, strlen_literal hnul, run_bind_ok hheader]
  rfl

theorem putBlock_truthful_iff {message : Bytes} (hnul : 0 ∉ message) :
    (∀ call : SendCall, call.Conforms → ∀ e tx,
        TruthfulHeader message tx (putBlock call e (literal message) tx)) ↔ message.length < 2 ^ 32 := by
  constructor
  · intro h
    by_contra hle
    rw [Nat.not_lt] at hle
    refine not_truthfulHeader hle (putBlock_header .big hnul) (List.nil_append _).symm ?_
      (h NetProg.send SendCall.conforms_send .big _)
    rw [← List.length_pos_iff, length_store]
    decide
  · intro hlt call hcall e tx
    exact truthfulHeader_of_puts hlt (putBlock_puts hcall e hnul hlt tx)

end C

/-- Whatever the kernel answers, the header is that of the message if the message is short enough for it, and
otherwise both functions send a header that is wrong. -/
theorem truthfulHeader_iff (message : Bytes) :
    ((∀ e tx, TruthfulHeader message tx (Cxx.putBlock e message tx)) ↔ message.length < 2 ^ 32) ∧
    (0 ∉ message → ((∀ call : C.SendCall, call.Conforms → ∀ e tx,
      TruthfulHeader message tx (C.putBlock call e (C.literal message) tx)) ↔ message.length < 2 ^ 32)) :=
  ⟨Cxx.putBlock_truthful_iff message, C.putBlock_truthful_iff⟩

/-- The smallest message that no header announces: 2 ^ 32 times the letter `A`. -/
def tooLong : Bytes := List.replicate (2 ^ 32) 65

theorem length_tooLong : tooLong.length = 2 ^ 32 := List.length_replicate

theorem zero_not_mem_tooLong : 0 ∉ tooLong := fun h => absurd (List.eq_of_mem_replicate h) (by decide)

theorem store_header_tooLong : store .little (htonl .little (toU32 tooLong.length)) = [0, 0, 0, 0] := by
  rw [length_tooLong]
  decide

/-- Both functions announce no bytes at all, send the message and return. -/
theorem header_of_tooLong :
    (∃ k tx, Cxx.putBlock .little tooLong ⟨[], (SendSchedule.always 1).upTo k⟩ = .ok () tx ∧
        tx.wire = [0, 0, 0, 0] ++ tooLong) ∧
      (∃ tx, C.putBlock .whole .little (C.literal tooLong) ⟨[], []⟩ = .ok () tx ∧
        tx.wire = [0, 0, 0, 0] ++ tooLong) ∧
      ¬ (∀ e tx, TruthfulHeader tooLong tx (Cxx.putBlock e tooLong tx)) ∧
      ¬ ∀ call : C.SendCall, call.Conforms → ∀ e tx,
        TruthfulHeader tooLong tx (C.putBlock call e (C.literal tooLong) tx) := by
  have hlen := length_tooLong
  refine ⟨?_, ?_, ?_, ?_⟩
  · obtain ⟨N, hN⟩ := (SendSchedule.always 1).exists_budget (4 + tooLong.length)
    have hbenign := (SendSchedule.always 1).benign [] N
    have hbudget := hN N le_rfl []
    obtain ⟨tx₁, hrun₁, hwire₁, hben₁, hbud₁⟩ := @Cxx.Socket.sendAll_spec [0, 0, 0, 0] _ (by decide) hbenign
      ((Nat.le_add_right 4 _).trans hbudget)
    have hleft : tooLong.length ≤ tx₁.budget := by
      have hfour : ([0, 0, 0, 0] : Bytes).length = 4 := rfl
      omega
    obtain ⟨tx₂, hrun₂, hwire₂, -⟩ := Cxx.Socket.sendAll_spec (by omega) hben₁ hleft
    refine ⟨N, tx₂, ?_, ?_⟩
    · rw [Cxx.putBlock, store_header_tooLong]
      exact (run_bind_ok hrun₁).trans hrun₂
    · rw [hwire₂, hwire₁]
      rfl
  · have hheader : C.send .whole [0, 0, 0, 0] 4 ⟨[], []⟩ = .ok () ⟨[0, 0, 0, 0], []⟩ := rfl
    obtain ⟨tx, hrun, hwire⟩ := C.send_whole C.SendCall.acceptsWhole_whole ⟨[0, 0, 0, 0], []⟩
      (show tooLong.length ≤ (C.literal tooLong).length by simp [C.literal]) (by omega)
    refine ⟨tx, ?_, ?_⟩
    · rw [C.putBlock, C.strlen_literal zero_not_mem_tooLong, store_header_tooLong]
      exact (run_bind_ok hheader).trans hrun
    · rw [hwire, C.literal, List.take_left]
  · rw [Cxx.putBlock_truthful_iff, hlen]
    exact lt_irrefl _
  · rw [C.putBlock_truthful_iff zero_not_mem_tooLong, hlen]
    exact lt_irrefl _

/-! ### The two encoders on one schedule -/

theorem Cxx.putBlock_returns (e : Endian) {message : Bytes} (hlt : message.length < 2 ^ 32) (wire : Bytes)
    (sends : SendSchedule) :
    ∃ N, ∀ k ≥ N, ∃ tx, Cxx.putBlock e message ⟨wire, sends.upTo k⟩ = .ok () tx ∧
      tx.wire = wire ++ networkOrder.frame message := by
  obtain ⟨N, hN⟩ := sends.exists_budget (networkOrder.frame message).length
  refine ⟨N, ?_⟩
  intro k hk
  obtain ⟨tx, hrun, hwire, -⟩ := Cxx.putBlock_writesFrames e message 0 ⟨wire, sends.upTo k⟩ hlt
    ⟨sends.benign wire k, by simpa using hN k hk wire⟩
  exact ⟨tx, hrun, hwire⟩

theorem C.putBlock_schedule_iff (e : Endian) {message : Bytes} (hnul : 0 ∉ message)
    (hlt : message.length < 2 ^ 32) (wire : Bytes) (sends : SendSchedule) :
    (∃ N, ∀ k ≥ N, ∃ tx,
        C.putBlock NetProg.send e (C.literal message) ⟨wire, sends.upTo k⟩ = .ok () tx ∧
          tx.wire = wire ++ networkOrder.frame message) ↔
      C.TakesWhole 4 (sends.answer 0) ∧ C.TakesWhole message.length (sends.answer 1) := by
  have hC := fun k => @C.putBlock_returns_iff e message wire hnul hlt _ _ (sends.allowed_answer 0)
    (sends.allowed_answer 1) ((List.range k).map fun i => sends.answer (i + 2))
  have hscript : ∀ k, sends.upTo (k + 2) =
      sends.answer 0 :: sends.answer 1 :: (List.range k).map fun i => sends.answer (i + 2) := by
    intro k
    rw [Lib.Schedule.upTo_succ, List.range_succ_eq_map, List.map_cons, List.map_map]
    rfl
  constructor
  · rintro ⟨N, hN⟩
    have hrun := hN (N + 2) (Nat.le_add_right N 2)
    rw [hscript] at hrun
    exact (hC N).1 hrun
  · intro htakes
    refine ⟨2, ?_⟩
    intro k hk
    obtain ⟨k, rfl⟩ := Nat.exists_eq_add_of_le' hk
    rw [hscript]
    exact (hC k).2 htakes

/-- On every schedule on which nothing fails the C++ `PutBlock` returns with the frame of its message on the
wire. The C function does so exactly if its two calls take all they are given. -/
theorem putBlocks_agree_iff (e : Endian) {message : Bytes} (hnul : 0 ∉ message)
    (hlt : message.length < 2 ^ 32) (wire : Bytes) (sends : SendSchedule) :
    (∃ N, ∀ k ≥ N, ∃ tx, Cxx.putBlock e message ⟨wire, sends.upTo k⟩ = .ok () tx ∧
      tx.wire = wire ++ networkOrder.frame message) ∧
    ((∃ N, ∀ k ≥ N, ∃ tx,
        C.putBlock NetProg.send e (C.literal message) ⟨wire, sends.upTo k⟩ = .ok () tx ∧
          tx.wire = wire ++ networkOrder.frame message) ↔
      C.TakesWhole 4 (sends.answer 0) ∧ C.TakesWhole message.length (sends.answer 1)) :=
  ⟨Cxx.putBlock_returns e hlt wire sends, C.putBlock_schedule_iff e hnul hlt wire sends⟩

/-- Two bytes, and calls that take one byte each. -/
theorem putBlocks_agree_iff_hi :
    (∃ N, ∀ k ≥ N, ∃ tx, Cxx.putBlock .little [104, 105] ⟨[], (SendSchedule.always 1).upTo k⟩ = .ok () tx ∧
      tx.wire = [] ++ networkOrder.frame [104, 105]) ∧
    ((∃ N, ∀ k ≥ N, ∃ tx,
        C.putBlock NetProg.send .little (C.literal [104, 105]) ⟨[], (SendSchedule.always 1).upTo k⟩ =
          .ok () tx ∧ tx.wire = [] ++ networkOrder.frame [104, 105]) ↔
      C.TakesWhole 4 ((SendSchedule.always 1).answer 0) ∧
        C.TakesWhole [(104 : UInt8), 105].length ((SendSchedule.always 1).answer 1)) :=
  @putBlocks_agree_iff .little [104, 105] (by decide) (by decide) [] (.always 1)

/-- The kernel takes one byte of the header in the first call: the C function fails with it on the wire, and
the C++ function goes on. -/
theorem short_header_stops_putBlock :
    C.putBlock NetProg.send .little (C.literal [104, 105]) ⟨[], [.accept 1, .accept 3, .accept 2]⟩ =
        .error (.systemError none) ⟨[0], [.accept 3, .accept 2]⟩ ∧
      Cxx.putBlock .little [104, 105] ⟨[], [.accept 1, .accept 3, .accept 2]⟩ =
        .ok () ⟨[0, 0, 0, 2, 104, 105], []⟩ ∧
      ¬ ∃ N, ∀ k ≥ N, ∃ tx,
        C.putBlock NetProg.send .little (C.literal [104, 105]) ⟨[], (SendSchedule.always 1).upTo k⟩ =
          .ok () tx ∧ tx.wire = [] ++ networkOrder.frame [104, 105] := by
  refine ⟨rfl, rfl, ?_⟩
  intro h
  have hfour : 4 ≤ offered 1 :=
    ((@C.putBlock_schedule_iff .little [104, 105] (by decide) (by decide) [] (.always 1)).1 h).1
  exact absurd hfour (by decide)

end NetProg
