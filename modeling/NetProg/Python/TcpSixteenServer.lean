import NetProg.Python.Blocks

/-!
# The Python server of sixteen bytes

`recvall` of `tcp_sixteen_server.py`. It keeps the bytes themselves and asks for the difference of two
lengths, where the loop of `blocks.py` counts down. The argument of `sock.recv` is converted to a
`Py_ssize_t`, so no length from `2 ^ 63` on can be asked for.
-/

namespace NetProg.Python.TcpSixteenServer
open Lib (run_pure run_throw run_bind_ok run_bind_error)

/-- `sock.recv(length)`, with the conversion of `length`. -/
def recv (length : ℕ) : EStateM Stop Rx Bytes :=
  if length < 2 ^ 63 then Python.recv length else throw (.overflowError length)

/-- The body of the loop, on `data`. -/
def recvallTurn (length : ℕ) (data : Bytes) : EStateM Stop Rx Bytes := do
  let more ← recv (length - data.length)
  if more = [] then throw (.socketClosed length data.length)
  else return data ++ more

/-- `recvall(sock, length)`. -/
def recvall (length : ℕ) : EStateM Stop Rx Bytes := fun rx =>
  Lib.whileLoop (fun data => data.length < length) (recvallTurn length) id .blocked (rx.script.length + 1) [] rx

/-- What is missing. -/
def asked (length : ℕ) (data : Bytes) : ℕ := length - data.length

theorem recvall_eq (length : ℕ) : recvall length = fun rx => Lib.whileLoop (fun data => asked length data > 0)
    (recvallTurn length) id .blocked (rx.script.length + 1) [] rx := by
  unfold recvall
  rw [Lib.whileLoop_congr fun data => Nat.sub_pos_iff_lt.symm]
  rfl

theorem recvallTurn_receiveTurns (length : ℕ) :
    ReceiveTurns (2 ^ 63) (asked length) (fun data got => data = got)
      (fun data => .socketClosed length data.length) (recvallTurn length) where
  deliver data got input m script hholds hpos hlt hinput := by
    have hlen : 0 < input.length := List.length_pos_iff.mpr hinput
    have hcount : 0 < moved m (min (asked length data) input.length) := moved_pos (by omega)
    have hle := moved_le m (min (asked length data) input.length)
    have htake : (input.take (moved m (min (asked length data) input.length))).length =
        moved m (min (asked length data) input.length) := List.length_take_of_le (by omega)
    have hne : input.take (moved m (min (asked length data) input.length)) ≠ [] := by
      rw [← List.length_pos_iff, htake]
      exact hcount
    refine ⟨data ++ input.take (moved m (min (asked length data) input.length)), ?_, ?_, ?_⟩
    · rw [recvallTurn, recv, ← asked, if_pos hlt, run_bind_ok recv_deliver, if_neg hne, run_pure]
    · rw [asked, List.length_append, htake, asked]
      omega
    · rw [hholds]
  ended data got m script _ _ hlt := by
    rw [recvallTurn, recv, ← asked, if_pos hlt, run_bind_ok recv_deliver, if_pos List.take_nil, run_throw,
      List.drop_nil]
  -- the interruption is repeated inside the call of `recv`
  eintr data got input script _ _ hlt := by
    refine .inr ?_
    rw [recvallTurn, recv, ← asked, if_pos hlt]
    rfl
  fails data got input errno script _ herrno := by
    rw [recvallTurn, recv, ← asked]
    split
    · exact ⟨_, _, run_bind_error (recv_fail herrno)⟩
    · exact ⟨_, _, run_bind_error (run_throw _ _)⟩
  blocked data input := by
    rw [recvallTurn, recv, ← asked]
    split
    · exact ⟨_, _, run_bind_error recv_blocked⟩
    · exact ⟨_, _, run_bind_error (run_throw _ _)⟩

theorem recvall_overflow {length : ℕ} (h : 2 ^ 63 ≤ length) (rx : Rx) :
    recvall length rx = .error (.overflowError length) rx := by
  have hturn : recvallTurn length [] rx = .error (.overflowError length) rx := by
    rw [recvallTurn, recv, List.length_nil, Nat.sub_zero, if_neg (by omega)]
    exact run_bind_error (run_throw _ _)
  have hpos : asked length [] > 0 := by
    rw [asked, List.length_nil]
    omega
  rw [recvall_eq]
  exact Lib.whileLoop_stopped hpos hturn

/-- A call for `length` bytes, on a stream. -/
def ReceivesExactly (length : ℕ) (input : Bytes) (recvs : RecvSchedule) : Prop :=
  ExactReceive recv (asked length) (recvallTurn length) [] id length (recvall length) input recvs

theorem receivesExactly_iff (length : ℕ) (input : Bytes) (recvs : RecvSchedule) :
    ReceivesExactly length input recvs ↔ length < 2 ^ 63 := by
  constructor
  · intro h
    by_contra hbig
    have hover := recvall_overflow (Nat.le_of_not_lt hbig)
    rcases Nat.lt_or_ge input.length length with hshort | hle
    · obtain ⟨N, hN⟩ := h.short hshort
      obtain ⟨stop, rx, hrun, hreports, -⟩ := hN N le_rfl
      rw [hover] at hrun
      cases hrun
      exact hreports
    · obtain ⟨N, hN⟩ := h.enough hle
      obtain ⟨rx, hrun, -⟩ := hN N le_rfl
      rw [hover] at hrun
      cases hrun
  · intro hlt
    rw [ReceivesExactly, recvall_eq]
    apply (recvallTurn_receiveTurns length).exactReceive
    · exact fun data => ⟨_, rfl⟩
    · exact fun data got hholds => hholds
    · exact hlt
    · rfl
    · rfl
    · intro data hholds _ _
      exact ⟨rfl, congrArg List.length hholds⟩

end NetProg.Python.TcpSixteenServer
