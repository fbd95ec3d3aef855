import NetProg.System.Receive
import NetProg.System.Send

/-!
# `Socket::SendAll` and `Socket::RecvAll` of the C++ library

The retrying loops of `lib/cxx/wrapsock.cpp`. Each turn makes one system call, so a loop that is given
one turn more than its script has answers never stops for want of turns.

Two facts sum them up. `sendAll_spec`: over a benign script with at least one answer that moves bytes for
each byte of the buffer, `SendAll` returns and has put exactly the buffer on the wire.
`recvAll_readsExactly`: `RecvAll` reads exactly what it is asked for, in the sense of
`Lib.ReadsExactly`, or throws at the end of the stream. `sendAll_cases` and `recvAll_returns_iff` are about
any answers: each call returns exactly if enough bytes are moved before the first failure other than an
interruption.
-/

namespace NetProg.Cxx.Socket
open Lib (run_pure run_bind_ok run_bind_error)

/-- `int Socket::Send(const void*, size_t, int, std::error_code&)` with a fresh error code. -/
def send (ptr : Bytes) (len : ℕ) : EStateM Stop Tx (ℤ × Option Errno) := do
  let (n, errno) ← NetProg.send ptr len
  let ec := if n < 0 then errno else none
  return (toInt n, ec)

/-- The body of the loop, on `ptr` and `nleft`. -/
def sendAllTurn (v : Bytes × ℕ) : EStateM Stop Tx (Bytes × ℕ) := do
  let (nwritten, ec) ← send v.1 v.2
  let nwritten ←
    if nwritten ≤ 0 then
      if nwritten < 0 ∧ ec = some .EINTR then pure 0 else throw (.systemError ec)
    else pure nwritten
  return (v.1.drop nwritten.toNat, toSize (v.2 - nwritten))

/-- `void Socket::SendAll(const void* buf, size_t len)`. -/
def sendAll (buf : Bytes) (len : ℕ) : EStateM Stop Tx Unit := fun tx =>
  Lib.whileLoop (fun v => v.2 > 0) sendAllTurn (fun _ => ()) .blocked (tx.script.length + 1) (buf, len) tx

/-- `int Socket::Recv(void*, size_t, int, std::error_code&)` with a fresh error code, and the bytes it
wrote. -/
def recv (len : ℕ) : EStateM Stop Rx (ℤ × Option Errno × Bytes) := do
  let (n, errno, got) ← NetProg.recv len
  let ec := if n < 0 then errno else none
  return (toInt n, ec, got)

/-- `int Socket::Recv(void* buf, size_t len)`, and the bytes it wrote. -/
def recvOrThrow (len : ℕ) : EStateM Stop Rx (ℤ × Bytes) := do
  let (n, ec, got) ← recv len
  if ec ≠ none then throw (.systemError ec) else return (n, got)

/-- `std::string Socket::Recv(size_t len)`. -/
def recvString (len : ℕ) : EStateM Stop Rx Bytes := do
  let (n, got) ← recvOrThrow len
  return got.take n.toNat

/-- The body of the loop, on what stands before `ptr` and `nleft`. -/
def recvAllTurn (len : ℕ) (v : Bytes × ℕ) : EStateM Stop Rx (Bytes × ℕ) := do
  let (nread, ec, got) ← recv v.2
  let nread ←
    if nread ≤ 0 then
      if nread = 0 then throw (.socketClosed len (toSize (len - v.2)))
      else if ec = some .EINTR then pure 0
      else throw (.systemError ec)
    else pure nread
  return (v.1 ++ got, toSize (v.2 - nread))

/-- `void Socket::RecvAll(void* buf, size_t len)` and `std::string Socket::RecvAll(size_t len)`: the
bytes the buffer holds on return. -/
def recvAll (len : ℕ) : EStateM Stop Rx Bytes := fun rx =>
  Lib.whileLoop (fun v => v.2 > 0) (recvAllTurn len) Prod.fst .blocked (rx.script.length + 1) ([], len) rx

/-! ### One turn -/

section turn

variable {turns nleft n : ℕ} {ptr wire buf input : Bytes}

theorem send_accept {script : List SendAnswer} :
    send ptr nleft ⟨wire, .accept n :: script⟩ =
      .ok ((moved n nleft : ℤ), none) ⟨wire ++ ptr.take (moved n nleft), script⟩ := by
  have hint : toInt (moved n nleft) = (moved n nleft : ℤ) := toInt_of_le (moved_le_INT_MAX n nleft)
  rw [send, run_bind_ok NetProg.send_accept]
  simp only [run_pure, hint, ite_self]

theorem send_fail {script : List SendAnswer} {errno : Errno} :
    send ptr nleft ⟨wire, .fail errno :: script⟩ = .ok (-1, some errno) ⟨wire, script⟩ := by
  rw [send, run_bind_ok NetProg.send_fail]
  simp only [run_pure, toInt_neg_one, show (-1 : ℤ) < 0 by decide, if_true]

theorem sendAllTurn_sendTurns : SendTurns sendAllTurn where
  accepts ptr nleft wire m script hpos hlt := by
    have hcount := moved_pos (n := m) hpos
    have hne : ¬ (moved m nleft : ℤ) ≤ 0 := by omega
    rw [sendAllTurn, run_bind_ok send_accept]
    simp only [if_neg hne]
    rw [run_bind_ok (run_pure _ _), Int.toNat_natCast, toSize_sub (moved_le m nleft) hlt, run_pure]
  interrupted ptr nleft wire script hpos hlt := by
    have hsize : toSize ((nleft : ℤ) - 0) = nleft := by simpa using toSize_sub (Nat.zero_le nleft) hlt
    rw [sendAllTurn, run_bind_ok send_fail]
    simp only [show (-1 : ℤ) ≤ 0 by decide, if_true, show (-1 : ℤ) < 0 by decide, and_self]
    rw [run_bind_ok (run_pure _ _), hsize, Int.toNat_zero, List.drop_zero, run_pure]
  fails ptr nleft wire a script ha := by
    rcases SendAnswer.cases_of_not_benign ha with rfl | ⟨errno, rfl, herrno⟩
    · have hzero : send ptr nleft ⟨wire, .zero :: script⟩ = .ok (0, none) ⟨wire, script⟩ := by
        rw [send, run_bind_ok NetProg.send_zero]
        rfl
      refine ⟨.systemError none, ?_⟩
      rw [sendAllTurn, run_bind_ok hzero]
      exact run_bind_error rfl
    · have hne : ¬ some errno = some Errno.EINTR := fun h => herrno (Option.some.inj h)
      refine ⟨.systemError (some errno), ?_⟩
      rw [sendAllTurn, run_bind_ok send_fail]
      simp only [show (-1 : ℤ) ≤ 0 by decide, if_true, hne, and_false, if_false]
      exact run_bind_error rfl
  blocked ptr nleft wire := run_bind_error (run_bind_error rfl)

theorem recv_deliver {script : List RecvAnswer} :
    recv nleft ⟨input, .deliver n :: script⟩ =
      .ok ((moved n (min nleft input.length) : ℤ), none, input.take (moved n (min nleft input.length)))
        ⟨input.drop (moved n (min nleft input.length)), script⟩ := by
  have hint := toInt_of_le (moved_le_INT_MAX n (min nleft input.length))
  rw [recv, run_bind_ok NetProg.recv_deliver]
  simp only [run_pure, hint, ite_self]

theorem recv_fail {script : List RecvAnswer} {errno : Errno} :
    recv nleft ⟨input, .fail errno :: script⟩ = .ok (-1, some errno, []) ⟨input, script⟩ := by
  rw [recv, run_bind_ok NetProg.recv_fail]
  simp only [run_pure, toInt_neg_one, show (-1 : ℤ) < 0 by decide, if_true]

theorem recvOrThrow_deliver {len : ℕ} {script : List RecvAnswer} :
    recvOrThrow len ⟨input, .deliver n :: script⟩ =
      .ok ((moved n (min len input.length) : ℤ), input.take (moved n (min len input.length)))
        ⟨input.drop (moved n (min len input.length)), script⟩ := by
  rw [recvOrThrow, run_bind_ok recv_deliver]
  rfl

theorem recvOrThrow_fail {len : ℕ} {script : List RecvAnswer} {errno : Errno} :
    recvOrThrow len ⟨input, .fail errno :: script⟩ = .error (.systemError (some errno)) ⟨input, script⟩ := by
  rw [recvOrThrow, run_bind_ok recv_fail]
  rfl

theorem recvString_deliver {len : ℕ} {script : List RecvAnswer} :
    recvString len ⟨input, .deliver n :: script⟩ =
      .ok (input.take (moved n (min len input.length)))
        ⟨input.drop (moved n (min len input.length)), script⟩ := by
  rw [recvString, run_bind_ok recvOrThrow_deliver]
  simp only [Int.toNat_natCast, List.take_take, min_self, run_pure]

theorem recvString_fail {len : ℕ} {script : List RecvAnswer} {errno : Errno} :
    recvString len ⟨input, .fail errno :: script⟩ = .error (.systemError (some errno)) ⟨input, script⟩ :=
  run_bind_error recvOrThrow_fail

/-- What the end of the stream reports. -/
def recvAllEof (len : ℕ) (v : Bytes × ℕ) : Stop := .socketClosed len (toSize (len - v.2))

theorem recvAllTurn_deliver (len : ℕ) {script : List RecvAnswer} (hpos : 0 < nleft)
    (hlt : nleft < 2 ^ 64) (hinput : input ≠ []) :
    recvAllTurn len (buf, nleft) ⟨input, .deliver n :: script⟩ =
      .ok (buf ++ input.take (moved n (min nleft input.length)), nleft - moved n (min nleft input.length))
        ⟨input.drop (moved n (min nleft input.length)), script⟩ := by
  have hlen : 0 < input.length := List.length_pos_iff.mpr hinput
  have hcount : 0 < moved n (min nleft input.length) := moved_pos (by omega)
  have hle : moved n (min nleft input.length) ≤ nleft := (moved_le _ _).trans (min_le_left _ _)
  have hne : ¬ (moved n (min nleft input.length) : ℤ) ≤ 0 := by omega
  rw [recvAllTurn, run_bind_ok recv_deliver]
  simp only [if_neg hne]
  rw [run_bind_ok (run_pure _ _), toSize_sub hle hlt, run_pure]

theorem recvAllTurn_eof (len : ℕ) {script : List RecvAnswer} :
    recvAllTurn len (buf, nleft) ⟨[], .deliver n :: script⟩ =
      .error (recvAllEof len (buf, nleft)) ⟨[], script⟩ := by
  rw [recvAllTurn, run_bind_ok recv_deliver]
  simp only [List.length_nil, Nat.min_zero, moved_zero, Nat.cast_zero, le_refl, if_true]
  exact run_bind_error rfl

theorem recvAllTurn_eintr (len : ℕ) {script : List RecvAnswer} (hlt : nleft < 2 ^ 64) :
    recvAllTurn len (buf, nleft) ⟨input, .fail .EINTR :: script⟩ = .ok (buf, nleft) ⟨input, script⟩ := by
  have hsize : toSize ((nleft : ℤ) - 0) = nleft := by simpa using toSize_sub (Nat.zero_le nleft) hlt
  rw [recvAllTurn, run_bind_ok recv_fail]
  simp only [show (-1 : ℤ) ≤ 0 by decide, if_true, show ¬ (-1 : ℤ) = 0 by decide, if_false]
  rw [run_bind_ok (run_pure _ _), hsize, List.append_nil, run_pure]

theorem recvAllTurn_receiveTurns (len : ℕ) :
    ReceiveTurns (2 ^ 64) Prod.snd (fun v got => v.1 = got) (recvAllEof len) (recvAllTurn len) where
  deliver v got input m script hholds hpos hlt hinput := by
    obtain ⟨buf, nleft⟩ := v
    cases hholds
    exact ⟨_, recvAllTurn_deliver len hpos hlt hinput, rfl, rfl⟩
  ended v got m script _ _ _ := recvAllTurn_eof len
  eintr v got input script _ _ hlt := .inl (recvAllTurn_eintr len hlt)
  fails v got input errno script _ herrno := by
    have hne : ¬ some errno = some Errno.EINTR := fun h => herrno (Option.some.inj h)
    refine ⟨.systemError (some errno), ⟨input, script⟩, ?_⟩
    rw [recvAllTurn, run_bind_ok recv_fail]
    simp only [show (-1 : ℤ) ≤ 0 by decide, if_true, show ¬ (-1 : ℤ) = 0 by decide, if_false, if_neg hne]
    exact run_bind_error rfl
  blocked v input := ⟨.blocked, _, run_bind_error (run_bind_error rfl)⟩

end turn

/-! ### Whole loops -/

theorem sendAll_spec {buf : Bytes} {tx : Tx} (hlt : buf.length < 2 ^ 64) (hbenign : tx.Benign)
    (hbudget : buf.length ≤ tx.budget) :
    ∃ tx', sendAll buf buf.length tx = .ok () tx' ∧ tx'.wire = tx.wire ++ buf ∧ tx'.Benign ∧
      tx.budget ≤ tx'.budget + buf.length := by
  have h := sendAllTurn_sendTurns.returns (le_refl buf.length) hlt hbenign hbudget
  rwa [List.take_length] at h

theorem recvAll_readsExactly :
    Lib.ReadsExactly (2 ^ 64) Rx.Benign Rx.input Rx.budget Stop.IsEof recvAll :=
  ReceiveTurns.readsExactly recvAllTurn_receiveTurns (fun _ _ hholds => hholds) (fun _ _ => trivial) (fun _ => rfl)
    fun _ => rfl

/-! ### Any answers -/

/-- `SendAll` returns exactly if the kernel takes all of the buffer before it reports a failure, and then the
buffer is on the wire. -/
theorem sendAll_cases {buf : Bytes} (tx : Tx) (hlt : buf.length < 2 ^ 64) :
    (Lib.Offers SendAnswer.Benign SendAnswer.offer buf.length tx.script ∧
        ∃ tx', sendAll buf buf.length tx = .ok () tx' ∧ tx'.wire = tx.wire ++ buf) ∨
      (¬ Lib.Offers SendAnswer.Benign SendAnswer.offer buf.length tx.script ∧
        ∃ e tx', sendAll buf buf.length tx = .error e tx') := by
  have hcases := sendAllTurn_sendTurns.run_cases (le_refl buf.length) hlt tx
  rwa [List.take_length] at hcases

theorem sendAll_completeSend {buf : Bytes} {n : ℕ} (hle : n ≤ buf.length) (hlt : n < 2 ^ 64) (tx : Tx) :
    CompleteSend sendAllTurn buf n tx (sendAll buf n tx) :=
  sendAllTurn_sendTurns.completeSend hle hlt tx

theorem exists_sendAll_returns {buf : Bytes} {n : ℕ} (hle : n ≤ buf.length) (hlt : n < 2 ^ 64) (wire : Bytes)
    (sends : SendSchedule) : ∃ N, ∀ k ≥ N, ∃ tx, sendAll buf n ⟨wire, sends.upTo k⟩ = .ok () tx := by
  obtain ⟨N, hN⟩ := sends.exists_budget n
  refine ⟨N, ?_⟩
  intro k hk
  obtain ⟨tx, hrun, -⟩ := sendAllTurn_sendTurns.returns hle hlt (sends.benign wire k)
    (hN k hk wire)
  exact ⟨tx, hrun⟩

/-- `RecvAll` returns exactly if the peer sends enough and the kernel moves enough before it reports a
failure. -/
theorem recvAll_returns_iff {n : ℕ} (rx : Rx) (hlt : n < 2 ^ 64) :
    (∃ buf rx', recvAll n rx = .ok buf rx') ↔
      n ≤ rx.input.length ∧ Lib.Offers RecvAnswer.Benign RecvAnswer.offer n rx.script :=
  (recvAllTurn_receiveTurns n).returns_iff Prod.fst hlt rfl rfl rx

/-- A call for `n` bytes, on a stream. -/
def ReceivesExactly (n : ℕ) (input : Bytes) (recvs : RecvSchedule) : Prop :=
  ExactReceive recv Prod.snd (recvAllTurn n) ([], n) id n (recvAll n) input recvs

theorem receivesExactly {n : ℕ} (hlt : n < 2 ^ 64) (input : Bytes) (recvs : RecvSchedule) :
    ReceivesExactly n input recvs := by
  apply (recvAllTurn_receiveTurns n).exactReceive
  · exact fun v => ⟨_, rfl⟩
  · exact fun v got hholds => hholds
  · exact hlt
  · rfl
  · rfl
  · intro v _ hlen hshort
    refine ⟨rfl, ?_⟩
    rw [toSize_sub (by omega) hlt]
    omega

end NetProg.Cxx.Socket
