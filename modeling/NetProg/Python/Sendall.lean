import NetProg.Python.TcpSixteenServer
import NetProg.System.Calls

/-!
# `sendall` and `recvall` in Python

`sock.sendall(data)` sends until everything has been taken or a call fails, and makes at least one call. It
repeats an interrupted call itself, and goes on after a call that has taken nothing.
-/

namespace NetProg.Python
open Lib (run_pure run_bind_ok run_bind_error Act)
open Conn

/-- The loop of `sock.sendall`. -/
def sendallLoop : ℕ → Bytes → EStateM Stop Tx Unit
  | 0, _ => throw .blocked
  | turns + 1, data => do
    let n ← send data
    if (data.drop n).length > 0 then sendallLoop turns (data.drop n) else return ()

/-- `sock.sendall(data)`. -/
def sendall (data : Bytes) : EStateM Stop Tx Unit := fun tx => sendallLoop (tx.script.length + 1) data tx

section

variable {turns n : ℕ} {data wire : Bytes} {script : List SendAnswer}

theorem send_fail {errno : Errno} (herrno : errno ≠ .EINTR) :
    send data ⟨wire, .fail errno :: script⟩ = .error (.systemError (some errno)) ⟨wire, script⟩ := by
  have hscript : (SendAnswer.fail errno :: script).dropWhile (· = .fail .EINTR) = .fail errno :: script := by
    simp [herrno]
  rw [send, Lib.run_modify_bind]
  simp only [hscript]
  rw [run_bind_ok NetProg.send_fail]
  rfl

theorem sendallLoop_accept :
    sendallLoop (turns + 1) data ⟨wire, .accept n :: script⟩ =
      (if (data.drop (moved n data.length)).length > 0 then sendallLoop turns (data.drop (moved n data.length))
        else return ()) ⟨wire ++ data.take (moved n data.length), script⟩ := by
  rw [sendallLoop, run_bind_ok (send_accept n data)]

theorem sendallLoop_eintr :
    sendallLoop (turns + 1) data ⟨wire, .fail .EINTR :: script⟩ = sendallLoop (turns + 1) data ⟨wire, script⟩ := rfl

theorem sendallLoop_reaches {β : Type} {P : Lib.Program UInt8 Errno} {value : P.State → Option β}
    {S : Bytes → P.State} (hS : Sends P value S) (rx : Rx) (htakes : SendAnswer.zero ∉ script)
    (hturns : script.length < turns) (hne : data ≠ []) :
    Reaches P value (S data) ⟨rx, ⟨wire, script⟩⟩ (fun _ tx' s c => s = S [] ∧ c = ⟨rx, tx'⟩)
      (sendallLoop turns data ⟨wire, script⟩) := by
  induction script generalizing turns data wire with
  | nil =>
    obtain ⟨turns, rfl⟩ := Nat.exists_eq_succ_of_ne_zero (by omega : turns ≠ 0)
    exact hS.blocked hne rx
  | cons a script ih =>
    obtain ⟨turns, rfl⟩ := Nat.exists_eq_succ_of_ne_zero (by omega : turns ≠ 0)
    rw [List.length_cons] at hturns
    have hrequest := hS.request data hne
    have hpos := List.length_pos_iff.2 hne
    obtain ⟨hzero, hrest⟩ := not_or.1 (List.mem_cons.not.1 htakes)
    cases a with
    | accept m =>
      have hk : 0 < moved m data.length := moved_pos hpos
      rw [sendallLoop_accept]
      apply reaches_call
      · rw [hrequest, answer_send_accept]
      · rw [hS.sent data _ hne hk]
        by_cases hleft : (data.drop (moved m data.length)).length > 0
        · rw [if_pos hleft]
          exact ih hrest (by omega) (List.length_pos_iff.1 hleft)
        · have hnil : data.drop (moved m data.length) = [] := List.length_eq_zero_iff.1 (by omega)
          rw [if_neg hleft, run_pure, hnil]
          exact ⟨_, _, .refl, rfl, rfl⟩
    | zero => exact absurd rfl hzero
    | fail errno =>
      by_cases herrno : errno = .EINTR
      · subst herrno
        rw [sendallLoop_eintr]
        apply reaches_call
        · rw [hrequest, answer_send_fail]
        · rw [hS.again data hne]
          exact ih hrest (by omega) hne
      · rw [sendallLoop, run_bind_error (send_fail herrno)]
        refine (Path.call ?_ .refl).fails (hS.gives_up data errno ⟨rx, ⟨wire, script⟩⟩ hne herrno)
        rw [hrequest, answer_send_fail]

theorem sendall_sendsAll (hne : data ≠ []) : SendsAll data (sendall data) := by
  intro β P value S hS ⟨rx, ⟨wire, script⟩⟩ htakes
  apply Reaches.transmit
  apply (sendallLoop_reaches hS rx htakes (Nat.lt_succ_self _) hne).mono
  rintro u tx s₁ c₁ ⟨rfl, rfl⟩
  exact ⟨rfl, rfl, rfl⟩

theorem sendall_plays (hne : data ≠ []) :
    Plays [.say data] (fun _ heard => heard = []) (transmit (sendall data)) := (sendall_sendsAll hne).plays

end

theorem blocks_recvall_plays (length : ℕ) :
    Plays [.hear length] (fun block heard => heard.length = length ∧ block = heard) (receive (recvall length)) := by
  have hplays := (recvallTurn_receiveTurns (length + 1)).plays (v := ([], length)) (x := recvall length)
    (congrFun (recvall_eq length)) (Nat.lt_succ_self _) rfl
  apply hplays.mono
  rintro block heard ⟨hlen, v, rfl, hholds⟩
  exact ⟨hlen, hholds⟩

theorem recvall_plays {length : ℕ} (hlt : length < 2 ^ 63) :
    Plays [.hear length] (fun message heard => heard.length = length ∧ message = heard)
      (receive (TcpSixteenServer.recvall length)) := by
  have hplays := (TcpSixteenServer.recvallTurn_receiveTurns length).plays (v := [])
    (congrFun (TcpSixteenServer.recvall_eq length)) hlt rfl
  apply hplays.mono
  rintro message heard ⟨hlen, v, rfl, rfl⟩
  exact ⟨hlen, rfl⟩

end NetProg.Python
