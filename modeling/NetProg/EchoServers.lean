import NetProg.C.Wrapsock
import NetProg.Cxx.Wrapsock
import NetProg.System.Conn

/-!
# The echo servers call by call

`str_echo` of both languages as a program of system calls on one socket. Both read 1024 bytes at a time and
send them back with `SendAll`, which goes on after an interruption. The C function also reads again after
one. The C++ function reads with `Recv`, which throws at every error, so an interruption before the end of
the stream is the end of the server (`echoesBack_iff`).
-/

namespace NetProg
open Lib (run_pure run_throw run_bind_ok run_bind_error bind_eq_ok_iff)

namespace C

/-- `void str_echo(int sockfd)`, from its label `again` on. -/
def strEchoLoop : ℕ → EStateM Stop Conn Unit
  | 0 => throw .blocked
  | turns + 1 => do
    let (n, errno, buf) ← Conn.receive (recv 1024)
    if n > 0 then do
      Conn.transmit (sendAll buf (toSize n))
      strEchoLoop turns
    else if n < 0 ∧ errno = some .EINTR then strEchoLoop turns
    else if n < 0 then throw (.systemError errno)
    else return ()

/-- The server with as many turns as the connection has answers for. -/
def strEchoRun : EStateM Stop Conn Unit := fun c => strEchoLoop (c.rx.script.length + 1) c

end C

namespace Cxx

/-- `void str_echo(Socket& sock)`. -/
def strEchoLoop : ℕ → EStateM Stop Conn Unit
  | 0 => throw .blocked
  | turns + 1 => do
    let buf ← Conn.receive (Socket.recvString 1024)
    if buf = [] then return ()
    else do
      Conn.transmit (Socket.sendAll buf buf.length)
      strEchoLoop turns

/-- The server with as many turns as the connection has answers for. -/
def strEchoRun : EStateM Stop Conn Unit := fun c => strEchoLoop (c.rx.script.length + 1) c

end Cxx

theorem length_sub_moved (m len : ℕ) :
    len - moved m (min 1024 len) = len - min 1024 (RecvAnswer.deliver m).offer := by
  rw [RecvAnswer.offer]
  unfold moved offered
  omega

theorem moved_le_stream (m len : ℕ) : moved m (min 1024 len) ≤ min 1024 len := moved_le _ _

/-- The run has returned at the end of the stream, having sent back exactly what it received. -/
def EchoedBack (c : Conn) (run : EStateM.Result Stop Conn Unit) : Prop :=
  ∃ c', run = .ok () c' ∧ c'.tx.wire = c.tx.wire ++ c.rx.input ∧ c'.rx.input = []

theorem EchoedBack.turned {input : Bytes} {k : ℕ} {script script' : List RecvAnswer} {tx tx' : Tx}
    {run : EStateM.Result Stop Conn Unit} (h : EchoedBack ⟨⟨input.drop k, script'⟩, tx'⟩ run)
    (hwire : tx'.wire = tx.wire ++ input.take k) : EchoedBack ⟨⟨input, script⟩, tx⟩ run := by
  obtain ⟨c', hrun, hsent, hrest⟩ := h
  refine ⟨c', hrun, ?_, hrest⟩
  rw [hsent, hwire, List.append_assoc, List.take_append_drop]

section

variable {turns m : ℕ} {input : Bytes} {script : List RecvAnswer} {tx tx' : Tx}

/-! ### The C server -/

namespace C

theorem strEchoLoop_deliver (hinput : input ≠ [])
    (hsend : sendAll (input.take (moved m (min 1024 input.length))) (moved m (min 1024 input.length)) tx =
      .ok () tx') :
    strEchoLoop (turns + 1) ⟨⟨input, .deliver m :: script⟩, tx⟩ =
      strEchoLoop turns ⟨⟨input.drop (moved m (min 1024 input.length)), script⟩, tx'⟩ := by
  have hlen : 0 < input.length := List.length_pos_iff.mpr hinput
  have hpos : 0 < moved m (min 1024 input.length) := moved_pos (by omega)
  have hle := moved_le_stream m input.length
  have hsize : toSize (moved m (min 1024 input.length)) = moved m (min 1024 input.length) :=
    toSize_of_lt (by omega)
  rw [strEchoLoop, run_bind_ok (Conn.receive_ok recv_deliver)]
  simp only [if_pos (Int.natCast_pos.2 hpos), hsize]
  exact run_bind_ok (Conn.transmit_ok hsend)

theorem strEchoLoop_ended :
    strEchoLoop (turns + 1) ⟨⟨[], .deliver m :: script⟩, tx⟩ = .ok () ⟨⟨[], script⟩, tx⟩ := by
  rw [strEchoLoop, run_bind_ok (Conn.receive_ok recv_deliver)]
  simp only [List.length_nil, Nat.min_zero, moved_zero, List.drop_nil]
  rfl

theorem strEchoLoop_eintr :
    strEchoLoop (turns + 1) ⟨⟨input, .fail .EINTR :: script⟩, tx⟩ =
      strEchoLoop turns ⟨⟨input, script⟩, tx⟩ := by
  have hread : Conn.receive (recv 1024) ⟨⟨input, .fail .EINTR :: script⟩, tx⟩ =
      .ok (-1, some .EINTR, []) ⟨⟨input, script⟩, tx⟩ := Conn.receive_ok recv_fail
  rw [strEchoLoop, run_bind_ok hread]
  rfl

theorem strEchoLoop_echoedBack (script : List RecvAnswer) {turns : ℕ} {input : Bytes} {tx : Tx}
    (hbenign : (Rx.mk input script).Benign) (hbudget : input.length < (Rx.mk input script).budget)
    (htx : tx.Benign) (hsends : input.length ≤ tx.budget) (hturns : script.length < turns) :
    EchoedBack ⟨⟨input, script⟩, tx⟩ (strEchoLoop turns ⟨⟨input, script⟩, tx⟩) := by
  obtain ⟨turns, rfl⟩ := Nat.exists_eq_succ_of_ne_zero (by omega : turns ≠ 0)
  induction script generalizing turns input tx with
  | nil => exact absurd hbudget (Nat.not_lt_zero _)
  | cons a script ih =>
    rw [List.length_cons] at hturns
    obtain ⟨turns, rfl⟩ := Nat.exists_eq_succ_of_ne_zero (by omega : turns ≠ 0)
    obtain ⟨ha, hscript⟩ := hbenign.cons
    rcases ha.cases with ⟨m, rfl⟩ | rfl
    · rw [Rx.budget_deliver] at hbudget
      by_cases hinput : input = []
      · subst hinput
        rw [strEchoLoop_ended]
        exact ⟨_, rfl, (List.append_nil _).symm, rfl⟩
      have hlen : 0 < input.length := List.length_pos_iff.mpr hinput
      have hpos : 0 < moved m (min 1024 input.length) := moved_pos (by omega)
      have hle := moved_le_stream m input.length
      have htake : (input.take (moved m (min 1024 input.length))).length = moved m (min 1024 input.length) :=
        List.length_take_of_le (by omega)
      obtain ⟨tx', hsend, hwire, htx', hspent⟩ := sendAll_spec htake.ge (by omega) htx (by omega)
      rw [List.take_take, min_self] at hwire
      have hrest : (Rx.mk (input.drop (moved m (min 1024 input.length))) script).Benign := hscript
      rw [strEchoLoop_deliver hinput hsend]
      refine .turned (ih hrest ?_ htx' ?_ turns (by omega)) hwire
      · rw [Rx.budget_input input, List.length_drop]
        omega
      · rw [List.length_drop]
        omega
    · rw [Rx.budget_fail] at hbudget
      rw [strEchoLoop_eintr]
      exact ih hscript hbudget htx hsends turns (by omega)

end C

/-! ### The C++ server -/

namespace Cxx

theorem strEchoLoop_deliver (hinput : input ≠ []) :
    strEchoLoop (turns + 1) ⟨⟨input, .deliver m :: script⟩, tx⟩ =
      (Conn.transmit (Socket.sendAll (input.take (moved m (min 1024 input.length)))
          (moved m (min 1024 input.length))) >>= fun _ => strEchoLoop turns)
        ⟨⟨input.drop (moved m (min 1024 input.length)), script⟩, tx⟩ := by
  have hlen : 0 < input.length := List.length_pos_iff.mpr hinput
  have hpos : 0 < moved m (min 1024 input.length) := moved_pos (by omega)
  have hle := moved_le_stream m input.length
  have htake : (input.take (moved m (min 1024 input.length))).length = moved m (min 1024 input.length) :=
    List.length_take_of_le (by omega)
  have hne : input.take (moved m (min 1024 input.length)) ≠ [] := by
    rw [← List.length_pos_iff, htake]
    exact hpos
  rw [strEchoLoop, run_bind_ok (Conn.receive_ok Socket.recvString_deliver), if_neg hne, htake]

theorem strEchoLoop_ended :
    strEchoLoop (turns + 1) ⟨⟨[], .deliver m :: script⟩, tx⟩ = .ok () ⟨⟨[], script⟩, tx⟩ := by
  rw [strEchoLoop, run_bind_ok (Conn.receive_ok Socket.recvString_deliver)]
  simp only [List.take_nil, List.drop_nil, if_true]
  rfl

theorem strEchoLoop_fail {errno : Errno} :
    strEchoLoop (turns + 1) ⟨⟨input, .fail errno :: script⟩, tx⟩ =
      .error (.systemError (some errno)) ⟨⟨input, script⟩, tx⟩ := by
  rw [strEchoLoop]
  exact run_bind_error (Conn.receive_error Socket.recvString_fail)

theorem strEchoLoop_echoedBack (script : List RecvAnswer) {turns : ℕ} {input : Bytes} {tx : Tx}
    (hheard : HeardOut 1024 input.length script) (htx : tx.Benign) (hsends : input.length ≤ tx.budget)
    (hturns : script.length < turns) :
    EchoedBack ⟨⟨input, script⟩, tx⟩ (strEchoLoop turns ⟨⟨input, script⟩, tx⟩) := by
  obtain ⟨turns, rfl⟩ := Nat.exists_eq_succ_of_ne_zero (by omega : turns ≠ 0)
  induction script generalizing turns input tx with
  | nil => exact absurd hheard not_heardOut_nil
  | cons a script ih =>
    rw [List.length_cons] at hturns
    obtain ⟨turns, rfl⟩ := Nat.exists_eq_succ_of_ne_zero (by omega : turns ≠ 0)
    obtain ⟨ha, hrest⟩ := heardOut_cons.1 hheard
    obtain ⟨m, rfl⟩ := ha.exists_deliver
    by_cases hinput : input = []
    · subst hinput
      rw [strEchoLoop_ended]
      exact ⟨_, rfl, (List.append_nil _).symm, rfl⟩
    have hlen : 0 < input.length := List.length_pos_iff.mpr hinput
    have hle := moved_le_stream m input.length
    have htake : (input.take (moved m (min 1024 input.length))).length = moved m (min 1024 input.length) :=
      List.length_take_of_le (by omega)
    obtain ⟨tx', hsend, hwire, htx', hspent⟩ := @Socket.sendAll_spec
      (input.take (moved m (min 1024 input.length))) tx (by omega) htx (by omega)
    rw [htake] at hsend hspent
    rw [strEchoLoop_deliver hinput, run_bind_ok (Conn.transmit_ok hsend)]
    refine .turned (ih ?_ htx' ?_ turns (by omega)) hwire
    · rw [List.length_drop, length_sub_moved]
      exact hrest.resolve_left (by omega)
    · rw [List.length_drop]
      omega

theorem heardOut_of_returned (script : List RecvAnswer) {turns : ℕ} {input : Bytes} {tx : Tx} {c : Conn}
    (hrun : strEchoLoop turns ⟨⟨input, script⟩, tx⟩ = .ok () c) : HeardOut 1024 input.length script := by
  induction script generalizing turns input tx with
  | nil =>
    obtain _ | turns := turns
    · cases hrun
    · cases hrun
  | cons a script ih =>
    obtain _ | turns := turns
    · cases hrun
    cases a with
    | deliver m =>
      by_cases hinput : input = []
      · exact heardOut_cons.2 ⟨trivial, .inl (by rw [hinput, List.length_nil])⟩
      rw [strEchoLoop_deliver hinput, bind_eq_ok_iff] at hrun
      obtain ⟨u, c', hsend, hrest⟩ := hrun
      rcases Conn.transmit_cases (Socket.sendAll (input.take (moved m (min 1024 input.length)))
        (moved m (min 1024 input.length))) ⟨⟨input.drop (moved m (min 1024 input.length)), script⟩, tx⟩ with
        ⟨_, tx', hsent⟩ | ⟨stop, tx', hfailed⟩
      · rw [hsent] at hsend
        cases hsend
        have hheard := ih hrest
        rw [List.length_drop, length_sub_moved] at hheard
        exact heardOut_cons.2 ⟨trivial, .inr hheard⟩
      · rw [hfailed] at hsend
        cases hsend
    | fail errno =>
      rw [strEchoLoop_fail] at hrun
      cases hrun

end Cxx

end

/-! ### Both servers on one schedule -/

/-- The server echoes the whole stream, as soon as the kernel has answered enough calls. -/
def EchoesBack (server : EStateM Stop Conn Unit) (input : Bytes) (recvs : RecvSchedule)
    (sends : SendSchedule) : Prop :=
  ∃ N, ∀ k ≥ N, ∀ k' ≥ N, EchoedBack ⟨⟨input, recvs.upTo k⟩, ⟨[], sends.upTo k'⟩⟩
    (server ⟨⟨input, recvs.upTo k⟩, ⟨[], sends.upTo k'⟩⟩)

theorem C.strEchoRun_echoesBack (input : Bytes) (recvs : RecvSchedule) (sends : SendSchedule) :
    EchoesBack C.strEchoRun input recvs sends := by
  obtain ⟨N, hN⟩ := recvs.exists_budget (input.length + 1)
  obtain ⟨N', hN'⟩ := sends.exists_budget input.length
  refine ⟨max N N', ?_⟩
  intro k hk k' hk'
  exact C.strEchoLoop_echoedBack (recvs.upTo k) (recvs.benign input k)
    (hN k (le_of_max_le_left hk) input) (sends.benign [] k') (hN' k' (le_of_max_le_right hk') [])
    (Nat.lt_succ_self _)

theorem Cxx.strEchoRun_echoesBack_iff (input : Bytes) (recvs : RecvSchedule) (sends : SendSchedule) :
    EchoesBack Cxx.strEchoRun input recvs sends ↔ recvs.HearsOut 1024 input.length := by
  constructor
  · rintro ⟨N, hN⟩
    obtain ⟨c, hrun, -⟩ := hN N le_rfl N le_rfl
    exact (recvs.hearsOut_iff N).2 ⟨N, le_rfl, Cxx.heardOut_of_returned (recvs.upTo N) hrun⟩
  · intro hhears
    obtain ⟨n, -, hheard⟩ := (recvs.hearsOut_iff 0).1 hhears
    obtain ⟨N, hN⟩ := sends.exists_budget input.length
    refine ⟨max n N, ?_⟩
    intro k hk k' hk'
    exact Cxx.strEchoLoop_echoedBack (recvs.upTo k) (hheard.mono (recvs.upTo_prefix (le_of_max_le_left hk)))
      (sends.benign [] k') (hN k' (le_of_max_le_right hk') []) (Nat.lt_succ_self _)

/-- Wherever the calls are interrupted the C server sends back the whole stream and returns, and the C++
server does so exactly if no receive is interrupted up to the one that reports the end of the stream. -/
theorem echoesBack_iff (input : Bytes) (recvs : RecvSchedule) (sends : SendSchedule) :
    EchoesBack C.strEchoRun input recvs sends ∧
      (EchoesBack Cxx.strEchoRun input recvs sends ↔ recvs.HearsOut 1024 input.length) :=
  ⟨C.strEchoRun_echoesBack input recvs sends, Cxx.strEchoRun_echoesBack_iff input recvs sends⟩

/-- The first receive of two bytes is interrupted: the C server sends them back, and the C++ server ends with
nothing sent. -/
theorem interruption_ends_server :
    C.strEchoRun ⟨⟨[104, 105], [.fail .EINTR, .deliver 2, .deliver 2]⟩, ⟨[], [.accept 2]⟩⟩ =
        .ok () ⟨⟨[], []⟩, ⟨[104, 105], []⟩⟩ ∧
      Cxx.strEchoRun ⟨⟨[104, 105], [.fail .EINTR, .deliver 2, .deliver 2]⟩, ⟨[], [.accept 2]⟩⟩ =
        .error (.systemError (some .EINTR))
          ⟨⟨[104, 105], [.deliver 2, .deliver 2]⟩, ⟨[], [.accept 2]⟩⟩ ∧
      ¬ EchoesBack Cxx.strEchoRun [104, 105] ((RecvSchedule.always 2).cons (.fail .EINTR) (.inr rfl))
        (.always 2) := by
  refine ⟨rfl, rfl, ?_⟩
  rw [Cxx.strEchoRun_echoesBack_iff]
  rintro ⟨k, hmoves, -⟩
  exact hmoves 0 (Nat.zero_le k)

end NetProg
