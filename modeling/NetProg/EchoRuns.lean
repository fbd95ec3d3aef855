import NetProg.C.Clients
import NetProg.C.StrEcho
import NetProg.Cxx.Clients
import NetProg.Cxx.StrEcho
import NetProg.EchoServers
import NetProg.Python.Sendall
import NetProg.System.Transcript

/-!
# The echo servers in their runs

`str_echo` of the three languages is what the echo servers call. The function makes the calls of the program:
on the socket that a run with any client leaves it, it returns exactly if the program has, and has then sent
back what it received (`str_echo_run`).
-/

namespace NetProg
open Lib (Program Duplex Move run run_bind_ok run_bind_error)
open Lib.Duplex (step)
open Conn

namespace Python

/-- `str_echo(sock)`. -/
def strEchoLoop : ℕ → EStateM Stop Conn Unit
  | 0 => throw .blocked
  | turns + 1 => do
    let data ← Conn.receive (recv 1024)
    if data = [] then return ()
    else do
      Conn.transmit (sendall data)
      strEchoLoop turns

/-- The server with as many turns as the connection has answers for. -/
def strEchoRun : EStateM Stop Conn Unit := fun c => strEchoLoop (c.rx.script.length + 1) c

end Python

/-- The function of each language. -/
def strEchoRun : Language → EStateM Stop Conn Unit
  | .c => C.strEchoRun
  | .cxx => Cxx.strEchoRun
  | .python => Python.strEchoRun

namespace Echo

/-- Whether the function reads again after a read that has failed. -/
def again : Language → Errno → Bool
  | .cxx, _ => false
  | _, e => e = .EINTR

/-- What there is to know when it has returned. -/
def value : State → Option Unit
  | .returned => some ()
  | _ => none

/-- The program of the function. -/
abbrev server (v : Language) : Program UInt8 Errno := echo 1024 echoSize_pos (again v)

end Echo

/-! ### What one turn does -/

/-- What one turn of a `str_echo` does with each answer of the kernel. -/
structure EchoTurns (again : Errno → Bool) (sendAll : Bytes → EStateM Stop Tx Unit)
    (loop : ℕ → EStateM Stop Conn Unit) : Prop where
  deliver : ∀ turns m input script tx, input ≠ [] →
    loop (turns + 1) ⟨⟨input, .deliver m :: script⟩, tx⟩ =
      (Conn.transmit (sendAll (input.take (moved m (min 1024 input.length)))) >>= fun _ => loop turns)
        ⟨⟨input.drop (moved m (min 1024 input.length)), script⟩, tx⟩
  ended : ∀ turns m script tx, loop (turns + 1) ⟨⟨[], .deliver m :: script⟩, tx⟩ = .ok () ⟨⟨[], script⟩, tx⟩
  repeats : ∀ turns e input script tx, again e = true →
    loop (turns + 1) ⟨⟨input, .fail e :: script⟩, tx⟩ = loop turns ⟨⟨input, script⟩, tx⟩ ∨
      loop (turns + 1) ⟨⟨input, .fail e :: script⟩, tx⟩ = loop (turns + 1) ⟨⟨input, script⟩, tx⟩
  fails : ∀ turns e input script tx, again e = false →
    ∃ stop c, loop (turns + 1) ⟨⟨input, .fail e :: script⟩, tx⟩ = .error stop c
  blocked : ∀ turns input tx, ∃ stop c, loop (turns + 1) ⟨⟨input, []⟩, tx⟩ = .error stop c
  sends : ∀ data, data ≠ [] → data.length ≤ 1024 → SendsAll data (sendAll data)

theorem sends_serving (again : Errno → Bool) :
    Sends (echo 1024 echoSize_pos again) Echo.value Echo.State.serving where
  request ptr hne := by
    obtain ⟨b, ptr, rfl⟩ := List.exists_cons_of_ne_nil hne
    rfl
  waits _ _ := rfl
  sent ptr k hne hk := by
    obtain ⟨b, ptr, rfl⟩ := List.exists_cons_of_ne_nil hne
    simp [echo, Echo.resume, hk.ne']
  again ptr hne := by
    obtain ⟨b, ptr, rfl⟩ := List.exists_cons_of_ne_nil hne
    simp [echo, Echo.resume]
  zero ptr c hne := by
    obtain ⟨b, ptr, rfl⟩ := List.exists_cons_of_ne_nil hne
    exact ⟨_, _, .refl, rfl, rfl⟩
  gives_up ptr errno c hne herrno := by
    obtain ⟨b, ptr, rfl⟩ := List.exists_cons_of_ne_nil hne
    refine ⟨_, _, .refl, ?_, ?_⟩ <;> simp [echo, Echo.resume, herrno, Echo.request, Conn.answer, Echo.value]

section

variable {again : Errno → Bool} {sendAll : Bytes → EStateM Stop Tx Unit} {loop : ℕ → EStateM Stop Conn Unit}

theorem resume_received {data : Bytes} (hne : data ≠ []) :
    (echo 1024 echoSize_pos again).resume (.serving []) (.received data) = .serving data := if_neg hne

theorem resume_again {e : Errno} (h : again e = true) :
    (echo 1024 echoSize_pos again).resume (.serving []) (.failed e) = .serving [] := if_pos h

theorem resume_fails {e : Errno} (h : again e = false) :
    (echo 1024 echoSize_pos again).resume (.serving []) (.failed e) = .failed (some e) := by
  simp [echo, Echo.resume, h]

theorem EchoTurns.reaches (h : EchoTurns again sendAll loop) (script : List RecvAnswer) {turns : ℕ} {input : Bytes}
    {tx : Tx} (hturns : script.length < turns) (htakes : (Conn.mk ⟨input, script⟩ tx).TakesSome) :
    Reaches (echo 1024 echoSize_pos again) Echo.value (.serving []) ⟨⟨input, script⟩, tx⟩
      (fun _ c' s c'' => s = .returned ∧ c'' = c') (loop turns ⟨⟨input, script⟩, tx⟩) := by
  induction script generalizing turns input tx with
  | nil =>
    obtain ⟨turns, rfl⟩ := Nat.exists_eq_succ_of_ne_zero (by omega : turns ≠ 0)
    obtain ⟨stop, c, hstop⟩ := h.blocked turns input tx
    rw [hstop]
    exact ⟨_, _, .refl, answer_recv_nil, rfl⟩
  | cons a script ih =>
    obtain ⟨turns, rfl⟩ := Nat.exists_eq_succ_of_ne_zero (by omega : turns ≠ 0)
    rw [List.length_cons] at hturns
    cases a with
    | deliver m =>
      by_cases hinput : input = []
      · rw [hinput, h.ended]
        exact ⟨_, _, .call answer_recv_deliver .refl, rfl, rfl⟩
      · have hlen := List.length_pos_iff.2 hinput
        have hcount : 0 < moved m (min 1024 input.length) := moved_pos (by omega)
        have hle := moved_le m (min 1024 input.length)
        have htake : (input.take (moved m (min 1024 input.length))).length = moved m (min 1024 input.length) :=
          List.length_take_of_le (by omega)
        have hne : input.take (moved m (min 1024 input.length)) ≠ [] := by
          apply List.ne_nil_of_length_pos
          rwa [htake]
        rw [h.deliver turns m input script tx hinput]
        apply reaches_call answer_recv_deliver
        rw [resume_received hne]
        apply (h.sends _ hne (by omega) (sends_serving again)
          ⟨⟨input.drop (moved m (min 1024 input.length)), script⟩, tx⟩ htakes).bind
        rintro - ⟨rx, tx'⟩ s₁ c₁ hpath ⟨rfl, rfl, rfl⟩
        exact ih (by omega) (hpath.takesSome htakes)
    | fail e =>
      cases hagain : again e with
      | true =>
        apply reaches_call answer_recv_fail
        rw [resume_again hagain]
        rcases h.repeats turns e input script tx hagain with hturn | hturn
        · rw [hturn]
          exact ih (by omega) htakes
        · rw [hturn]
          exact ih (by omega) htakes
      | false =>
        obtain ⟨stop, c, hstop⟩ := h.fails turns e input script tx hagain
        rw [hstop]
        refine ⟨.failed (some e), ⟨⟨input, script⟩, tx⟩, .call answer_recv_fail ?_, rfl, rfl⟩
        rw [resume_fails hagain]
        exact .refl

theorem EchoTurns.follows (h : EchoTurns again sendAll loop) {x : EStateM Stop Conn Unit}
    (hx : ∀ c, x c = loop (c.rx.script.length + 1) c) :
    Follows TakesSome (echo 1024 echoSize_pos again) (.serving []) Echo.value (fun _ _ => True) x := by
  rintro ⟨⟨input, script⟩, tx⟩ htakes
  rw [hx]
  apply (h.reaches script (Nat.lt_succ_self _) htakes).mono
  rintro - c s c' ⟨rfl, rfl⟩
  exact ⟨rfl, rfl, (), rfl, trivial⟩

end

/-! ### The functions of the three languages -/

theorem C.strEchoLoop_echoTurns :
    EchoTurns (Echo.again .c) (fun data => C.sendAll data data.length) C.strEchoLoop where
  deliver turns m input script tx hinput := by
    have hlen : 0 < input.length := List.length_pos_iff.mpr hinput
    have hpos : 0 < moved m (min 1024 input.length) := moved_pos (by omega)
    have hle := moved_le_stream m input.length
    have hsize : toSize (moved m (min 1024 input.length)) = moved m (min 1024 input.length) :=
      toSize_of_lt (by omega)
    have htake : (input.take (moved m (min 1024 input.length))).length = moved m (min 1024 input.length) :=
      List.length_take_of_le (by omega)
    rw [C.strEchoLoop, run_bind_ok (Conn.receive_ok recv_deliver)]
    simp only [if_pos (Int.natCast_pos.2 hpos), hsize, htake]
  ended turns m script tx := C.strEchoLoop_ended
  repeats turns e input script tx he := by
    obtain rfl : e = .EINTR := of_decide_eq_true he
    exact .inl C.strEchoLoop_eintr
  fails turns e input script tx he := by
    have herrno : ¬ some e = some Errno.EINTR := fun h => of_decide_eq_false he (Option.some.inj h)
    have hread : Conn.receive (recv 1024) ⟨⟨input, .fail e :: script⟩, tx⟩ =
        .ok (-1, some e, []) ⟨⟨input, script⟩, tx⟩ := Conn.receive_ok recv_fail
    refine ⟨.systemError (some e), ⟨⟨input, script⟩, tx⟩, ?_⟩
    rw [C.strEchoLoop, run_bind_ok hread]
    simp only [herrno, and_false, if_false]
    rfl
  blocked turns input tx := ⟨_, _, run_bind_error rfl⟩
  sends data _ hlen := by
    have hsends := @C.sendAll_sendsAll data data.length le_rfl (by omega)
    rwa [List.take_length] at hsends

theorem Cxx.strEchoLoop_echoTurns :
    EchoTurns (Echo.again .cxx) (fun data => Cxx.Socket.sendAll data data.length) Cxx.strEchoLoop where
  deliver turns m input script tx hinput := by
    have htake : (input.take (moved m (min 1024 input.length))).length = moved m (min 1024 input.length) := by
      have hle := moved_le_stream m input.length
      exact List.length_take_of_le (by omega)
    rw [Cxx.strEchoLoop_deliver hinput, htake]
  ended turns m script tx := Cxx.strEchoLoop_ended
  repeats turns e input script tx he := by simp [Echo.again] at he
  fails turns e input script tx _ := ⟨_, _, Cxx.strEchoLoop_fail⟩
  blocked turns input tx := ⟨_, _, run_bind_error rfl⟩
  sends data hne hlen := Cxx.sendAll_sendsAll (by omega)

theorem Python.strEchoLoop_echoTurns : EchoTurns (Echo.again .python) Python.sendall Python.strEchoLoop where
  deliver turns m input script tx hinput := by
    have hlen : 0 < input.length := List.length_pos_iff.mpr hinput
    have hpos : 0 < moved m (min 1024 input.length) := moved_pos (by omega)
    have hne : input.take (moved m (min 1024 input.length)) ≠ [] := by
      simp only [ne_eq, List.take_eq_nil_iff, hinput, or_false]
      omega
    rw [Python.strEchoLoop, run_bind_ok (Conn.receive_ok Python.recv_deliver), if_neg hne]
  ended turns m script tx := by
    rw [Python.strEchoLoop, run_bind_ok (Conn.receive_ok Python.recv_deliver)]
    simp only [List.take_nil, List.drop_nil, if_true]
    rfl
  repeats turns e input script tx he := by
    obtain rfl : e = .EINTR := of_decide_eq_true he
    exact .inr rfl
  fails turns e input script tx he :=
    ⟨_, _, run_bind_error (Conn.receive_error (Python.recv_fail (of_decide_eq_false he)))⟩
  blocked turns input tx := ⟨_, _, run_bind_error rfl⟩
  sends data hne _ := Python.sendall_sendsAll hne

theorem strEchoRun_follows (v : Language) :
    Follows TakesSome (Echo.server v) (.serving []) Echo.value (fun _ _ => True) (strEchoRun v) := by
  cases v with
  | c => exact C.strEchoLoop_echoTurns.follows fun _ => rfl
  | cxx => exact Cxx.strEchoLoop_echoTurns.follows fun _ => rfl
  | python => exact Python.strEchoLoop_echoTurns.follows fun _ => rfl

/-! ### The socket of the server -/

section

variable {again : Errno → Bool}

/-- What the program has received it has sent or has yet to send, until it fails. -/
def Accounted (again : Errno → Bool) (total : Bytes) (s : (echo 1024 echoSize_pos again).State) (c : Conn) : Prop :=
  (∃ ec, s = .failed ec) ∨ c.tx.wire ++ Echo.pending s ++ c.rx.input = total

theorem Accounted.answer {total : Bytes} {s : (echo 1024 echoSize_pos again).State} {c c₁ : Conn}
    {a : Lib.Answer UInt8 Errno} (h : Accounted again total s c)
    (hanswer : c.answer ((echo 1024 echoSize_pos again).request s) = some (a, c₁)) :
    Accounted again total ((echo 1024 echoSize_pos again).resume s a) c₁ := by
  obtain ⟨⟨input, recvs⟩, ⟨wire, sends⟩⟩ := c
  cases s with
  | serving ptr =>
    have htotal : wire ++ ptr ++ input = total := h.resolve_left fun ⟨ec, hec⟩ => Echo.State.noConfusion hec
    cases ptr with
    | nil =>
      rcases recvs with _ | ⟨m | e, recvs⟩
      · simp [echo, Echo.request, answer_recv_nil] at hanswer
      · obtain ⟨rfl, rfl⟩ := Prod.mk.inj (Option.some.inj hanswer)
        by_cases hnil : input.take (moved m (min 1024 input.length)) = []
        · have hdrop := List.take_append_drop (moved m (min 1024 input.length)) input
          rw [hnil, List.nil_append] at hdrop
          rw [hnil]
          refine .inr ?_
          show wire ++ [] ++ input.drop _ = total
          rw [hdrop, htotal]
        · rw [resume_received hnil]
          refine .inr ?_
          show wire ++ input.take _ ++ input.drop _ = total
          rw [List.append_assoc, List.take_append_drop, ← htotal, List.append_nil]
      · obtain ⟨rfl, rfl⟩ := Prod.mk.inj (Option.some.inj hanswer)
        cases hagain : again e with
        | true =>
          rw [resume_again hagain]
          exact .inr htotal
        | false =>
          rw [resume_fails hagain]
          exact .inl ⟨_, rfl⟩
    | cons b ptr =>
      have hsends := sends_serving again
      have hne : b :: ptr ≠ [] := List.cons_ne_nil b ptr
      rcases sends with _ | ⟨m | _ | e, sends⟩
      · simp [echo, Echo.request, answer_send_nil] at hanswer
      · obtain ⟨rfl, rfl⟩ := Prod.mk.inj (Option.some.inj hanswer)
        simp only [Int.toNat_natCast, hsends.sent _ _ hne (moved_pos (List.length_pos_iff.2 hne))]
        refine .inr ?_
        show wire ++ (b :: ptr).take _ ++ (b :: ptr).drop _ ++ input = total
        rw [List.append_assoc wire, List.take_append_drop, htotal]
      · obtain ⟨rfl, rfl⟩ := Prod.mk.inj (Option.some.inj hanswer)
        exact .inl ⟨none, rfl⟩
      · obtain ⟨rfl, rfl⟩ := Prod.mk.inj (Option.some.inj hanswer)
        by_cases herrno : e = .EINTR
        · rw [herrno, hsends.again _ hne]
          exact .inr htotal
        · exact .inl ⟨some e, if_neg herrno⟩
  | returned | failed => simp [echo, Echo.request, Conn.answer] at hanswer

theorem Accounted.path {total : Bytes} {s s' : (echo 1024 echoSize_pos again).State} {c c' : Conn}
    (h : Accounted again total s c) (hpath : Path (echo 1024 echoSize_pos again) s c s' c') :
    Accounted again total s' c' := by
  induction hpath with
  | refl => exact h
  | call hanswer _ ih => exact ih (h.answer hanswer)

theorem answer_over (s : (echo 1024 echoSize_pos again).State) (wire : Bytes) :
    (Conn.mk ⟨[], []⟩ ⟨wire, []⟩).answer ((echo 1024 echoSize_pos again).request s) = none := by
  rcases s with ⟨_ | _⟩ | _ | _ <;> rfl

theorem returned_of_value {s : Echo.State} {u : Unit} (h : Echo.value s = some u) : s = .returned := by
  cases s with
  | returned => rfl
  | serving | failed => simp [Echo.value] at h

end

/-- Where the program has returned the function returns, and has sent back all that it received. -/
theorem strEchoRun_returns (v : Language) {P : Program UInt8 Errno} {client : P.State} {roomRight roomLeft : ℕ}
    {errors : List Errno} {moves : List (Move Errno)}
    (h : (run (step (tcp roomRight roomLeft errors))
      (⟨client, .serving [], [], []⟩ : Duplex P (Echo.server v)) moves).right = .returned) :
    let socket := rightSocket (tcp roomRight roomLeft errors)
      (⟨client, .serving [], [], []⟩ : Duplex P (Echo.server v)) moves
    EchoedBack socket (strEchoRun v socket) := by
  intro socket
  obtain ⟨wire, hpath⟩ := @path_right P (Echo.server v) (tcp roomRight roomLeft errors)
    ⟨client, .serving [], [], []⟩ moves rfl
  have htakes : socket.TakesSome := takesSome_rightSocket _ moves
  rw [h] at hpath
  obtain ⟨u, hrun, -⟩ := (strEchoRun_follows v).returns htakes hpath rfl rfl
  have hstart : socket.tx.wire ++ Echo.pending (.serving []) ++ socket.rx.input =
      socket.tx.wire ++ socket.rx.input := by rw [Echo.pending, List.append_nil]
  have haccounted : Accounted (Echo.again v) (socket.tx.wire ++ socket.rx.input) .returned
      ⟨⟨[], []⟩, ⟨wire, []⟩⟩ := Accounted.path (.inr hstart) hpath
  refine ⟨_, hrun, ?_, rfl⟩
  simpa [Accounted, Echo.pending] using haccounted

/-- After every run of the server with any client, over a connection whose calls may fail: the function has returned
on the socket that the run leaves it exactly if the program has, and then it has sent back all that it received. -/
theorem str_echo_run (v : Language) {P : Program UInt8 Errno} (client : P.State) (roomRight roomLeft : ℕ)
    (errors : List Errno) (moves : List (Move Errno)) :
    let start : Duplex P (Echo.server v) := ⟨client, .serving [], [], []⟩
    let s := run (step (tcp roomRight roomLeft errors)) start moves
    let socket := rightSocket (tcp roomRight roomLeft errors) start moves
    ((∃ c, strEchoRun v socket = .ok () c) ↔ s.right = .returned) ∧
      (s.right = .returned → EchoedBack socket (strEchoRun v socket)) := by
  intro start s socket
  have hreturns : s.right = .returned → EchoedBack socket (strEchoRun v socket) := strEchoRun_returns v
  refine ⟨⟨?_, ?_⟩, hreturns⟩
  · rintro ⟨c, hrun⟩
    obtain ⟨wire, hpath⟩ := @path_right P (Echo.server v) (tcp roomRight roomLeft errors) start moves rfl
    obtain ⟨-, b, hvalue, -⟩ :=
      (strEchoRun_follows v).returned (takesSome_rightSocket start moves) hpath (answer_over s.right wire) hrun
    exact returned_of_value hvalue
  · intro hreturned
    obtain ⟨c, hrun, -⟩ := hreturns hreturned
    exact ⟨c, hrun⟩

end NetProg
