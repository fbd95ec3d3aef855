import NetProg.Lib.Run
import NetProg.System.Stream
import NetProg.System.Text

/-!
# The clients of an iterative server

A client of one of the servers of sixteen bytes, as the answers to the calls that the server makes for it.
The two servers make the same calls in the same order (`turn`), and every one of them that fails ends the
server: `err_sys` and `err_quit` exit, and nothing catches the exceptions of the C++ library.
`turn_eq_ok_iff` says which clients are served to the end.
-/

namespace NetProg
open Lib

/-- The failures of `accept` before it returns the connection, the failures of `getsockname`, `getpeername`
and `close`, and the two directions of the connection. -/
structure Peer where
  aborted : List Errno
  sockname : Option Errno
  peername : Option Errno
  rx : Rx
  tx : Tx
  closed : Option Errno
  deriving DecidableEq, Repr

namespace Peer

/-- `Accept`, from its label `again` on. -/
def accept : List Errno → EStateM Stop Peer Unit
  | [] => return ()
  | errno :: aborted =>
    if errno = .EPROTO ∨ errno = .ECONNABORTED then accept aborted else throw (.systemError (some errno))

/-- A system call, with the error it reports if it fails. -/
def check : Option Errno → EStateM Stop Peer Unit
  | none => return ()
  | some errno => throw (.systemError (some errno))

/-- The receiving end, as a part of the process. -/
def rxLens : Lens Peer Rx where
  get := Peer.rx
  put rx p := { p with rx }
  get_put _ _ := rfl
  put_put _ _ _ := rfl

/-- The sending end, as a part of the process. -/
def txLens : Lens Peer Tx where
  get := Peer.tx
  put tx p := { p with tx }
  get_put _ _ := rfl
  put_put _ _ _ := rfl

/-- What is done at the receiving end. -/
def receive {α : Type} (x : EStateM Stop Rx α) : EStateM Stop Peer α := rxLens.lift x

/-- What is done at the sending end. -/
def transmit {α : Type} (x : EStateM Stop Tx α) : EStateM Stop Peer α := txLens.lift x

/-- One turn of the loop of a server, which ends with what it has received. -/
def turn {σ : Type} (recvAll : EStateM Stop Rx σ) (print : σ → EStateM Stop Peer Unit)
    (sendAll : EStateM Stop Tx Unit) : EStateM Stop Peer σ := do
  let p ← get
  accept p.aborted
  check p.sockname
  check p.peername
  let message ← receive recvAll
  print message
  transmit sendAll
  check p.closed
  return message

/-! ### One turn -/

section

variable {σ α : Type} {p p' : Peer}

/-- The failures that make `Accept` try again. -/
def Retried (aborted : List Errno) : Prop := ∀ errno ∈ aborted, errno = .EPROTO ∨ errno = .ECONNABORTED

theorem accept_eq_ok_iff {aborted : List Errno} {u : Unit} :
    accept aborted p = .ok u p' ↔ Retried aborted ∧ p' = p := by
  unfold Retried
  induction aborted with
  | nil =>
    rw [accept, run_pure, EStateM.Result.ok.injEq]
    simp [eq_comm]
  | cons errno aborted ih =>
    rw [accept, List.forall_mem_cons]
    split
    · rename_i hretry
      rw [ih]
      simp only [hretry, true_and]
    · rename_i hretry
      rw [run_throw]
      simp only [hretry, false_and, reduceCtorEq]

theorem check_eq_ok_iff {error : Option Errno} {u : Unit} :
    check error p = .ok u p' ↔ error = none ∧ p' = p := by
  cases error with
  | none =>
    rw [check, run_pure, EStateM.Result.ok.injEq]
    simp [eq_comm]
  | some errno =>
    rw [check, run_throw]
    simp only [reduceCtorEq, false_and]

theorem receive_eq_ok_iff {x : EStateM Stop Rx α} {a : α} :
    receive x p = .ok a p' ↔ ∃ rx, x p.rx = .ok a rx ∧ p' = { p with rx } := rxLens.lift_eq_ok_iff

theorem transmit_eq_ok_iff {x : EStateM Stop Tx α} {a : α} :
    transmit x p = .ok a p' ↔ ∃ tx, x p.tx = .ok a tx ∧ p' = { p with tx } := txLens.lift_eq_ok_iff

variable {recvAll : EStateM Stop Rx σ} {print : σ → EStateM Stop Peer Unit} {sendAll : EStateM Stop Tx Unit}
  {Printable : σ → Prop}

theorem turn_eq_ok_iff (hprint : ∀ s q u q', print s q = .ok u q' ↔ Printable s ∧ q' = q) {s : σ} :
    turn recvAll print sendAll p = .ok s p' ↔ (Retried p.aborted ∧ p.sockname = none ∧ p.peername = none) ∧
      ∃ rx tx, (recvAll p.rx = .ok s rx ∧ Printable s) ∧ sendAll p.tx = .ok () tx ∧ p.closed = none ∧
        p' = { p with rx, tx } := by
  have hget : ∀ q : Peer, (get : EStateM Stop Peer Peer) q = .ok q q := fun _ => rfl
  unfold turn
  simp only [bind_eq_ok_iff, hget, accept_eq_ok_iff, check_eq_ok_iff, receive_eq_ok_iff, transmit_eq_ok_iff,
    hprint, EStateM.Result.ok.injEq, run_pure]
  constructor
  · rintro ⟨_, _, ⟨rfl, rfl⟩, _, _, ⟨haborted, rfl⟩, _, _, ⟨hsockname, rfl⟩, _, _, ⟨hpeername, rfl⟩,
      message, _, ⟨rx, hrecv, rfl⟩, _, _, ⟨hprintable, rfl⟩, _, _, ⟨tx, hsend, rfl⟩, _, _, ⟨hclosed, rfl⟩,
      rfl, rfl⟩
    exact ⟨⟨haborted, hsockname, hpeername⟩, rx, tx, ⟨hrecv, hprintable⟩, hsend, hclosed, rfl⟩
  · rintro ⟨⟨haborted, hsockname, hpeername⟩, rx, tx, ⟨hrecv, hprintable⟩, hsend, hclosed, rfl⟩
    exact ⟨_, _, ⟨rfl, rfl⟩, (), _, ⟨haborted, rfl⟩, (), _, ⟨hsockname, rfl⟩, (), _, ⟨hpeername, rfl⟩, s, _,
      ⟨rx, hrecv, rfl⟩, (), _, ⟨hprintable, rfl⟩, (), _, ⟨tx, hsend, rfl⟩, (), _, ⟨hclosed, rfl⟩, rfl, rfl⟩

theorem run_turn {s : σ} {rx : Rx} (hcalls : Retried p.aborted ∧ p.sockname = none ∧ p.peername = none)
    (hrecv : recvAll p.rx = .ok s rx) :
    turn recvAll print sendAll p =
      (do print s; transmit sendAll; check p.closed; return s : EStateM Stop Peer σ) { p with rx } := by
  obtain ⟨haborted, hsockname, hpeername⟩ := hcalls
  have haccept : accept p.aborted p = .ok () p := accept_eq_ok_iff.2 ⟨haborted, rfl⟩
  have hname : check p.sockname p = .ok () p := check_eq_ok_iff.2 ⟨hsockname, rfl⟩
  have hname' : check p.peername p = .ok () p := check_eq_ok_iff.2 ⟨hpeername, rfl⟩
  have hreceive : receive recvAll p = .ok s { p with rx } := receive_eq_ok_iff.2 ⟨rx, hrecv, rfl⟩
  rw [turn, run_get_bind, run_bind_ok haccept, run_bind_ok hname, run_bind_ok hname', run_bind_ok hreceive]

theorem after_turn (hprint : ∀ s q u q', print s q = .ok u q' ↔ Printable s ∧ q' = q) {s : σ} {rx : Rx}
    {tx : Tx} (hcalls : Retried p.aborted ∧ p.sockname = none ∧ p.peername = none)
    (hrecv : recvAll p.rx = .ok s rx) (hprintable : Printable s) (hsend : sendAll p.tx = .ok () tx) :
    after (turn recvAll print sendAll) p = { p with rx, tx } := by
  have hprinted : print s { p with rx } = .ok () { p with rx } := (hprint _ _ _ _).2 ⟨hprintable, rfl⟩
  have hsent : transmit sendAll { p with rx } = .ok () { p with rx, tx } :=
    transmit_eq_ok_iff.2 ⟨tx, hsend, rfl⟩
  rw [after, run_turn hcalls hrecv, run_bind_ok hprinted, run_bind_ok hsent]
  cases p.closed with
  | none => rfl
  | some errno => rfl

theorem after_turn_of_fault (hfault : ∀ s q, ¬ Printable s → ∃ stop, print s q = .error stop q)
    {s : σ} {rx : Rx} (hcalls : Retried p.aborted ∧ p.sockname = none ∧ p.peername = none)
    (hrecv : recvAll p.rx = .ok s rx) (hprintable : ¬ Printable s) :
    after (turn recvAll print sendAll) p = { p with rx } := by
  obtain ⟨stop, hstop⟩ := hfault s { p with rx } hprintable
  rw [after, run_turn hcalls hrecv, run_bind_error hstop]

end

/-- A client that sends sixteen bytes and takes as many, over a connection that does not fail before. -/
structure Patient (p : Peer) : Prop where
  retried : Retried p.aborted
  sockname : p.sockname = none
  peername : p.peername = none
  sends : 16 ≤ p.rx.input.length
  delivered : Offers RecvAnswer.Benign RecvAnswer.offer 16 p.rx.script
  taken : Offers SendAnswer.Benign SendAnswer.offer 16 p.tx.script

theorem Patient.calls {p : Peer} (h : p.Patient) :
    Retried p.aborted ∧ p.sockname = none ∧ p.peername = none :=
  ⟨h.retried, h.sockname, h.peername⟩

end Peer

/-- What the clients send. -/
def greeting : Bytes := ascii "Hi there, server"

/-- The reply of the servers. -/
def farewell : Bytes := ascii "Farewell, client"

/-- What the clients of the servers of a stream send. -/
def maxims : List Bytes :=
  [ascii "Beautiful is better than ugly.\n", ascii "Explicit is better than implicit.\n",
    ascii "Simple is better than complex.\n"]

theorem length_greeting : greeting.length = 16 := by
  rw [greeting, length_ascii]
  decide

theorem length_farewell : farewell.length = 16 := by
  rw [farewell, length_ascii]
  decide

end NetProg
