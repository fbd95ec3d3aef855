import NetProg.Lib.Run
import NetProg.System.Stream

/-!
# Both ends of one socket

A server that sends back what it receives makes its calls on one socket, whose two directions have scripts of
their own. `receive` and `transmit` run a program of one direction. `HeardOut` is the condition for a receiver
that does not put up with an interruption: it has heard the end of the stream before the first one.
-/

namespace NetProg
open Lib (Lens total)

/-- The two directions of a socket. -/
structure Conn where
  rx : Rx
  tx : Tx
  deriving DecidableEq, Repr

namespace Conn

variable {ε α β : Type} {c : Conn} {a : α} {e : ε} {rx : Rx} {tx : Tx}

/-- The receiving end, as a part of the socket. -/
def rxLens : Lens Conn Rx where
  get := Conn.rx
  put rx c := { c with rx }
  get_put _ _ := rfl
  put_put _ _ _ := rfl

/-- The sending end, as a part of the socket. -/
def txLens : Lens Conn Tx where
  get := Conn.tx
  put tx c := { c with tx }
  get_put _ _ := rfl
  put_put _ _ _ := rfl

/-- What is done at the receiving end. -/
def receive (x : EStateM ε Rx α) : EStateM ε Conn α := rxLens.lift x

/-- What is done at the sending end. -/
def transmit (x : EStateM ε Tx α) : EStateM ε Conn α := txLens.lift x

theorem receive_ok {x : EStateM ε Rx α} (h : x c.rx = .ok a rx) : receive x c = .ok a { c with rx } :=
  rxLens.lift_ok h

theorem receive_error {x : EStateM ε Rx α} (h : x c.rx = .error e rx) : receive x c = .error e { c with rx } :=
  rxLens.lift_error h

theorem transmit_ok {x : EStateM ε Tx α} (h : x c.tx = .ok a tx) : transmit x c = .ok a { c with tx } :=
  txLens.lift_ok h

theorem transmit_error {x : EStateM ε Tx α} (h : x c.tx = .error e tx) : transmit x c = .error e { c with tx } :=
  txLens.lift_error h

theorem transmit_cases (x : EStateM ε Tx α) (c : Conn) :
    (∃ a tx, transmit x c = .ok a { c with tx }) ∨ ∃ e tx, transmit x c = .error e { c with tx } :=
  txLens.lift_cases x c

theorem receive_bind (x : EStateM ε Rx α) (y : α → EStateM ε Rx β) :
    receive (x >>= y) = receive x >>= fun a => receive (y a) := rxLens.lift_bind x y

theorem transmit_bind (x : EStateM ε Tx α) (y : α → EStateM ε Tx β) :
    transmit (x >>= y) = transmit x >>= fun a => transmit (y a) := txLens.lift_bind x y

end Conn

/-! ### Receiving up to the end of the stream -/

/-- The calls with room for `size` bytes move all `left` of them, and the one that reports the end of the
stream, before the first that is interrupted. -/
def HeardOut (size left : ℕ) (script : List RecvAnswer) : Prop :=
  ∃ heard a, heard ++ [a] <+: script ∧ (∀ b ∈ heard, b.Moves) ∧ a.Moves ∧
    left ≤ total (fun b => min size b.offer) heard

variable {size left : ℕ} {a : RecvAnswer} {script : List RecvAnswer}

theorem not_heardOut_nil : ¬ HeardOut size left [] := by
  rintro ⟨heard, a, hinitial, -⟩
  exact List.append_ne_nil_of_right_ne_nil heard (List.cons_ne_nil a []) (List.prefix_nil.1 hinitial)

theorem heardOut_cons :
    HeardOut size left (a :: script) ↔
      a.Moves ∧ (left = 0 ∨ HeardOut size (left - min size a.offer) script) := by
  constructor
  · rintro ⟨_ | ⟨b, heard⟩, last, hinitial, hmoves, hlast, hle⟩
    · obtain ⟨rfl, -⟩ := List.cons_prefix_cons.1 hinitial
      exact ⟨hlast, .inl (Nat.le_zero.1 hle)⟩
    · obtain ⟨rfl, hrest⟩ := List.cons_prefix_cons.1 hinitial
      rw [total] at hle
      rw [List.forall_mem_cons] at hmoves
      exact ⟨hmoves.1, .inr ⟨heard, last, hrest, hmoves.2, hlast, by omega⟩⟩
  · rintro ⟨ha, rfl | ⟨heard, last, hinitial, hmoves, hlast, hle⟩⟩
    · exact ⟨[], a, List.cons_prefix_cons.2 ⟨rfl, List.nil_prefix⟩, List.forall_mem_nil _, ha, Nat.zero_le _⟩
    · refine ⟨a :: heard, last, List.cons_prefix_cons.2 ⟨rfl, hinitial⟩, List.forall_mem_cons.2 ⟨ha, hmoves⟩,
        hlast, ?_⟩
      rw [total]
      omega

theorem HeardOut.mono {script' : List RecvAnswer} (h : HeardOut size left script)
    (hinitial : script <+: script') :
    HeardOut size left script' := by
  obtain ⟨heard, a, hheard, h⟩ := h
  exact ⟨heard, a, hheard.trans hinitial, h⟩

/-- The schedule reports the end of the stream before its first interruption. -/
def RecvSchedule.HearsOut (size left : ℕ) (recvs : RecvSchedule) : Prop :=
  ∃ k, (∀ i ≤ k, (recvs.answer i).Moves) ∧ left ≤ total (fun b => min size b.offer) (recvs.upTo k)

theorem RecvSchedule.hearsOut_iff (recvs : RecvSchedule) (N : ℕ) :
    recvs.HearsOut size left ↔ ∃ n ≥ N, HeardOut size left (recvs.upTo n) := by
  constructor
  · rintro ⟨k, hmoves, hle⟩
    refine ⟨max N (k + 1), le_max_left N (k + 1), recvs.upTo k, recvs.answer k, ?_, ?_, hmoves k le_rfl, hle⟩
    · rw [← recvs.upTo_concat]
      exact recvs.upTo_prefix (le_max_right N (k + 1))
    · intro b hb
      obtain ⟨i, hi, rfl⟩ := List.mem_map.1 hb
      exact hmoves i (List.mem_range.1 hi).le
  · rintro ⟨n, -, heard, a, hinitial, hmoves, ha, hle⟩
    have heq := recvs.eq_upTo_of_prefix hinitial
    rw [List.length_append, List.length_singleton, recvs.upTo_concat] at heq
    obtain ⟨hheard, hlast⟩ := List.append_inj heq (recvs.length_upTo heard.length).symm
    refine ⟨heard.length, ?_, hheard ▸ hle⟩
    intro i hi
    rcases Nat.lt_or_eq_of_le hi with hlt | rfl
    · apply hmoves
      rw [hheard]
      exact List.mem_map.2 ⟨i, List.mem_range.2 hlt, rfl⟩
    · rw [← List.singleton_inj.1 hlast]
      exact ha

end NetProg
