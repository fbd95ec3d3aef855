import NetProg.Lib.Schedule
import NetProg.System.Machine

/-!
# The two ends of a TCP connection

`send` and `recv` as the kernel answers them. The sending end (`Tx`) is the byte string the kernel has
accepted so far, which TCP delivers in order; the receiving end (`Rx`) is the byte string still to be
received, after which the peer's end of stream is reported for ever. Each end carries the script of the
kernel's answers to come: one per call, and a call beyond the script has not returned (`Stop.blocked`).

An answer offers a count and the call moves as much of it as was asked for, at least one byte and at
most `INT_MAX` (`moved`), so every way the kernel can split the traffic is a script and every script is
a way it can. Bytes of the peer that are still under way are not a separate part of `Rx`: the kernel
may offer any smaller count for as long as it likes, so a receiver that runs while its peer is still
sending sees one of these splits too.
-/

namespace NetProg

/-- Why a run ended before its function returned. -/
inductive Stop
  /-- The script has no answer left: the system call has not returned. -/
  | blocked
  /-- `std::system_error`, or `err_sys` of the C library. -/
  | systemError (ec : Option Errno)
  /-- The peer closed the connection when only `received` of the `wanted` bytes had come. -/
  | socketClosed (wanted received : ℕ)
  /-- The same from `err_quit` of the C library, with the numbers that its `%d` print. -/
  | errQuit (wanted received : ℤ)
  /-- `err_quit` with a text that has no numbers in it. -/
  | quit (message : Bytes)
  /-- An `assert` has failed. -/
  | assertion
  /-- Python's `EOFError` with `left` bytes of the request missing. -/
  | eofError (left : ℕ)
  /-- `OverflowError`: a length that does not fit a `Py_ssize_t`. -/
  | overflowError (length : ℕ)
  /-- `struct.error`: a length that does not fit the header. -/
  | structError (length : ℕ)
  /-- A write at `index` of an object of `size` bytes: undefined behaviour. -/
  | outOfBounds (index size : ℕ)
  deriving DecidableEq, Repr

/-- The failures that report the end of the stream. -/
def Stop.IsEof : Stop → Prop
  | .socketClosed _ _ => True
  | .errQuit _ _ => True
  | .eofError _ => True
  | _ => False

/-- The failure reports that `n` bytes were wanted and `received` have come. -/
def Stop.Reports (n received : ℕ) : Stop → Prop
  | .socketClosed wanted got => wanted = n ∧ got = received
  | .errQuit wanted got => wanted = n ∧ got = received
  | _ => False

/-- The failures that are undefined behaviour of the program. -/
def Stop.IsFault : Stop → Prop
  | .outOfBounds _ _ => True
  | _ => False

/-- How many of `len` bytes a call moves when the kernel offers `n`. -/
def moved (n len : ℕ) : ℕ := min len (max 1 (min n INT_MAX))

theorem moved_le (n len : ℕ) : moved n len ≤ len := min_le_left _ _

theorem moved_pos {n len : ℕ} (h : 0 < len) : 0 < moved n len := by
  unfold moved
  omega

theorem moved_le_INT_MAX (n len : ℕ) : moved n len ≤ INT_MAX := by
  rw [moved, INT_MAX]
  omega

@[simp] theorem moved_zero (n : ℕ) : moved n 0 = 0 := by simp [moved]

/-- What a kernel that offers `n` moves at most. -/
def offered (n : ℕ) : ℕ := max 1 (min n INT_MAX)

theorem sub_moved (n len : ℕ) : len - moved n len = len - offered n := by
  unfold moved offered
  omega

/-! ### The sending end -/

/-- How the kernel answers a call that sends. -/
inductive SendAnswer
  | accept (n : ℕ)
  | zero
  | fail (errno : Errno)
  deriving DecidableEq, Repr

namespace SendAnswer

/-- The call moved some bytes. -/
def Moves : SendAnswer → Prop
  | .accept _ => True
  | _ => False

instance : DecidablePred Moves := fun a => by cases a <;> unfold Moves <;> infer_instance

/-- The call moved some bytes, or was interrupted. -/
def Benign (a : SendAnswer) : Prop := a.Moves ∨ a = .fail .EINTR

end SendAnswer

/-- How many bytes the call can move. -/
def SendAnswer.offer : SendAnswer → ℕ
  | .accept n => offered n
  | _ => 0

/-- The answers to the sends of a run in which nothing fails and interruptions do not go on for ever. -/
abbrev SendSchedule := Lib.Schedule SendAnswer.Benign SendAnswer.Moves

/-- The sending end: what it has put on the wire, and the answers it will get. -/
structure Tx where
  wire : Bytes
  script : List SendAnswer
  deriving DecidableEq, Repr

namespace Tx

/-- No send fails, unless it is interrupted. -/
def Benign (tx : Tx) : Prop := ∀ a ∈ tx.script, a.Benign

/-- The calls left that move bytes. -/
def budget (tx : Tx) : ℕ := tx.script.countP (·.Moves)

end Tx

/-- `send(fd, ptr, len, 0)`: the return value and `errno`. -/
def send (ptr : Bytes) (len : ℕ) : EStateM Stop Tx (ℤ × Option Errno) := fun tx =>
  match tx.script with
  | [] => .error .blocked tx
  | .accept n :: script => .ok (moved n len, none) ⟨tx.wire ++ ptr.take (moved n len), script⟩
  | .zero :: script => .ok (0, none) ⟨tx.wire, script⟩
  | .fail errno :: script => .ok (-1, some errno) ⟨tx.wire, script⟩

section

variable {ptr wire : Bytes} {len n : ℕ} {script : List SendAnswer}

theorem send_accept : send ptr len ⟨wire, .accept n :: script⟩ =
    .ok ((moved n len : ℤ), none) ⟨wire ++ ptr.take (moved n len), script⟩ := rfl

theorem send_fail {errno : Errno} : send ptr len ⟨wire, .fail errno :: script⟩ =
    .ok (-1, some errno) ⟨wire, script⟩ := rfl

theorem send_zero : send ptr len ⟨wire, .zero :: script⟩ = .ok (0, none) ⟨wire, script⟩ := rfl

theorem SendAnswer.Benign.cases {a : SendAnswer} (h : a.Benign) :
    (∃ n, a = .accept n) ∨ a = .fail .EINTR := by
  rcases h with h | h
  · cases a with
    | accept n => exact .inl ⟨n, rfl⟩
    | zero | fail => exact absurd h not_false
  · exact .inr h

theorem SendAnswer.cases_of_not_benign {a : SendAnswer} (h : ¬ a.Benign) :
    a = .zero ∨ ∃ errno, a = .fail errno ∧ errno ≠ .EINTR := by
  cases a with
  | accept n => exact absurd (.inl trivial) h
  | zero => exact .inl rfl
  | fail errno => exact .inr ⟨errno, rfl, fun heq => h (.inr (by rw [heq]))⟩

theorem Tx.budget_wire (wire wire' : Bytes) :
    (Tx.mk wire' script).budget = (Tx.mk wire script).budget := rfl

@[simp] theorem Tx.budget_accept :
    (Tx.mk wire (.accept n :: script)).budget = (Tx.mk wire script).budget + 1 :=
  List.countP_cons_of_pos (decide_eq_true trivial)

@[simp] theorem Tx.budget_fail {errno : Errno} :
    (Tx.mk wire (.fail errno :: script)).budget = (Tx.mk wire script).budget :=
  List.countP_cons_of_neg (by rw [decide_eq_true_eq]; exact not_false)

end

/-! ### The receiving end -/

/-- How the kernel answers a call that receives. -/
inductive RecvAnswer
  | deliver (n : ℕ)
  | fail (errno : Errno)
  deriving DecidableEq, Repr

namespace RecvAnswer

/-- The call moved some bytes or met the end of the stream. -/
def Moves : RecvAnswer → Prop
  | .deliver _ => True
  | _ => False

instance : DecidablePred Moves := fun a => by cases a <;> unfold Moves <;> infer_instance

/-- The call moved some bytes or met the end of the stream, or was interrupted. -/
def Benign (a : RecvAnswer) : Prop := a.Moves ∨ a = .fail .EINTR

end RecvAnswer

/-- How many bytes the call can move. -/
def RecvAnswer.offer : RecvAnswer → ℕ
  | .deliver n => offered n
  | .fail _ => 0

/-- The answers to the receives of a run in which nothing fails and interruptions do not go on for
ever. -/
abbrev RecvSchedule := Lib.Schedule RecvAnswer.Benign RecvAnswer.Moves

/-- The receiving end: what is still to arrive, and the answers it will get. -/
structure Rx where
  input : Bytes
  script : List RecvAnswer
  deriving DecidableEq, Repr

namespace Rx

/-- No receive fails, unless it is interrupted. -/
def Benign (rx : Rx) : Prop := ∀ a ∈ rx.script, a.Benign

/-- The calls left that move bytes or report the end of the stream. -/
def budget (rx : Rx) : ℕ := rx.script.countP (·.Moves)

end Rx

/-- `recv(fd, ptr, len, 0)`: the return value, `errno` and the bytes written at `ptr`. At the end of
the stream nothing is left to move and the return value is `0`. -/
def recv (len : ℕ) : EStateM Stop Rx (ℤ × Option Errno × Bytes) := fun rx =>
  match rx.script with
  | [] => .error .blocked rx
  | .deliver n :: script =>
    let k := moved n (min len rx.input.length)
    .ok (k, none, rx.input.take k) ⟨rx.input.drop k, script⟩
  | .fail errno :: script => .ok (-1, some errno, []) ⟨rx.input, script⟩

section

variable {input : Bytes} {len n : ℕ} {script : List RecvAnswer}

theorem recv_deliver : recv len ⟨input, .deliver n :: script⟩ =
    .ok ((moved n (min len input.length) : ℤ), none, input.take (moved n (min len input.length)))
      ⟨input.drop (moved n (min len input.length)), script⟩ := rfl

theorem recv_fail {errno : Errno} : recv len ⟨input, .fail errno :: script⟩ =
    .ok (-1, some errno, []) ⟨input, script⟩ := rfl

theorem RecvAnswer.Moves.exists_deliver {a : RecvAnswer} (h : a.Moves) : ∃ n, a = .deliver n := by
  cases a with
  | deliver n => exact ⟨n, rfl⟩
  | fail => exact absurd h not_false

theorem RecvAnswer.Benign.cases {a : RecvAnswer} (h : a.Benign) :
    (∃ n, a = .deliver n) ∨ a = .fail .EINTR :=
  h.imp_left Moves.exists_deliver

theorem RecvAnswer.exists_fail_of_not_benign {a : RecvAnswer} (h : ¬ a.Benign) :
    ∃ errno, a = .fail errno ∧ errno ≠ .EINTR := by
  cases a with
  | deliver n => exact absurd (.inl trivial) h
  | fail errno => exact ⟨errno, rfl, fun heq => h (.inr (by rw [heq]))⟩

theorem Rx.Benign.cons {a : RecvAnswer} (h : (Rx.mk input (a :: script)).Benign) :
    a.Benign ∧ (Rx.mk input script).Benign :=
  ⟨h a List.mem_cons_self, fun b hb => h b (List.mem_cons_of_mem a hb)⟩

theorem Rx.budget_input (input input' : Bytes) :
    (Rx.mk input' script).budget = (Rx.mk input script).budget := rfl

@[simp] theorem Rx.budget_deliver :
    (Rx.mk input (.deliver n :: script)).budget = (Rx.mk input script).budget + 1 :=
  List.countP_cons_of_pos (decide_eq_true trivial)

@[simp] theorem Rx.budget_fail {errno : Errno} :
    (Rx.mk input (.fail errno :: script)).budget = (Rx.mk input script).budget :=
  List.countP_cons_of_neg (by rw [decide_eq_true_eq]; exact not_false)

end

/-! ### Scripts cut from schedules -/

theorem SendSchedule.benign (s : SendSchedule) (wire : Bytes) (n : ℕ) : (Tx.mk wire (s.upTo n)).Benign :=
  fun _ => s.allowed_of_mem_upTo

theorem SendSchedule.exists_budget (s : SendSchedule) (m : ℕ) :
    ∃ N, ∀ n ≥ N, ∀ wire, m ≤ (Tx.mk wire (s.upTo n)).budget :=
  (s.exists_le_countP m).imp fun _ h n hn _ => h n hn

theorem RecvSchedule.benign (s : RecvSchedule) (input : Bytes) (n : ℕ) :
    (Rx.mk input (s.upTo n)).Benign :=
  fun _ => s.allowed_of_mem_upTo

theorem RecvSchedule.exists_budget (s : RecvSchedule) (m : ℕ) :
    ∃ N, ∀ n ≥ N, ∀ input, m ≤ (Rx.mk input (s.upTo n)).budget :=
  (s.exists_le_countP m).imp fun _ h n hn _ => h n hn

theorem Rx.budget_le (rx : Rx) : rx.budget ≤ rx.script.length := List.countP_le_length

/-- Every call is offered `n` bytes. -/
def SendSchedule.always (n : ℕ) : SendSchedule := .const (.accept n) (.inl trivial) trivial

/-- Every call is offered `n` bytes. -/
def RecvSchedule.always (n : ℕ) : RecvSchedule := .const (.deliver n) (.inl trivial) trivial

end NetProg
