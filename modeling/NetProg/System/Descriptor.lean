import NetProg.System.Select
import Mathlib.Data.Nat.Bitwise

/-!
# Connecting with a limit of time

The descriptor of a socket that is being connected, and how the kernel answers the calls of an attempt:
`fcntl` reads and sets the file status flags, `connect` does not wait on a descriptor with `O_NONBLOCK`,
`select` waits in its place, and `getsockopt` then fetches the error of the connection.

`F_SETFL` changes only some of the flags, and `O_NONBLOCK` is one of these: setting it adds it to the flags
(`setFlags_nonblock`), and setting what was read before takes it away again (`setFlags_restore`).
-/

namespace NetProg
open Lib (run_bind_ok)

def EINPROGRESS : Errno := .other 115

/-! ### File status flags -/

def O_APPEND : ℕ := 0x400
def O_NONBLOCK : ℕ := 0x800
def O_ASYNC : ℕ := 0x2000
def O_DIRECT : ℕ := 0x4000
def O_NOATIME : ℕ := 0x40000

/-- The flags that `F_SETFL` can change. -/
def SETFL_MASK : ℕ := O_APPEND ||| O_NONBLOCK ||| O_ASYNC ||| O_DIRECT ||| O_NOATIME

/-- The flags after `F_SETFL` with an argument. -/
def setFlags (flags arg : ℕ) : ℕ := flags.ldiff SETFL_MASK ||| (arg &&& SETFL_MASK)

theorem testBit_setFlags (flags arg i : ℕ) :
    (setFlags flags arg).testBit i = if SETFL_MASK.testBit i then arg.testBit i else flags.testBit i := by
  rw [setFlags, Nat.testBit_or, Nat.testBit_ldiff, Nat.testBit_and]
  cases SETFL_MASK.testBit i <;> simp

theorem testBit_nonblock {i : ℕ} (h : SETFL_MASK.testBit i = false) : O_NONBLOCK.testBit i = false := by
  rw [SETFL_MASK, Nat.testBit_or, Nat.testBit_or, Nat.testBit_or, Nat.testBit_or] at h
  cases hbit : O_NONBLOCK.testBit i with
  | false => rfl
  | true =>
    rw [hbit] at h
    simp at h

theorem setFlags_nonblock (flags : ℕ) : setFlags flags (flags ||| O_NONBLOCK) = flags ||| O_NONBLOCK := by
  apply Nat.eq_of_testBit_eq
  intro i
  rw [testBit_setFlags, Nat.testBit_or]
  split
  · rfl
  · rename_i hmask
    rw [testBit_nonblock (by simpa using hmask), Bool.or_false]

theorem setFlags_restore (flags : ℕ) : setFlags (flags ||| O_NONBLOCK) flags = flags := by
  apply Nat.eq_of_testBit_eq
  intro i
  rw [testBit_setFlags, Nat.testBit_or]
  split
  · rfl
  · rename_i hmask
    rw [testBit_nonblock (by simpa using hmask), Bool.or_false]

/-! ### The descriptor -/

/-- The descriptor, and the calls of `select` about it. -/
structure Descriptor where
  isOpen : Bool
  flags : ℕ
  selector : Selector
  deriving DecidableEq

namespace Descriptor

variable {ε α : Type} {d : Descriptor} {a : α} {stop : Stop} {s : Selector}

/-- `fcntl(fd, F_GETFL, 0)`: the flags, or `errno`. -/
def getfl (answer : Option Errno) : EStateM ε Descriptor (Except Errno ℕ) := fun d =>
  match answer with
  | some errno => .ok (.error errno) d
  | none => .ok (.ok d.flags) d

/-- `fcntl(fd, F_SETFL, flags)`. -/
def setfl (flags : ℕ) (answer : Option Errno) : EStateM ε Descriptor (Except Errno ℕ) := fun d =>
  match answer with
  | some errno => .ok (.error errno) d
  | none => .ok (.ok 0) { d with flags := setFlags d.flags flags }

/-- `close(fd)`, which releases the descriptor whatever it reports. -/
def close : EStateM ε Descriptor Unit := fun d => .ok () { d with isOpen := false }

/-- What `select` answers, as a part of the descriptor. -/
def selectorLens : Lib.Lens Descriptor Selector where
  get := Descriptor.selector
  put selector d := { d with selector }
  get_put _ _ := rfl
  put_put _ _ _ := rfl

/-- A program that asks about the descriptor. -/
def selecting (x : EStateM Stop Selector α) : EStateM Stop Descriptor α := selectorLens.lift x

theorem selecting_ok {x : EStateM Stop Selector α} (h : x d.selector = .ok a s) :
    selecting x d = .ok a { d with selector := s } :=
  selectorLens.lift_ok h

theorem selecting_error {x : EStateM Stop Selector α} (h : x d.selector = .error stop s) :
    selecting x d = .error stop { d with selector := s } :=
  selectorLens.lift_error h

end Descriptor

/-! ### The answers to an attempt -/

/-- How the kernel answers the calls of an attempt to connect. `none` stands for success, in the answer to
`getsockopt` for a socket that has no error pending. -/
structure ConnectAnswers where
  getfl : Option Errno
  setfl : Option Errno
  connect : Option Errno
  selects : List SelectAnswer
  getsockopt : Except Errno (Option Errno)
  /-- To the call that sets the old flags again. -/
  restore : Option Errno

namespace ConnectAnswers

/-- The descriptor no longer waits, and `connect` has been called. -/
def Called (k : ConnectAnswers) : Prop := k.getfl = none ∧ k.setfl = none

/-- The connection is under way, and `select` is called. -/
def InProgress (k : ConnectAnswers) : Prop := k.Called ∧ k.connect = some EINPROGRESS

/-- The error that the wait and the call behind it come to, if any. -/
def waitVerdict (k : ConnectAnswers) (sockfd : ℤ) : Option Errno :=
  match answerOf k.selects with
  | none => none
  | some (.fail errno) => some errno
  | some (.ready readable writable _) =>
    if sockfd ∈ readable ∨ sockfd ∈ writable then
      match k.getsockopt with
      | .error errno => some errno
      | .ok error => error
    else some ETIMEDOUT

/-- The error of the step of the attempt that fails, or `none` for a connection. -/
def verdict (k : ConnectAnswers) (sockfd : ℤ) : Option Errno :=
  match k.getfl.or k.setfl with
  | some errno => some errno
  | none =>
    match k.connect with
    | none => none
    | some errno => if errno = EINPROGRESS then k.waitVerdict sockfd else some errno

/-- `select` reports that the descriptor is ready. -/
def Ready (k : ConnectAnswers) (sockfd : ℤ) : Prop :=
  ∃ readable writable exceptional, answerOf k.selects = some (.ready readable writable exceptional) ∧
    (sockfd ∈ readable ∨ sockfd ∈ writable)

/-- An error would be met while the address is at hand: by `connect` itself, by `select`, or by the
connection. -/
def NamesAddress (k : ConnectAnswers) (sockfd : ℤ) : Prop :=
  k.Called ∧ ∃ errno, k.connect = some errno ∧
    (errno = EINPROGRESS → ¬ k.Ready sockfd ∨ ∃ error, k.getsockopt = .ok (some error))

/-- `select` has waited for nothing. -/
def TimedOut (k : ConnectAnswers) (sockfd : ℤ) : Prop :=
  ∃ readable writable exceptional, answerOf k.selects = some (.ready readable writable exceptional) ∧
    sockfd ∉ readable ∧ sockfd ∉ writable

section

variable {k : ConnectAnswers} {sockfd : ℤ}

theorem verdict_of_called (h : k.Called) :
    k.verdict sockfd =
      match k.connect with
      | none => none
      | some errno => if errno = EINPROGRESS then k.waitVerdict sockfd else some errno := by
  obtain ⟨hget, hset⟩ := h
  rw [verdict, hget, hset]
  rfl

theorem verdict_of_not_called (h : ¬ k.Called) : k.verdict sockfd = k.getfl.or k.setfl := by
  rw [verdict]
  cases hget : k.getfl with
  | some errno => rfl
  | none =>
    cases hset : k.setfl with
    | some errno => rfl
    | none => exact absurd ⟨hget, hset⟩ h

theorem waitVerdict_of_ready (h : k.Ready sockfd) :
    k.waitVerdict sockfd =
      match k.getsockopt with
      | .error errno => some errno
      | .ok error => error := by
  obtain ⟨readable, writable, exceptional, hanswer, hmem⟩ := h
  rw [waitVerdict, hanswer]
  exact if_pos hmem

theorem waitVerdict_of_fail {errno : Errno} (h : answerOf k.selects = some (.fail errno)) :
    k.waitVerdict sockfd = some errno := by
  rw [waitVerdict, h]

theorem waitVerdict_of_timedOut (h : k.TimedOut sockfd) : k.waitVerdict sockfd = some ETIMEDOUT := by
  obtain ⟨readable, writable, exceptional, hanswer, hread, hwrite⟩ := h
  rw [waitVerdict, hanswer]
  exact if_neg (not_or.2 ⟨hread, hwrite⟩)

theorem not_ready_of_fail {errno : Errno} (h : answerOf k.selects = some (.fail errno)) :
    ¬ k.Ready sockfd := by
  rintro ⟨readable, writable, exceptional, hanswer, -⟩
  cases h.symm.trans hanswer

theorem TimedOut.not_ready (h : k.TimedOut sockfd) : ¬ k.Ready sockfd := by
  obtain ⟨readable, writable, exceptional, hanswer, hread, hwrite⟩ := h
  rintro ⟨readable', writable', exceptional', hanswer', hmem⟩
  cases hanswer.symm.trans hanswer'
  exact hmem.elim hread hwrite

theorem InProgress.namesAddress_iff (h : k.InProgress) :
    k.NamesAddress sockfd ↔ ¬ k.Ready sockfd ∨ ∃ error, k.getsockopt = .ok (some error) := by
  constructor
  · rintro ⟨-, errno, hconnect, hcond⟩
    exact hcond (Option.some.inj (hconnect.symm.trans h.2))
  · intro hcond
    exact ⟨h.1, EINPROGRESS, h.2, fun _ => hcond⟩

end

end ConnectAnswers

end NetProg
