import NetProg.System.Stream

/-!
# Reads that fail

A reader that goes on after every interruption reads until the kernel reports another error, or the end of the
stream. `beforeFailure` is what it has read when the error comes first.
-/

namespace NetProg

/-- What reads with room for `size` bytes get before one of them fails, if the stream does not end before. -/
def beforeFailure (size : ℕ) : List RecvAnswer → Bytes → Option Bytes
  | [], _ => none
  | .fail errno :: script, input => if errno = .EINTR then beforeFailure size script input else some []
  | .deliver n :: script, input =>
    let k := moved n (min size input.length)
    if k = 0 then none else (beforeFailure size script (input.drop k)).map (input.take k ++ ·)

namespace Rx

/-- What is read from the connection before a read fails. -/
def beforeFailure (size : ℕ) (rx : Rx) : Option Bytes := NetProg.beforeFailure size rx.script rx.input

variable {size n k : ℕ} {input : Bytes} {script : List RecvAnswer}

theorem beforeFailure_deliver (hk : moved n (min size input.length) = k) :
    (Rx.mk input (.deliver n :: script)).beforeFailure size =
      if k = 0 then none else ((Rx.mk (input.drop k) script).beforeFailure size).map (input.take k ++ ·) := by
  subst hk
  rfl

theorem beforeFailure_fail (errno : Errno) : (Rx.mk input (.fail errno :: script)).beforeFailure size =
    if errno = .EINTR then (Rx.mk input script).beforeFailure size else some [] := rfl

end Rx

end NetProg
