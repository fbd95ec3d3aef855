import NetProg.Lib.Run
import NetProg.Lib.Runs
import NetProg.Lib.LineReader
import NetProg.System.Stream
import NetProg.System.Text
import Mathlib.Logic.Function.Basic

/-!
# The line reader of the C library

`my_read` and `readline` of `lib/c/readline.c`. The bytes that have been read ahead are in static variables,
one buffer for all descriptors of the process, so a call is a function of that buffer and of the connection
it reads from (`LineBuffer`), and a process is one buffer with many connections (`Process`).

On one descriptor, `my_read` is a source of the bytes of the stream (`source_myRead`), so `readline` takes its
lines however the bytes arrive (`readsLines_readline`). What it returns is their number as long as a newline
or the end of the stream ends them; at the limit the terminator is counted too (`returns_count_iff`).

A call with room for a byte takes what the buffer holds, whichever connection it came from, and a call without
leaves everything as it is. As long as every call with room on another descriptor than the last such call finds the
buffer empty, the calls on each descriptor store what they would store without the others, and the first that does
not stores a byte that is not from its own stream (`streams_do_not_mix`).
-/

namespace NetProg.C
open Lib (run_pure run_throw run_bind_ok run_bind_error run_get_bind run_modify_bind run Along Source takeLine
  LineEnd cut cut_append length_cut_le EndsWithin ReadsLines)

/-- The `read_cnt` bytes at `read_ptr`, and the connection of the descriptor in use. -/
structure LineBuffer where
  unread : Bytes
  rx : Rx
  deriving DecidableEq, Repr

/-- `read(fd, read_buf, len)`: the return value, `errno` and the bytes read. -/
def read (len : ℕ) : EStateM Stop LineBuffer (ℤ × Option Errno × Bytes) := fun b =>
  match recv len b.rx with
  | .ok r rx => .ok r ⟨b.unread, rx⟩
  | .error stop rx => .error stop ⟨b.unread, rx⟩

/-- The code from the label `again:` on: the new `read_cnt`. -/
def again : ℕ → EStateM Stop LineBuffer ℤ
  | 0 => throw .blocked
  | turns + 1 => do
    let (read_cnt, errno, read_buf) ← read 4096
    if read_cnt < 0 ∧ errno = some .EINTR then again turns
    else do
      modify fun b => { b with unread := read_buf }
      return read_cnt

/-- `if (read_cnt <= 0)`, with a turn for every answer that can interrupt the read. -/
def refill : EStateM Stop LineBuffer ℤ := do
  let b ← get
  if b.unread = [] then again (b.rx.script.length + 1) else return (b.unread.length : ℤ)

/-- What `my_read` does with the new `read_cnt`: `read_cnt--; *ptr = *read_ptr++;` when there are bytes. -/
def takeByte (read_cnt : ℤ) : EStateM Stop LineBuffer (ℤ × UInt8) := fun b =>
  if read_cnt < 0 then .ok (-1, 0) b
  else if read_cnt = 0 then .ok (0, 0) b
  else .ok (1, b.unread.headD 0) { b with unread := b.unread.tail }

/-- `my_read(fd, &c)`: the return value and `c`. -/
def myRead : EStateM Stop LineBuffer (ℤ × UInt8) := do
  let read_cnt ← refill
  takeByte read_cnt

/-- `for (n = …; n < (int) maxlen; n++)`: the return value and the bytes stored, without the terminator. -/
def readlineLoop (maxlen : ℤ) : ℕ → ℤ → Bytes → EStateM Stop LineBuffer (ℤ × Bytes)
  | 0, n, line => return (n, line)
  | turns + 1, n, line =>
    if n < maxlen then do
      let (rc, c) ← myRead
      if rc = 1 then
        if c = newline then return (n, line ++ [c]) else readlineLoop maxlen turns (n + 1) (line ++ [c])
      else if rc = 0 then return (n - 1, line)
      else return (-1, line)
    else return (n, line)

/-- `readline(fd, vptr, maxlen)`. -/
def readline (maxlen : ℕ) : EStateM Stop LineBuffer (ℤ × Bytes) :=
  readlineLoop (toInt maxlen) (toInt maxlen).toNat 1 []

/-! ### Processes -/

/-- The static buffer and the connections of a process. -/
structure Process where
  unread : Bytes
  fds : ℕ → Rx

/-- The buffer with the connection of one descriptor. -/
def Process.on (p : Process) (fd : ℕ) : LineBuffer := ⟨p.unread, p.fds fd⟩

/-- A call `readline(fd, vptr, maxlen)`. -/
structure ReadlineCall where
  fd : ℕ
  maxlen : ℕ
  deriving DecidableEq, Repr

/-- A process that calls `readline`: the descriptor of the last call with room for a byte, and what every call has
returned and stored. A call that does not return is its last. -/
structure Reading where
  process : Process
  last : Option ℕ
  stored : List (ReadlineCall × ℤ × Bytes)
  blocked : Bool

namespace Reading

/-- Before the first call. -/
def start (fds : ℕ → Rx) : Reading := ⟨⟨[], fds⟩, none, [], false⟩

/-- One call. Only one with room for a byte looks into the buffer, and is remembered as the last. -/
def step (s : Reading) (c : ReadlineCall) : Reading :=
  if s.blocked then s
  else
    match readline c.maxlen (s.process.on c.fd) with
    | .ok r b =>
      { process := ⟨b.unread, Function.update s.process.fds c.fd b.rx⟩
        last := if 1 < toInt c.maxlen then some c.fd else s.last
        stored := s.stored ++ [(c, r)]
        blocked := false }
    | .error _ _ => { s with blocked := true }

/-- What the calls on one descriptor have returned and stored. -/
def storedOn (s : Reading) (fd : ℕ) : List (ReadlineCall × ℤ × Bytes) :=
  s.stored.filter fun r => r.1.fd = fd

/-- A call with room for a byte, on another descriptor than the last such call, finds nothing in the buffer. -/
def Clean (s : Reading) (c : ReadlineCall) : Prop :=
  1 < toInt c.maxlen → s.last ≠ some c.fd → s.process.unread = []

end Reading

/-! ### One call -/

theorem again_deliver (turns n : ℕ) (unread input : Bytes) (script : List RecvAnswer) :
    again (turns + 1) ⟨unread, input, .deliver n :: script⟩ =
      .ok (moved n (min 4096 input.length) : ℤ) ⟨input.take (moved n (min 4096 input.length)),
        input.drop (moved n (min 4096 input.length)), script⟩ := by
  have hread : read 4096 ⟨unread, input, .deliver n :: script⟩ =
      .ok ((moved n (min 4096 input.length) : ℤ), none, input.take (moved n (min 4096 input.length)))
        ⟨unread, input.drop (moved n (min 4096 input.length)), script⟩ := rfl
  rw [again, run_bind_ok hread]
  simp only [reduceCtorEq, and_false, if_false]
  exact run_modify_bind _ _ _

theorem again_fail (turns : ℕ) (unread input : Bytes) (errno : Errno) (script : List RecvAnswer) :
    again (turns + 1) ⟨unread, input, .fail errno :: script⟩ =
      if errno = .EINTR then again turns ⟨unread, input, script⟩ else .ok (-1) ⟨[], input, script⟩ := by
  have hread : read 4096 ⟨unread, input, .fail errno :: script⟩ =
      .ok (-1, some errno, []) ⟨unread, input, script⟩ := rfl
  rw [again, run_bind_ok hread]
  by_cases heintr : errno = .EINTR
  · simp only [heintr, show (-1 : ℤ) < 0 by decide, and_self, if_true]
  · simp only [Option.some.injEq, heintr, and_false, if_false]
    exact run_modify_bind _ _ _

theorem again_conserves {turns : ℕ} {b b' : LineBuffer} {read_cnt : ℤ}
    (h : again turns b = .ok read_cnt b') :
    b'.unread ++ b'.rx.input = b.rx.input ∧ (0 < read_cnt ↔ b'.unread ≠ []) := by
  induction turns generalizing b with
  | zero => simp [again] at h
  | succ turns ih =>
    obtain ⟨unread, input, script⟩ := b
    rcases script with _ | ⟨n | errno, script⟩
    · rw [again, run_bind_error (show read 4096 ⟨unread, input, []⟩ =
        .error .blocked ⟨unread, input, []⟩ from rfl)] at h
      simp at h
    · rw [again_deliver, EStateM.Result.ok.injEq] at h
      obtain ⟨rfl, rfl⟩ := h
      have hle := moved_le n (min 4096 input.length)
      refine ⟨List.take_append_drop _ _, ?_⟩
      rw [Int.natCast_pos, ← List.length_pos_iff, List.length_take]
      omega
    · rw [again_fail] at h
      split at h
      · have hrest := ih h
        exact hrest
      · rw [EStateM.Result.ok.injEq] at h
        obtain ⟨rfl, rfl⟩ := h
        exact ⟨rfl, by simp⟩

theorem refill_conserves {b b' : LineBuffer} {read_cnt : ℤ} (h : refill b = .ok read_cnt b') :
    b.unread ++ b.rx.input = b'.unread ++ b'.rx.input ∧ (0 < read_cnt ↔ b'.unread ≠ []) := by
  rw [refill, run_get_bind] at h
  split at h
  · rename_i hempty
    obtain ⟨hstream, hpos⟩ := again_conserves h
    rw [hempty, hstream]
    exact ⟨rfl, hpos⟩
  · rename_i hfull
    rw [run_pure, EStateM.Result.ok.injEq] at h
    obtain ⟨rfl, rfl⟩ := h
    rw [Int.natCast_pos, List.length_pos_iff]
    exact ⟨rfl, Iff.rfl⟩

theorem myRead_conserves {b b' : LineBuffer} {rc : ℤ} {c : UInt8} (h : myRead b = .ok (rc, c) b') :
    rc = 1 ∧ b.unread ++ b.rx.input = c :: (b'.unread ++ b'.rx.input) ∨
      rc ≠ 1 ∧ b.unread ++ b.rx.input = b'.unread ++ b'.rx.input := by
  rcases hrefill : refill b with ⟨read_cnt, b₁⟩ | ⟨stop, b₁⟩
  · obtain ⟨hstream, hpos⟩ := refill_conserves hrefill
    rw [myRead, run_bind_ok hrefill, takeByte] at h
    split_ifs at h with hneg hzero
    · obtain ⟨⟨rfl, -⟩, rfl⟩ : ((-1, 0) : ℤ × UInt8) = (rc, c) ∧ b₁ = b' := by simpa using h
      exact .inr ⟨by decide, hstream⟩
    · obtain ⟨⟨rfl, -⟩, rfl⟩ : ((0, 0) : ℤ × UInt8) = (rc, c) ∧ b₁ = b' := by simpa using h
      exact .inr ⟨by decide, hstream⟩
    · obtain ⟨c', unread, hunread⟩ := List.exists_cons_of_ne_nil (hpos.1 (by omega))
      rw [hunread] at h
      obtain ⟨⟨rfl, rfl⟩, rfl⟩ : ((1, c') : ℤ × UInt8) = (rc, c) ∧
          ({ b₁ with unread := unread } : LineBuffer) = b' := by simpa using h
      exact .inl ⟨rfl, by rw [hstream, hunread]; rfl⟩
  · rw [myRead, run_bind_error hrefill] at h
    simp at h

theorem readlineLoop_conserves {maxlen : ℤ} {turns : ℕ} {n n' : ℤ} {line line' : Bytes} {b b' : LineBuffer}
    (h : readlineLoop maxlen turns n line b = .ok (n', line') b') :
    ∃ got, line' = line ++ got ∧ b.unread ++ b.rx.input = got ++ (b'.unread ++ b'.rx.input) := by
  induction turns generalizing n line b with
  | zero =>
    obtain ⟨⟨-, rfl⟩, rfl⟩ : (n, line) = (n', line') ∧ b = b' := by simpa [readlineLoop] using h
    exact ⟨[], by simp, by simp⟩
  | succ turns ih =>
    rw [readlineLoop] at h
    split at h
    · rcases hread : myRead b with ⟨⟨rc, c⟩, b₁⟩ | ⟨stop, b₁⟩
      · rw [run_bind_ok hread] at h
        rcases myRead_conserves hread with ⟨rfl, hstream⟩ | ⟨hrc, hstream⟩
        · simp only [if_true] at h
          split at h
          · obtain ⟨⟨-, rfl⟩, rfl⟩ : (n, line ++ [c]) = (n', line') ∧ b₁ = b' := by simpa using h
            exact ⟨[c], rfl, hstream⟩
          · obtain ⟨got, rfl, hrest⟩ := ih h
            exact ⟨c :: got, by simp, by rw [hstream, hrest]; rfl⟩
        · simp only [if_neg hrc] at h
          have hline : line = line' ∧ b₁ = b' := by
            split at h <;> simp at h <;> exact ⟨h.1.2, h.2⟩
          obtain ⟨rfl, rfl⟩ := hline
          exact ⟨[], by simp, by simpa using hstream⟩
      · rw [run_bind_error hread] at h
        simp at h
    · obtain ⟨⟨-, rfl⟩, rfl⟩ : (n, line) = (n', line') ∧ b = b' := by simpa using h
      exact ⟨[], by simp, by simp⟩

theorem head?_readline {maxlen : ℕ} (hroom : 1 < toInt maxlen) {byte : UInt8} {unread line : Bytes} {n : ℤ}
    {rx : Rx} {b' : LineBuffer} (h : readline maxlen ⟨byte :: unread, rx⟩ = .ok (n, line) b') :
    line.head? = some byte := by
  have hread : myRead ⟨byte :: unread, rx⟩ = .ok (1, byte) ⟨unread, rx⟩ := by
    have hrefill : refill ⟨byte :: unread, rx⟩ =
        .ok ((byte :: unread).length : ℤ) ⟨byte :: unread, rx⟩ := rfl
    have hpos : (0 : ℤ) < ((byte :: unread).length : ℤ) := by simp
    rw [myRead, run_bind_ok hrefill, takeByte, if_neg (by omega), if_neg (by omega)]
    rfl
  obtain ⟨turns, hturns⟩ : ∃ turns, (toInt maxlen).toNat = turns + 1 :=
    Nat.exists_eq_succ_of_ne_zero (by omega)
  rw [readline, hturns, readlineLoop, if_pos hroom, run_bind_ok hread] at h
  simp only [if_true] at h
  split at h
  · obtain ⟨⟨-, rfl⟩, -⟩ : (1, [] ++ [byte]) = (n, line) ∧ (⟨unread, rx⟩ : LineBuffer) = b' := by
      simpa using h
    rfl
  · obtain ⟨got, rfl, -⟩ := readlineLoop_conserves h
    rfl

/-! ### The line and its count -/

/-- The buffer and the stream together. -/
def LineBuffer.stream (b : LineBuffer) : Bytes := b.unread ++ b.rx.input

theorem again_benign {turns : ℕ} {b b' : LineBuffer} {read_cnt : ℤ} (hbenign : b.rx.Benign)
    (h : again turns b = .ok read_cnt b') :
    0 ≤ read_cnt ∧ b'.rx.Benign ∧ b.rx.budget ≤ b'.rx.budget + 1 := by
  induction turns generalizing b with
  | zero => simp [again] at h
  | succ turns ih =>
    obtain ⟨unread, input, script⟩ := b
    cases script with
    | nil =>
      rw [again, run_bind_error (show read 4096 ⟨unread, input, []⟩ =
        .error .blocked ⟨unread, input, []⟩ from rfl)] at h
      simp at h
    | cons a script =>
      obtain ⟨ha, hscript⟩ := Rx.Benign.cons hbenign
      rcases ha.cases with ⟨n, rfl⟩ | rfl
      · rw [again_deliver, EStateM.Result.ok.injEq] at h
        obtain ⟨rfl, rfl⟩ := h
        exact ⟨Int.natCast_nonneg _, hscript, (Rx.budget_deliver).le⟩
      · rw [again_fail, if_pos rfl] at h
        simpa using ih hscript h

theorem again_zero {turns : ℕ} {b b' : LineBuffer} (h : again turns b = .ok 0 b') : b.rx.input = [] := by
  induction turns generalizing b with
  | zero => simp [again] at h
  | succ turns ih =>
    obtain ⟨unread, input, script⟩ := b
    rcases script with _ | ⟨n | errno, script⟩
    · rw [again, run_bind_error (show read 4096 ⟨unread, input, []⟩ =
        .error .blocked ⟨unread, input, []⟩ from rfl)] at h
      simp at h
    · rw [again_deliver, EStateM.Result.ok.injEq] at h
      have hzero : moved n (min 4096 input.length) = 0 := by exact_mod_cast h.1
      by_contra hne
      have hlen : 0 < input.length := List.length_pos_iff.2 hne
      have hpos := @moved_pos n (min 4096 input.length) (by omega)
      omega
    · rw [again_fail] at h
      split at h
      · exact @ih ⟨unread, input, script⟩ h
      · simp at h

theorem again_returns {turns : ℕ} {b : LineBuffer} (hbenign : b.rx.Benign) (hbudget : 0 < b.rx.budget)
    (hturns : b.rx.script.length < turns) : ∃ read_cnt b', again turns b = .ok read_cnt b' := by
  induction turns generalizing b with
  | zero => omega
  | succ turns ih =>
    obtain ⟨unread, input, script⟩ := b
    cases script with
    | nil => exact absurd hbudget (Nat.lt_irrefl 0)
    | cons a script =>
      obtain ⟨ha, hscript⟩ := Rx.Benign.cons hbenign
      rcases ha.cases with ⟨n, rfl⟩ | rfl
      · exact ⟨_, _, again_deliver turns n unread input script⟩
      · rw [again_fail, if_pos rfl]
        rw [List.length_cons] at hturns
        exact ih hscript (by simpa using hbudget) (by simpa using hturns)

theorem myRead_cases {b b' : LineBuffer} {rc : ℤ} {c : UInt8} (h : myRead b = .ok (rc, c) b') :
    ∃ read_cnt b₁, refill b = .ok read_cnt b₁ ∧ (read_cnt < 0 ∧ rc = -1 ∧ b' = b₁ ∨
      read_cnt = 0 ∧ rc = 0 ∧ b' = b₁ ∨ 0 < read_cnt ∧ rc = 1 ∧ b'.rx = b₁.rx) := by
  rcases hrefill : refill b with ⟨read_cnt, b₁⟩ | ⟨stop, b₁⟩
  · rw [myRead, run_bind_ok hrefill, takeByte] at h
    refine ⟨read_cnt, b₁, rfl, ?_⟩
    split_ifs at h with hneg hzero
    · obtain ⟨⟨rfl, -⟩, rfl⟩ : ((-1, 0) : ℤ × UInt8) = (rc, c) ∧ b₁ = b' := by simpa using h
      exact .inl ⟨hneg, rfl, rfl⟩
    · obtain ⟨⟨rfl, -⟩, rfl⟩ : ((0, 0) : ℤ × UInt8) = (rc, c) ∧ b₁ = b' := by simpa using h
      exact .inr (.inl ⟨hzero, rfl, rfl⟩)
    · obtain ⟨⟨rfl, -⟩, rfl⟩ : ((1, b₁.unread.headD 0) : ℤ × UInt8) = (rc, c) ∧
          ({ b₁ with unread := b₁.unread.tail } : LineBuffer) = b' := by simpa using h
      exact .inr (.inr ⟨by omega, rfl, rfl⟩)
  · rw [myRead, run_bind_error hrefill] at h
    simp at h

theorem refill_cases {b b₁ : LineBuffer} {read_cnt : ℤ} (h : refill b = .ok read_cnt b₁) :
    b.unread ≠ [] ∧ 0 < read_cnt ∧ b₁ = b ∨
      b.unread = [] ∧ again (b.rx.script.length + 1) b = .ok read_cnt b₁ := by
  rw [refill, run_get_bind] at h
  split at h
  · rename_i hempty
    exact .inr ⟨hempty, h⟩
  · rename_i hfull
    rw [run_pure, EStateM.Result.ok.injEq] at h
    obtain ⟨rfl, rfl⟩ := h
    exact .inl ⟨hfull, Int.natCast_pos.2 (List.length_pos_iff.2 hfull), rfl⟩

theorem source_myRead : Source myRead LineBuffer.stream (fun _ => True) (fun b => b.rx.Benign)
    (fun b => b.rx.budget) where
  inv _ _ _ _ _ _ := trivial
  takes b rc c b' _ h := by
    rcases myRead_conserves h with ⟨rfl, hstream⟩ | ⟨hrc, hstream⟩
    · exact .inl ⟨rfl, hstream⟩
    · by_cases hzero : rc = 0
      · subst hzero
        have hempty : b.unread ++ b.rx.input = [] := by
          obtain ⟨read_cnt, b₁, hrefill, hcases⟩ := myRead_cases h
          obtain rfl : read_cnt = 0 := by omega
          rcases refill_cases hrefill with ⟨-, hpos, -⟩ | ⟨hunread, hagain⟩
          · exact absurd hpos (lt_irrefl 0)
          · rw [hunread, again_zero hagain, List.append_nil]
        exact .inr (.inl ⟨rfl, hempty, hstream.symm.trans hempty⟩)
      · exact .inr (.inr ⟨hrc, hzero, hstream.symm⟩)
  benign b rc c b' _ hbenign h := by
    obtain ⟨read_cnt, b₁, hrefill, hcases⟩ := myRead_cases h
    obtain ⟨hcnt, hbenign₁, hbudget⟩ :
        0 ≤ read_cnt ∧ b₁.rx.Benign ∧ b.rx.budget ≤ b₁.rx.budget + 1 := by
      rcases refill_cases hrefill with ⟨-, hpos, rfl⟩ | ⟨-, hagain⟩
      · exact ⟨hpos.le, hbenign, Nat.le_succ _⟩
      · exact again_benign hbenign hagain
    rcases hcases with ⟨hneg, -⟩ | ⟨-, rfl, rfl⟩ | ⟨-, rfl, hrx⟩
    · omega
    · exact ⟨.inr rfl, hbenign₁, hbudget⟩
    · rw [hrx]
      exact ⟨.inl rfl, hbenign₁, hbudget⟩
  returns b _ hbenign hbudget := by
    obtain ⟨read_cnt, b₁, hrefill⟩ : ∃ read_cnt b₁, refill b = .ok read_cnt b₁ := by
      rw [refill, run_get_bind]
      split
      · exact again_returns hbenign hbudget (Nat.lt_succ_self _)
      · exact ⟨_, _, rfl⟩
    rw [myRead, run_bind_ok hrefill, takeByte]
    split_ifs <;> exact ⟨_, _, rfl⟩

/-- What `readline` returns. -/
def returned : LineEnd × Bytes → ℤ
  | (.full, line) => line.length + 1
  | (.failed, _) => -1
  | (_, line) => line.length

theorem returned_of_line {e : LineEnd} (he : e ≠ .failed) (hne : e ≠ .full) (line : Bytes) :
    returned (e, line) = line.length := by
  cases e with
  | stopped => rfl
  | ended => rfl
  | full => exact absurd rfl hne
  | failed => exact absurd rfl he

theorem readlineLoop_eq {maxlen : ℤ} {room turns : ℕ} {line : Bytes}
    (hroom : (line.length : ℤ) + 1 + room = maxlen) (hturns : room ≤ turns) (b : LineBuffer) :
    readlineLoop maxlen turns (line.length + 1) line b =
      (takeLine myRead (· = newline) room line >>= fun r => pure (returned r, r.2)) b := by
  induction room generalizing turns line b with
  | zero =>
    have hfull : ∀ turns, readlineLoop maxlen turns (line.length + 1) line b =
        .ok ((line.length : ℤ) + 1, line) b := by
      intro turns
      cases turns with
      | zero => rfl
      | succ turns =>
        rw [readlineLoop, if_neg (by omega)]
        rfl
    exact hfull turns
  | succ room ih =>
    obtain ⟨turns, rfl⟩ := Nat.exists_eq_succ_of_ne_zero (show turns ≠ 0 by omega)
    rw [readlineLoop, if_pos (by omega), takeLine]
    rcases hread : myRead b with ⟨⟨rc, c⟩, b₁⟩ | ⟨stop, b₁⟩
    · rw [run_bind_ok hread, bind_assoc, run_bind_ok hread]
      simp only [decide_eq_true_eq]
      split_ifs with hone hstop hzero
      · simp [returned]
      · have hlen : ((line.length : ℤ) + 1) + 1 = ((line ++ [c]).length : ℤ) + 1 := by simp
        rw [hlen]
        apply ih
        · simp only [List.length_append, List.length_singleton, Nat.cast_succ] at hroom ⊢
          omega
        · omega
      · simp [returned]
      · simp [returned]
    · rw [run_bind_error hread, bind_assoc, run_bind_error hread]

/-- How many bytes `readline` can store before the terminator. -/
def lineRoom (maxlen : ℕ) : ℕ := (toInt maxlen - 1).toNat

theorem lineRoom_eq {maxlen : ℕ} (hmax : maxlen ≤ INT_MAX) : lineRoom maxlen = maxlen - 1 := by
  rw [lineRoom, toInt_of_le hmax]
  omega

theorem readline_eq_takeLine (maxlen : ℕ) (b : LineBuffer) :
    readline maxlen b =
      (takeLine myRead (· = newline) (lineRoom maxlen) [] >>= fun r => pure (returned r, r.2)) b := by
  rcases lt_or_ge 0 (toInt maxlen) with hpos | hnonpos
  · have hroom : (([] : Bytes).length : ℤ) + 1 + (lineRoom maxlen : ℤ) = toInt maxlen := by
      rw [List.length_nil, lineRoom]
      omega
    have hturns : lineRoom maxlen ≤ (toInt maxlen).toNat := by
      unfold lineRoom
      omega
    exact readlineLoop_eq hroom hturns b
  · have hroom : lineRoom maxlen = 0 := Int.toNat_of_nonpos (by omega)
    rw [readline, Int.toNat_of_nonpos hnonpos, hroom]
    rfl

theorem readline_eq {maxlen : ℕ} (hmax : maxlen ≤ INT_MAX) (b : LineBuffer) :
    readline maxlen b =
      (takeLine myRead (· = newline) (maxlen - 1) [] >>= fun r => pure (returned r, r.2)) b := by
  rw [readline_eq_takeLine, lineRoom_eq hmax]

theorem readsLines_readline : ReadsLines readline Prod.snd (fun _ => (· = newline)) (· - 1)
    (fun maxlen => 1 ≤ maxlen ∧ maxlen ≤ INT_MAX) LineBuffer.stream (fun _ => True)
    (fun b => b.rx.Benign) (fun b => b.rx.budget) := by
  apply ReadsLines.of_source source_myRead
  · intro maxlen b hok
    exact readline_eq hok.2 b
  · intro e out b _
    exact ⟨_, rfl, rfl⟩

/-- The value that `readline` returns is the number of bytes it has stored before the terminator, however the
bytes arrive and whatever fails, precisely when a newline or the end of the stream comes before the limit. -/
theorem returns_count_iff {maxlen : ℕ} (hpos : 1 ≤ maxlen) (hmax : maxlen ≤ INT_MAX) (unread input : Bytes) :
    (∀ script r line b', readline maxlen ⟨unread, input, script⟩ = .ok (r, line) b' → 0 ≤ r →
      line <+: unread ++ input ∧ r = line.length ∧ r ≤ (maxlen : ℤ) - 1) ↔
    EndsWithin (· = newline) (maxlen - 1) (unread ++ input) := by
  constructor
  · intro hcount
    by_contra hends
    obtain ⟨n, hbudget⟩ := (RecvSchedule.always 1).exists_budget (maxlen - 1)
    have hbenign := (RecvSchedule.always 1).benign input n
    obtain ⟨e, out, b', htake⟩ : ∃ e out b', takeLine myRead (· = newline) (maxlen - 1) []
        ⟨unread, input, (RecvSchedule.always 1).upTo n⟩ = .ok (e, out) b' :=
      source_myRead.takeLine_returns trivial hbenign
        ((min_le_left _ _).trans (hbudget n (le_refl n) input)) []
    obtain ⟨he, -⟩ := source_myRead.takeLine_benign trivial hbenign htake
    obtain ⟨-, hcut⟩ := source_myRead.takeLine_eq_cut trivial htake
    obtain rfl : e = .full := (hcut he).2.2.2 hends
    have hcall : readline maxlen ⟨unread, input, (RecvSchedule.always 1).upTo n⟩ =
        .ok ((out.length : ℤ) + 1, out) b' := by
      rw [readline_eq hmax, run_bind_ok htake]
      rfl
    obtain ⟨-, hlen, -⟩ := hcount _ _ _ _ hcall (by omega)
    omega
  · intro hends script r line b' hcall hr
    rw [readline_eq hmax] at hcall
    rcases htake : takeLine myRead (· = newline) (maxlen - 1) [] ⟨unread, input, script⟩ with
      ⟨⟨e, out⟩, b₁⟩ | ⟨stop, b₁⟩
    · rw [run_bind_ok htake] at hcall
      obtain ⟨⟨rfl, rfl⟩, rfl⟩ : (returned (e, out) = r ∧ out = line) ∧ b₁ = b' := by simpa using hcall
      obtain ⟨-, hcut⟩ := source_myRead.takeLine_eq_cut trivial htake
      have he : e ≠ .failed := by
        rintro rfl
        exact absurd hr (show ¬ (0 : ℤ) ≤ -1 by decide)
      obtain ⟨hout, -, hfull⟩ := hcut he
      have hne : e ≠ .full := fun h => hfull.1 h hends
      have hreturned : returned (e, out) = out.length := returned_of_line he hne out
      have hle := length_cut_le (· = newline) (maxlen - 1) (unread ++ input)
      have hpre := List.prefix_append (cut (· = newline) (maxlen - 1) (unread ++ input)).1
        (cut (· = newline) (maxlen - 1) (unread ++ input)).2
      rw [cut_append] at hpre
      rw [List.nil_append] at hout
      have hsame : out = (cut (· = newline) (maxlen - 1) (unread ++ input)).1 := hout
      rw [← hsame] at hle hpre
      exact ⟨hpre, hreturned, by omega⟩
    · rw [run_bind_error htake] at hcall
      simp at hcall

/-- Two bytes are stored before the limit of three, and the value returned is three. -/
theorem counts_terminator :
    ∃ r line b', readline 3 ⟨[], [97, 98, 99], [.deliver 3]⟩ = .ok (r, line) b' ∧
      0 ≤ r ∧ r ≠ line.length :=
  ⟨3, [97, 98], ⟨[99], [], []⟩, rfl, by decide, by decide⟩

theorem returns_count_iff_four : 1 ≤ 4 ∧ 4 ≤ INT_MAX ∧
    ((∀ script r line b', readline 4 ⟨[], [97, 10, 98], script⟩ = .ok (r, line) b' → 0 ≤ r →
      line <+: [] ++ [97, 10, 98] ∧ r = line.length ∧ r ≤ ((4 : ℕ) : ℤ) - 1) ↔
    EndsWithin (· = newline) (4 - 1) ([] ++ [97, 10, 98])) :=
  ⟨by decide, by decide, returns_count_iff (by decide) (by decide) [] [97, 10, 98]⟩

/-! ### Two descriptors -/

theorem readline_of_le {maxlen : ℕ} (hroom : toInt maxlen ≤ 1) (b : LineBuffer) :
    readline maxlen b = .ok (1, []) b := by
  have hzero : lineRoom maxlen = 0 := Int.toNat_of_nonpos (by omega)
  rw [readline_eq_takeLine, hzero, takeLine]
  rfl

namespace Reading

variable {fd : ℕ} {s alone : Reading} {c : ReadlineCall}

/-- The session `s` and one with the calls on `fd` alone: until a call of `s` fails to return, the same has
been stored on `fd`, and the other session's buffer holds what `s` has read ahead from `fd`. -/
def Agrees (fd : ℕ) (s alone : Reading) : Prop :=
  (s.blocked = true ∧ s.storedOn fd <+: alone.stored) ∨
    (s.blocked = false ∧ alone.blocked = false ∧ s.storedOn fd = alone.stored ∧
      s.process.fds fd = alone.process.fds fd ∧
      alone.process.unread = if s.last = some fd then s.process.unread else [])

theorem agrees_start (fd : ℕ) (fds : ℕ → Rx) : Agrees fd (start fds) (start fds) :=
  .inr ⟨rfl, rfl, rfl, rfl, rfl⟩

theorem step_of_ok {r : ℤ × Bytes} {b : LineBuffer} (hblocked : s.blocked = false)
    (hcall : readline c.maxlen (s.process.on c.fd) = .ok r b) :
    step s c = ⟨⟨b.unread, Function.update s.process.fds c.fd b.rx⟩,
      if 1 < toInt c.maxlen then some c.fd else s.last, s.stored ++ [(c, r)], false⟩ := by
  rw [step, hblocked, if_neg (by simp), hcall]

theorem step_of_error {stop : Stop} {b : LineBuffer} (hblocked : s.blocked = false)
    (hcall : readline c.maxlen (s.process.on c.fd) = .error stop b) : step s c = { s with blocked := true } := by
  rw [step, hblocked, if_neg (by simp), hcall]

theorem step_of_blocked (hblocked : s.blocked = true) : step s c = s := by rw [step, if_pos hblocked]

theorem step_of_le (hblocked : s.blocked = false) (hroom : toInt c.maxlen ≤ 1) :
    step s c = { s with stored := s.stored ++ [(c, 1, [])] } := by
  rw [step_of_ok hblocked (readline_of_le hroom _), if_neg (not_lt.2 hroom), Process.on, Function.update_eq_self,
    ← hblocked]

theorem stored_step_grows (s : Reading) (c : ReadlineCall) : s.stored <+: (step s c).stored := by
  unfold step
  split
  · exact List.prefix_rfl
  · split
    · exact List.prefix_append _ _
    · exact List.prefix_rfl

theorem storedOn_append_of_eq {s : Reading} {c : ReadlineCall} {r : ℤ × Bytes} {fd : ℕ} (h : c.fd = fd) :
    (s.stored ++ [(c, r)]).filter (fun r => r.1.fd = fd) = s.storedOn fd ++ [(c, r)] := by
  simp [storedOn, h]

theorem storedOn_append_of_ne {s : Reading} {c : ReadlineCall} {r : ℤ × Bytes} {fd : ℕ} (h : c.fd ≠ fd) :
    (s.stored ++ [(c, r)]).filter (fun r => r.1.fd = fd) = s.storedOn fd := by
  simp [storedOn, h]

theorem agrees_step_mine (h : Agrees fd s alone) (hclean : Clean s c) (hfd : c.fd = fd) :
    Agrees fd (step s c) (step alone c) := by
  rcases h with ⟨hblocked, hpre⟩ | ⟨hblocked, halone, hstored, hrx, hunread⟩
  · rw [step_of_blocked hblocked]
    exact .inl ⟨hblocked, hpre.trans (stored_step_grows alone c)⟩
  · rcases le_or_gt (toInt c.maxlen) 1 with hroom | hroom
    · rw [step_of_le hblocked hroom, step_of_le halone hroom]
      refine .inr ⟨hblocked, halone, ?_, hrx, hunread⟩
      rw [storedOn, storedOn_append_of_eq hfd, hstored]
    · have hsame : alone.process.unread = s.process.unread := by
        rw [hunread]
        split
        · rfl
        · rename_i hlast
          exact (hclean hroom (hfd ▸ hlast)).symm
      have hbuffer : alone.process.on c.fd = s.process.on c.fd := by
        rw [Process.on, Process.on, hsame, hfd, hrx]
      rcases hcall : readline c.maxlen (s.process.on c.fd) with ⟨r, b⟩ | ⟨stop, b⟩
      · rw [step_of_ok hblocked hcall, step_of_ok halone (hbuffer ▸ hcall)]
        refine .inr ⟨rfl, rfl, ?_, ?_, ?_⟩
        · rw [storedOn, storedOn_append_of_eq hfd, hstored]
        · simp only [hfd, Function.update_self]
        · simp only [if_pos hroom, hfd, if_true]
      · rw [step_of_error hblocked hcall, step_of_error halone (hbuffer ▸ hcall)]
        exact .inl ⟨rfl, hstored ▸ List.prefix_rfl⟩

/-- A clean call on another descriptor leaves nothing behind that the descriptor would find. -/
theorem agrees_step_other (h : Agrees fd s alone) (hclean : Clean s c) (hfd : c.fd ≠ fd) :
    Agrees fd (step s c) alone := by
  rcases h with ⟨hblocked, hpre⟩ | ⟨hblocked, halone, hstored, hrx, hunread⟩
  · rw [step_of_blocked hblocked]
    exact .inl ⟨hblocked, hpre⟩
  · rcases le_or_gt (toInt c.maxlen) 1 with hroom | hroom
    · rw [step_of_le hblocked hroom]
      refine .inr ⟨hblocked, halone, ?_, hrx, hunread⟩
      rw [storedOn, storedOn_append_of_ne hfd, hstored]
    · have hempty : alone.process.unread = [] := by
        rw [hunread]
        split
        · rename_i hlast
          exact hclean hroom fun heq => hfd (Option.some.inj (heq.symm.trans hlast))
        · rfl
      rcases hcall : readline c.maxlen (s.process.on c.fd) with ⟨r, b⟩ | ⟨stop, b⟩
      · rw [step_of_ok hblocked hcall]
        refine .inr ⟨rfl, halone, ?_, ?_, ?_⟩
        · rw [storedOn, storedOn_append_of_ne hfd, hstored]
        · simp only [Function.update_of_ne (Ne.symm hfd), hrx]
        · simp only [if_pos hroom, Option.some.injEq, hfd, if_false, hempty]
      · rw [step_of_error hblocked hcall]
        exact .inl ⟨rfl, hstored ▸ List.prefix_rfl⟩

theorem agrees_run (fds : ℕ → Rx) {calls : List ReadlineCall} (hclean : Along step Clean (start fds) calls)
    (fd : ℕ) : Agrees fd (run step (start fds) calls)
      (run step (start fds) (calls.filter fun c => c.fd = fd)) := by
  refine Lib.run_filter ?_ ?_ (agrees_start fd fds) hclean
  · intro s alone c h hc hfd
    exact agrees_step_mine h hc (of_decide_eq_true hfd)
  · intro s alone c h hc hfd
    exact agrees_step_other h hc (of_decide_eq_false hfd)

/-- A call that finds bytes of another stream stores one of them where alone it would have stored the first
byte of its own stream. -/
theorem stores_foreign_byte {s : Reading} {c : ReadlineCall} (hroom : 1 < toInt c.maxlen) {byte : UInt8}
    {unread line line' : Bytes} {n n' : ℤ} {b b' : LineBuffer} (hunread : s.process.unread = byte :: unread)
    (hcall : readline c.maxlen (s.process.on c.fd) = .ok (n, line) b)
    (halone : readline c.maxlen ⟨[], s.process.fds c.fd⟩ = .ok (n', line') b')
    (hbyte : (s.process.fds c.fd).input.head? ≠ some byte) : line ≠ line' := by
  rintro rfl
  rw [Process.on, hunread] at hcall
  have hhead := head?_readline hroom hcall
  obtain ⟨got, hgot, hstream⟩ := readlineLoop_conserves halone
  rw [List.nil_append] at hgot hstream
  apply hbyte
  rw [hstream, ← hgot, List.head?_append, hhead]
  rfl

/-- A call that is not clean, where the sessions have agreed so far. -/
theorem mixes_of_not_clean (h : Agrees c.fd s alone) (hclean : ¬ Clean s c) (hreturns : (step s c).blocked = false)
    (halone : (step alone c).blocked = false)
    (hbyte : (s.process.fds c.fd).input.head? ≠ s.process.unread.head?) :
    (step s c).storedOn c.fd ≠ (step alone c).stored := by
  simp only [Clean, Classical.not_imp] at hclean
  obtain ⟨hroom, hlast, hfull⟩ := hclean
  obtain ⟨byte, unread, hunread⟩ := List.exists_cons_of_ne_nil hfull
  rcases h with ⟨hblocked, -⟩ | ⟨hblocked, hblocked', hstored, hrx, hempty⟩
  · rw [step_of_blocked hblocked, hblocked] at hreturns
    cases hreturns
  · rw [if_neg hlast] at hempty
    rcases hcall : readline c.maxlen (s.process.on c.fd) with ⟨⟨n, line⟩, b⟩ | ⟨stop, b⟩
    · rcases hcall' : readline c.maxlen (alone.process.on c.fd) with ⟨⟨n', line'⟩, b'⟩ | ⟨stop, b'⟩
      · rw [step_of_ok hblocked hcall, step_of_ok hblocked' hcall', storedOn, storedOn_append_of_eq rfl, hstored]
        intro heq
        rw [Process.on, hempty, ← hrx] at hcall'
        apply stores_foreign_byte hroom hunread hcall hcall'
        · simpa [hunread] using hbyte
        · have hlast : n = n' ∧ line = line' := by simpa using List.append_cancel_left heq
          exact hlast.2
      · rw [step_of_error hblocked' hcall'] at halone
        cases halone
    · rw [step_of_error hblocked hcall] at hreturns
      cases hreturns

/-- A session in which every call with room on another descriptor than the last such call finds the buffer empty: on
each descriptor its calls have returned and stored what the calls on that descriptor return and store without the
others, all of them unless one of the session has not returned. A call behind it that finds bytes of another
descriptor there stores something else than without the others, unless its own stream begins with the same byte. -/
theorem streams_do_not_mix (fds : ℕ → Rx) {calls : List ReadlineCall}
    (hclean : Along step Clean (start fds) calls) :
    let s := run step (start fds) calls
    (∀ fd, s.storedOn fd <+: (run step (start fds) (calls.filter fun c => c.fd = fd)).stored ∧
        (s.blocked = false →
          s.storedOn fd = (run step (start fds) (calls.filter fun c => c.fd = fd)).stored)) ∧
      ∀ c, ¬ Clean s c → (s.process.fds c.fd).input.head? ≠ s.process.unread.head? →
        let mixed := run step (start fds) (calls ++ [c])
        let alone := run step (start fds) ((calls ++ [c]).filter fun c' => c'.fd = c.fd)
        mixed.blocked = false → alone.blocked = false → mixed.storedOn c.fd ≠ alone.stored := by
  intro s
  constructor
  · intro fd
    rcases agrees_run fds hclean fd with ⟨hblocked, hpre⟩ | ⟨-, -, hstored, -⟩
    · refine ⟨hpre, fun hrun => ?_⟩
      rw [hblocked] at hrun
      cases hrun
    · exact ⟨hstored ▸ List.prefix_rfl, fun _ => hstored⟩
  · intro c hnot hbyte mixed alone hreturns halone
    have hmixed : mixed = step s c := (Lib.run_append _ _ _).trans (Lib.run_singleton _ _)
    have hfilter : alone = step (run step (start fds) (calls.filter fun c' => c'.fd = c.fd)) c := by
      have hcalls : (calls ++ [c]).filter (fun c' => c'.fd = c.fd) =
          calls.filter (fun c' => c'.fd = c.fd) ++ [c] := by simp
      have happend : run step (start fds) (calls.filter (fun c' => c'.fd = c.fd) ++ [c]) =
          step (run step (start fds) (calls.filter fun c' => c'.fd = c.fd)) c :=
        (Lib.run_append _ _ _).trans (Lib.run_singleton _ _)
      exact (congrArg (run step (start fds)) hcalls).trans happend
    rw [hmixed] at hreturns ⊢
    rw [hfilter] at halone ⊢
    exact mixes_of_not_clean (agrees_run fds hclean c.fd) hnot hreturns halone hbyte

/-- Two descriptors with the lines `ab\n` and `xyz\n`: the first call stops after `a`, and the call on the
other descriptor stores `b`. -/
theorem streams_mix :
    let fds : ℕ → Rx := fun fd =>
      if fd = 0 then ⟨[97, 98, 10], [.deliver 3]⟩ else ⟨[120, 121, 122, 10], [.deliver 4]⟩
    let calls : List ReadlineCall := [⟨0, 2⟩, ⟨1, 100⟩]
    (run step (start fds) calls).blocked = false ∧
      (run step (start fds) calls).storedOn 1 = [(⟨1, 100⟩, 2, [98, 10])] ∧
      (run step (start fds) (calls.filter fun c => c.fd = 1)).stored =
        [(⟨1, 100⟩, 4, [120, 121, 122, 10])] := by
  decide

/-- The same lines, where the call on the other descriptor has no room for a byte. -/
theorem streams_do_not_mix_ab :
    let fds : ℕ → Rx := fun fd =>
      if fd = 0 then ⟨[97, 98, 10], [.deliver 3]⟩ else ⟨[120, 121, 122, 10], [.deliver 4]⟩
    let calls : List ReadlineCall := [⟨0, 2⟩, ⟨1, 1⟩, ⟨0, 100⟩]
    Along step Clean (start fds) calls ∧
      (run step (start fds) calls).storedOn 0 =
        (run step (start fds) (calls.filter fun c => c.fd = 0)).stored := by
  intro fds calls
  have hclean : Along step Clean (start fds) calls :=
    ⟨fun _ _ => rfl, fun hroom => absurd hroom (by decide), fun _ hlast => absurd rfl hlast, trivial⟩
  exact ⟨hclean, ((streams_do_not_mix fds hclean).1 0).2 rfl⟩

end Reading

end NetProg.C
