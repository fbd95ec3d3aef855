import NetProg.Lib.FailingReader
import NetProg.System.ReadFailure

/-!
# `ReadBuffer` of the C++ library

The line reader of `lib/cxx/read_buffer.cpp`: a vector of `buf_size` characters, filled by `read` from its
start and emptied from `read_ptr` on, where `read_cnt` characters are unread. The size of the request is
`sizeof(read_buf)`, which is the size of the vector object and has nothing to do with `buf_size`.

So the requests and the unread characters stay inside the buffer, in every state of every sequence of calls,
exactly for buffers of at least that size (`safe_iff`). In these `get_char` is a source of the characters of
the stream (`source_getChar`), and `Readline` takes its lines however they arrive (`readsLines_readline`).
-/

namespace NetProg.Cxx
open Lib

/-- `sizeof(read_buf)` in `ReadBuffer::get_char`: the vector object itself, three pointers, not the bytes it
holds. -/
def sizeofVector : ℕ := 24

/-- The members, the connection of `fd`, what `read` has been asked for so far, and `errno`. -/
structure ReadBuffer where
  read_buf : Bytes
  read_cnt : ℤ
  read_ptr : ℕ
  rx : Rx
  asked : List ℕ
  errno : Option Errno
  deriving DecidableEq, Repr

namespace ReadBuffer

/-- `ReadBuffer(fd, buf_size)`. -/
def new (buf_size : ℕ) (rx : Rx) : ReadBuffer := ⟨List.replicate buf_size 0, 0, 0, rx, [], none⟩

/-- `read(fd, &read_buf[0], len)`, and its return value. What does not fit is written behind the buffer. -/
def read (len : ℕ) : EStateM Stop ReadBuffer ℤ := fun b =>
  match recv len b.rx with
  | .error stop rx => .error stop { b with rx := rx, asked := b.asked ++ [len] }
  | .ok (n, errno, got) rx =>
    if b.read_buf.length < got.length then
      .error (.outOfBounds b.read_buf.length b.read_buf.length) { b with rx := rx, asked := b.asked ++ [len] }
    else
      .ok n
        { b with
          read_buf := got ++ b.read_buf.drop got.length
          rx := rx
          asked := b.asked ++ [len]
          errno := if n < 0 then errno else b.errno }

/-- The code from the label `again:` on: what `get_char` returns, or `1` when there are characters. -/
def again : ℕ → EStateM Stop ReadBuffer ℤ
  | 0 => throw .blocked
  | turns + 1 => do
    let n ← read sizeofVector
    modify fun b => { b with read_cnt := toInt n }
    let b ← get
    if b.read_cnt < 0 then
      if b.errno = some .EINTR then again turns else return -1
    else if b.read_cnt = 0 then return 0
    else do
      modify fun b => { b with read_ptr := 0 }
      return 1

/-- `read_cnt--; *ptr = *read_ptr++;` -/
def takeChar : EStateM Stop ReadBuffer (ℤ × UInt8) := fun b =>
  .ok (1, b.read_buf.getD b.read_ptr 0) { b with read_cnt := b.read_cnt - 1, read_ptr := b.read_ptr + 1 }

/-- `get_char(&c)`: the return value and `c`, with a turn for every answer that can interrupt the read. -/
def getChar : EStateM Stop ReadBuffer (ℤ × UInt8) := do
  let b ← get
  let rc ← if b.read_cnt ≤ 0 then again (b.rx.script.length + 1) else pure 1
  if rc = 1 then takeChar else return (rc, 0)

/-- `for (n = …; n < (int) maxlen; n++)`. -/
def readlineLoop (maxlen : ℤ) (delim : UInt8) : ℕ → ℤ → Bytes → EStateM Stop ReadBuffer Bytes
  | 0, _, line => return line
  | turns + 1, n, line =>
    if n < maxlen then do
      let (rc, c) ← getChar
      if rc = 1 then
        if c = delim then return line ++ [c] else readlineLoop maxlen delim turns (n + 1) (line ++ [c])
      else if rc = 0 then return line
      else do
        let b ← get
        throw (.systemError b.errno)
    else return line

/-- `Readline(maxlen, delim)`. -/
def readline (maxlen : ℤ) (delim : UInt8) : EStateM Stop ReadBuffer Bytes :=
  readlineLoop maxlen delim maxlen.toNat 1 []

/-! ### The buffer and its window -/

/-- A call `Readline(maxlen, delim)`. -/
structure ReadlineCall where
  maxlen : ℤ
  delim : UInt8
  deriving DecidableEq, Repr

/-- A call of `Readline`. One that throws leaves the object as it is then; one that does not return is the
last, since the connection has no answer for another. -/
def step (b : ReadBuffer) (c : ReadlineCall) : ReadBuffer := after (readline c.maxlen c.delim) b

/-- No read has been asked for more than the buffer holds, and the unread characters are inside it. -/
structure Safe (buf_size : ℕ) (b : ReadBuffer) : Prop where
  length_eq : b.read_buf.length = buf_size
  asked_le : ∀ len ∈ b.asked, len ≤ buf_size
  window_le : b.read_ptr + b.read_cnt.toNat ≤ buf_size

theorem safe_new (buf_size : ℕ) (rx : Rx) : Safe buf_size (new buf_size rx) :=
  ⟨List.length_replicate, by simp [new], by simp [new]⟩

section

variable {buf_size turns n : ℕ} {buf input : Bytes} {cnt : ℤ} {ptr : ℕ} {script : List RecvAnswer}
  {asked : List ℕ} {errno : Option Errno}

theorem again_nil :
    again (turns + 1) ⟨buf, cnt, ptr, ⟨input, []⟩, asked, errno⟩ =
      .error .blocked ⟨buf, cnt, ptr, ⟨input, []⟩, asked ++ [sizeofVector], errno⟩ := rfl

theorem again_deliver (hroom : sizeofVector ≤ buf.length) {k : ℕ}
    (hk : moved n (min sizeofVector input.length) = k) :
    again (turns + 1) ⟨buf, cnt, ptr, ⟨input, .deliver n :: script⟩, asked, errno⟩ =
      .ok (if k = 0 then 0 else 1) ⟨input.take k ++ buf.drop k, k, if k = 0 then ptr else 0,
        ⟨input.drop k, script⟩, asked ++ [sizeofVector], errno⟩ := by
  have hle : k ≤ min sizeofVector input.length := hk ▸ moved_le _ _
  have hint : toInt k = (k : ℤ) := toInt_of_le (hk ▸ moved_le_INT_MAX _ _)
  have hlen : (input.take k).length = k := List.length_take_of_le (by omega)
  have hread : read sizeofVector ⟨buf, cnt, ptr, ⟨input, .deliver n :: script⟩, asked, errno⟩ =
      .ok (k : ℤ) ⟨input.take k ++ buf.drop k, cnt, ptr, ⟨input.drop k, script⟩, asked ++ [sizeofVector],
        errno⟩ := by
    simp only [read, recv_deliver, hk, hlen]
    rw [if_neg (by omega), if_neg (by omega)]
  rw [again, run_bind_ok hread, run_modify_bind, run_get_bind]
  simp only [hint]
  rw [if_neg (by omega)]
  by_cases hzero : k = 0
  · rw [if_pos (by omega), if_pos hzero, if_pos hzero]
    rfl
  · rw [if_neg (by omega), run_modify_bind, if_neg hzero, if_neg hzero]
    rfl

theorem again_fail (e : Errno) :
    again (turns + 1) ⟨buf, cnt, ptr, ⟨input, .fail e :: script⟩, asked, errno⟩ =
      if e = .EINTR then
        again turns ⟨buf, -1, ptr, ⟨input, script⟩, asked ++ [sizeofVector], some e⟩
      else .ok (-1) ⟨buf, -1, ptr, ⟨input, script⟩, asked ++ [sizeofVector], some e⟩ := by
  have hread : read sizeofVector ⟨buf, cnt, ptr, ⟨input, .fail e :: script⟩, asked, errno⟩ =
      .ok (-1) ⟨buf, cnt, ptr, ⟨input, script⟩, asked ++ [sizeofVector], some e⟩ := rfl
  rw [again, run_bind_ok hread, run_modify_bind, run_get_bind]
  simp only [toInt_neg_one, show (-1 : ℤ) < 0 by decide, if_true, Option.some.injEq]
  split <;> rfl

theorem keeps_again (hroom : sizeofVector ≤ buf_size) (turns : ℕ) : Keeps (Safe buf_size) (again turns) := by
  have hasked : ∀ asked : List ℕ, (∀ len ∈ asked, len ≤ buf_size) →
      ∀ len ∈ asked ++ [sizeofVector], len ≤ buf_size := by
    intro asked hle len hlen
    rcases List.mem_append.1 hlen with hmem | hmem
    · exact hle len hmem
    · exact List.mem_singleton.1 hmem ▸ hroom
  induction turns with
  | zero => exact keeps_throw _
  | succ turns ih =>
    rintro ⟨buf, cnt, ptr, ⟨input, script⟩, asked, errno⟩ ⟨hlen, hle, hwindow⟩
    simp only at hlen hle hwindow
    rcases script with _ | ⟨n | e, script⟩
    · rw [after_error again_nil]
      exact ⟨hlen, hasked asked hle, hwindow⟩
    · obtain ⟨k, hk⟩ : ∃ k, moved n (min sizeofVector input.length) = k := ⟨_, rfl⟩
      have hkle : k ≤ min sizeofVector input.length := hk ▸ moved_le _ _
      rw [after_ok (again_deliver (hlen ▸ hroom) hk)]
      refine ⟨?_, hasked asked hle, ?_⟩
      · simp only [List.length_append, List.length_take, List.length_drop]
        omega
      · simp only [Int.toNat_natCast]
        split <;> omega
    · have hfailed : Safe buf_size ⟨buf, -1, ptr, ⟨input, script⟩, asked ++ [sizeofVector], some e⟩ := by
        refine ⟨hlen, hasked asked hle, ?_⟩
        show ptr + 0 ≤ buf_size
        omega
      rw [after, again_fail]
      split_ifs
      · exact ih _ hfailed
      · exact hfailed

theorem safe_takeChar {b : ReadBuffer} (hsafe : Safe buf_size b) (hcnt : 0 < b.read_cnt) :
    Safe buf_size { b with read_cnt := b.read_cnt - 1, read_ptr := b.read_ptr + 1 } := by
  obtain ⟨hlen, hle, hwindow⟩ := hsafe
  exact ⟨hlen, hle, by simp only; omega⟩

theorem again_cases {b b' : ReadBuffer} {rc : ℤ} (hroom : sizeofVector ≤ b.read_buf.length)
    (h : again turns b = .ok rc b') :
    rc = 1 ∧ 0 < b'.read_cnt ∧ b'.read_ptr = 0 ∧
        b'.read_buf.take b'.read_cnt.toNat ++ b'.rx.input = b.rx.input ∨
      rc = 0 ∧ b'.read_cnt = 0 ∧ b.rx.input = [] ∧ b'.rx.input = [] ∨
      rc = -1 ∧ b'.read_cnt = -1 ∧ b'.rx.input = b.rx.input := by
  induction turns generalizing b with
  | zero => simp [again] at h
  | succ turns ih =>
    obtain ⟨buf, cnt, ptr, ⟨input, script⟩, asked, errno⟩ := b
    rcases script with _ | ⟨n | e, script⟩
    · rw [again_nil] at h
      simp at h
    · obtain ⟨k, hk⟩ : ∃ k, moved n (min sizeofVector input.length) = k := ⟨_, rfl⟩
      have hkle : k ≤ min sizeofVector input.length := hk ▸ moved_le _ _
      rw [again_deliver hroom hk, EStateM.Result.ok.injEq] at h
      obtain ⟨rfl, rfl⟩ := h
      by_cases hzero : k = 0
      · have hinput : input = [] := by
          by_contra hne
          have hlen : 0 < input.length := List.length_pos_iff.2 hne
          have hpos := @moved_pos n (min sizeofVector input.length)
            (Nat.lt_min.2 ⟨by decide, hlen⟩)
          omega
        refine .inr (.inl ⟨if_pos hzero, ?_, hinput, ?_⟩)
        · simp [hzero]
        · simp [hinput]
      · have hlen : (input.take k).length = k := List.length_take_of_le (by omega)
        refine .inl ⟨if_neg hzero, ?_, if_neg hzero, ?_⟩
        · simp only
          omega
        · simp only [Int.toNat_natCast]
          rw [List.take_append_of_le_length (by omega), List.take_of_length_le (by omega),
            List.take_append_drop]
    · rw [again_fail] at h
      split at h
      · exact @ih ⟨buf, -1, ptr, ⟨input, script⟩, asked ++ [sizeofVector], some e⟩ hroom h
      · rw [EStateM.Result.ok.injEq] at h
        obtain ⟨rfl, rfl⟩ := h
        exact .inr (.inr ⟨rfl, rfl, rfl⟩)

theorem getChar_of_pos {b : ReadBuffer} (hcnt : 0 < b.read_cnt) : getChar b = takeChar b := by
  rw [getChar, run_get_bind, if_neg (by omega)]
  rfl

theorem getChar_of_nonpos {b : ReadBuffer} (hcnt : b.read_cnt ≤ 0) :
    getChar b = (again (b.rx.script.length + 1) >>= fun rc =>
      if rc = 1 then takeChar else pure (rc, 0)) b := by
  rw [getChar, run_get_bind, if_pos hcnt]

theorem keeps_getChar (hroom : sizeofVector ≤ buf_size) : Keeps (Safe buf_size) getChar := by
  intro b hsafe
  rcases lt_or_ge 0 b.read_cnt with hcnt | hcnt
  · rw [after, getChar_of_pos hcnt]
    exact safe_takeChar hsafe hcnt
  · have hkept := keeps_again hroom (b.rx.script.length + 1) b hsafe
    rw [after, getChar_of_nonpos hcnt]
    rcases hagain : again (b.rx.script.length + 1) b with ⟨rc, b₁⟩ | ⟨stop, b₁⟩
    · rw [after_ok hagain] at hkept
      rw [run_bind_ok hagain]
      rcases again_cases (hsafe.length_eq ▸ hroom) hagain with ⟨rfl, hpos, -⟩ | ⟨rfl, -⟩ | ⟨rfl, -⟩
      · exact safe_takeChar hkept hpos
      · exact hkept
      · exact hkept
    · rw [after_error hagain] at hkept
      rw [run_bind_error hagain]
      exact hkept

theorem keeps_readlineLoop (hroom : sizeofVector ≤ buf_size) (maxlen : ℤ) (delim : UInt8) (turns : ℕ) (n : ℤ)
    (line : Bytes) : Keeps (Safe buf_size) (readlineLoop maxlen delim turns n line) := by
  induction turns generalizing n line with
  | zero => exact keeps_pure _
  | succ turns ih =>
    rw [readlineLoop]
    split
    · apply (keeps_getChar hroom).bind
      rintro ⟨rc, c⟩
      simp only
      split_ifs
      · exact keeps_pure _
      · exact ih _ _
      · exact keeps_pure _
      · exact keeps_get.bind fun b => keeps_throw _
    · exact keeps_pure _

/-- A first call with room for a character asks for more than a small buffer holds, and waits for it. -/
theorem not_safe_step (hsmall : buf_size < sizeofVector) :
    ¬ Safe buf_size (step (new buf_size ⟨[], []⟩) ⟨2, 10⟩) := by
  intro hsafe
  have hasked : (step (new buf_size ⟨[], []⟩) ⟨2, 10⟩).asked = [sizeofVector] := rfl
  exact absurd (hsafe.asked_le sizeofVector (by simp [hasked])) (Nat.not_le.2 hsmall)

/-- However `read` answers, every state of every sequence of calls is safe precisely if the buffer is at least
as large as the vector object. -/
theorem safe_iff (buf_size : ℕ) :
    (∀ rx calls, Safe buf_size (run step (new buf_size rx) calls)) ↔ sizeofVector ≤ buf_size := by
  constructor
  · intro hall
    by_contra hsmall
    exact not_safe_step (Nat.lt_of_not_le hsmall) (hall ⟨[], []⟩ [⟨2, 10⟩])
  · intro hroom rx calls
    refine @run_stable _ _ step (Safe buf_size) ?_ _ (safe_new buf_size rx) calls
    intro b c hsafe
    exact keeps_readlineLoop hroom _ _ _ _ _ b hsafe

/-- A read into a buffer of sixteen characters writes behind it. -/
theorem overruns_sixteen :
    let b := new 16 ⟨List.replicate 24 97, [.deliver 24]⟩
    ¬ Safe 16 (run step b [⟨100, 10⟩]) ∧ ∃ b', readline 100 10 b = .error (.outOfBounds 16 16) b' := by
  refine ⟨fun hsafe => ?_, _, rfl⟩
  have hasked := hsafe.asked_le 24 (by decide)
  omega

/-! ### The characters of the stream -/

/-- The `read_cnt` characters at `read_ptr`. -/
def unread (b : ReadBuffer) : Bytes := (b.read_buf.drop b.read_ptr).take b.read_cnt.toNat

/-- The characters that are still to come. -/
def stream (b : ReadBuffer) : Bytes := b.unread ++ b.rx.input

theorem unread_of_nonpos {b : ReadBuffer} (hcnt : b.read_cnt ≤ 0) : b.unread = [] := by
  rw [unread, Int.toNat_of_nonpos hcnt, List.take_zero]

theorem stream_takeChar {b : ReadBuffer} (hsafe : Safe buf_size b) (hcnt : 0 < b.read_cnt) :
    b.stream = b.read_buf.getD b.read_ptr 0 ::
      ({ b with read_cnt := b.read_cnt - 1, read_ptr := b.read_ptr + 1 } : ReadBuffer).stream := by
  obtain ⟨hlen, -, hwindow⟩ := hsafe
  have hptr : b.read_ptr < b.read_buf.length := by omega
  have hcount : b.read_cnt.toNat = (b.read_cnt - 1).toNat + 1 := by omega
  simp only [stream, unread]
  rw [hcount, List.drop_eq_getElem_cons hptr, List.take_succ_cons, List.getD_eq_getElem?_getD,
    List.getElem?_eq_getElem hptr]
  rfl

theorem again_benign {b b' : ReadBuffer} {rc : ℤ} (hroom : sizeofVector ≤ b.read_buf.length)
    (hbenign : b.rx.Benign) (h : again turns b = .ok rc b') :
    (rc = 1 ∨ rc = 0) ∧ b'.rx.Benign ∧ b.rx.budget ≤ b'.rx.budget + 1 := by
  induction turns generalizing b with
  | zero => simp [again] at h
  | succ turns ih =>
    obtain ⟨buf, cnt, ptr, ⟨input, script⟩, asked, errno⟩ := b
    cases script with
    | nil =>
      rw [again_nil] at h
      simp at h
    | cons a script =>
      obtain ⟨ha, hscript⟩ := Rx.Benign.cons hbenign
      rcases ha.cases with ⟨n, rfl⟩ | rfl
      · rw [again_deliver hroom rfl, EStateM.Result.ok.injEq] at h
        obtain ⟨rfl, rfl⟩ := h
        refine ⟨?_, hscript, Rx.budget_deliver.le⟩
        split
        · exact .inr rfl
        · exact .inl rfl
      · rw [again_fail, if_pos rfl] at h
        have hrest := @ih ⟨buf, -1, ptr, ⟨input, script⟩, asked ++ [sizeofVector], some .EINTR⟩ hroom
          hscript h
        simpa using hrest

theorem again_returns {b : ReadBuffer} (hroom : sizeofVector ≤ b.read_buf.length) (hbenign : b.rx.Benign)
    (hbudget : 0 < b.rx.budget) (hturns : b.rx.script.length < turns) :
    ∃ rc b', again turns b = .ok rc b' := by
  induction turns generalizing b with
  | zero => omega
  | succ turns ih =>
    obtain ⟨buf, cnt, ptr, ⟨input, script⟩, asked, errno⟩ := b
    cases script with
    | nil => exact absurd hbudget (Nat.lt_irrefl 0)
    | cons a script =>
      obtain ⟨ha, hscript⟩ := Rx.Benign.cons hbenign
      rcases ha.cases with ⟨n, rfl⟩ | rfl
      · exact ⟨_, _, again_deliver hroom rfl⟩
      · rw [again_fail, if_pos rfl]
        rw [List.length_cons] at hturns
        exact @ih ⟨buf, -1, ptr, ⟨input, script⟩, asked ++ [sizeofVector], some .EINTR⟩ hroom hscript
          (by simpa using hbudget) (by simpa using hturns)

/-- The code from the label on, with a turn for every answer that can interrupt the read. -/
def refill : EStateM Stop ReadBuffer ℤ := fun b => again (b.rx.script.length + 1) b

theorem buffer_window (hroom : sizeofVector ≤ buf_size) :
    Buffer takeChar refill (fun b => 0 < b.read_cnt) stream (Safe buf_size) (fun b => b.rx.Benign)
      (fun b => b.rx.budget) where
  takes b := by
    refine ⟨_, _, rfl, fun hsafe hcnt => ?_⟩
    exact ⟨safe_takeChar hsafe hcnt, stream_takeChar hsafe hcnt, id, rfl⟩
  refills b rc b' hsafe hempty h := by
    refine ⟨(keeps_again hroom _).ok hsafe h, ?_⟩
    have hinput : b.stream = b.rx.input := by
      rw [stream, unread_of_nonpos (not_lt.1 hempty), List.nil_append]
    rw [hinput]
    rcases again_cases (hsafe.length_eq ▸ hroom) h with ⟨rfl, hpos, hptr, hread⟩ |
        ⟨rfl, hzero, hended, hended'⟩ | ⟨rfl, hneg, hsame⟩
    · refine .inl ⟨rfl, hpos, ?_⟩
      rw [stream, unread, hptr, List.drop_zero, hread]
    · refine .inr (.inl ⟨rfl, hended, ?_⟩)
      rw [stream, unread_of_nonpos hzero.le, hended', List.nil_append]
    · refine .inr (.inr ⟨by decide, by decide, ?_⟩)
      rw [stream, unread_of_nonpos (by omega), hsame, List.nil_append]
  benign b rc b' hsafe hbenign h := again_benign (hsafe.length_eq ▸ hroom) hbenign h
  returns b hsafe hbenign hbudget :=
    again_returns (hsafe.length_eq ▸ hroom) hbenign hbudget (Nat.lt_succ_self _)

/-- In a buffer that is large enough, `get_char` is a source of the characters of the stream. -/
theorem source_getChar (hroom : sizeofVector ≤ buf_size) :
    Source getChar stream (Safe buf_size) (fun b => b.rx.Benign) (fun b => b.rx.budget) :=
  (buffer_window hroom).source (fun _ => getChar_of_pos) fun _ hempty => getChar_of_nonpos (not_lt.1 hempty)

/-- How `Readline` ends: a failure of the reader is thrown, everything else is a line. -/
def finish : LineEnd × Bytes → EStateM Stop ReadBuffer Bytes
  | (.failed, _) => do
    let b ← get
    throw (.systemError b.errno)
  | (_, line) => return line

theorem readlineLoop_eq {maxlen : ℤ} {delim : UInt8} {room : ℕ} {line : Bytes}
    (hmax : (line.length : ℤ) + 1 + room = maxlen) (hturns : room ≤ turns) (b : ReadBuffer) :
    readlineLoop maxlen delim turns (line.length + 1) line b =
      (takeLine getChar (· = delim) room line >>= finish) b := by
  induction room generalizing turns line b with
  | zero =>
    have hfull : ∀ turns, readlineLoop maxlen delim turns (line.length + 1) line b = .ok line b := by
      intro turns
      cases turns with
      | zero => rfl
      | succ turns =>
        rw [readlineLoop, if_neg (by omega)]
        rfl
    exact hfull turns
  | succ room ih =>
    obtain ⟨turns, rfl⟩ := Nat.exists_eq_succ_of_ne_zero (show turns ≠ 0 by omega)
    rw [readlineLoop, if_pos (by omega), takeLine]
    rcases hread : getChar b with ⟨⟨rc, c⟩, b₁⟩ | ⟨stop, b₁⟩
    · rw [run_bind_ok hread, bind_assoc, run_bind_ok hread]
      simp only [decide_eq_true_eq]
      split_ifs with hone hstop hzero
      · rfl
      · have hlen : ((line.length : ℤ) + 1) + 1 = ((line ++ [c]).length : ℤ) + 1 := by simp
        rw [hlen]
        apply ih
        · simp only [List.length_append, List.length_singleton, Nat.cast_succ] at hmax ⊢
          omega
        · omega
      · rfl
      · rfl
    · rw [run_bind_error hread, bind_assoc, run_bind_error hread]

/-- How many characters fit in a line. -/
def lineRoom (maxlen : ℤ) : ℕ := (maxlen - 1).toNat

theorem readline_eq (maxlen : ℤ) (delim : UInt8) (b : ReadBuffer) :
    readline maxlen delim b = (takeLine getChar (· = delim) (lineRoom maxlen) [] >>= finish) b := by
  rcases lt_or_ge 0 maxlen with hpos | hnonpos
  · have hmax : (([] : Bytes).length : ℤ) + 1 + (lineRoom maxlen : ℤ) = maxlen := by
      rw [List.length_nil, lineRoom]
      omega
    have hturns : lineRoom maxlen ≤ maxlen.toNat := by
      unfold lineRoom
      omega
    exact readlineLoop_eq hmax hturns b
  · have hroom : lineRoom maxlen = 0 := Int.toNat_of_nonpos (by omega)
    rw [readline, Int.toNat_of_nonpos hnonpos, hroom]
    rfl

theorem readsLines_readline (hroom : sizeofVector ≤ buf_size) :
    ReadsLines (fun c : ReadlineCall => readline c.maxlen c.delim) id (fun c => (· = c.delim))
      (fun c => (c.maxlen - 1).toNat) (fun c => 1 ≤ c.maxlen) stream (Safe buf_size)
      (fun b => b.rx.Benign) (fun b => b.rx.budget) := by
  apply ReadsLines.of_source (source_getChar hroom)
  · intro c b _
    exact readline_eq c.maxlen c.delim b
  · intro e line b he
    refine ⟨line, ?_, rfl⟩
    cases e with
    | failed => exact absurd rfl he
    | stopped | full | ended => rfl

/-! ### Reads that fail -/

/-- What is still to come before a read fails, if one does before the stream ends. -/
def before (b : ReadBuffer) : Option Bytes := (b.rx.beforeFailure sizeofVector).map (b.unread ++ ·)

theorem before_of_nonpos {b : ReadBuffer} (hcnt : b.read_cnt ≤ 0) : b.before = b.rx.beforeFailure sizeofVector := by
  rw [before, unread_of_nonpos hcnt]
  simp

theorem again_before {b b' : ReadBuffer} {rc : ℤ} (hroom : sizeofVector ≤ b.read_buf.length)
    (h : again turns b = .ok rc b') :
    rc = 1 ∧ b.rx.beforeFailure sizeofVector = b'.before ∨ rc = 0 ∧ b.rx.beforeFailure sizeofVector = none ∨
      rc = -1 ∧ b.rx.beforeFailure sizeofVector = some [] := by
  induction turns generalizing b with
  | zero => simp [again] at h
  | succ turns ih =>
    obtain ⟨buf, cnt, ptr, ⟨input, script⟩, asked, errno⟩ := b
    rcases script with _ | ⟨n | e, script⟩
    · rw [again_nil] at h
      cases h
    · obtain ⟨k, hk⟩ : ∃ k, moved n (min sizeofVector input.length) = k := ⟨_, rfl⟩
      have hle : k ≤ min sizeofVector input.length := hk ▸ moved_le _ _
      have hlen : (input.take k).length = k := List.length_take_of_le (by omega)
      rw [again_deliver hroom hk] at h
      cases h
      rw [Rx.beforeFailure_deliver hk]
      by_cases hzero : k = 0
      · exact .inr (.inl ⟨if_pos hzero, if_pos hzero⟩)
      · refine .inl ⟨if_neg hzero, ?_⟩
        rw [before, unread, if_neg hzero, if_neg hzero, List.drop_zero, Int.toNat_natCast,
          List.take_append_of_le_length hlen.ge, List.take_of_length_le hlen.le]
    · rw [again_fail] at h
      rw [Rx.beforeFailure_fail]
      split at h
      · rename_i heintr
        rw [if_pos heintr]
        exact @ih ⟨buf, -1, ptr, ⟨input, script⟩, asked ++ [sizeofVector], some e⟩ hroom h
      · rename_i hother
        cases h
        exact .inr (.inr ⟨rfl, if_neg hother⟩)

theorem again_returns_before {b : ReadBuffer} {l : Bytes} (hroom : sizeofVector ≤ b.read_buf.length)
    (h : b.rx.beforeFailure sizeofVector = some l) (hturns : b.rx.script.length < turns) :
    ∃ rc b', again turns b = .ok rc b' := by
  induction turns generalizing b with
  | zero => omega
  | succ turns ih =>
    obtain ⟨buf, cnt, ptr, ⟨input, script⟩, asked, errno⟩ := b
    rcases script with _ | ⟨n | e, script⟩
    · cases h
    · exact ⟨_, _, again_deliver hroom rfl⟩
    · rw [again_fail]
      rw [Rx.beforeFailure_fail] at h
      rw [List.length_cons] at hturns
      split
      · rename_i heintr
        rw [if_pos heintr] at h
        exact @ih ⟨buf, -1, ptr, ⟨input, script⟩, asked ++ [sizeofVector], some e⟩ hroom h
          (Nat.lt_of_succ_lt_succ hturns)
      · exact ⟨_, _, rfl⟩

theorem again_throws {b b' : ReadBuffer} {e : Stop} (hroom : sizeofVector ≤ b.read_buf.length)
    (h : again turns b = .error e b') : e = .blocked := by
  induction turns generalizing b with
  | zero =>
    cases h
    rfl
  | succ turns ih =>
    obtain ⟨buf, cnt, ptr, ⟨input, script⟩, asked, errno⟩ := b
    rcases script with _ | ⟨n | errno', script⟩
    · rw [again_nil] at h
      cases h
      rfl
    · rw [again_deliver hroom rfl] at h
      cases h
    · rw [again_fail] at h
      split at h
      · exact @ih ⟨buf, -1, ptr, ⟨input, script⟩, asked ++ [sizeofVector], some errno'⟩ hroom h
      · cases h

theorem getChar_throws (hroom : sizeofVector ≤ buf_size) (b : ReadBuffer) (e : Stop) (b' : ReadBuffer)
    (hsafe : Safe buf_size b) (h : getChar b = .error e b') : e = .blocked := by
  rcases lt_or_ge 0 b.read_cnt with hcnt | hcnt
  · rw [getChar_of_pos hcnt] at h
    cases h
  · rw [getChar_of_nonpos hcnt] at h
    rcases hagain : again (b.rx.script.length + 1) b with ⟨rc, b₁⟩ | ⟨e', b₁⟩
    · rw [run_bind_ok hagain] at h
      split at h <;> cases h
    · rw [run_bind_error hagain] at h
      cases h
      exact again_throws (hsafe.length_eq ▸ hroom) hagain

theorem before_takeChar {b : ReadBuffer} (hsafe : Safe buf_size b) (hcnt : 0 < b.read_cnt) {rc : ℤ} {c : UInt8}
    {b' : ReadBuffer} (h : takeChar b = .ok (rc, c) b') : b.before = b'.before.map (c :: ·) := by
  have hstream := stream_takeChar hsafe hcnt
  cases h
  have hunread : b.unread = b.read_buf.getD b.read_ptr 0 ::
      ({ b with read_cnt := b.read_cnt - 1, read_ptr := b.read_ptr + 1 } : ReadBuffer).unread :=
    List.append_cancel_right hstream
  rw [before, before, hunread, Option.map_map]
  rfl

theorem getChar_before (hroom : sizeofVector ≤ buf_size) {b : ReadBuffer} (hsafe : Safe buf_size b) {rc : ℤ}
    {c : UInt8} {b' : ReadBuffer} (h : getChar b = .ok (rc, c) b') :
    rc = 1 ∧ b.before = b'.before.map (c :: ·) ∨ rc = 0 ∧ b.before = none ∨ rc = -1 ∧ b.before = some [] := by
  rcases lt_or_ge 0 b.read_cnt with hcnt | hcnt
  · rw [getChar_of_pos hcnt] at h
    have hbefore := before_takeChar hsafe hcnt h
    cases h
    exact .inl ⟨rfl, hbefore⟩
  · rw [getChar_of_nonpos hcnt] at h
    obtain ⟨rc₁, b₁, hagain, hrest⟩ := bind_eq_ok_iff.1 h
    have hsafe₁ := (keeps_again hroom _).ok hsafe hagain
    have hroom' := hsafe.length_eq ▸ hroom
    rw [before_of_nonpos hcnt]
    rcases again_before hroom' hagain with ⟨rfl, hread⟩ | ⟨rfl, hends⟩ | ⟨rfl, hfails⟩
    · have hcnt₁ : 0 < b₁.read_cnt := by
        rcases again_cases hroom' hagain with ⟨-, hpos, -⟩ | ⟨hzero, -⟩ | ⟨hneg, -⟩
        · exact hpos
        · cases hzero
        · cases hneg
      have hbefore := before_takeChar hsafe₁ hcnt₁ hrest
      cases hrest
      exact .inl ⟨rfl, hread.trans hbefore⟩
    · cases hrest
      exact .inr (.inl ⟨rfl, hends⟩)
    · cases hrest
      exact .inr (.inr ⟨rfl, hfails⟩)

theorem failingSource_getChar (hroom : sizeofVector ≤ buf_size) :
    FailingSource getChar (Safe buf_size) before where
  gives b c b' hsafe h := by
    rcases getChar_before hroom hsafe h with ⟨-, hbefore⟩ | ⟨hzero, -⟩ | ⟨hneg, -⟩
    · exact hbefore
    · cases hzero
    · cases hneg
  ends b c b' hsafe h := by
    rcases getChar_before hroom hsafe h with ⟨hone, -⟩ | ⟨-, hnone⟩ | ⟨hneg, -⟩
    · cases hone
    · exact hnone
    · cases hneg
  fails b rc c b' hsafe hone hzero h := by
    rcases getChar_before hroom hsafe h with ⟨rfl, -⟩ | ⟨rfl, -⟩ | ⟨-, hnil⟩
    · exact absurd rfl hone
    · exact absurd rfl hzero
    · exact hnil
  returns b l hsafe h := by
    rcases lt_or_ge 0 b.read_cnt with hcnt | hcnt
    · exact ⟨_, _, getChar_of_pos hcnt⟩
    · rw [before_of_nonpos hcnt] at h
      obtain ⟨rc, b', hagain⟩ := again_returns_before (hsafe.length_eq ▸ hroom) h (Nat.lt_succ_self _)
      rw [getChar_of_nonpos hcnt, run_bind_ok hagain]
      split_ifs <;> exact ⟨_, _, rfl⟩

/-- A call of `Readline` as its caller sees it: a line, or a `std::system_error`. -/
def handOver (c : ReadlineCall) (b : ReadBuffer) : CallEnd UInt8 × ReadBuffer :=
  CallEnd.of .line (fun | .systemError _ => .failure | _ => .waiting) (readline c.maxlen c.delim b)

/-- A read fails in the line of the call to come when characters of the line have been taken. -/
def Swallows (b : ReadBuffer) (c : ReadlineCall) : Prop :=
  ∃ l, FailsIn (· = c.delim) (lineRoom c.maxlen) b.before l ∧ l ≠ []

theorem failingReader_readline (hroom : sizeofVector ≤ buf_size) :
    FailingReader handOver stream (Safe buf_size) Swallows := by
  apply FailingReader.of_source (source_getChar hroom) (failingSource_getChar hroom)
  intro c b hsafe
  rw [handOver, readline_eq]
  rcases htake : takeLine getChar (· = c.delim) (lineRoom c.maxlen) [] b with ⟨⟨e, l⟩, b'⟩ | ⟨err, b'⟩
  · rw [run_bind_ok htake]
    cases e <;> rfl
  · rw [run_bind_error htake]
    obtain rfl := takeLine_throws (source_getChar hroom) (getChar_throws hroom) hsafe htake
    rfl

end

end ReadBuffer

end NetProg.Cxx
