import NetProg.C.Readline
import NetProg.Lib.FailingReader
import NetProg.Lib.Simulation
import NetProg.System.ReadFailure

/-!
# The static variables of the C line reader

`my_read` and `readline` of `lib/c/readline.c` on the variables that they keep, `read_cnt`, `read_ptr` and
`read_buf`. The bytes of the window at `read_ptr` are what `LineBuffer` holds, and the code does with them
what it is said to do there (`readline_simulates`).
-/

namespace NetProg.C
open Lib

/-- `sizeof(read_buf)`. -/
def sizeofReadBuf : ℕ := 4096

/-- The static variables, and the connection of the descriptor. `read_ptr` is an offset in `read_buf`; the
null pointer that it is at first is never used. -/
structure LineStatics where
  read_cnt : ℤ
  read_ptr : ℕ
  read_buf : Bytes
  rx : Rx
  deriving DecidableEq, Repr

/-! ### Reads that fail -/

/-- What is still to come before a read fails, if one does before the stream ends. -/
def LineBuffer.before (b : LineBuffer) : Option Bytes := (b.rx.beforeFailure sizeofReadBuf).map (b.unread ++ ·)

section

variable {turns : ℕ} {b b' : LineBuffer} {read_cnt : ℤ}

theorem again_before (h : again turns b = .ok read_cnt b') :
    read_cnt < 0 ∧ b.rx.beforeFailure sizeofReadBuf = some [] ∨
      read_cnt = 0 ∧ b.rx.beforeFailure sizeofReadBuf = none ∨
        0 < read_cnt ∧ b.rx.beforeFailure sizeofReadBuf = b'.before := by
  induction turns generalizing b with
  | zero => simp [again] at h
  | succ turns ih =>
    obtain ⟨unread, input, script⟩ := b
    rcases script with _ | ⟨n | errno, script⟩
    · rw [again, run_bind_error (show read 4096 ⟨unread, input, []⟩ =
        .error .blocked ⟨unread, input, []⟩ from rfl)] at h
      cases h
    · obtain ⟨k, hk⟩ : ∃ k, moved n (min sizeofReadBuf input.length) = k := ⟨_, rfl⟩
      rw [again_deliver, show min 4096 input.length = min sizeofReadBuf input.length from rfl, hk] at h
      cases h
      apply Or.inr
      rw [Rx.beforeFailure_deliver hk]
      by_cases hzero : k = 0
      · exact .inl ⟨by omega, if_pos hzero⟩
      · exact .inr ⟨by omega, if_neg hzero⟩
    · rw [again_fail] at h
      rw [Rx.beforeFailure_fail]
      split at h
      · rename_i heintr
        rw [if_pos heintr]
        exact ih h
      · rename_i hother
        cases h
        exact .inl ⟨by decide, if_neg hother⟩

theorem again_returns_before {l : Bytes} (h : b.rx.beforeFailure sizeofReadBuf = some l)
    (hturns : b.rx.script.length < turns) : ∃ read_cnt b', again turns b = .ok read_cnt b' := by
  induction turns generalizing b with
  | zero => omega
  | succ turns ih =>
    obtain ⟨unread, input, script⟩ := b
    rcases script with _ | ⟨n | errno, script⟩
    · cases h
    · exact ⟨_, _, again_deliver turns n unread input script⟩
    · rw [again_fail]
      rw [Rx.beforeFailure_fail] at h
      rw [List.length_cons] at hturns
      split
      · rename_i heintr
        rw [if_pos heintr] at h
        exact ih h (Nat.lt_of_succ_lt_succ hturns)
      · exact ⟨_, _, rfl⟩

theorem refill_before (h : refill b = .ok read_cnt b') :
    read_cnt < 0 ∧ b.before = some [] ∨ read_cnt = 0 ∧ b.before = none ∨
      0 < read_cnt ∧ b.before = b'.before ∧ b'.unread ≠ [] := by
  have hfilled := (refill_conserves h).2
  rcases refill_cases h with ⟨-, hpos, rfl⟩ | ⟨hempty, hagain⟩
  · exact .inr (.inr ⟨hpos, rfl, hfilled.1 hpos⟩)
  · have hbefore : b.before = b.rx.beforeFailure sizeofReadBuf := by
      rw [LineBuffer.before, hempty]
      simp
    rw [hbefore]
    rcases again_before hagain with hfails | hends | ⟨hpos, hread⟩
    · exact .inl hfails
    · exact .inr (.inl hends)
    · exact .inr (.inr ⟨hpos, hread, hfilled.1 hpos⟩)

theorem failingSource_myRead : FailingSource myRead (fun _ => True) LineBuffer.before where
  gives b c b' _ h := by
    rcases hrefill : refill b with ⟨read_cnt, b₁⟩ | ⟨stop, b₁⟩
    · rw [myRead, run_bind_ok hrefill, takeByte] at h
      split_ifs at h
      · cases h
      · cases h
      · rcases refill_before hrefill with ⟨hneg, -⟩ | ⟨hzero, -⟩ | ⟨-, hbefore, hne⟩
        · omega
        · omega
        · obtain ⟨c', unread, hunread⟩ := List.exists_cons_of_ne_nil hne
          rw [hunread] at h
          cases h
          rw [hbefore, LineBuffer.before, hunread]
          simp [LineBuffer.before, Function.comp_def]
    · rw [myRead, run_bind_error hrefill] at h
      cases h
  ends b c b' _ h := by
    obtain ⟨read_cnt, b₁, hrefill, hcases⟩ := myRead_cases h
    rcases refill_before hrefill with ⟨hneg, -⟩ | ⟨-, hnone⟩ | ⟨hpos, -⟩
    · omega
    · exact hnone
    · omega
  fails b rc c b' _ hone hzero h := by
    obtain ⟨read_cnt, b₁, hrefill, hcases⟩ := myRead_cases h
    rcases refill_before hrefill with ⟨-, hnil⟩ | ⟨hended, -⟩ | ⟨hpos, -⟩
    · exact hnil
    · omega
    · omega
  returns b l _ h := by
    have hreturns : ∃ read_cnt b', refill b = .ok read_cnt b' := by
      rw [refill, run_get_bind]
      split
      · obtain ⟨l', hl', -⟩ := Option.map_eq_some_iff.1 h
        exact again_returns_before hl' (Nat.lt_succ_self _)
      · exact ⟨_, _, rfl⟩
    obtain ⟨read_cnt, b', hrefill⟩ := hreturns
    rw [myRead, run_bind_ok hrefill, takeByte]
    split_ifs <;> exact ⟨_, _, rfl⟩

theorem readline_fails_iff {maxlen : ℕ} :
    (∃ n line b', readline maxlen b = .ok (n, line) b' ∧ n < 0) ↔
      ∃ l, FailsIn (· = newline) (lineRoom maxlen) b.before l := by
  have hfailed : (∃ out b', takeLine myRead (· = newline) (lineRoom maxlen) [] b = .ok (.failed, out) b') ↔
      ∃ l, FailsIn (· = newline) (lineRoom maxlen) b.before l := by
    constructor
    · rintro ⟨out, htake⟩
      obtain ⟨l, hfails, -⟩ := (takeLine_failed_iff [] source_myRead failingSource_myRead trivial).1 htake
      exact ⟨l, hfails⟩
    · rintro ⟨l, hfails⟩
      exact ⟨l, (takeLine_failed_iff [] source_myRead failingSource_myRead trivial).2 ⟨l, hfails, rfl⟩⟩
  rw [← hfailed, readline_eq_takeLine]
  constructor
  · rintro ⟨n, line, b', hrun, hneg⟩
    obtain ⟨⟨e, out⟩, b₁, htake, hreturn⟩ := bind_eq_ok_iff.1 hrun
    cases hreturn
    cases e with
    | failed => exact ⟨out, b', htake⟩
    | stopped | full | ended =>
      simp only [returned] at hneg
      omega
  · rintro ⟨out, b', htake⟩
    rw [run_bind_ok htake]
    exact ⟨-1, out, b', rfl, by decide⟩

/-- What the caller of `readline` sees: a line, or a negative value. -/
def seen (r : ℤ × Bytes) : CallEnd UInt8 := if r.1 < 0 then .failure else .line r.2

namespace LineBuffer

/-- What a call hands over to its caller. -/
def handOver (maxlen : ℕ) (b : LineBuffer) : CallEnd UInt8 × LineBuffer :=
  CallEnd.of seen (fun _ => .waiting) (readline maxlen b)

/-- A read fails in a call that has taken characters already. -/
def Swallows (b : LineBuffer) (maxlen : ℕ) : Prop :=
  ∃ l, FailsIn (· = newline) (lineRoom maxlen) b.before l ∧ l ≠ []

theorem failingReader_readline : FailingReader handOver stream (fun _ => True) Swallows := by
  apply FailingReader.of_source source_myRead failingSource_myRead
  intro maxlen b _
  rw [handOver, readline_eq_takeLine]
  rcases htake : takeLine myRead (· = newline) (lineRoom maxlen) [] b with ⟨⟨e, l⟩, b'⟩ | ⟨err, b'⟩
  · rw [run_bind_ok htake]
    cases e with
    | failed => rfl
    | stopped | ended => exact congrArg (·, b') (if_neg (Int.natCast_nonneg l.length).not_gt)
    | full => exact congrArg (·, b') (if_neg (Int.natCast_nonneg (l.length + 1)).not_gt)
  · rw [run_bind_error htake]
    rfl

end LineBuffer

end

namespace LineStatics

/-- Static variables start as zeros. -/
def init (rx : Rx) : LineStatics := ⟨0, 0, List.replicate sizeofReadBuf 0, rx⟩

/-- `read(fd, read_buf, len)`: the return value and `errno`. -/
def read (len : ℕ) : EStateM Stop LineStatics (ℤ × Option Errno) := fun s =>
  match recv len s.rx with
  | .error stop rx => .error stop { s with rx }
  | .ok (n, errno, got) rx =>
    if s.read_buf.length < got.length then
      .error (.outOfBounds s.read_buf.length s.read_buf.length) { s with rx }
    else .ok (n, errno) { s with read_buf := got ++ s.read_buf.drop got.length, rx }

/-- The code of `my_read` from the label `again:` on: what `my_read` returns, or `1` when there are bytes. -/
def again : ℕ → EStateM Stop LineStatics ℤ
  | 0 => throw .blocked
  | turns + 1 => do
    let (n, errno) ← read sizeofReadBuf
    modify fun s => { s with read_cnt := toInt n }
    let s ← get
    if s.read_cnt < 0 then
      if errno = some .EINTR then again turns else return -1
    else if s.read_cnt = 0 then return 0
    else do
      modify fun s => { s with read_ptr := 0 }
      return 1

/-- `read_cnt--; *ptr = *read_ptr++;` -/
def takeByte : EStateM Stop LineStatics (ℤ × UInt8) := fun s =>
  match s.read_buf[s.read_ptr]? with
  | none => .error (.outOfBounds s.read_ptr s.read_buf.length) s
  | some c => .ok (1, c) { s with read_cnt := s.read_cnt - 1, read_ptr := s.read_ptr + 1 }

/-- `my_read(fd, &c)`: the return value and `c`, with a turn for every answer that can interrupt the read. -/
def myRead : EStateM Stop LineStatics (ℤ × UInt8) := do
  let s ← get
  let rc ← if s.read_cnt ≤ 0 then again (s.rx.script.length + 1) else pure 1
  if rc = 1 then takeByte else return (rc, 0)

/-- `for (n = …; n < (int) maxlen; n++)`: the return value and the bytes stored, without the terminator. -/
def readlineLoop (maxlen : ℤ) : ℕ → ℤ → Bytes → EStateM Stop LineStatics (ℤ × Bytes)
  | 0, n, line => return (n, line)
  | turns + 1, n, line =>
    if n < maxlen then do
      let (rc, c) ← myRead
      if rc = 1 then
        if c = newline then return (n, line ++ [c]) else readlineLoop maxlen turns (n + 1) (line ++ [c])
      else if rc = 0 then return (n - 1, line)
      else return (-1, line)
    else return (n, line)

/-- `readline(fd, vptr, maxlen)`. -/
def readline (maxlen : ℕ) : EStateM Stop LineStatics (ℤ × Bytes) :=
  readlineLoop (toInt maxlen) (toInt maxlen).toNat 1 []

/-- `readlinebuf(vptrptr)`: the return value and `*vptrptr`. -/
def readlinebuf (vptr : Option ℕ) (s : LineStatics) : ℤ × Option ℕ :=
  (s.read_cnt, if s.read_cnt ≠ 0 then some s.read_ptr else vptr)

theorem readlinebuf_fst (vptr : Option ℕ) (s : LineStatics) : (readlinebuf vptr s).1 = s.read_cnt := rfl

/-! ### The window -/

/-- The `read_cnt` bytes at `read_ptr`, and the connection. -/
def toLineBuffer (s : LineStatics) : LineBuffer := ⟨(s.read_buf.drop s.read_ptr).take s.read_cnt.toNat, s.rx⟩

/-- The window lies inside `read_buf`. -/
structure Inside (s : LineStatics) : Prop where
  length_eq : s.read_buf.length = sizeofReadBuf
  window_le : s.read_ptr + s.read_cnt.toNat ≤ sizeofReadBuf

theorem inside_init (rx : Rx) : (init rx).Inside := ⟨List.length_replicate, Nat.zero_le _⟩

section

variable {s s' : LineStatics} {turns n ptr : ℕ} {cnt : ℤ} {buf input : Bytes} {script : List RecvAnswer}

theorem toLineBuffer_of_nonpos (hcnt : s.read_cnt ≤ 0) : s.toLineBuffer = ⟨[], s.rx⟩ := by
  rw [toLineBuffer, Int.toNat_of_nonpos hcnt, List.take_zero]

theorem Inside.length_unread (h : s.Inside) : s.toLineBuffer.unread.length = s.read_cnt.toNat := by
  obtain ⟨hlen, hwindow⟩ := h
  rw [toLineBuffer, List.length_take, List.length_drop]
  omega

theorem again_nil : again (turns + 1) ⟨cnt, ptr, buf, input, []⟩ =
    .error .blocked ⟨cnt, ptr, buf, input, []⟩ := rfl

theorem again_deliver (hlen : buf.length = sizeofReadBuf) {k : ℕ}
    (hk : moved n (min sizeofReadBuf input.length) = k) :
    again (turns + 1) ⟨cnt, ptr, buf, input, .deliver n :: script⟩ =
      .ok (if k = 0 then 0 else 1)
        ⟨k, if k = 0 then ptr else 0, input.take k ++ buf.drop k, input.drop k, script⟩ := by
  have hle : k ≤ min sizeofReadBuf input.length := hk ▸ moved_le _ _
  have hint : toInt k = (k : ℤ) := toInt_of_le (hk ▸ moved_le_INT_MAX _ _)
  have htake : (input.take k).length = k := List.length_take_of_le (by omega)
  have hread : read sizeofReadBuf ⟨cnt, ptr, buf, input, .deliver n :: script⟩ =
      .ok ((k : ℤ), none) ⟨cnt, ptr, input.take k ++ buf.drop k, input.drop k, script⟩ := by
    simp only [read, recv_deliver, hk, htake]
    rw [if_neg (by omega)]
  rw [again, run_bind_ok hread]
  simp only [run_modify_bind, run_get_bind, hint]
  rw [if_neg (by omega)]
  by_cases hzero : k = 0
  · rw [if_pos (by omega), if_pos hzero, if_pos hzero]
    rfl
  · rw [if_neg (by omega), run_modify_bind, if_neg hzero, if_neg hzero]
    rfl

theorem again_fail (errno : Errno) :
    again (turns + 1) ⟨cnt, ptr, buf, input, .fail errno :: script⟩ =
      if errno = .EINTR then again turns ⟨-1, ptr, buf, input, script⟩
      else .ok (-1) ⟨-1, ptr, buf, input, script⟩ := by
  have hread : read sizeofReadBuf ⟨cnt, ptr, buf, input, .fail errno :: script⟩ =
      .ok (-1, some errno) ⟨cnt, ptr, buf, input, script⟩ := rfl
  rw [again, run_bind_ok hread]
  simp only [run_modify_bind, run_get_bind, toInt_neg_one, show (-1 : ℤ) < 0 by decide, if_true,
    Option.some.injEq]
  split <;> rfl

theorem again_cases (turns : ℕ) (hinside : s.Inside) (hcnt : s.read_cnt ≤ 0) :
    (∃ s', again turns s = .error .blocked s' ∧
        C.again turns ⟨[], s.rx⟩ = .error .blocked s'.toLineBuffer ∧ s'.Inside) ∨
      ∃ rc read_cnt s', again turns s = .ok rc s' ∧
        C.again turns ⟨[], s.rx⟩ = .ok read_cnt s'.toLineBuffer ∧ s'.Inside ∧
        (read_cnt < 0 ∧ rc = -1 ∧ s'.read_cnt = -1 ∨ read_cnt = 0 ∧ rc = 0 ∧ s'.read_cnt = 0 ∨
          0 < read_cnt ∧ rc = 1 ∧ 0 < s'.read_cnt) := by
  induction turns generalizing s with
  | zero => exact .inl ⟨s, rfl, by rw [toLineBuffer_of_nonpos hcnt]; rfl, hinside⟩
  | succ turns ih =>
    obtain ⟨cnt, ptr, buf, input, script⟩ := s
    obtain ⟨hlen, hwindow⟩ := hinside
    simp only at hlen hwindow hcnt
    rcases script with _ | ⟨n | errno, script⟩
    · refine .inl ⟨_, again_nil, ?_, hlen, hwindow⟩
      rw [toLineBuffer_of_nonpos hcnt]
      rfl
    · obtain ⟨k, hk⟩ : ∃ k, moved n (min sizeofReadBuf input.length) = k := ⟨_, rfl⟩
      have hle : k ≤ min sizeofReadBuf input.length := hk ▸ moved_le _ _
      have htake : (input.take k).length = k := List.length_take_of_le (by omega)
      refine .inr ⟨_, k, _, again_deliver hlen hk, ?_, ?_, ?_⟩
      · have hbuffer := C.again_deliver turns n [] input script
        rw [show min 4096 input.length = min sizeofReadBuf input.length from rfl, hk] at hbuffer
        rw [hbuffer, toLineBuffer]
        by_cases hzero : k = 0
        · simp [hzero]
        · simp [hzero, htake]
      · refine ⟨?_, ?_⟩
        · simp only [List.length_append, htake, List.length_drop]
          omega
        · simp only [Int.toNat_natCast]
          split <;> omega
      · by_cases hzero : k = 0
        · exact .inr (.inl ⟨by omega, if_pos hzero, by simp [hzero]⟩)
        · exact .inr (.inr ⟨by omega, if_neg hzero, by simp only; omega⟩)
    · have hfailed : Inside ⟨-1, ptr, buf, input, script⟩ := ⟨hlen, by simp only; omega⟩
      rw [again_fail, C.again_fail]
      split_ifs
      · exact ih hfailed (show (-1 : ℤ) ≤ 0 by decide)
      · exact .inr ⟨-1, -1, _, rfl, rfl, hfailed, .inl ⟨by decide, rfl, rfl⟩⟩

theorem takeByte_eq (hinside : s.Inside) (hcnt : 0 < s.read_cnt) :
    ∃ c s', takeByte s = .ok (1, c) s' ∧ s'.Inside ∧ s'.read_cnt = s.read_cnt - 1 ∧
      s.toLineBuffer = ⟨c :: s'.toLineBuffer.unread, s'.toLineBuffer.rx⟩ := by
  obtain ⟨cnt, ptr, buf, rx⟩ := s
  obtain ⟨hlen, hwindow⟩ := hinside
  simp only at hlen hwindow hcnt
  have hptr : ptr < buf.length := by omega
  have hcount : cnt.toNat = (cnt - 1).toNat + 1 := by omega
  refine ⟨buf[ptr], ⟨cnt - 1, ptr + 1, buf, rx⟩, ?_, ⟨hlen, by simp only; omega⟩, rfl, ?_⟩
  · simp only [takeByte, List.getElem?_eq_getElem hptr]
  · simp only [toLineBuffer]
    rw [hcount, List.drop_eq_getElem_cons hptr, List.take_succ_cons]

/-- `my_read` does to the window what it does to the line buffer, and only its failures leave a negative
`read_cnt`. -/
theorem myRead_cases (hinside : s.Inside) :
    (∃ s', myRead s = .error .blocked s' ∧ C.myRead s.toLineBuffer = .error .blocked s'.toLineBuffer ∧
        s'.Inside) ∨
      ∃ rc c s', myRead s = .ok (rc, c) s' ∧ C.myRead s.toLineBuffer = .ok (rc, c) s'.toLineBuffer ∧
        s'.Inside ∧ (rc = -1 ∧ s'.read_cnt = -1 ∨ (rc = 0 ∨ rc = 1) ∧ 0 ≤ s'.read_cnt) := by
  rcases lt_or_ge 0 s.read_cnt with hcnt | hcnt
  · obtain ⟨c, s', htake, hinside', hcnt', hbuffer⟩ := takeByte_eq hinside hcnt
    refine .inr ⟨1, c, s', ?_, ?_, hinside', .inr ⟨.inr rfl, by omega⟩⟩
    · rw [myRead, run_get_bind, if_neg (by omega)]
      exact htake
    · have hrefill : refill s.toLineBuffer = .ok (s.toLineBuffer.unread.length : ℤ) s.toLineBuffer := by
        rw [refill, run_get_bind, hbuffer]
        rfl
      have hpos : 0 < s.toLineBuffer.unread.length := by simp [hbuffer]
      rw [C.myRead, run_bind_ok hrefill, C.takeByte, if_neg (by omega), if_neg (by omega), hbuffer]
      rfl
  · have hmine : myRead s = (again (s.rx.script.length + 1) >>= fun rc =>
        if rc = 1 then takeByte else pure (rc, 0)) s := by
      rw [myRead, run_get_bind, if_pos hcnt]
    have hbuffer : C.myRead s.toLineBuffer =
        (C.again (s.rx.script.length + 1) >>= C.takeByte) ⟨[], s.rx⟩ := by
      rw [toLineBuffer_of_nonpos hcnt]
      rfl
    rw [hmine, hbuffer]
    rcases again_cases (s.rx.script.length + 1) hinside hcnt with ⟨s', hrun, hrun', hinside'⟩ |
        ⟨rc, read_cnt, s', hrun, hrun', hinside', hcases⟩
    · exact .inl ⟨s', run_bind_error hrun, run_bind_error hrun', hinside'⟩
    · apply Or.inr
      rw [run_bind_ok hrun, run_bind_ok hrun', C.takeByte]
      rcases hcases with ⟨hneg, rfl, hcnt'⟩ | ⟨rfl, rfl, hcnt'⟩ | ⟨hpos, rfl, hcnt'⟩
      · rw [if_pos hneg]
        exact ⟨-1, 0, s', rfl, rfl, hinside', .inl ⟨rfl, hcnt'⟩⟩
      · exact ⟨0, 0, s', rfl, rfl, hinside', .inr ⟨.inl rfl, hcnt'.ge⟩⟩
      · obtain ⟨c, s'', htake, hinside'', hcnt'', hwindow⟩ := takeByte_eq hinside' hcnt'
        rw [if_neg (show ¬ read_cnt < 0 by omega), if_neg (show ¬ read_cnt = 0 by omega), hwindow]
        exact ⟨1, c, s'', htake, rfl, hinside'', .inr ⟨.inr rfl, by omega⟩⟩

end

/-! ### The calls -/

theorem myRead_simulates : Simulates Inside toLineBuffer myRead C.myRead where
  ok s r s' hinside hrun := by
    rcases myRead_cases hinside with ⟨s₁, hblocked, -⟩ | ⟨rc, c, s₁, hread, hbuffer, hinside', -⟩
    · rw [hblocked] at hrun
      cases hrun
    · rw [hread] at hrun
      cases hrun
      exact ⟨hinside', hbuffer⟩
  error s e s' hinside hrun := by
    rcases myRead_cases hinside with ⟨s₁, hblocked, hbuffer, hinside'⟩ | ⟨rc, c, s₁, hread, -⟩
    · rw [hblocked] at hrun
      cases hrun
      exact ⟨hinside', hbuffer⟩
    · rw [hread] at hrun
      cases hrun

theorem readlineLoop_simulates (maxlen : ℤ) (turns : ℕ) (n : ℤ) (line : Bytes) :
    Simulates Inside toLineBuffer (readlineLoop maxlen turns n line) (C.readlineLoop maxlen turns n line) := by
  induction turns generalizing n line with
  | zero => exact .pure _
  | succ turns ih =>
    rw [readlineLoop, C.readlineLoop]
    split
    · apply myRead_simulates.bind
      rintro ⟨rc, c⟩
      simp only
      split_ifs
      · exact .pure _
      · exact ih _ _
      · exact .pure _
      · exact .pure _
    · exact .pure _

theorem readline_simulates (maxlen : ℕ) : Simulates Inside toLineBuffer (readline maxlen) (C.readline maxlen) :=
  readlineLoop_simulates _ _ _ _

theorem readlineLoop_read_cnt {maxlen : ℤ} {turns : ℕ} {n n' : ℤ} {line line' : Bytes} {s s' : LineStatics}
    (hinside : s.Inside) (hn : 1 ≤ n) (h : readlineLoop maxlen turns n line s = .ok (n', line') s') :
    n' < 0 ∧ s'.read_cnt < 0 ∨ 0 ≤ n' ∧ (0 ≤ s.read_cnt → 0 ≤ s'.read_cnt) := by
  induction turns generalizing n line s with
  | zero =>
    obtain ⟨⟨rfl, -⟩, rfl⟩ : (n = n' ∧ line = line') ∧ s = s' := by simpa [readlineLoop] using h
    exact .inr ⟨by omega, id⟩
  | succ turns ih =>
    rw [readlineLoop] at h
    split at h
    · rcases myRead_cases hinside with ⟨s₁, hread, -⟩ | ⟨rc, c, s₁, hread, -, hinside', hcases⟩
      · rw [run_bind_error hread] at h
        cases h
      · rw [run_bind_ok hread] at h
        rcases hcases with ⟨rfl, hneg⟩ | ⟨rfl | rfl, hnonneg⟩
        · obtain ⟨⟨rfl, -⟩, rfl⟩ : (-1 = n' ∧ line = line') ∧ s₁ = s' := by simpa using h
          exact .inl ⟨by decide, by omega⟩
        · obtain ⟨⟨rfl, -⟩, rfl⟩ : (n - 1 = n' ∧ line = line') ∧ s₁ = s' := by simpa using h
          exact .inr ⟨by omega, fun _ => hnonneg⟩
        · simp only [if_true] at h
          split at h
          · obtain ⟨⟨rfl, -⟩, rfl⟩ : (n = n' ∧ line ++ [c] = line') ∧ s₁ = s' := by simpa using h
            exact .inr ⟨by omega, fun _ => hnonneg⟩
          · rcases ih hinside' (by omega) h with hfails | ⟨hn', hkeeps⟩
            · exact .inl hfails
            · exact .inr ⟨hn', fun _ => hkeeps hnonneg⟩
    · obtain ⟨⟨rfl, -⟩, rfl⟩ : (n = n' ∧ line = line') ∧ s = s' := by simpa using h
      exact .inr ⟨by omega, id⟩

/-- A call of `readline` as its caller sees it: a line, or a negative value. -/
def handOver (maxlen : ℕ) (s : LineStatics) : CallEnd UInt8 × LineStatics :=
  CallEnd.of seen (fun _ => .waiting) (readline maxlen s)

theorem handOver_simulates (maxlen : ℕ) (s : LineStatics) (hinside : s.Inside) :
    (handOver maxlen s).2.Inside ∧ LineBuffer.handOver maxlen s.toLineBuffer =
      ((handOver maxlen s).1, (handOver maxlen s).2.toLineBuffer) :=
  CallEnd.of_simulates (readline_simulates maxlen) hinside

/-- A read fails in the line of the call to come when bytes of the line have been taken. -/
def Swallows (s : LineStatics) (maxlen : ℕ) : Prop := s.toLineBuffer.Swallows maxlen

theorem failingReader_readline :
    FailingReader handOver (fun s => s.toLineBuffer.stream) (fun s => s.Inside ∧ True) Swallows :=
  LineBuffer.failingReader_readline.of_simulates handOver_simulates

/-! ### The window between the calls -/

/-- A call of `readline`. What it has stored is delivered, whatever it returns. -/
def deliver (maxlen : ℕ) (s : LineStatics) : CallEnd UInt8 × LineStatics :=
  CallEnd.of (fun r => .line r.2) (fun _ => .waiting) (readline maxlen s)

/-- A read fails in the line of the call to come. -/
def Fails (s : LineStatics) (maxlen : ℕ) : Prop :=
  ∃ l, FailsIn (· = newline) (lineRoom maxlen) s.toLineBuffer.before l

/-- The look-ahead window after the calls of a session on a descriptor that had `input` to read. -/
structure Valid (input : Bytes) (s : Session LineStatics UInt8) : Prop where
  read_cnt_nonneg : 0 ≤ s.state.read_cnt
  read_cnt_le : s.state.read_cnt ≤ sizeofReadBuf
  window_le : 0 < s.state.read_cnt → s.state.read_ptr + s.state.read_cnt.toNat ≤ s.state.read_buf.length
  readlinebuf_eq : ∀ vptr, (readlinebuf vptr s.state).1 =
    (input.length : ℤ) - s.state.rx.input.length - s.handed.length

/-- What holds after calls of any kind. -/
structure Kept (input : Bytes) (s : Session LineStatics UInt8) : Prop where
  inside : s.state.Inside
  conserved : s.handed ++ s.state.toLineBuffer.stream = input

/-- Only a negative `read_cnt` can make a window invalid. -/
theorem Kept.valid_iff {input : Bytes} {s : Session LineStatics UInt8} (h : Kept input s) :
    Valid input s ↔ 0 ≤ s.state.read_cnt := by
  constructor
  · exact Valid.read_cnt_nonneg
  · intro hcnt
    obtain ⟨hinside, hconserved⟩ := h
    have hlen := congrArg List.length hconserved
    rw [LineBuffer.stream, List.length_append, List.length_append, hinside.length_unread] at hlen
    have hrx : s.state.toLineBuffer.rx = s.state.rx := rfl
    rw [hrx] at hlen
    have hwindow := hinside.window_le
    refine ⟨hcnt, by omega, fun _ => hinside.length_eq ▸ hwindow, fun vptr => ?_⟩
    rw [readlinebuf_fst]
    omega

section

variable {input : Bytes} {s : Session LineStatics UInt8} {maxlen : ℕ}

theorem step_of_ok {n : ℤ} {line : Bytes} {s' : LineStatics} (hwaiting : s.waiting = false)
    (hrun : readline maxlen s.state = .ok (n, line) s') :
    s.step deliver maxlen = ⟨s', s.handed ++ line, false⟩ := by
  rw [Session.step, hwaiting, deliver, hrun]
  rfl

theorem step_of_error {e : Stop} {s' : LineStatics} (hwaiting : s.waiting = false)
    (hrun : readline maxlen s.state = .error e s') : s.step deliver maxlen = { s with waiting := true } := by
  rw [Session.step, hwaiting, deliver, hrun]
  rfl

theorem kept_step (maxlen : ℕ) (h : Kept input s) :
    Kept input (s.step deliver maxlen) ∧
      (s.Spares Fails maxlen → 0 ≤ s.state.read_cnt → 0 ≤ (s.step deliver maxlen).state.read_cnt) ∧
      (¬ s.Spares Fails maxlen → (s.step deliver maxlen).state.read_cnt < 0) := by
  obtain ⟨hinside, hconserved⟩ := h
  cases hwaiting : s.waiting with
  | true =>
    have hsame : s.step deliver maxlen = s := if_pos hwaiting
    have hspares : s.Spares Fails maxlen := fun hfalse => absurd hwaiting (by simp [hfalse])
    rw [hsame]
    exact ⟨⟨hinside, hconserved⟩, fun _ hcnt => hcnt, fun hfails => absurd hspares hfails⟩
  | false =>
    have hspares : s.Spares Fails maxlen ↔ ¬ Fails s.state maxlen := by simp [Session.Spares, hwaiting]
    rw [hspares, not_not, Fails, ← readline_fails_iff]
    cases hrun : readline maxlen s.state with
    | ok r s' =>
      obtain ⟨n, line⟩ := r
      obtain ⟨hinside', hbuffer⟩ := (readline_simulates maxlen).ok s.state (n, line) s' hinside hrun
      obtain ⟨got, rfl, hstream⟩ := readlineLoop_conserves hbuffer
      have hsign := readlineLoop_read_cnt hinside le_rfl hrun
      rw [step_of_ok hwaiting hrun, hbuffer]
      refine ⟨⟨hinside', ?_⟩, fun hnot hcnt => ?_, ?_⟩
      · rw [← hconserved, LineBuffer.stream, LineBuffer.stream, hstream, List.append_assoc]
      · rcases hsign with ⟨hneg, -⟩ | ⟨-, hkeeps⟩
        · exact absurd ⟨n, _, _, rfl, hneg⟩ hnot
        · exact hkeeps hcnt
      · rintro ⟨n', line', b', heq, hneg⟩
        cases heq
        rcases hsign with ⟨-, hcnt⟩ | ⟨hnonneg, -⟩
        · exact hcnt
        · omega
    | error e s' =>
      obtain ⟨-, hbuffer⟩ := (readline_simulates maxlen).error s.state e s' hinside hrun
      rw [step_of_error hwaiting hrun, hbuffer]
      refine ⟨⟨hinside, hconserved⟩, fun _ hcnt => hcnt, ?_⟩
      rintro ⟨n', line', b', heq, -⟩
      cases heq

end

theorem kept_start (rx : Rx) : Kept rx.input (.start (init rx)) := ⟨inside_init rx, rfl⟩

/-- The window is valid after every call of a session precisely if none of its calls meets a read that fails
while its line is open. -/
theorem window_valid_iff (rx : Rx) (maxlens : List ℕ) :
    (∀ calls, calls <+: maxlens → Valid rx.input (run (Session.step deliver) (.start (init rx)) calls)) ↔
      Along (Session.step deliver) (Session.Spares Fails) (.start (init rx)) maxlens := by
  have hkept : ∀ calls, Kept rx.input (run (Session.step deliver) (.start (init rx)) calls) :=
    @run_stable _ _ (Session.step deliver) (Kept rx.input) (fun _ maxlen hs => (kept_step maxlen hs).1) _
      (kept_start rx)
  constructor
  · intro hvalid
    rw [along_iff]
    intro calls maxlen hcalls
    by_contra hfails
    have hafter := (hvalid _ hcalls).read_cnt_nonneg
    rw [run_append] at hafter
    exact absurd ((kept_step maxlen (hkept calls)).2.2 hfails) (not_lt.2 hafter)
  · intro hspares calls hcalls
    rw [(hkept calls).valid_iff]
    have hnonneg : Kept rx.input (run (Session.step deliver) (.start (init rx)) calls) ∧
        0 ≤ (run (Session.step deliver) (.start (init rx)) calls).state.read_cnt := by
      refine run_invariant (I := fun s : Session LineStatics UInt8 => Kept rx.input s ∧ 0 ≤ s.state.read_cnt)
        ?_ ⟨kept_start rx, le_rfl⟩ (hspares.of_prefix hcalls)
      rintro s maxlen ⟨hs, hcnt⟩ hspares
      obtain ⟨hs', hkeeps, -⟩ := kept_step maxlen hs
      exact ⟨hs', hkeeps hspares hcnt⟩
    exact hnonneg.2

/-- The first read fails, and `readlinebuf` returns a negative number of bytes. -/
theorem window_invalid_after_failure :
    let s := run (Session.step deliver) (.start (init ⟨[97, 10], [.fail (.other 5)]⟩)) [100]
    ¬ Valid [97, 10] s ∧ (readlinebuf none s.state).1 < 0 := by
  have hfails : Fails (init ⟨[97, 10], [.fail (.other 5)]⟩) 100 := by
    refine ⟨[], ?_, by decide, List.forall_mem_nil _⟩
    rw [toLineBuffer_of_nonpos le_rfl]
    rfl
  intro s
  have hneg : s.state.read_cnt < 0 := by
    rw [show s = _ from run_singleton _ _]
    exact (kept_step 100 (kept_start ⟨[97, 10], [.fail (.other 5)]⟩)).2.2 (Session.not_spares_start hfails)
  rw [readlinebuf_fst]
  exact ⟨fun hvalid => absurd hneg (not_lt.2 hvalid.read_cnt_nonneg), hneg⟩

end LineStatics

end NetProg.C
