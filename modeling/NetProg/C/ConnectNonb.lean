import NetProg.System.Descriptor
import NetProg.System.Text

/-!
# `connect_nonb` of the C library

The function of `lib/c/connect_nonb.c`, with the wrappers `Fcntl` and `Select` of `lib/c/wrapunix.c` that
end the process when their call fails. It returns `-1` from four places. When the time is up, and when the
connection has met an error, it has closed the descriptor. When `connect` fails at once, and when the error
of the connection cannot be fetched, it returns without any of its clean-up: the descriptor is open, and no
longer waits (`returns_failed`).

So a caller knows what it has after `-1` only where one of the two kinds of failures does not occur
(`oneCondition_iff`).
-/

namespace NetProg.C
open Lib (run_bind_ok run_bind_error run_get_bind)

/-- `Fcntl(fd, cmd, arg)`. -/
def fcntl (call : EStateM Stop Descriptor (Except Errno ℕ)) : EStateM Stop Descriptor ℕ := do
  match ← call with
  | .ok n => return n
  | .error errno => throw (.systemError errno)

/-- `Select(nfds, readfds, writefds, exceptfds, timeout)`: the return value and the sets. -/
def select (call : SelectCall) : EStateM Stop Selector (ℤ × FdSets) := do
  let s ← get
  let (n, errno, sets) ← selectAgain (s.script.length + 1) call
  if n < 0 then throw (.systemError errno)
  else if n = 0 ∧ call.timeout = none then throw (.quit (ascii "select returned 0 with no timeout"))
  else return (n, sets)

/-- The code of `connect_nonb` from the label `done` on, with the old flags and `error`. -/
def connectDone (k : ConnectAnswers) (flags : ℕ) (error : Option Errno) :
    EStateM Stop Descriptor (ℤ × Option Errno) := do
  let _ ← fcntl (Descriptor.setfl flags k.restore)
  match error with
  | some errno => do
    Descriptor.close
    return (-1, some errno)
  | none => return (0, none)

/-- The code behind `Select`, with its return value and the sets. -/
def connectWoken (k : ConnectAnswers) (sockfd : ℤ) (flags : ℕ) :
    ℤ × FdSets → EStateM Stop Descriptor (ℤ × Option Errno)
  | (n, sets) => do
    if n = 0 then do
      Descriptor.close
      return (-1, some ETIMEDOUT)
    else do
      let readable ← FD_ISSET sockfd sets.rset
      let writable ← FD_ISSET sockfd sets.wset
      if readable || writable then
        match k.getsockopt with
        | .error errno => return (-1, some errno)
        | .ok error => connectDone k flags error
      else throw (.quit (ascii "select error: sockfd not set"))

/-- The code behind `connect` when the connection is in progress. -/
def connectWait (k : ConnectAnswers) (sockfd nsec : ℤ) (flags : ℕ) :
    EStateM Stop Descriptor (ℤ × Option Errno) := do
  let rset ← FD_SET sockfd FD_ZERO
  let woken ← Descriptor.selecting
    (select ⟨sockfd + 1, ⟨rset, rset, FD_ZERO⟩, if nsec ≠ 0 then some ⟨nsec, 0⟩ else none⟩)
  connectWoken k sockfd flags woken

/-- `connect_nonb(sockfd, saptr, salen, nsec)`: the return value, and `errno` with a `-1`. The address is
for the kernel alone. -/
def connectNonb (k : ConnectAnswers) (sockfd nsec : ℤ) : EStateM Stop Descriptor (ℤ × Option Errno) := do
  let flags ← fcntl (Descriptor.getfl k.getfl)
  let _ ← fcntl (Descriptor.setfl (flags ||| O_NONBLOCK) k.setfl)
  match k.connect with
  | none => connectDone k flags none
  | some errno => if errno ≠ EINPROGRESS then return (-1, some errno) else connectWait k sockfd nsec flags

section

variable {k : ConnectAnswers} {sockfd nsec : ℤ} {flags : ℕ} {d d' : Descriptor} {x : ℤ × Option Errno}

/-! ### The calls -/

theorem fcntl_ok {n : ℕ} {call : EStateM Stop Descriptor (Except Errno ℕ)} (h : call d = .ok (.ok n) d') :
    fcntl call d = .ok n d' := by
  rw [fcntl, run_bind_ok h]
  rfl

theorem fcntl_error {errno : Errno} {call : EStateM Stop Descriptor (Except Errno ℕ)}
    (h : call d = .ok (.error errno) d') : fcntl call d = .error (.systemError errno) d' := by
  rw [fcntl, run_bind_ok h]
  rfl

theorem select_ready {call : SelectCall} {s : Selector} {readable writable exceptional : List ℤ}
    (h : answerOf s.script = some (.ready readable writable exceptional))
    (htime : (call.keep readable writable exceptional).count = 0 → call.timeout ≠ none) :
    ∃ s', select call s = .ok ((call.keep readable writable exceptional).count,
      call.keep readable writable exceptional) s' := by
  obtain ⟨script, asked⟩ := s
  obtain ⟨s', hrun, -⟩ := @selectAgain_of_answer call _ _ script asked h (Nat.lt_succ_self _)
  refine ⟨s', ?_⟩
  rw [select, run_get_bind, run_bind_ok hrun, SelectCall.result]
  simp only
  rw [if_neg (Int.not_lt.2 (Int.natCast_nonneg _)), if_neg]
  · rfl
  · rintro ⟨hzero, hnull⟩
    exact htime (Int.natCast_eq_zero.1 hzero) hnull

theorem select_without_timeout {call : SelectCall} {s : Selector} {readable writable exceptional : List ℤ}
    (h : answerOf s.script = some (.ready readable writable exceptional))
    (hcount : (call.keep readable writable exceptional).count = 0) (hnull : call.timeout = none) :
    ∃ stop s', select call s = .error stop s' := by
  obtain ⟨script, asked⟩ := s
  obtain ⟨s', hrun, -⟩ := @selectAgain_of_answer call _ _ script asked h (Nat.lt_succ_self _)
  refine ⟨.quit (ascii "select returned 0 with no timeout"), s', ?_⟩
  rw [select, run_get_bind, run_bind_ok hrun, SelectCall.result, hcount]
  simp only
  rw [if_neg (Int.not_lt.2 (Int.natCast_nonneg _)), if_pos ⟨rfl, hnull⟩]
  rfl

theorem select_stops {call : SelectCall} {s : Selector}
    (h : ∀ readable writable exceptional, answerOf s.script ≠ some (.ready readable writable exceptional)) :
    ∃ stop s', select call s = .error stop s' := by
  obtain ⟨script, asked⟩ := s
  cases hanswer : answerOf script with
  | none =>
    obtain ⟨s', hrun⟩ := @selectAgain_blocked call (script.length + 1) script asked hanswer
    exact ⟨.blocked, s', by rw [select, run_get_bind, run_bind_error hrun]⟩
  | some a =>
    cases a with
    | fail errno =>
      obtain ⟨s', hrun, -⟩ := @selectAgain_of_answer call _ _ script asked hanswer (Nat.lt_succ_self _)
      refine ⟨.systemError errno, s', ?_⟩
      rw [select, run_get_bind, run_bind_ok hrun]
      rfl
    | ready readable writable exceptional => exact absurd hanswer (h readable writable exceptional)

/-! ### Waiting for the connection -/

/-- The call that is made for one descriptor. -/
def callFor (sockfd : ℤ) (hbit : HasBit sockfd) (tval : Option Timeval) : SelectCall :=
  ⟨sockfd + 1, ⟨insert hbit.bit FD_ZERO, insert hbit.bit FD_ZERO, FD_ZERO⟩, tval⟩

theorem keep_callFor (hbit : HasBit sockfd) (tval : Option Timeval) (readable writable exceptional : List ℤ) :
    (((callFor sockfd hbit tval).keep readable writable exceptional).rset.Holds sockfd ↔ sockfd ∈ readable) ∧
      (((callFor sockfd hbit tval).keep readable writable exceptional).wset.Holds sockfd ↔
        sockfd ∈ writable) ∧
        (((callFor sockfd hbit tval).keep readable writable exceptional).count = 0 ↔
          sockfd ∉ readable ∧ sockfd ∉ writable) := by
  have hencodes : Encodes (insert hbit.bit FD_ZERO) [sockfd] := encodes_singleton hbit
  have hlt : ∀ fd ∈ [sockfd], fd < sockfd + 1 := by
    intro fd hfd
    rw [List.mem_singleton.1 hfd]
    exact Int.lt_succ sockfd
  have hmem : ∀ ready : List ℤ,
      (FdSet.keep (insert hbit.bit FD_ZERO) (sockfd + 1) ready).Holds sockfd ↔
        sockfd ∈ ready := by
    intro ready
    rw [holds_keep, hencodes]
    exact ⟨fun h => h.2.2, fun h => ⟨List.mem_singleton_self _, Int.lt_succ sockfd, h⟩⟩
  have hcard : ∀ ready : List ℤ,
      (FdSet.keep (insert hbit.bit FD_ZERO) (sockfd + 1) ready).card = 0 ↔ sockfd ∉ ready := by
    intro ready
    rw [card_keep_eq_zero hencodes hlt, List.filter_eq_nil_iff]
    simp
  have hexcept : (FdSet.keep FD_ZERO (sockfd + 1) exceptional).card = 0 := rfl
  refine ⟨hmem readable, hmem writable, ?_⟩
  simp only [callFor, FdSets.count, SelectCall.keep, Nat.add_eq_zero_iff, hcard, hexcept, and_true]

/-- The time that `nsec` stands for. -/
def timeLimit (nsec : ℤ) : Option Timeval := if nsec ≠ 0 then some ⟨nsec, 0⟩ else none

theorem connectWait_of_hasBit (hbit : HasBit sockfd) :
    connectWait k sockfd nsec flags d =
      (Descriptor.selecting (select (callFor sockfd hbit (timeLimit nsec))) >>=
        connectWoken k sockfd flags) d := by
  rw [connectWait, run_bind_ok (FD_SET_of_hasBit hbit)]
  rfl

theorem connectWait_ready (hbit : HasBit sockfd) (hready : k.Ready sockfd)
    (hscript : d.selector.script = k.selects) :
    ∃ s', connectWait k sockfd nsec flags d =
      (match k.getsockopt with
        | .error errno => pure (-1, some errno)
        | .ok error => connectDone k flags error) { d with selector := s' } := by
  obtain ⟨readable, writable, exceptional, hanswer, hmem⟩ := hready
  obtain ⟨hrset, hwset, hcount⟩ := keep_callFor hbit (timeLimit nsec) readable writable exceptional
  rw [← hscript] at hanswer
  have hpos : ((callFor sockfd hbit (timeLimit nsec)).keep readable writable exceptional).count ≠ 0 :=
    fun hzero => not_or.2 (hcount.1 hzero) hmem
  obtain ⟨s', hselect⟩ := select_ready hanswer fun hzero => absurd hzero hpos
  refine ⟨s', ?_⟩
  rw [connectWait_of_hasBit hbit, run_bind_ok (Descriptor.selecting_ok hselect), connectWoken,
    if_neg fun hzero => hpos (Int.natCast_eq_zero.1 hzero), run_bind_ok (FD_ISSET_of_hasBit hbit),
    run_bind_ok (FD_ISSET_of_hasBit hbit), if_pos]
  rw [Bool.or_eq_true, decide_eq_true_eq, decide_eq_true_eq, hrset, hwset]
  exact hmem

theorem connectWait_timedOut (hbit : HasBit sockfd) (htimed : k.TimedOut sockfd) (hnsec : nsec ≠ 0)
    (hscript : d.selector.script = k.selects) :
    ∃ s', connectWait k sockfd nsec flags d =
      .ok (-1, some ETIMEDOUT) { d with isOpen := false, selector := s' } := by
  obtain ⟨readable, writable, exceptional, hanswer, hmem⟩ := htimed
  obtain ⟨-, -, hcount⟩ := keep_callFor hbit (timeLimit nsec) readable writable exceptional
  have htime : (callFor sockfd hbit (timeLimit nsec)).timeout ≠ none := by
    rw [callFor, timeLimit, if_pos hnsec]
    exact Option.some_ne_none _
  rw [← hscript] at hanswer
  obtain ⟨s', hselect⟩ := select_ready hanswer fun _ => htime
  refine ⟨s', ?_⟩
  rw [connectWait_of_hasBit hbit, run_bind_ok (Descriptor.selecting_ok hselect), connectWoken,
    if_pos (Int.natCast_eq_zero.2 (hcount.2 hmem))]
  rfl

theorem connectWait_stops (hscript : d.selector.script = k.selects)
    (h : ¬ (HasBit sockfd ∧ (nsec ≠ 0 ∧ k.TimedOut sockfd ∨ k.Ready sockfd))) :
    ∃ stop d', connectWait k sockfd nsec flags d = .error stop d' := by
  by_cases hbit : HasBit sockfd
  · rw [connectWait_of_hasBit hbit]
    by_cases hanswered : ∃ readable writable exceptional,
        answerOf k.selects = some (.ready readable writable exceptional)
    · obtain ⟨readable, writable, exceptional, hanswer⟩ := hanswered
      obtain ⟨-, -, hcount⟩ := keep_callFor hbit (timeLimit nsec) readable writable exceptional
      have hnone : sockfd ∉ readable ∧ sockfd ∉ writable := by
        rw [← not_or]
        exact fun hmem => h ⟨hbit, .inr ⟨readable, writable, exceptional, hanswer, hmem⟩⟩
      have hnsec : ¬ nsec ≠ 0 := fun hnsec =>
        h ⟨hbit, .inl ⟨hnsec, readable, writable, exceptional, hanswer, hnone⟩⟩
      rw [← hscript] at hanswer
      obtain ⟨stop, s', hselect⟩ := select_without_timeout hanswer (hcount.2 hnone) (if_neg hnsec)
      exact ⟨stop, _, run_bind_error (Descriptor.selecting_error hselect)⟩
    · push Not at hanswered
      rw [← hscript] at hanswered
      obtain ⟨stop, s', hselect⟩ := @select_stops (callFor sockfd hbit (timeLimit nsec)) d.selector hanswered
      exact ⟨stop, _, run_bind_error (Descriptor.selecting_error hselect)⟩
  · exact ⟨_, _, by rw [connectWait, run_bind_error (FD_SET_of_not_hasBit hbit)]⟩

/-! ### The whole function -/

theorem connectDone_restored (hrestore : k.restore = none) (error : Option Errno) :
    connectDone k flags error d = .ok (if error = none then 0 else -1, error)
      { d with flags := setFlags d.flags flags, isOpen := d.isOpen && error.isNone } := by
  have hset : fcntl (Descriptor.setfl flags k.restore) d = .ok 0 { d with flags := setFlags d.flags flags } :=
    fcntl_ok (by rw [hrestore]; rfl)
  unfold connectDone
  rw [run_bind_ok hset]
  cases error with
  | none =>
    simp only [Option.isNone_none, Bool.and_true]
    rfl
  | some errno =>
    simp only [Option.isNone_some, Bool.and_false]
    rfl

theorem connectDone_stops {errno : Errno} (hrestore : k.restore = some errno) (error : Option Errno) :
    connectDone k flags error d = .error (.systemError errno) d := by
  have hset : fcntl (Descriptor.setfl flags k.restore) d = .error (.systemError errno) d :=
    fcntl_error (by rw [hrestore]; rfl)
  unfold connectDone
  rw [run_bind_error hset]

theorem connectDone_none_ne (errno : Option Errno) :
    connectDone k flags none d ≠ .ok (-1, errno) d' := by
  intro hdone
  cases hrestore : k.restore with
  | none => cases (connectDone_restored hrestore none).symm.trans hdone
  | some e => cases (connectDone_stops hrestore none).symm.trans hdone

theorem connectNonb_called (h : k.Called) :
    connectNonb k sockfd nsec d =
      (match k.connect with
        | none => connectDone k d.flags none
        | some errno =>
          if errno ≠ EINPROGRESS then pure (-1, some errno) else connectWait k sockfd nsec d.flags)
        { d with flags := d.flags ||| O_NONBLOCK } := by
  obtain ⟨hget, hset⟩ := h
  have hgot : fcntl (Descriptor.getfl k.getfl) d = .ok d.flags d := fcntl_ok (by rw [hget]; rfl)
  have hnonblock : fcntl (Descriptor.setfl (d.flags ||| O_NONBLOCK) k.setfl) d =
      .ok 0 { d with flags := d.flags ||| O_NONBLOCK } :=
    fcntl_ok (by rw [hset, Descriptor.setfl, setFlags_nonblock])
  rw [connectNonb, run_bind_ok hgot, run_bind_ok hnonblock]

theorem connectNonb_stops (h : ¬ k.Called) : ∃ stop d', connectNonb k sockfd nsec d = .error stop d' := by
  cases hget : k.getfl with
  | some errno =>
    have hgot : fcntl (Descriptor.getfl k.getfl) d = .error (.systemError errno) d :=
      fcntl_error (by rw [hget]; rfl)
    exact ⟨_, _, run_bind_error hgot⟩
  | none =>
    have hgot : fcntl (Descriptor.getfl k.getfl) d = .ok d.flags d := fcntl_ok (by rw [hget]; rfl)
    cases hset : k.setfl with
    | some errno =>
      have hnonblock : fcntl (Descriptor.setfl (d.flags ||| O_NONBLOCK) k.setfl) d =
          .error (.systemError errno) d := fcntl_error (by rw [hset]; rfl)
      exact ⟨_, _, by rw [connectNonb, run_bind_ok hgot, run_bind_error hnonblock]⟩
    | none => exact absurd ⟨hget, hset⟩ h

end

/-! ### What a caller has after `-1` -/

/-- A call of `connect_nonb`, with the flags that the descriptor has at first. -/
structure ConnectRun where
  answers : ConnectAnswers
  sockfd : ℤ
  nsec : ℤ
  flags : ℕ

namespace ConnectRun

/-- What the call comes to, from an open descriptor. -/
def result (r : ConnectRun) : EStateM.Result Stop Descriptor (ℤ × Option Errno) :=
  connectNonb r.answers r.sockfd r.nsec ⟨true, r.flags, ⟨r.answers.selects, []⟩⟩

/-- The call returns `-1`, and leaves this descriptor. -/
def Fails (r : ConnectRun) (d : Descriptor) : Prop := ∃ errno, r.result = .ok (-1, errno) d

/-- `connect` fails at once, or the error of the connection cannot be fetched. -/
def LeavesOpen (r : ConnectRun) : Prop :=
  r.answers.Called ∧ (∃ errno, r.answers.connect = some errno ∧ errno ≠ EINPROGRESS) ∨
    r.answers.InProgress ∧ HasBit r.sockfd ∧ r.answers.Ready r.sockfd ∧
      ∃ errno, r.answers.getsockopt = .error errno

/-- The time is up, or the connection has met an error and the old flags are set again. -/
def Closes (r : ConnectRun) : Prop :=
  r.answers.InProgress ∧ HasBit r.sockfd ∧
    (r.nsec ≠ 0 ∧ r.answers.TimedOut r.sockfd ∨
      r.answers.Ready r.sockfd ∧ r.answers.restore = none ∧ ∃ errno, r.answers.getsockopt = .ok (some errno))

/-- The descriptor that no longer waits. -/
def nonblocking (r : ConnectRun) : Descriptor := ⟨true, r.flags ||| O_NONBLOCK, ⟨r.answers.selects, []⟩⟩

theorem result_of_failed {r : ConnectRun} {errno : Errno} (hcalled : r.answers.Called)
    (hconnect : r.answers.connect = some errno) (hne : errno ≠ EINPROGRESS) :
    r.result = .ok (-1, some errno) r.nonblocking := by
  rw [result, connectNonb_called hcalled, hconnect]
  simp only
  rw [if_pos hne]
  rfl

theorem result_of_inProgress {r : ConnectRun} (h : r.answers.InProgress) :
    r.result = connectWait r.answers r.sockfd r.nsec r.flags r.nonblocking := by
  obtain ⟨hcalled, hconnect⟩ := h
  rw [result, connectNonb_called hcalled, hconnect]
  rfl

theorem fails_of_leavesOpen {r : ConnectRun} (h : r.LeavesOpen) :
    ∃ d, r.Fails d ∧ d.isOpen = true ∧ d.flags = r.flags ||| O_NONBLOCK := by
  rcases h with ⟨hcalled, errno, hconnect, hne⟩ | ⟨hprogress, hbit, hready, errno, hsockopt⟩
  · exact ⟨r.nonblocking, ⟨some errno, result_of_failed hcalled hconnect hne⟩, rfl, rfl⟩
  · obtain ⟨s', hwait⟩ := @connectWait_ready r.answers r.sockfd r.nsec r.flags r.nonblocking hbit hready rfl
    refine ⟨{ r.nonblocking with selector := s' }, ⟨some errno, ?_⟩, rfl, rfl⟩
    rw [result_of_inProgress hprogress, hwait, hsockopt]
    rfl

theorem fails_of_closes {r : ConnectRun} (h : r.Closes) : ∃ d, r.Fails d ∧ d.isOpen = false := by
  obtain ⟨hprogress, hbit, ⟨hnsec, htimed⟩ | ⟨hready, hrestore, errno, hsockopt⟩⟩ := h
  · obtain ⟨s', hwait⟩ :=
      @connectWait_timedOut r.answers r.sockfd r.nsec r.flags r.nonblocking hbit htimed hnsec rfl
    exact ⟨{ r.nonblocking with isOpen := false, selector := s' },
      ⟨some ETIMEDOUT, (result_of_inProgress hprogress).trans hwait⟩, rfl⟩
  · obtain ⟨s', hwait⟩ := @connectWait_ready r.answers r.sockfd r.nsec r.flags r.nonblocking hbit hready rfl
    have hdone := @connectDone_restored r.answers r.flags { r.nonblocking with selector := s' } hrestore
      (some errno)
    rw [hsockopt] at hwait
    exact ⟨_, ⟨some errno, (result_of_inProgress hprogress).trans (hwait.trans hdone)⟩, rfl⟩

theorem leavesOpen_or_closes {r : ConnectRun} {d : Descriptor} (h : r.Fails d) : r.LeavesOpen ∨ r.Closes := by
  obtain ⟨errno, hresult⟩ := h
  by_cases hcalled : r.answers.Called
  · cases hconnect : r.answers.connect with
    | none =>
      rw [result, connectNonb_called hcalled, hconnect] at hresult
      exact absurd hresult (connectDone_none_ne _)
    | some e =>
      by_cases hprogress : e = EINPROGRESS
      · subst hprogress
        have hwaits : r.answers.InProgress := ⟨hcalled, hconnect⟩
        rw [result_of_inProgress hwaits] at hresult
        by_cases hreturns : HasBit r.sockfd ∧
            (r.nsec ≠ 0 ∧ r.answers.TimedOut r.sockfd ∨ r.answers.Ready r.sockfd)
        · obtain ⟨hbit, htimed | hready⟩ := hreturns
          · exact .inr ⟨hwaits, hbit, .inl htimed⟩
          · obtain ⟨s', hwait⟩ :=
              @connectWait_ready r.answers r.sockfd r.nsec r.flags r.nonblocking hbit hready rfl
            rw [hwait] at hresult
            rcases hsockopt : r.answers.getsockopt with e | error
            · exact .inl (.inr ⟨hwaits, hbit, hready, e, hsockopt⟩)
            · rw [hsockopt] at hresult
              cases error with
              | none => exact absurd hresult (connectDone_none_ne _)
              | some e =>
                cases hrestore : r.answers.restore with
                | none => exact .inr ⟨hwaits, hbit, .inr ⟨hready, hrestore, e, hsockopt⟩⟩
                | some e' =>
                  have hstop : connectDone r.answers r.flags (some e) { r.nonblocking with selector := s' } =
                    .error (.systemError e') _ := connectDone_stops hrestore (some e)
                  cases hstop.symm.trans hresult
        · obtain ⟨stop, d', hstop⟩ :=
            @connectWait_stops r.answers r.sockfd r.nsec r.flags r.nonblocking rfl hreturns
          cases hstop.symm.trans hresult
      · exact .inl (.inl ⟨hcalled, e, hconnect, hprogress⟩)
  · obtain ⟨stop, d', hstop⟩ := @connectNonb_stops r.answers r.sockfd r.nsec
      ⟨true, r.flags, ⟨r.answers.selects, []⟩⟩ hcalled
    cases hstop.symm.trans hresult

theorem returns_failed {r : ConnectRun} {d : Descriptor} (h : r.Fails d) :
    r.LeavesOpen ∧ d.isOpen = true ∧ d.flags = r.flags ||| O_NONBLOCK ∨ r.Closes ∧ d.isOpen = false := by
  have hsame : ∀ d', r.Fails d' → d' = d := by
    rintro d' ⟨errno', hresult'⟩
    obtain ⟨errno, hresult⟩ := h
    cases hresult'.symm.trans hresult
    rfl
  rcases leavesOpen_or_closes h with hopen | hcloses
  · obtain ⟨d', hfails, hisOpen, hflags⟩ := fails_of_leavesOpen hopen
    obtain rfl := hsame d' hfails
    exact .inl ⟨hopen, hisOpen, hflags⟩
  · obtain ⟨d', hfails, hisOpen⟩ := fails_of_closes hcloses
    obtain rfl := hsame d' hfails
    exact .inr ⟨hcloses, hisOpen⟩

end ConnectRun

open ConnectRun

/-- A caller whose calls are these knows what it has after `-1`: every time a descriptor that is closed, or
every time one that is open and has its old flags. -/
def OneCondition (K : Set ConnectRun) : Prop :=
  (∀ r ∈ K, ∀ d, r.Fails d → d.isOpen = false) ∨
    ∀ r ∈ K, ∀ d, r.Fails d → d.isOpen = true ∧ d.flags = r.flags

/-- It does so if `connect` never fails at once and the error can always be fetched, or if these are the only
failures and the descriptors did not wait at first. -/
theorem oneCondition_iff (K : Set ConnectRun) :
    OneCondition K ↔ (∀ r ∈ K, ¬ r.LeavesOpen) ∨
      ∀ r ∈ K, ¬ r.Closes ∧ (r.LeavesOpen → r.flags ||| O_NONBLOCK = r.flags) := by
  refine or_congr ⟨?_, ?_⟩ ⟨?_, ?_⟩
  · intro h r hr hopen
    obtain ⟨d, hfails, hisOpen, -⟩ := fails_of_leavesOpen hopen
    exact Bool.false_ne_true ((h r hr d hfails).symm.trans hisOpen)
  · intro h r hr d hfails
    rcases returns_failed hfails with ⟨hopen, -⟩ | ⟨-, hisOpen⟩
    · exact absurd hopen (h r hr)
    · exact hisOpen
  · intro h r hr
    refine ⟨fun hcloses => ?_, fun hopen => ?_⟩
    · obtain ⟨d, hfails, hisOpen⟩ := fails_of_closes hcloses
      exact Bool.false_ne_true (hisOpen.symm.trans (h r hr d hfails).1)
    · obtain ⟨d, hfails, -, hflags⟩ := fails_of_leavesOpen hopen
      exact hflags.symm.trans (h r hr d hfails).2
  · intro h r hr d hfails
    obtain ⟨hcloses, hflags⟩ := h r hr
    rcases returns_failed hfails with ⟨hopen, hisOpen, hleft⟩ | ⟨hclosed, -⟩
    · exact ⟨hisOpen, hleft.trans (hflags hopen)⟩
    · exact absurd hclosed hcloses

/-- A connection that is refused at once, and one that nobody answers for five seconds. -/
theorem refused_and_timedOut :
    let refused : ConnectRun := ⟨⟨none, none, some (.other 111), [], .ok none, none⟩, 3, 5, 2⟩
    let timedOut : ConnectRun := ⟨⟨none, none, some EINPROGRESS, [.ready [] [] []], .ok none, none⟩, 3, 5, 2⟩
    (∃ d, refused.Fails d ∧ d.isOpen = true ∧ d.flags ≠ refused.flags) ∧
      (∃ d, timedOut.Fails d ∧ d.isOpen = false) ∧ ¬ OneCondition Set.univ := by
  intro refused timedOut
  have hopen : refused.LeavesOpen := .inl ⟨⟨rfl, rfl⟩, .other 111, rfl, by decide⟩
  have hcloses : timedOut.Closes :=
    ⟨⟨⟨rfl, rfl⟩, rfl⟩, by decide, .inl ⟨by decide, [], [], [], rfl, List.not_mem_nil, List.not_mem_nil⟩⟩
  obtain ⟨d, hfails, hisOpen, hflags⟩ := fails_of_leavesOpen hopen
  obtain ⟨d', hfails', hisClosed⟩ := fails_of_closes hcloses
  refine ⟨⟨d, hfails, hisOpen, ?_⟩, ⟨d', hfails', hisClosed⟩, ?_⟩
  · rw [hflags]
    decide
  · rintro (hall | hall)
    · exact Bool.false_ne_true ((hall refused trivial d hfails).symm.trans hisOpen)
    · exact Bool.false_ne_true (hisClosed.symm.trans (hall timedOut trivial d' hfails').1)

end NetProg.C
