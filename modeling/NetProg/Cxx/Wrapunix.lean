import NetProg.System.Select

/-!
# `Select` of the C++ library

`Select` of `lib/cxx/wrapunix.cpp` takes three lists of descriptors, fills a set with each, asks the kernel
until it is not interrupted, and returns the descriptors of each list whose bits are still set.

The sets hold what the lists do (`fillFdSet_ok`), and what is read back from them are the descriptors of
each list that are ready, in their order and as often as they are listed (`selectEc_of_hasBit`). Nothing in
the code looks whether a descriptor has a bit. A list with one that has none writes beside the set, where
the caller should be told of an error (`selectsExactly_iff`).
-/

namespace NetProg.Cxx
open Lib (run_bind_ok run_bind_error run_get_bind)

/-- The arguments of a call, and what it returns. -/
structure FdLists where
  readfds : List ℤ
  writefds : List ℤ
  exceptfds : List ℤ
  deriving DecidableEq, Repr

namespace FdLists

/-- Three lists without a descriptor. -/
def empty : FdLists := ⟨[], [], []⟩

/-- The descriptors of the three lists. -/
def all (fds : FdLists) : List ℤ := fds.readfds ++ fds.writefds ++ fds.exceptfds

end FdLists

/-- `MaxFd(readfds, writefds, exceptfds)`. -/
def maxFd (fds : FdLists) : EStateM Stop Selector ℤ :=
  match fds.all with
  | [] => throw .assertion
  | fd :: total => return total.foldl max fd

/-- `FillFdSet(&fdset, fdlist)`. -/
def fillFdSet (fdlist : List ℤ) : EStateM Stop Selector FdSet :=
  fdlist.foldlM (fun fdset fd => FD_SET fd fdset) FD_ZERO

/-- A turn of the loop of `TestFdSet`. -/
def testFd (fdset : FdSet) (reslist : List ℤ) (fd : ℤ) : EStateM Stop Selector (List ℤ) := do
  if ← FD_ISSET fd fdset then return reslist ++ [fd] else return reslist

/-- `TestFdSet(&fdset, fdlist)`. -/
def testFdSet (fdset : FdSet) (fdlist : List ℤ) : EStateM Stop Selector (List ℤ) :=
  fdlist.foldlM (testFd fdset) []

/-- The code of `Select` behind its loop, with the result of `select`: the lists and `ec`, which stays as it
is if the call succeeds. -/
def selected (fds : FdLists) (timeout : Option Timeval) (ec : Option Errno) :
    ℤ × Option Errno × FdSets → EStateM Stop Selector (FdLists × Option Errno)
  | (n, errno, sets) => do
    if n < 0 then return (.empty, errno)
    else if n = 0 then return (.empty, some (if timeout = none then .ECONNABORTED else ETIMEDOUT))
    else do
      let readfds ← testFdSet sets.rset fds.readfds
      let writefds ← testFdSet sets.wset fds.writefds
      let exceptfds ← testFdSet sets.eset fds.exceptfds
      return (⟨readfds, writefds, exceptfds⟩, ec)

/-- `Select(readfds, writefds, exceptfds, timeout, ec)`. -/
def selectEc (fds : FdLists) (timeout : Option Timeval) (ec : Option Errno) :
    EStateM Stop Selector (FdLists × Option Errno) := do
  let rset ← fillFdSet fds.readfds
  let wset ← fillFdSet fds.writefds
  let eset ← fillFdSet fds.exceptfds
  let maxfd ← maxFd fds
  let s ← get
  let answer ← selectAgain (s.script.length + 1) ⟨maxfd + 1, ⟨rset, wset, eset⟩, timeout⟩
  selected fds timeout ec answer

section

variable {fds : FdLists} {fdlist : List ℤ} {fdset : FdSet} {fd : ℤ} {s : Selector}

/-! ### Lists in sets -/

theorem foldlM_FD_SET_ok (h : ∀ fd ∈ fdlist, HasBit fd) (fdset : FdSet) :
    ∃ filled, fdlist.foldlM (fun fdset fd => FD_SET fd fdset) fdset s = .ok filled s ∧
      ∀ fd, filled.Holds fd ↔ fd ∈ fdlist ∨ fdset.Holds fd := by
  induction fdlist generalizing fdset with
  | nil => exact ⟨fdset, rfl, fun fd => by simp⟩
  | cons fd fdlist ih =>
    have hfd := h fd List.mem_cons_self
    obtain ⟨filled, hrun, hholds⟩ :=
      ih (fun fd' hfd' => h fd' (List.mem_cons_of_mem fd hfd')) (insert hfd.bit fdset)
    refine ⟨filled, ?_, fun fd' => ?_⟩
    · rw [List.foldlM_cons, run_bind_ok (FD_SET_of_hasBit hfd), hrun]
    · rw [hholds, holds_insert hfd, List.mem_cons, or_left_comm, or_assoc]

theorem fillFdSet_ok (h : ∀ fd ∈ fdlist, HasBit fd) :
    ∃ filled, fillFdSet fdlist s = .ok filled s ∧ ∀ fd, filled.Holds fd ↔ fd ∈ fdlist := by
  obtain ⟨filled, hrun, hholds⟩ := foldlM_FD_SET_ok (s := s) h FD_ZERO
  exact ⟨filled, hrun, fun fd => (hholds fd).trans (or_iff_left holds_empty)⟩

theorem foldlM_FD_SET_fault (h : ∃ fd ∈ fdlist, ¬ HasBit fd) (fdset : FdSet) :
    ∃ fd ∈ fdlist, fdlist.foldlM (fun fdset fd => FD_SET fd fdset) fdset s =
      .error (.outOfBounds fd.toNat FD_SETSIZE) s := by
  induction fdlist generalizing fdset with
  | nil =>
    obtain ⟨fd, hmem, -⟩ := h
    exact absurd hmem List.not_mem_nil
  | cons fd fdlist ih =>
    by_cases hfd : HasBit fd
    · obtain ⟨fd', hmem, hbit⟩ := h
      have hrest : fd' ∈ fdlist := (List.mem_cons.1 hmem).resolve_left fun heq => hbit (heq ▸ hfd)
      obtain ⟨fd'', hmem', hrun⟩ := ih ⟨fd', hrest, hbit⟩ (insert hfd.bit fdset)
      refine ⟨fd'', List.mem_cons_of_mem fd hmem', ?_⟩
      rw [List.foldlM_cons, run_bind_ok (FD_SET_of_hasBit hfd), hrun]
    · refine ⟨fd, List.mem_cons_self, ?_⟩
      rw [List.foldlM_cons, run_bind_error (FD_SET_of_not_hasBit hfd)]

theorem foldlM_testFd_ok (h : ∀ fd ∈ fdlist, HasBit fd) (fdset : FdSet) (reslist : List ℤ) :
    fdlist.foldlM (testFd fdset) reslist s = .ok (reslist ++ fdlist.filter (fdset.Holds ·)) s := by
  induction fdlist generalizing reslist with
  | nil =>
    rw [List.filter_nil, List.append_nil]
    rfl
  | cons fd fdlist ih =>
    have hrest := ih fun fd' hfd' => h fd' (List.mem_cons_of_mem fd hfd')
    have hbit : FD_ISSET fd fdset s = .ok (decide (fdset.Holds fd)) s :=
      FD_ISSET_of_hasBit (h fd List.mem_cons_self)
    by_cases hset : fdset.Holds fd
    · have hturn : testFd fdset reslist fd s = .ok (reslist ++ [fd]) s := by
        rw [testFd, run_bind_ok hbit, if_pos (decide_eq_true hset)]
        rfl
      rw [List.foldlM_cons, run_bind_ok hturn, hrest, List.filter_cons, if_pos (decide_eq_true hset),
        List.append_assoc, List.singleton_append]
    · have hturn : testFd fdset reslist fd s = .ok reslist s := by
        rw [testFd, run_bind_ok hbit, decide_eq_false hset]
        rfl
      rw [List.foldlM_cons, run_bind_ok hturn, hrest, List.filter_cons, if_neg (by simpa using hset)]

theorem testFdSet_ok (h : ∀ fd ∈ fdlist, HasBit fd) (fdset : FdSet) :
    testFdSet fdset fdlist s = .ok (fdlist.filter (fdset.Holds ·)) s :=
  foldlM_testFd_ok h fdset []

theorem maxFd_ok (h : fds.all ≠ []) : ∃ maxfd, maxFd fds s = .ok maxfd s ∧ ∀ fd ∈ fds.all, fd ≤ maxfd := by
  have hfold : ∀ (total : List ℤ) (m : ℤ), m ≤ total.foldl max m ∧ ∀ fd ∈ total, fd ≤ total.foldl max m := by
    intro total
    induction total with
    | nil => exact fun m => ⟨le_rfl, List.forall_mem_nil _⟩
    | cons fd total ih =>
      intro m
      obtain ⟨hstart, hrest⟩ := ih (max m fd)
      rw [List.foldl_cons]
      exact ⟨(le_max_left m fd).trans hstart,
        List.forall_mem_cons.2 ⟨(le_max_right m fd).trans hstart, hrest⟩⟩
  unfold maxFd
  cases hall : fds.all with
  | nil => exact absurd hall h
  | cons fd total => exact ⟨_, rfl, List.forall_mem_cons.2 (hfold total fd)⟩

/-! ### What a call returns -/

namespace FdLists

/-- The descriptors that are ready, in the order and multiplicity of the lists. -/
def ready (fds : FdLists) (readable writable exceptional : List ℤ) : FdLists :=
  ⟨fds.readfds.filter (· ∈ readable), fds.writefds.filter (· ∈ writable),
    fds.exceptfds.filter (· ∈ exceptional)⟩

/-- What a call is to return for an answer of the kernel: the descriptors that are ready, or no descriptor and
the reason. -/
def selection (fds : FdLists) (timeout : Option Timeval) (ec : Option Errno) :
    SelectAnswer → FdLists × Option Errno
  | .fail errno => (.empty, some errno)
  | .ready readable writable exceptional =>
    if fds.ready readable writable exceptional = .empty then
      (.empty, some (if timeout = none then .ECONNABORTED else ETIMEDOUT))
    else (fds.ready readable writable exceptional, ec)

/-- The kernel is asked about what the lists hold. -/
structure Asks (fds : FdLists) (call : SelectCall) : Prop where
  nfds_gt : ∀ fd ∈ fds.all, fd < call.nfds
  rset : Encodes call.sets.rset fds.readfds
  wset : Encodes call.sets.wset fds.writefds
  eset : Encodes call.sets.eset fds.exceptfds

theorem mem_all : fd ∈ fds.all ↔ fd ∈ fds.readfds ∨ fd ∈ fds.writefds ∨ fd ∈ fds.exceptfds := by
  rw [all, List.mem_append, List.mem_append, or_assoc]

end FdLists

variable {timeout : Option Timeval} {ec : Option Errno} {call : SelectCall}
  {readable writable exceptional : List ℤ}

theorem ready_keep (h : fds.Asks call) :
    (⟨fds.readfds.filter ((call.keep readable writable exceptional).rset.Holds ·),
      fds.writefds.filter ((call.keep readable writable exceptional).wset.Holds ·),
      fds.exceptfds.filter ((call.keep readable writable exceptional).eset.Holds ·)⟩ : FdLists) =
      fds.ready readable writable exceptional := by
  obtain ⟨hlt, hrset, hwset, heset⟩ := h
  rw [SelectCall.keep, filter_keep hrset fun fd hfd => hlt fd (FdLists.mem_all.2 (.inl hfd)),
    filter_keep hwset fun fd hfd => hlt fd (FdLists.mem_all.2 (.inr (.inl hfd))),
    filter_keep heset fun fd hfd => hlt fd (FdLists.mem_all.2 (.inr (.inr hfd))), FdLists.ready]

theorem count_keep_eq_zero (h : fds.Asks call) :
    (call.keep readable writable exceptional).count = 0 ↔
      fds.ready readable writable exceptional = .empty := by
  obtain ⟨hlt, hrset, hwset, heset⟩ := h
  rw [FdSets.count, SelectCall.keep, Nat.add_eq_zero_iff, Nat.add_eq_zero_iff,
    card_keep_eq_zero hrset fun fd hfd => hlt fd (FdLists.mem_all.2 (.inl hfd)),
    card_keep_eq_zero hwset fun fd hfd => hlt fd (FdLists.mem_all.2 (.inr (.inl hfd))),
    card_keep_eq_zero heset fun fd hfd => hlt fd (FdLists.mem_all.2 (.inr (.inr hfd))),
    FdLists.ready, FdLists.empty, FdLists.mk.injEq, and_assoc]

theorem selected_result (hbits : ∀ fd ∈ fds.all, HasBit fd) (hasks : fds.Asks call) (timeout : Option Timeval)
    (ec : Option Errno) (a : SelectAnswer) (s : Selector) :
    selected fds timeout ec (call.result a) s = .ok (fds.selection timeout ec a) s := by
  cases a with
  | fail errno => rfl
  | ready readable writable exceptional =>
    have hread := testFdSet_ok (s := s) (fun fd hfd => hbits fd (FdLists.mem_all.2 (.inl hfd)))
      (call.keep readable writable exceptional).rset
    have hwrite := testFdSet_ok (s := s) (fun fd hfd => hbits fd (FdLists.mem_all.2 (.inr (.inl hfd))))
      (call.keep readable writable exceptional).wset
    have hexcept := testFdSet_ok (s := s) (fun fd hfd => hbits fd (FdLists.mem_all.2 (.inr (.inr hfd))))
      (call.keep readable writable exceptional).eset
    have hcount : ((call.keep readable writable exceptional).count : ℤ) = 0 ↔
        fds.ready readable writable exceptional = .empty :=
      Int.natCast_eq_zero.trans (count_keep_eq_zero hasks)
    rw [SelectCall.result, selected, if_neg (Int.not_lt.2 (Int.natCast_nonneg _)), FdLists.selection]
    by_cases hnone : fds.ready readable writable exceptional = .empty
    · rw [if_pos (hcount.2 hnone), if_pos hnone]
      rfl
    · rw [if_neg fun hzero => hnone (hcount.1 hzero), if_neg hnone, run_bind_ok hread, run_bind_ok hwrite,
        run_bind_ok hexcept, ← ready_keep hasks]
      rfl

/-- With a bit for every descriptor a call asks about the lists, and returns what it is to return for the
first answer that is no interruption. -/
theorem selectEc_of_hasBit (hbits : ∀ fd ∈ fds.all, HasBit fd) (hne : fds.all ≠ []) (timeout : Option Timeval)
    (ec : Option Errno) {script : List SelectAnswer} {a : SelectAnswer} (hanswer : answerOf script = some a) :
    ∃ s', selectEc fds timeout ec ⟨script, []⟩ = .ok (fds.selection timeout ec a) s' ∧
      ∀ call ∈ s'.asked, fds.Asks call := by
  have hread : ∀ fd ∈ fds.readfds, HasBit fd := fun fd hfd => hbits fd (FdLists.mem_all.2 (.inl hfd))
  have hwrite : ∀ fd ∈ fds.writefds, HasBit fd := fun fd hfd => hbits fd (FdLists.mem_all.2 (.inr (.inl hfd)))
  have hexcept : ∀ fd ∈ fds.exceptfds, HasBit fd :=
    fun fd hfd => hbits fd (FdLists.mem_all.2 (.inr (.inr hfd)))
  obtain ⟨rset, hrun, hrset⟩ := fillFdSet_ok (s := ⟨script, []⟩) hread
  obtain ⟨wset, hrun', hwset⟩ := fillFdSet_ok (s := ⟨script, []⟩) hwrite
  obtain ⟨eset, hrun'', heset⟩ := fillFdSet_ok (s := ⟨script, []⟩) hexcept
  obtain ⟨maxfd, hmax, hle⟩ := maxFd_ok (s := ⟨script, []⟩) hne
  have hasks : fds.Asks ⟨maxfd + 1, ⟨rset, wset, eset⟩, timeout⟩ :=
    ⟨fun fd hfd => Int.lt_add_one_of_le (hle fd hfd), hrset, hwset, heset⟩
  obtain ⟨s', hselect, hcalls⟩ :=
    @selectAgain_of_answer ⟨maxfd + 1, ⟨rset, wset, eset⟩, timeout⟩ _ a script [] hanswer (Nat.lt_succ_self _)
  refine ⟨s', ?_, fun call hcall => ?_⟩
  · rw [selectEc, run_bind_ok hrun, run_bind_ok hrun', run_bind_ok hrun'', run_bind_ok hmax, run_get_bind,
      run_bind_ok hselect]
    exact selected_result hbits hasks timeout ec a s'
  · rcases hcalls call hcall with hold | rfl
    · exact absurd hold List.not_mem_nil
    · exact hasks

theorem fillFdSet_fault (h : ∃ fd ∈ fdlist, ¬ HasBit fd) :
    ∃ fd ∈ fdlist, fillFdSet fdlist s = .error (.outOfBounds fd.toNat FD_SETSIZE) s :=
  foldlM_FD_SET_fault h FD_ZERO

/-- With a descriptor that has no bit a call writes beside one of its sets, before it asks the kernel. -/
theorem selectEc_fault (h : ∃ fd ∈ fds.all, ¬ HasBit fd) (timeout : Option Timeval) (ec : Option Errno)
    (s : Selector) :
    ∃ fd ∈ fds.all, selectEc fds timeout ec s = .error (.outOfBounds fd.toNat FD_SETSIZE) s := by
  obtain ⟨fd, hmem, hbit⟩ := h
  rw [selectEc]
  by_cases hread : ∀ fd ∈ fds.readfds, HasBit fd
  · obtain ⟨rset, hrun, -⟩ := fillFdSet_ok (s := s) hread
    rw [run_bind_ok hrun]
    by_cases hwrite : ∀ fd ∈ fds.writefds, HasBit fd
    · obtain ⟨wset, hrun', -⟩ := fillFdSet_ok (s := s) hwrite
      rw [run_bind_ok hrun']
      have hexcept : fd ∈ fds.exceptfds := by
        rcases FdLists.mem_all.1 hmem with hfd | hfd | hfd
        · exact absurd (hread fd hfd) hbit
        · exact absurd (hwrite fd hfd) hbit
        · exact hfd
      obtain ⟨fd', hfd', hfault⟩ := fillFdSet_fault (s := s) ⟨fd, hexcept, hbit⟩
      exact ⟨fd', FdLists.mem_all.2 (.inr (.inr hfd')), run_bind_error hfault⟩
    · push Not at hwrite
      obtain ⟨fd', hfd', hfault⟩ := fillFdSet_fault (s := s) hwrite
      exact ⟨fd', FdLists.mem_all.2 (.inr (.inl hfd')), run_bind_error hfault⟩
  · push Not at hread
    obtain ⟨fd', hfd', hfault⟩ := fillFdSet_fault (s := s) hread
    exact ⟨fd', FdLists.mem_all.2 (.inl hfd'), run_bind_error hfault⟩

/-! ### Safe and exact -/

/-- Whenever the kernel has answered, a call returns. If every descriptor has a bit the kernel was asked about
the lists and they are returned as they are to be, and otherwise an error is reported. -/
def SelectsExactly (fds : FdLists) : Prop :=
  ∀ (timeout : Option Timeval) (ec : Option Errno) (script : List SelectAnswer) (a : SelectAnswer),
    answerOf script = some a → ∃ result s', selectEc fds timeout ec ⟨script, []⟩ = .ok result s' ∧
      ((∀ fd ∈ fds.all, HasBit fd) → result = fds.selection timeout ec a ∧ ∀ call ∈ s'.asked, fds.Asks call) ∧
      ((∃ fd ∈ fds.all, ¬ HasBit fd) → result.2 ≠ none)

/-- `Select` does so for the lists whose descriptors are all below `FD_SETSIZE`, and for no others. -/
theorem selectsExactly_iff (fds : FdLists) (hne : fds.all ≠ []) (hpos : ∀ fd ∈ fds.all, 0 ≤ fd) :
    SelectsExactly fds ↔ ∀ fd ∈ fds.all, fd < FD_SETSIZE := by
  constructor
  · intro h fd hmem
    by_contra hle
    have hbit : ¬ HasBit fd := fun hbit => hle ((hasBit_iff (hpos fd hmem)).1 hbit)
    obtain ⟨result, s', hrun, -⟩ := h none none [.fail .EBADF] (.fail .EBADF) rfl
    obtain ⟨fd', -, hfault⟩ := selectEc_fault ⟨fd, hmem, hbit⟩ none none ⟨[.fail .EBADF], []⟩
    rw [hfault] at hrun
    cases hrun
  · intro hlt timeout ec script a hanswer
    have hbits : ∀ fd ∈ fds.all, HasBit fd := fun fd hmem => (hasBit_iff (hpos fd hmem)).2 (hlt fd hmem)
    obtain ⟨s', hrun, hcalls⟩ := selectEc_of_hasBit hbits hne timeout ec hanswer
    refine ⟨_, s', hrun, fun _ => ⟨rfl, hcalls⟩, ?_⟩
    rintro ⟨fd, hmem, hbit⟩
    exact absurd (hbits fd hmem) hbit

theorem selectsExactly_three : SelectsExactly ⟨[3], [5, 3, 5], []⟩ :=
  (selectsExactly_iff ⟨[3], [5, 3, 5], []⟩ (List.cons_ne_nil _ _) (by decide)).2 (by decide)

/-- The first descriptor without a bit: a program that has 1024 files open gets it for its next one. -/
theorem descriptor_beside_set :
    (∀ s, selectEc ⟨[1024], [], []⟩ none none s = .error (.outOfBounds 1024 1024) s) ∧
      ¬ SelectsExactly ⟨[1024], [], []⟩ := by
  refine ⟨fun s => rfl, fun h => ?_⟩
  obtain ⟨result, s', hrun, -⟩ := h none none [.fail .EBADF] (.fail .EBADF) rfl
  cases hrun

end

end NetProg.Cxx
