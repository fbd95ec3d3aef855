import NetProg.Cxx.Wrapunix
import NetProg.Lib.Register
import NetProg.System.Sockaddr

/-!
# Functions that report by `std::error_code`

The overloads of the C++ library that take an error code: `Connect`, `Send`, `Recv`, `SendTo` and `RecvFrom`
of `lib/cxx/wrapsock.cpp`, `Select` of `lib/cxx/wrapunix.cpp`, `Gethostbyname` and `Getaddrinfo` of
`lib/cxx/wrapnetdb.cpp`. Each assigns the code when it fails, and none of them clears it when it does not.
So what an error code that is used for several calls says is whether any of them has failed
(`isError_iff_any_failed`), and the callers in the library take a new one for each call.
-/

namespace NetProg.Cxx
open Lib (run_bind_ok run_bind_error run_get_bind)

/-- `std::system_category()`, `hostent_category()` and `addrinfo_category()`. -/
inductive Category
  | system
  | hostent
  | addrinfo
  deriving DecidableEq, Repr

/-- `std::error_code`. -/
structure ErrorCode where
  value : ℤ
  category : Category
  deriving DecidableEq, Repr

namespace ErrorCode

/-- `std::error_code ec;` -/
def fresh : ErrorCode := ⟨0, .system⟩

/-- `if (ec)`. -/
def IsError (ec : ErrorCode) : Prop := ec.value ≠ 0

instance : DecidablePred IsError := fun ec => inferInstanceAs (Decidable (ec.value ≠ 0))

end ErrorCode

/-- The number that `errno` has. -/
def errnoNumber : Errno → ℤ
  | .EINTR => 4
  | .EBADF => 9
  | .EPROTO => 71
  | .ECONNABORTED => 103
  | .other code => code

/-- `ec.assign(errno, std::system_category())`. -/
def systemError (errno : Errno) : ErrorCode := ⟨errnoNumber errno, .system⟩

/-! ### The functions -/

/-- `Socket::Connect(sock_addr, ec)`, with the `errno` of a `connect` that fails. -/
def connectEc (errno : Option Errno) (ec : ErrorCode) : ErrorCode :=
  match errno with
  | some errno => systemError errno
  | none => ec

/-- What the four functions do that move bytes: the return value of the system call as an `int`, and `ec`. -/
def transferEc (answer : Except Errno ℕ) (ec : ErrorCode) : ℤ × ErrorCode :=
  match answer with
  | .error errno => (-1, systemError errno)
  | .ok n => (toInt n, ec)

/-- `Socket::Send(buf, len, flags, ec)`. -/
def sendEc (answer : Except Errno ℕ) : ErrorCode → ℤ × ErrorCode := transferEc answer

/-- `Socket::Recv(buf, len, flags, ec)`. -/
def recvEc (answer : Except Errno ℕ) : ErrorCode → ℤ × ErrorCode := transferEc answer

/-- `Socket::SendTo(buf, len, flags, dest_addr, ec)`. -/
def sendToEc (answer : Except Errno ℕ) : ErrorCode → ℤ × ErrorCode := transferEc answer

/-- `Socket::RecvFrom(buf, len, flags, src_addr, ec)`. -/
def recvFromEc (answer : Except Errno ℕ) : ErrorCode → ℤ × ErrorCode := transferEc answer

/-- `Select(readfds, writefds, exceptfds, timeout, ec)`, with any error code. -/
def selectCode (fds : FdLists) (timeout : Option Timeval) (ec : ErrorCode) :
    EStateM Stop Selector (FdLists × ErrorCode) := do
  let (ready, errno) ← selectEc fds timeout none
  return (ready, (errno.map systemError).getD ec)

/-- What `gethostbyname` finds. -/
structure Hostent where
  h_addrtype : ℕ
  h_addr_list : List Bytes
  deriving DecidableEq, Repr

/-- `Gethostbyname(name, ec)`, with `h_errno` for a null pointer. Addresses that `inet_ntop` does not print
are left out. -/
def gethostbynameEc (inet_ntop : Bytes → Option Bytes) (answer : Except ℤ Hostent) (ec : ErrorCode) :
    Except Stop (List Bytes × ErrorCode) :=
  match answer with
  | .error h_errno => .ok ([], ⟨h_errno, .hostent⟩)
  | .ok hptr =>
    if hptr.h_addrtype = Sockaddr.AF_INET then .ok (hptr.h_addr_list.filterMap inet_ntop, ec)
    else .error .assertion

/-- `Getaddrinfo(node, service, hints, ec)`, with the return value of `getaddrinfo` and its list. -/
def getaddrinfoEc {α : Type} (n : ℤ) (res : α) (ec : ErrorCode) : Option α × ErrorCode :=
  if n ≠ 0 then (none, ⟨n, .addrinfo⟩) else (some res, ec)

/-! ### Calls with one error code -/

/-- A call, and what the system answers. -/
inductive EcCall
  | connect (errno : Option Errno)
  | send (answer : Except Errno ℕ)
  | recv (answer : Except Errno ℕ)
  | sendTo (answer : Except Errno ℕ)
  | recvFrom (answer : Except Errno ℕ)
  | select (fds : FdLists) (timeout : Option Timeval) (script : List SelectAnswer)
  | gethostbyname (answer : Except ℤ Hostent)
  | getaddrinfo (n : ℤ) (res : List Bytes)

namespace EcCall

/-- The error code after the call, or `none` if the call does not return. -/
def run (inet_ntop : Bytes → Option Bytes) : EcCall → ErrorCode → Option ErrorCode
  | .connect errno, ec => some (connectEc errno ec)
  | .send answer, ec => some (sendEc answer ec).2
  | .recv answer, ec => some (recvEc answer ec).2
  | .sendTo answer, ec => some (sendToEc answer ec).2
  | .recvFrom answer, ec => some (recvFromEc answer ec).2
  | .select fds timeout script, ec =>
    match selectCode fds timeout ec ⟨script, []⟩ with
    | .ok (_, ec') _ => some ec'
    | .error _ _ => none
  | .gethostbyname answer, ec => (gethostbynameEc inet_ntop answer ec).toOption.map Prod.snd
  | .getaddrinfo n res, ec => some (getaddrinfoEc n res ec).2

/-- The call fails. For `Select` a limit of time that has passed is a failure too. -/
def Fails : EcCall → Prop
  | .connect errno => errno ≠ none
  | .send answer | .recv answer | .sendTo answer | .recvFrom answer => ∃ errno, answer = .error errno
  | .select fds _ script =>
    match answerOf script with
    | some (.ready readable writable exceptional) => fds.ready readable writable exceptional = .empty
    | _ => True
  | .gethostbyname answer => ∃ h_errno, answer = .error h_errno
  | .getaddrinfo n _ => n ≠ 0

/-- The system does not give the number zero to an error. -/
def Numbered : EcCall → Prop
  | .connect errno => ∀ e, errno = some e → errnoNumber e ≠ 0
  | .send answer | .recv answer | .sendTo answer | .recvFrom answer =>
    ∀ errno, answer = .error errno → errnoNumber errno ≠ 0
  | .select _ _ script => ∀ errno, .fail errno ∈ script → errnoNumber errno ≠ 0
  | .gethostbyname answer => ∀ h_errno, answer = .error h_errno → h_errno ≠ 0
  | .getaddrinfo _ _ => True

/-- The calls one after the other with the same error code. -/
def runAll (inet_ntop : Bytes → Option Bytes) (calls : List EcCall) (ec : ErrorCode) : Option ErrorCode :=
  calls.foldlM (fun ec c => c.run inet_ntop ec) ec

end EcCall

section

variable {fds : FdLists} {timeout : Option Timeval} {script : List SelectAnswer} {ec : ErrorCode}

theorem selectAgain_of_none (h : answerOf script = none) (turns : ℕ) (call : SelectCall)
    (asked : List SelectCall) : ∃ stop s', selectAgain turns call ⟨script, asked⟩ = .error stop s' := by
  induction script generalizing turns asked with
  | nil =>
    cases turns with
    | zero => exact ⟨_, _, rfl⟩
    | succ turns =>
      rw [selectAgain, run_bind_error (show select call ⟨[], asked⟩ = .error .blocked ⟨[], asked ++ [call]⟩ from rfl)]
      exact ⟨_, _, rfl⟩
  | cons a script ih =>
    cases turns with
    | zero => exact ⟨_, _, rfl⟩
    | succ turns =>
      have hall := List.find?_eq_none.1 h
      obtain rfl : a = .fail .EINTR := by simpa using hall a List.mem_cons_self
      rw [selectAgain_interrupted]
      exact ih (List.find?_eq_none.2 fun b hb => hall b (List.mem_cons_of_mem _ hb)) turns _

theorem selectEc_ok {result : FdLists × Option Errno} {errno : Option Errno} {s' : Selector}
    (h : selectEc fds timeout errno ⟨script, []⟩ = .ok result s') :
    ∃ a, answerOf script = some a ∧ result = fds.selection timeout errno a := by
  by_cases hbits : ∀ fd ∈ fds.all, HasBit fd
  · obtain ⟨rset, hread, -⟩ := fillFdSet_ok (s := ⟨script, []⟩) fun fd hfd =>
      hbits fd (FdLists.mem_all.2 (.inl hfd))
    obtain ⟨wset, hwrite, -⟩ := fillFdSet_ok (s := ⟨script, []⟩) fun fd hfd =>
      hbits fd (FdLists.mem_all.2 (.inr (.inl hfd)))
    obtain ⟨eset, hexcept, -⟩ := fillFdSet_ok (s := ⟨script, []⟩) fun fd hfd =>
      hbits fd (FdLists.mem_all.2 (.inr (.inr hfd)))
    by_cases hne : fds.all = []
    · have hmax : maxFd fds ⟨script, []⟩ = .error .assertion ⟨script, []⟩ := by
        rw [maxFd, hne]
        rfl
      rw [selectEc, run_bind_ok hread, run_bind_ok hwrite, run_bind_ok hexcept, run_bind_error hmax] at h
      cases h
    · cases hanswer : answerOf script with
      | some a =>
        obtain ⟨s'', hrun, -⟩ := selectEc_of_hasBit hbits hne timeout errno hanswer
        rw [h] at hrun
        cases hrun
        exact ⟨a, rfl, rfl⟩
      | none =>
        obtain ⟨maxfd, hmax, -⟩ := maxFd_ok (s := ⟨script, []⟩) hne
        obtain ⟨stop, s'', hwaits⟩ := selectAgain_of_none hanswer (script.length + 1)
          ⟨maxfd + 1, ⟨rset, wset, eset⟩, timeout⟩ []
        rw [selectEc, run_bind_ok hread, run_bind_ok hwrite, run_bind_ok hexcept, run_bind_ok hmax, run_get_bind,
          run_bind_error hwaits] at h
        cases h
  · push Not at hbits
    obtain ⟨fd, -, hfault⟩ := selectEc_fault hbits timeout errno ⟨script, []⟩
    rw [h] at hfault
    cases hfault

end

namespace EcCall

variable {inet_ntop : Bytes → Option Bytes} {c : EcCall} {calls : List EcCall} {ec ec' : ErrorCode}

/-- The error that a call assigns. -/
def error : EcCall → Option ErrorCode
  | .connect errno => errno.map systemError
  | .send answer | .recv answer | .sendTo answer | .recvFrom answer =>
    match answer with
    | .error errno => some (systemError errno)
    | .ok _ => none
  | .select fds timeout script =>
    (answerOf script).bind fun a => (fds.selection timeout none a).2.map systemError
  | .gethostbyname answer =>
    match answer with
    | .error h_errno => some ⟨h_errno, .hostent⟩
    | .ok _ => none
  | .getaddrinfo n _ => if n ≠ 0 then some ⟨n, .addrinfo⟩ else none

theorem run_select {fds : FdLists} {timeout : Option Timeval} {script : List SelectAnswer}
    (h : (select fds timeout script).run inet_ntop ec = some ec') :
    ec' = (select fds timeout script).error.getD ec ∧
      ((select fds timeout script).Fails ↔ (select fds timeout script).error ≠ none) := by
  rw [run] at h
  cases hrun : selectCode fds timeout ec ⟨script, []⟩ with
  | ok r s' =>
    rw [hrun] at h
    obtain ⟨result, s'', hselect, hreturn⟩ := Lib.bind_eq_ok_iff.1 hrun
    obtain ⟨a, hanswer, rfl⟩ := selectEc_ok hselect
    cases hreturn
    cases h
    rw [error, Fails, hanswer]
    refine ⟨rfl, ?_⟩
    cases a with
    | fail errno => simp [FdLists.selection]
    | ready readable writable exceptional =>
      simp only [FdLists.selection, Option.bind_some]
      split_ifs with hnone <;> simp [hnone]
  | error stop s' =>
    rw [hrun] at h
    cases h

theorem run_eq (h : c.run inet_ntop ec = some ec') : ec' = c.error.getD ec ∧ (c.Fails ↔ c.error ≠ none) := by
  cases c with
  | connect errno =>
    cases h
    cases errno <;> exact ⟨rfl, by simp [Fails, error]⟩
  | send answer | recv answer | sendTo answer | recvFrom answer =>
    cases h
    cases answer <;> exact ⟨rfl, by simp [Fails, error]⟩
  | select fds timeout script => exact run_select h
  | gethostbyname answer =>
    cases answer with
    | error h_errno =>
      cases h
      exact ⟨rfl, by simp [Fails, error]⟩
    | ok hptr =>
      simp only [run, gethostbynameEc] at h
      split at h
      · cases h
        exact ⟨rfl, by simp [Fails, error]⟩
      · cases h
  | getaddrinfo n res =>
    rw [run, getaddrinfoEc] at h
    split at h
    · rename_i hn
      cases h
      exact ⟨by simp [error, hn], by simp [Fails, error, hn]⟩
    · rename_i hn
      cases h
      exact ⟨by simp [error, hn], by simp [Fails, error, hn]⟩

theorem isError_of_numbered (h : c.Numbered) {e : ErrorCode} (he : c.error = some e) : e.IsError := by
  cases c with
  | connect errno =>
    obtain ⟨errno, rfl, rfl⟩ := Option.map_eq_some_iff.1 he
    exact h errno rfl
  | send answer | recv answer | sendTo answer | recvFrom answer =>
    cases answer with
    | error errno =>
      cases he
      exact h errno rfl
    | ok n => cases he
  | select fds timeout script =>
    obtain ⟨a, hanswer, hselection⟩ := Option.bind_eq_some_iff.1 he
    obtain ⟨errno, herrno, rfl⟩ := Option.map_eq_some_iff.1 hselection
    cases a with
    | fail errno' =>
      cases herrno
      exact h errno (List.mem_of_find?_eq_some hanswer)
    | ready readable writable exceptional =>
      simp only [FdLists.selection] at herrno
      split_ifs at herrno <;> cases herrno <;> decide
  | gethostbyname answer =>
    cases answer with
    | error h_errno =>
      cases he
      exact h h_errno rfl
    | ok hptr => cases he
  | getaddrinfo n res =>
    simp only [error] at he
    split_ifs at he with hn
    cases he
    exact hn

theorem runAll_cons : runAll inet_ntop (c :: calls) ec = (c.run inet_ntop ec).bind (runAll inet_ntop calls) :=
  List.foldlM_cons

/-- After any calls with one error code that have all returned: it is an error exactly if it was one at
first or any of them has failed, and it is the error of the last call that has failed, if there is one. -/
theorem isError_iff_any_failed (hnumbered : ∀ c ∈ calls, c.Numbered)
    (h : runAll inet_ntop calls ec = some ec') :
    (ec'.IsError ↔ ec.IsError ∨ ∃ c ∈ calls, c.Fails) ∧ ec' = (Lib.lastSet error calls).getD ec := by
  induction calls generalizing ec with
  | nil =>
    cases h
    exact ⟨by simp, rfl⟩
  | cons c calls ih =>
    rw [runAll_cons] at h
    obtain ⟨ec₁, hcall, hrest⟩ := Option.bind_eq_some_iff.1 h
    obtain ⟨hc, hcalls⟩ := List.forall_mem_cons.1 hnumbered
    obtain ⟨hec₁, hfails⟩ := run_eq hcall
    obtain ⟨hiff, hlast⟩ := ih hcalls hrest
    refine ⟨?_, by rw [Lib.lastSet_cons, ← hec₁, hlast]⟩
    rw [hiff, List.exists_mem_cons_iff, hfails, hec₁, ← or_assoc]
    refine or_congr_left ?_
    cases herror : c.error with
    | none => simp
    | some e => simp [isError_of_numbered hc herror]

/-- A `Connect` that is refused, and one that succeeds and leaves the error of the first. -/
theorem isError_after_success :
    let refused := EcCall.connect (some (.other 111))
    let connected := EcCall.connect none
    runAll (fun _ => none) [refused, connected] .fresh = some ⟨111, .system⟩ ∧
      ErrorCode.IsError ⟨111, .system⟩ ∧ ¬ connected.Fails :=
  ⟨rfl, by decide, fun hfails => hfails rfl⟩

theorem isError_iff_any_failed_connect :
    (∀ c ∈ [EcCall.connect (some (.other 111)), .connect none], c.Numbered) ∧
    runAll (fun _ => none) [EcCall.connect (some (.other 111)), .connect none] .fresh = some ⟨111, .system⟩ ∧
    (ErrorCode.IsError ⟨111, .system⟩ ↔ ErrorCode.fresh.IsError ∨
        ∃ c ∈ [EcCall.connect (some (.other 111)), .connect none], c.Fails) ∧
    ⟨111, .system⟩ = (Lib.lastSet error [EcCall.connect (some (.other 111)), .connect none]).getD .fresh := by
  have hnumbered : ∀ c ∈ [EcCall.connect (some (.other 111)), .connect none], c.Numbered := by
    refine List.forall_mem_cons.2 ⟨?_, List.forall_mem_singleton.2 ?_⟩
    · rintro e ⟨⟩
      decide
    · rintro e ⟨⟩
  have hrun : runAll (fun _ => none) [EcCall.connect (some (.other 111)), .connect none] .fresh =
      some ⟨111, .system⟩ := rfl
  exact ⟨hnumbered, hrun, isError_iff_any_failed hnumbered hrun⟩

end EcCall

end NetProg.Cxx
