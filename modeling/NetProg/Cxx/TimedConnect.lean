import NetProg.Cxx.SocketAddress
import NetProg.Cxx.Wrapunix
import NetProg.Lib.Guard
import NetProg.System.Descriptor

/-!
# Connecting with a limit of time, in the C++ library

`Socket::Connect(sock_addr, timeout_sec)` of `lib/cxx/wrapsock.cpp`. A `ScopedFcntl` takes the descriptor
out of its waiting mode and sets the old flags again when the function is left, by whatever exit
(`ScopedFcntl` is a guard of `Lib.Guard`).

What the function reports is the error of the step that has failed (`ConnectAnswers.verdict`), and the
socket and its descriptor are afterwards what they were. There are two exceptions (`connectTimed_iff`).
`Select` writes beside its sets for a descriptor without a bit, and an error that is thrown with the name of
the address cannot be thrown when the path of the address has no end.
-/

namespace NetProg.Cxx
open Lib Sockaddr

/-- Why a call did not return: an exception, or no exception at all. -/
inductive ConnectStop
  | threw (exception : Exception)
  | runtimeError (what : Bytes)
  | stopped (stop : Stop)
  deriving DecidableEq

instance : DecidablePred Util.Failure.Thrown := fun failure => by
  cases failure <;> unfold Util.Failure.Thrown <;> infer_instance

/-- The function is left by an exception. -/
def ConnectStop.Unwinds : ConnectStop → Prop
  | .threw (.systemError _ _) => True
  | .threw (.format failure) => failure.Thrown
  | .threw .undefined => False
  | .runtimeError _ => True
  | .stopped _ => False

instance : DecidablePred ConnectStop.Unwinds := fun stop => by
  unfold ConnectStop.Unwinds
  split <;> infer_instance

/-- The member `sockfd`, the descriptor that it owns, and what was printed to `std::cerr`. -/
structure TimedSocket where
  sockfd : ℤ
  descriptor : Descriptor
  cerr : Bytes
  deriving DecidableEq

/-- A member of `Socket` that can throw, print to `cerr` and change the descriptor. -/
abbrev Connecting := EStateM ConnectStop TimedSocket

/-- The output, as a part of the state. -/
def TimedSocket.cerrLens : Lens TimedSocket Bytes where
  get := TimedSocket.cerr
  put cerr s := { s with cerr }
  get_put _ _ := rfl
  put_put _ _ _ := rfl

/-- The descriptor, as a part of the state. -/
def TimedSocket.descriptorLens : Lens TimedSocket Descriptor where
  get := TimedSocket.descriptor
  put descriptor s := { s with descriptor }
  get_put _ _ := rfl
  put_put _ _ _ := rfl

section

variable {α : Type}

/-- What a member prints. -/
def printing (x : Printing α) : Connecting α := EStateM.adaptExcept .threw (TimedSocket.cerrLens.lift x)

/-- What a member does to the descriptor. -/
def onDescriptor (x : EStateM Stop Descriptor α) : Connecting α :=
  EStateM.adaptExcept .stopped (TimedSocket.descriptorLens.lift x)

end

def F_GETFL : ℕ := 3
def F_SETFL : ℕ := 4
def SOL_SOCKET : ℕ := 1
def SO_ERROR : ℕ := 4

def fcntlFormat : Bytes := ascii "Fcntl(\x7b\x7d, \x7b\x7d) error"
def getsockoptFormat : Bytes := ascii "Getsockopt(\x7b\x7d, \x7b\x7d) error"

/-- `Fcntl(fd, cmd, args...)`. -/
def fcntl (fd : ℤ) (cmd : ℕ) (call : EStateM Stop Descriptor (Except Errno ℕ)) : Connecting ℕ := do
  match ← onDescriptor call with
  | .ok n => return n
  | .error errno => printing (throwSystemError errno fcntlFormat (twoArgs (intText fd) (decimalText cmd)))

namespace ScopedFcntl

/-- `ScopedFcntl(fd, flags)`, which keeps the old flags. -/
def make (k : ConnectAnswers) (fd : ℤ) (flags : ℕ) : Connecting ℕ := do
  let save_flags ← fcntl fd F_GETFL (Descriptor.getfl k.getfl)
  let _ ← fcntl fd F_SETFL (Descriptor.setfl (save_flags ||| flags) k.setfl)
  return save_flags

/-- `~ScopedFcntl()`. -/
def destroy (k : ConnectAnswers) (save_flags : ℕ) : TimedSocket → TimedSocket :=
  after (onDescriptor (Descriptor.setfl save_flags k.restore))

end ScopedFcntl

namespace Socket

/-- `Getsockopt(SOL_SOCKET, SO_ERROR, &error)`, and `error`. -/
def getsockopt (k : ConnectAnswers) : Connecting (Option Errno) :=
  match k.getsockopt with
  | .ok error => return error
  | .error errno =>
    printing
      (throwSystemError errno getsockoptFormat (twoArgs (decimalText SOL_SOCKET) (decimalText SO_ERROR)))

/-- `ThrowSystemErrorWithCode(ec, "connect('{}') error", sock_addr.ToString())`. -/
def throwConnect (e : Endian) (ntop : InetNtop) (sock_addr : SocketAddress) (ec : Errno) : Connecting Unit :=
  printing do
    let text ← sock_addr.toString e ntop
    throwSystemError ec connectFormat (oneArg text)

/-- The code behind `Select`, with the descriptors that are ready and `ec`. -/
def connectSelected (e : Endian) (ntop : InetNtop) (k : ConnectAnswers) (sock_addr : SocketAddress) :
    FdLists × Option Errno → Connecting Unit
  | (_, some ec) => throwConnect e ntop sock_addr ec
  | (fds, none) =>
    if fds.readfds ≠ [] ∨ fds.writefds ≠ [] then do
      match ← getsockopt k with
      | some error => throwConnect e ntop sock_addr error
      | none => return ()
    else throw (.runtimeError (ascii "select error: sockfd not set"))

/-- The body of `Connect(sock_addr, timeout_sec)` under its guard, with the `timeval` that is made of the
seconds. -/
def connectGuarded (e : Endian) (ntop : InetNtop) (k : ConnectAnswers) (sock_addr : SocketAddress)
    (timeout : Timeval) : Connecting Unit :=
  match k.connect with
  | none => return ()
  | some errno =>
    if errno ≠ EINPROGRESS then throwConnect e ntop sock_addr errno
    else do
      let s ← get
      let selected ← onDescriptor
        (Descriptor.selecting (selectEc ⟨[s.sockfd], [s.sockfd], []⟩ (some timeout) none))
      connectSelected e ntop k sock_addr selected

/-- `Connect(sock_addr, timeout_sec)`. -/
def connectTimed (e : Endian) (ntop : InetNtop) (k : ConnectAnswers) (sock_addr : SocketAddress)
    (timeout : Timeval) : Connecting Unit := do
  let s ← get
  guarded ConnectStop.Unwinds (ScopedFcntl.make k s.sockfd O_NONBLOCK) (ScopedFcntl.destroy k)
    fun _ => connectGuarded e ntop k sock_addr timeout

end Socket

/-! ### The parts of a run -/

section

variable {α : Type} {k : ConnectAnswers} {s : TimedSocket} {d : Descriptor} {a : α} {stop : Stop}
  {I : TimedSocket → Prop}

theorem onDescriptor_ok {x : EStateM Stop Descriptor α} (h : x s.descriptor = .ok a d) :
    onDescriptor x s = .ok a { s with descriptor := d } :=
  adapt_ok _ (TimedSocket.descriptorLens.lift_ok h)

theorem onDescriptor_error {x : EStateM Stop Descriptor α} (h : x s.descriptor = .error stop d) :
    onDescriptor x s = .error (.stopped stop) { s with descriptor := d } :=
  adapt_error _ (TimedSocket.descriptorLens.lift_error h)

theorem printing_error {x : Printing α} {exception : Exception} {cerr : Bytes}
    (h : x s.cerr = .error exception cerr) : printing x s = .error (.threw exception) { s with cerr } :=
  adapt_error _ (TimedSocket.cerrLens.lift_error h)

theorem fcntlFormat_eq : fcntlFormat = Util.automatic (ascii "Fcntl(") [ascii ", ", ascii ") error"] := by
  decide

theorem getsockoptFormat_eq :
    getsockoptFormat = Util.automatic (ascii "Getsockopt(") [ascii ", ", ascii ") error"] := by
  decide

theorem fcntl_ok {fd : ℤ} {cmd n : ℕ} {call : EStateM Stop Descriptor (Except Errno ℕ)}
    (h : call s.descriptor = .ok (.ok n) d) : fcntl fd cmd call s = .ok n { s with descriptor := d } := by
  rw [fcntl, run_bind_ok (onDescriptor_ok h)]
  rfl

theorem fcntl_error {fd : ℤ} {cmd : ℕ} {errno : Errno} {call : EStateM Stop Descriptor (Except Errno ℕ)}
    (h : call s.descriptor = .ok (.error errno) s.descriptor) :
    ∃ what, fcntl fd cmd call s = .error (.threw (.systemError errno what)) s := by
  have hthrow := @Socket.throwSystemError_automatic ℕ _ _ _ fcntlFormat_eq (length_ascii_le (by decide))
    ⟨[intText fd, decimalText cmd], List.cons_ne_nil _ _, two_le_INT_MAX⟩ (le_refl 2) errno s.cerr
  have hcall : fcntl fd cmd call s =
      printing (throwSystemError errno fcntlFormat (twoArgs (intText fd) (decimalText cmd))) s := by
    rw [fcntl, run_bind_ok (onDescriptor_ok h)]
  exact ⟨_, hcall.trans (printing_error hthrow)⟩

theorem make_of_called (h : k.Called) :
    ScopedFcntl.make k s.sockfd O_NONBLOCK s =
      .ok s.descriptor.flags
        { s with descriptor := { s.descriptor with flags := s.descriptor.flags ||| O_NONBLOCK } } := by
  obtain ⟨hget, hset⟩ := h
  have hgot : fcntl s.sockfd F_GETFL (Descriptor.getfl k.getfl) s = .ok s.descriptor.flags s :=
    fcntl_ok (by rw [hget]; rfl)
  have hnonblock : fcntl s.sockfd F_SETFL
      (Descriptor.setfl (s.descriptor.flags ||| O_NONBLOCK) k.setfl) s =
        .ok 0 { s with descriptor := { s.descriptor with flags := s.descriptor.flags ||| O_NONBLOCK } } :=
    fcntl_ok (by rw [hset, Descriptor.setfl, setFlags_nonblock])
  rw [ScopedFcntl.make, run_bind_ok hgot, run_bind_ok hnonblock]
  rfl

theorem make_fails (h : ¬ k.Called) :
    ∃ errno what, (k.getfl.or k.setfl) = some errno ∧
      ScopedFcntl.make k s.sockfd O_NONBLOCK s = .error (.threw (.systemError errno what)) s := by
  cases hget : k.getfl with
  | some errno =>
    obtain ⟨what, hfcntl⟩ :=
      @fcntl_error s s.sockfd F_GETFL errno (Descriptor.getfl k.getfl) (by rw [hget]; rfl)
    exact ⟨errno, what, rfl, run_bind_error hfcntl⟩
  | none =>
    have hgot : fcntl s.sockfd F_GETFL (Descriptor.getfl k.getfl) s = .ok s.descriptor.flags s :=
      fcntl_ok (by rw [hget]; rfl)
    cases hset : k.setfl with
    | some errno =>
      obtain ⟨what, hfcntl⟩ := @fcntl_error s s.sockfd F_SETFL errno
        (Descriptor.setfl (s.descriptor.flags ||| O_NONBLOCK) k.setfl) (by rw [hset]; rfl)
      refine ⟨errno, what, rfl, ?_⟩
      rw [ScopedFcntl.make, run_bind_ok hgot, run_bind_error hfcntl]
    | none => exact absurd ⟨hget, hset⟩ h

end

/-! ### What every exit leaves -/

/-- The socket while the guard stands: the descriptor does not wait. -/
structure Guarded (sockfd : ℤ) (flags : ℕ) (s : TimedSocket) : Prop where
  owned : s.sockfd = sockfd
  isOpen : s.descriptor.isOpen = true
  flags_eq : s.descriptor.flags = flags ||| O_NONBLOCK

/-- The socket behind the guard. The old flags are back unless the kernel refuses to set them. -/
structure Restored (k : ConnectAnswers) (sockfd : ℤ) (flags : ℕ) (s : TimedSocket) : Prop where
  owned : s.sockfd = sockfd
  isOpen : s.descriptor.isOpen = true
  flags_eq : k.restore = none → s.descriptor.flags = flags

section

variable {α : Type} {e : Endian} {ntop : InetNtop} {k : ConnectAnswers} {sock_addr : SocketAddress}
  {timeout : Timeval} {sockfd : ℤ} {flags : ℕ}

theorem keeps_printing (x : Printing α) : Keeps (Guarded sockfd flags) (printing x) :=
  (TimedSocket.cerrLens.keeps_lift (fun _ _ h => ⟨h.owned, h.isOpen, h.flags_eq⟩) x).adapt _

theorem keeps_selecting (x : EStateM Stop Selector α) :
    Keeps (Guarded sockfd flags) (onDescriptor (Descriptor.selecting x)) := by
  rintro s ⟨howned, hisOpen, hflags⟩
  rw [Descriptor.selecting]
  rcases Descriptor.selectorLens.lift_cases x s.descriptor with ⟨a, selector, hrun⟩ | ⟨stop, selector, hrun⟩
  · rw [after_ok (onDescriptor_ok hrun)]
    exact ⟨howned, hisOpen, hflags⟩
  · rw [after_error (onDescriptor_error hrun)]
    exact ⟨howned, hisOpen, hflags⟩

namespace Socket

theorem keeps_getsockopt : Keeps (Guarded sockfd flags) (getsockopt k) := by
  rw [getsockopt]
  split
  · exact keeps_pure _
  · exact keeps_printing _

theorem keeps_connectSelected (r : FdLists × Option Errno) :
    Keeps (Guarded sockfd flags) (connectSelected e ntop k sock_addr r) := by
  obtain ⟨fds, _ | ec⟩ := r
  · rw [connectSelected]
    split_ifs
    · refine keeps_getsockopt.bind fun error => ?_
      cases error with
      | none => exact keeps_pure _
      | some error => exact keeps_printing _
    · exact keeps_throw _
  · exact keeps_printing _

theorem keeps_connectGuarded : Keeps (Guarded sockfd flags) (connectGuarded e ntop k sock_addr timeout) := by
  rw [connectGuarded]
  split
  · exact keeps_pure _
  · split_ifs
    · exact keeps_printing _
    · exact keeps_get.bind fun s => (keeps_selecting _).bind keeps_connectSelected

theorem restored_destroy {s : TimedSocket} (h : Guarded sockfd flags s) :
    Restored k sockfd flags (ScopedFcntl.destroy k flags s) := by
  obtain ⟨howned, hisOpen, hflags⟩ := h
  rw [ScopedFcntl.destroy]
  cases hrestore : k.restore with
  | none =>
    have hset : Descriptor.setfl flags none s.descriptor =
        (.ok (.ok 0) { s.descriptor with flags := setFlags s.descriptor.flags flags } :
          EStateM.Result Stop Descriptor _) := rfl
    rw [after_ok (onDescriptor_ok hset)]
    refine ⟨howned, hisOpen, fun _ => ?_⟩
    simp only [hflags, setFlags_restore]
  | some errno =>
    have hset : Descriptor.setfl flags (some errno) s.descriptor =
        (.ok (.error errno) s.descriptor : EStateM.Result Stop Descriptor _) := rfl
    rw [after_ok (onDescriptor_ok hset)]
    exact ⟨howned, hisOpen, fun hnone => by rw [hrestore] at hnone; cases hnone⟩

/-- However the function is left, the socket owns its open descriptor, with the old flags if they can be
set. -/
theorem connectTimed_restores {s : TimedSocket} (hopen : s.descriptor.isOpen = true)
    (hleaves : Leaves ConnectStop.Unwinds (connectTimed e ntop k sock_addr timeout s)) :
    Restored k s.sockfd s.descriptor.flags (after (connectTimed e ntop k sock_addr timeout) s) := by
  refine guarded_leaves (I := fun flags s' => flags = s.descriptor.flags ∧
    Guarded s.sockfd s.descriptor.flags s') ?_ ?_ ?_ ?_ hleaves
  · intro stop s' hmake
    by_cases hcalled : k.Called
    · rw [make_of_called hcalled] at hmake
      cases hmake
    · obtain ⟨errno, what, -, hfails⟩ := @make_fails k s hcalled
      obtain ⟨-, rfl⟩ := EStateM.Result.error.inj (hfails.symm.trans hmake)
      exact ⟨rfl, hopen, fun _ => rfl⟩
  · intro flags s' hmake
    by_cases hcalled : k.Called
    · obtain ⟨rfl, rfl⟩ := EStateM.Result.ok.inj ((make_of_called hcalled).symm.trans hmake)
      exact ⟨rfl, rfl, hopen, rfl⟩
    · obtain ⟨errno, what, -, hfails⟩ := @make_fails k s hcalled
      cases hfails.symm.trans hmake
  · rintro flags s' ⟨hflags, hguarded⟩
    exact ⟨hflags, keeps_connectGuarded s' hguarded⟩
  · rintro flags s' ⟨rfl, hguarded⟩
    exact restored_destroy hguarded

end Socket

end

/-! ### What every exit reports -/

/-- The function has returned, or thrown this error. -/
def Reports (run : EStateM.Result ConnectStop TimedSocket Unit) : Option Errno → Prop
  | none => ∃ s', run = .ok () s'
  | some ec => ∃ what s', run = .error (.threw (.systemError ec what)) s'

theorem Reports.leaves {run : EStateM.Result ConnectStop TimedSocket Unit} {verdict : Option Errno}
    (h : Reports run verdict) : Leaves ConnectStop.Unwinds run := by
  cases verdict with
  | none =>
    obtain ⟨s', rfl⟩ := h
    trivial
  | some ec =>
    obtain ⟨what, s', rfl⟩ := h
    trivial

section

variable {e : Endian} {ntop : InetNtop} {k : ConnectAnswers} {sock_addr : SocketAddress} {timeout : Timeval}
  {sockfd : ℤ} {d : Descriptor} {s : TimedSocket}

namespace Socket

theorem reports_of_not_called (h : ¬ k.Called) :
    Reports (connectTimed e ntop k sock_addr timeout s) (k.getfl.or k.setfl) := by
  obtain ⟨errno, what, herror, hmake⟩ := @make_fails k s h
  rw [herror]
  exact ⟨what, s, guarded_not_made hmake⟩

theorem reports_of_called (h : k.Called) (verdict : Option Errno) :
    Reports (connectTimed e ntop k sock_addr timeout s) verdict ↔
      Reports (connectGuarded e ntop k sock_addr timeout
        { s with descriptor := { s.descriptor with flags := s.descriptor.flags ||| O_NONBLOCK } }) verdict := by
  have hmake := @make_of_called k s h
  have hcall : connectTimed e ntop k sock_addr timeout s =
      guarded ConnectStop.Unwinds (ScopedFcntl.make k s.sockfd O_NONBLOCK) (ScopedFcntl.destroy k)
        (fun _ => connectGuarded e ntop k sock_addr timeout) s := rfl
  rw [hcall]
  rcases hrun : connectGuarded e ntop k sock_addr timeout
      { s with descriptor := { s.descriptor with flags := s.descriptor.flags ||| O_NONBLOCK } } with
    ⟨u, s'⟩ | ⟨stop, s'⟩
  · rw [guarded_returns hmake hrun]
    cases verdict with
    | none => exact iff_of_true ⟨_, rfl⟩ ⟨_, rfl⟩
    | some ec => exact iff_of_false (fun ⟨_, _, heq⟩ => by cases heq) (fun ⟨_, _, heq⟩ => by cases heq)
  · rw [guarded_fails hmake hrun]
    cases verdict with
    | none => exact iff_of_false (fun ⟨_, heq⟩ => by cases heq) (fun ⟨_, heq⟩ => by cases heq)
    | some ec =>
      constructor
      · rintro ⟨what, s₁, heq⟩
        obtain ⟨rfl, -⟩ := EStateM.Result.error.inj heq
        exact ⟨what, s', rfl⟩
      · rintro ⟨what, s₁, heq⟩
        obtain ⟨rfl, -⟩ := EStateM.Result.error.inj heq
        exact ⟨what, _, rfl⟩

theorem reports_printing_iff {x : Printing Unit} {ec : Errno} :
    Reports (printing x s) (some ec) ↔ ∃ what cerr', x s.cerr = .error (.systemError ec what) cerr' := by
  rcases hrun : x s.cerr with ⟨a, cerr⟩ | ⟨exception, cerr⟩
  · have hprints : printing x s = .ok a { s with cerr } := adapt_ok _ (TimedSocket.cerrLens.lift_ok hrun)
    rw [hprints]
    exact iff_of_false (fun ⟨_, _, heq⟩ => by cases heq) (fun ⟨_, _, heq⟩ => by cases heq)
  · rw [printing_error hrun]
    constructor
    · rintro ⟨what, s', heq⟩
      cases heq
      exact ⟨what, cerr, rfl⟩
    · rintro ⟨what, cerr', heq⟩
      cases heq
      exact ⟨what, _, rfl⟩

theorem reports_throwConnect_iff (h : SocketAddress.Built e sock_addr)
    (hfamily : saFamily e sock_addr.bytes ≠ some Sockaddr.AF_NETLINK) (ec : Errno) :
    (∀ cerr, Reports (throwConnect e ntop sock_addr ec ⟨sockfd, d, cerr⟩) (some ec)) ↔
      (saFamily e sock_addr.bytes = some Sockaddr.AF_UNIX → 0 ∈ sock_addr.bytes.drop 2) := by
  have hname := h.address_iff ec
  obtain ⟨addr, haddr, -⟩ := h.cases
  obtain ⟨addr', addrlen⟩ := sock_addr
  cases haddr
  have hthrows : (∀ cerr, Reports (throwConnect e ntop ⟨some addr, addrlen⟩ ec ⟨sockfd, d, cerr⟩) (some ec)) ↔
      ThrowsCode (connect e ntop ⟨some addr, addrlen⟩ (some ec)) ec :=
    forall_congr' fun cerr => reports_printing_iff
  rw [hthrows, connect_throwsCode_iff]
  exact hname.trans (and_iff_left fun hnetlink => absurd hnetlink hfamily)

theorem getsockopt_ok {error : Option Errno} (h : k.getsockopt = .ok error) :
    getsockopt k s = .ok error s := by
  rw [getsockopt, h]
  rfl

theorem reports_getsockopt {errno : Errno} (h : k.getsockopt = .error errno)
    (f : Option Errno → Connecting Unit) :
    Reports ((getsockopt k >>= f) s) (some errno) := by
  have hthrow := @throwSystemError_automatic (Option Errno) _ _ _ getsockoptFormat_eq
    (length_ascii_le (by decide))
    ⟨[decimalText SOL_SOCKET, decimalText SO_ERROR], List.cons_ne_nil _ _, two_le_INT_MAX⟩ (le_refl 2)
    errno s.cerr
  have hcall : getsockopt k s = printing (throwSystemError errno getsockoptFormat
      (twoArgs (decimalText SOL_SOCKET) (decimalText SO_ERROR))) s := by
    rw [getsockopt, h]
  exact ⟨_, _, run_bind_error (hcall.trans (printing_error hthrow))⟩

/-! ### The wait -/

theorem connectGuarded_inProgress (hconnect : k.connect = some EINPROGRESS) :
    connectGuarded e ntop k sock_addr timeout s =
      (onDescriptor (Descriptor.selecting (selectEc ⟨[s.sockfd], [s.sockfd], []⟩ (some timeout) none)) >>=
        connectSelected e ntop k sock_addr) s := by
  rw [connectGuarded, hconnect]
  simp only
  rw [if_neg (not_not_intro rfl), run_get_bind]

theorem connectGuarded_answered (hconnect : k.connect = some EINPROGRESS) (hbit : HasBit sockfd)
    {a : SelectAnswer} (hanswer : answerOf k.selects = some a) (isOpen : Bool) (flags : ℕ) :
    ∃ selector, ∀ cerr, connectGuarded e ntop k sock_addr timeout
        ⟨sockfd, ⟨isOpen, flags, ⟨k.selects, []⟩⟩, cerr⟩ =
      connectSelected e ntop k sock_addr (FdLists.selection ⟨[sockfd], [sockfd], []⟩ (some timeout) none a)
        ⟨sockfd, ⟨isOpen, flags, selector⟩, cerr⟩ := by
  have hbits : ∀ fd ∈ FdLists.all ⟨[sockfd], [sockfd], []⟩, HasBit fd := by
    intro fd hfd
    obtain rfl : fd = sockfd := by simpa [FdLists.all] using hfd
    exact hbit
  obtain ⟨selector, hselect, -⟩ :=
    selectEc_of_hasBit hbits (List.cons_ne_nil _ _) (some timeout) none hanswer
  refine ⟨selector, fun cerr => ?_⟩
  have hwait : onDescriptor (Descriptor.selecting (selectEc ⟨[sockfd], [sockfd], []⟩ (some timeout) none))
      ⟨sockfd, ⟨isOpen, flags, ⟨k.selects, []⟩⟩, cerr⟩ =
        .ok (FdLists.selection ⟨[sockfd], [sockfd], []⟩ (some timeout) none a)
          ⟨sockfd, ⟨isOpen, flags, selector⟩, cerr⟩ :=
    onDescriptor_ok (Descriptor.selecting_ok hselect)
  rw [connectGuarded_inProgress hconnect, run_bind_ok hwait]

/-- The wait for a descriptor without a bit is undefined. -/
theorem connectGuarded_fault (hconnect : k.connect = some EINPROGRESS) (hbit : ¬ HasBit s.sockfd) :
    ∃ stop s', connectGuarded e ntop k sock_addr timeout s = .error (.stopped stop) s' := by
  have hmem : ∃ fd ∈ FdLists.all ⟨[s.sockfd], [s.sockfd], []⟩, ¬ HasBit fd :=
    ⟨s.sockfd, List.mem_cons_self, hbit⟩
  obtain ⟨fd, -, hselect⟩ := selectEc_fault hmem (some timeout) none s.descriptor.selector
  rw [connectGuarded_inProgress hconnect]
  exact ⟨_, _, run_bind_error (onDescriptor_error (Descriptor.selecting_error hselect))⟩

theorem selection_one {readable writable exceptional : List ℤ} :
    FdLists.selection ⟨[sockfd], [sockfd], []⟩ (some timeout) none (.ready readable writable exceptional) =
        (.empty, some ETIMEDOUT) ∧ sockfd ∉ readable ∧ sockfd ∉ writable ∨
      ∃ fds : FdLists, FdLists.selection ⟨[sockfd], [sockfd], []⟩ (some timeout) none
          (.ready readable writable exceptional) = (fds, none) ∧
        (fds.readfds ≠ [] ∨ fds.writefds ≠ []) ∧ (sockfd ∈ readable ∨ sockfd ∈ writable) := by
  have hone : ∀ ready : List ℤ, [sockfd].filter (· ∈ ready) = [] ↔ sockfd ∉ ready := by
    intro ready
    rw [List.filter_eq_nil_iff]
    simp
  have hempty : FdLists.ready ⟨[sockfd], [sockfd], []⟩ readable writable exceptional = .empty ↔
      sockfd ∉ readable ∧ sockfd ∉ writable := by
    rw [FdLists.ready, FdLists.empty, FdLists.mk.injEq, hone, hone, List.filter_nil]
    simp
  rw [FdLists.selection]
  by_cases hready : sockfd ∉ readable ∧ sockfd ∉ writable
  · rw [if_pos (hempty.2 hready)]
    exact .inl ⟨rfl, hready⟩
  · rw [if_neg fun hnone => hready (hempty.1 hnone)]
    have hmem : sockfd ∈ readable ∨ sockfd ∈ writable := by
      by_contra hnone
      exact hready (not_or.1 hnone)
    refine .inr ⟨_, rfl, ?_, hmem⟩
    rw [FdLists.ready, ne_eq, ne_eq, hone, hone, not_not, not_not]
    exact hmem

/-! ### The whole function -/

/-- Whatever was printed before, the function reports what the attempt comes to, and leaves the socket as it
was. -/
def RestoresAndReports (e : Endian) (ntop : InetNtop) (k : ConnectAnswers) (sock_addr : SocketAddress)
    (timeout : Timeval) (sockfd : ℤ) (flags : ℕ) : Prop :=
  ∀ cerr,
    let s : TimedSocket := ⟨sockfd, ⟨true, flags, ⟨k.selects, []⟩⟩, cerr⟩
    Reports (connectTimed e ntop k sock_addr timeout s) (k.verdict sockfd) ∧
      Restored k sockfd flags (after (connectTimed e ntop k sock_addr timeout) s)

variable {flags : ℕ}

theorem restoresAndReports_iff_of_called (h : k.Called) :
    RestoresAndReports e ntop k sock_addr timeout sockfd flags ↔
      ∀ cerr, Reports (connectGuarded e ntop k sock_addr timeout
        ⟨sockfd, ⟨true, flags ||| O_NONBLOCK, ⟨k.selects, []⟩⟩, cerr⟩) (k.verdict sockfd) := by
  refine forall_congr' fun cerr => ?_
  have hcall := @reports_of_called e ntop k sock_addr timeout ⟨sockfd, ⟨true, flags, ⟨k.selects, []⟩⟩, cerr⟩ h
    (k.verdict sockfd)
  rw [← hcall]
  refine and_iff_left_of_imp fun hreports => ?_
  exact @connectTimed_restores e ntop k sock_addr timeout ⟨sockfd, ⟨true, flags, ⟨k.selects, []⟩⟩, cerr⟩ rfl
    hreports.leaves

theorem restoresAndReports_of_not_called (h : ¬ k.Called) :
    RestoresAndReports e ntop k sock_addr timeout sockfd flags := by
  intro cerr s
  have hreports := @reports_of_not_called e ntop k sock_addr timeout s h
  rw [← ConnectAnswers.verdict_of_not_called h] at hreports
  exact ⟨hreports, @connectTimed_restores e ntop k sock_addr timeout s rfl hreports.leaves⟩

theorem reports_selected_iff (h : SocketAddress.Built e sock_addr)
    (hfamily : saFamily e sock_addr.bytes ≠ some Sockaddr.AF_NETLINK) {fds : FdLists}
    (hfds : fds.readfds ≠ [] ∨ fds.writefds ≠ []) :
    (∀ cerr, Reports (connectSelected e ntop k sock_addr (fds, none) ⟨sockfd, d, cerr⟩)
        (match k.getsockopt with
        | .error errno => some errno
        | .ok error => error)) ↔
      ((∃ error, k.getsockopt = .ok (some error)) → saFamily e sock_addr.bytes = some Sockaddr.AF_UNIX →
        0 ∈ sock_addr.bytes.drop 2) := by
  simp only [connectSelected, if_pos hfds]
  rcases hsockopt : k.getsockopt with errno | _ | error
  · refine iff_of_true (fun cerr => reports_getsockopt hsockopt _) ?_
    rintro ⟨error, heq⟩
    cases heq
  · refine iff_of_true (fun cerr => ?_) ?_
    · rw [run_bind_ok (getsockopt_ok hsockopt)]
      exact ⟨_, rfl⟩
    · rintro ⟨error, heq⟩
      cases heq
  · rw [imp_iff_right ⟨error, rfl⟩, ← @reports_throwConnect_iff e ntop sock_addr sockfd d h hfamily error]
    refine forall_congr' fun cerr => ?_
    rw [run_bind_ok (getsockopt_ok hsockopt)]

theorem reports_wait_iff (h : SocketAddress.Built e sock_addr)
    (hfamily : saFamily e sock_addr.bytes ≠ some Sockaddr.AF_NETLINK) (hprogress : k.InProgress)
    (hbit : HasBit sockfd) (hanswer : answerOf k.selects ≠ none) (isOpen : Bool) (flags : ℕ) :
    (∀ cerr, Reports (connectGuarded e ntop k sock_addr timeout
        ⟨sockfd, ⟨isOpen, flags, ⟨k.selects, []⟩⟩, cerr⟩) (k.waitVerdict sockfd)) ↔
      (k.NamesAddress sockfd → saFamily e sock_addr.bytes = some Sockaddr.AF_UNIX →
        0 ∈ sock_addr.bytes.drop 2) := by
  obtain ⟨a, ha⟩ := Option.ne_none_iff_exists'.1 hanswer
  obtain ⟨selector, hbody⟩ :=
    @connectGuarded_answered e ntop k sock_addr timeout sockfd hprogress.2 hbit a ha isOpen flags
  simp only [hbody, hprogress.namesAddress_iff]
  cases a with
  | fail errno =>
    rw [ConnectAnswers.waitVerdict_of_fail ha, imp_iff_right (.inl (ConnectAnswers.not_ready_of_fail ha))]
    exact reports_throwConnect_iff h hfamily errno
  | ready readable writable exceptional =>
    rcases @selection_one timeout sockfd readable writable exceptional with
      ⟨hselected, hread, hwrite⟩ | ⟨fds, hselected, hfds, hmem⟩
    · have htimedOut : k.TimedOut sockfd := ⟨readable, writable, exceptional, ha, hread, hwrite⟩
      rw [hselected, ConnectAnswers.waitVerdict_of_timedOut htimedOut,
        imp_iff_right (.inl htimedOut.not_ready)]
      exact reports_throwConnect_iff h hfamily ETIMEDOUT
    · have hready : k.Ready sockfd := ⟨readable, writable, exceptional, ha, hmem⟩
      rw [hselected, ConnectAnswers.waitVerdict_of_ready hready, or_iff_right (not_not_intro hready)]
      exact reports_selected_iff h hfamily hfds

theorem reports_refused_iff (h : SocketAddress.Built e sock_addr)
    (hfamily : saFamily e sock_addr.bytes ≠ some Sockaddr.AF_NETLINK) {errno : Errno}
    (hconnect : k.connect = some errno) (hne : errno ≠ EINPROGRESS) :
    (∀ cerr, Reports (connectGuarded e ntop k sock_addr timeout ⟨sockfd, d, cerr⟩) (some errno)) ↔
      (saFamily e sock_addr.bytes = some Sockaddr.AF_UNIX → 0 ∈ sock_addr.bytes.drop 2) := by
  rw [← @reports_throwConnect_iff e ntop sock_addr sockfd d h hfamily errno]
  refine forall_congr' fun cerr => ?_
  rw [connectGuarded, hconnect]
  simp only
  rw [if_pos hne]

/-- The function does so for every internet or unix address, unless it waits for a descriptor without a bit,
or has to name an address whose path has no end. -/
theorem connectTimed_iff (h : SocketAddress.Built e sock_addr)
    (hfamily : saFamily e sock_addr.bytes ≠ some Sockaddr.AF_NETLINK) (ntop : InetNtop) (k : ConnectAnswers)
    (hanswer : k.InProgress → answerOf k.selects ≠ none) (timeout : Timeval) (sockfd : ℤ) (flags : ℕ) :
    RestoresAndReports e ntop k sock_addr timeout sockfd flags ↔
      (k.InProgress → HasBit sockfd) ∧
        (k.NamesAddress sockfd → saFamily e sock_addr.bytes = some Sockaddr.AF_UNIX →
          0 ∈ sock_addr.bytes.drop 2) := by
  by_cases hcalled : k.Called
  · rw [restoresAndReports_iff_of_called hcalled, ConnectAnswers.verdict_of_called hcalled]
    cases hconnect : k.connect with
    | none =>
      refine iff_of_true (fun cerr => ?_) ⟨?_, ?_⟩
      · rw [connectGuarded, hconnect]
        exact ⟨_, rfl⟩
      · rintro ⟨-, hsome⟩
        cases hconnect.symm.trans hsome
      · rintro ⟨-, errno, hsome, -⟩
        cases hconnect.symm.trans hsome
    | some errno =>
      simp only
      by_cases hprogress : errno = EINPROGRESS
      · subst hprogress
        have hwaits : k.InProgress := ⟨hcalled, hconnect⟩
        rw [if_pos rfl, imp_iff_right hwaits]
        by_cases hbit : HasBit sockfd
        · rw [and_iff_right hbit]
          exact reports_wait_iff h hfamily hwaits hbit (hanswer hwaits) true _
        · refine iff_of_false (fun hreports => ?_) fun hcond => hbit hcond.1
          obtain ⟨stop, s', hfault⟩ := @connectGuarded_fault e ntop k sock_addr timeout
            ⟨sockfd, ⟨true, flags ||| O_NONBLOCK, ⟨k.selects, []⟩⟩, []⟩ hconnect hbit
          have hleaves := (hreports []).leaves
          rw [hfault] at hleaves
          exact hleaves
      · have hnames : k.NamesAddress sockfd := ⟨hcalled, errno, hconnect, fun heq => absurd heq hprogress⟩
        have hwaits : ¬ k.InProgress := by
          rintro ⟨-, hsome⟩
          cases hconnect.symm.trans hsome
          exact hprogress rfl
        rw [if_neg hprogress, imp_iff_right hnames, and_iff_right fun hwait => absurd hwait hwaits]
        exact reports_refused_iff h hfamily hconnect hprogress
  · exact iff_of_true (restoresAndReports_of_not_called hcalled)
      ⟨fun hprogress => absurd hprogress.1 hcalled, fun hnames => absurd hnames.1 hcalled⟩

end Socket

end

namespace Socket
open SocketAddress

theorem connectTimed_iff_refused :
    let k : ConnectAnswers := ⟨none, none, some (.other 111), [], .ok none, none⟩
    RestoresAndReports .little .dotted k (raw [2, 0, 0, 80, 127, 0, 0, 1, 0, 0, 0, 0, 0, 0, 0, 0] 16) ⟨5, 0⟩
      3 2 := by
  intro k
  have hbuilt : Built .little (raw [2, 0, 0, 80, 127, 0, 0, 1, 0, 0, 0, 0, 0, 0, 0, 0] 16) :=
    .rawIPv4 (by decide) (by decide) (by decide)
  have hprogress : ¬ k.InProgress := by
    rintro ⟨-, hsome⟩
    cases hsome
  refine (connectTimed_iff hbuilt (by decide) .dotted k (fun hwait => absurd hwait hprogress) ⟨5, 0⟩ 3
    2).2 ⟨?_, ?_⟩
  · exact fun hwait => absurd hwait hprogress
  · exact fun _ hunix => absurd hunix (by decide)

/-- A connection under way on the first descriptor without a bit. -/
theorem wait_beside_set :
    let k : ConnectAnswers := ⟨none, none, some EINPROGRESS, [.ready [1024] [] []], .ok none, none⟩
    let a : SocketAddress := raw [2, 0, 0, 80, 127, 0, 0, 1, 0, 0, 0, 0, 0, 0, 0, 0] 16
    Built .little a ∧ ¬ RestoresAndReports .little .dotted k a ⟨5, 0⟩ 1024 2 := by
  intro k a
  refine ⟨.rawIPv4 (by decide) (by decide) (by decide), ?_⟩
  intro hlaw
  obtain ⟨hreports, -⟩ := hlaw []
  rw [reports_of_called ⟨rfl, rfl⟩] at hreports
  obtain ⟨stop, s', hfault⟩ := @connectGuarded_fault .little .dotted k a ⟨5, 0⟩
    ⟨1024, ⟨true, 2 ||| O_NONBLOCK, ⟨k.selects, []⟩⟩, []⟩ rfl (by decide)
  have hleaves := hreports.leaves
  rw [hfault] at hleaves
  exact hleaves

end Socket

end NetProg.Cxx
