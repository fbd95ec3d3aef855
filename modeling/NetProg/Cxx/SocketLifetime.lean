import NetProg.Lib.Ownership
import NetProg.Lib.Run
import NetProg.Lib.Runs
import NetProg.System.Machine

/-!
# Descriptors and the life of a `Socket`

The members of `Socket` in `lib/cxx/wrapsock.cpp` that make, move, close and destroy one, over a kernel that
hands out numbers, reuses them, and may report an error from `close` although it has released the number.
A run is any list of these operations on any objects.

A descriptor number says nothing about which of its acquisitions it stands for, so an `Fd` carries the
acquisition along; no member function looks at it. `Effect` is all that an operation can do to the numbers
that objects hold and to the kernel, and through it a run is a run of the ledger of `Lib.Ownership`: a
`Close` that throws with a descriptor in hand is its act `overdue`, and every other operation is prompt.
-/

namespace NetProg

/-- What a program keeps for a descriptor: `-1`, or a number that the kernel returned, together with the
acquisition it was returned for. -/
inductive Fd
  | none
  | of (number acquisition : ℕ)
  deriving DecidableEq, Repr

namespace Fd

/-- The `int` itself. -/
def value : Fd → ℤ
  | .none => -1
  | .of number _ => number

/-- Which `socket` or `accept` it came from. -/
def acquisition : Fd → Option ℕ
  | .none => .none
  | .of _ acquisition => some acquisition

theorem eq_none_of_acquisition {fd : Fd} (h : fd.acquisition = .none) : fd = .none := by
  cases fd with
  | none => rfl
  | of number acquisition => nomatch h

end Fd

/-- The part of the kernel that the sockets of a process share. -/
structure Kernel where
  /-- The acquisition that an open number stands for. -/
  table : ℕ → Option ℕ
  /-- How many descriptors were obtained. -/
  acquired : ℕ
  /-- The acquisitions released, in order. -/
  released : List ℕ
  /-- The arguments of `close`, in order. -/
  closeCalls : List Fd

namespace Kernel

/-- The kernel hands out a number. -/
def acquire (k : Kernel) (number : ℕ) : Kernel :=
  { k with table := Function.update k.table number (some k.acquired), acquired := k.acquired + 1 }

@[simp] theorem table_acquire (k : Kernel) (number : ℕ) :
    (k.acquire number).table = Function.update k.table number (some k.acquired) := rfl

/-- What `close(fd)` does, whatever it reports. -/
def close (k : Kernel) (fd : Fd) : Kernel :=
  let closeCalls := k.closeCalls ++ [fd]
  match fd with
  | .none => { k with closeCalls }
  | .of number _ =>
    { k with
      table := Function.update k.table number none
      released := k.released ++ (k.table number).toList
      closeCalls }

@[simp] theorem acquired_close (k : Kernel) (fd : Fd) : (k.close fd).acquired = k.acquired := by
  cases fd <;> rfl

/-- Whether `fd` is a number in use. -/
def IsOpen (k : Kernel) (fd : Fd) : Prop :=
  match fd with
  | .none => False
  | .of number _ => k.table number ≠ none

instance (k : Kernel) : DecidablePred k.IsOpen := fun fd => by
  cases fd <;> unfold IsOpen <;> infer_instance

end Kernel

/-- Why an operation did not return. -/
inductive Thrown
  | systemError (errno : Option Errno)
  | runtimeError
  /-- The system call has not returned yet. -/
  | blocked
  deriving DecidableEq, Repr

/-- The descriptor that a call returns when the kernel answers it with an error or with a number. It never
answers with a number in use. -/
def newFd (answer : Except Errno ℕ) : EStateM Thrown Kernel (Fd × Option Errno) := fun k =>
  match answer with
  | .error errno => .ok (.none, some errno) k
  | .ok number =>
    if k.table number = none then .ok (.of number k.acquired, none) (k.acquire number)
    else .ok (.none, some (.other 24)) k

/-- `accept(sockfd, addr, addrlen)` -/
def sysAccept (sockfd : Fd) (answer : Except Errno ℕ) :
    EStateM Thrown Kernel (Fd × Option Errno) := fun k =>
  if k.IsOpen sockfd then newFd answer k else .ok (.none, some .EBADF) k

/-- `close(fd)`: a number in use is released also when the call reports an error. -/
def sysClose (fd : Fd) (report : Option Errno) : EStateM Thrown Kernel (ℤ × Option Errno) := fun k =>
  if k.IsOpen fd then
    match report with
    | none => .ok (0, none) (k.close fd)
    | some errno => .ok (-1, some errno) (k.close fd)
  else .ok (-1, some .EBADF) (k.close fd)

namespace Cxx

def AF_UNIX : ℤ := 1

def AF_INET : ℤ := 2

/-- The members of `Socket`. -/
structure Socket where
  sockfd : Fd := .none
  family : ℤ := -1
  deriving DecidableEq, Repr

namespace Socket

/-- `Socket(int family_, int type, int protocol)` -/
def make (family : ℤ) (answer : Except Errno ℕ) : EStateM Thrown Kernel Socket := do
  let (sockfd, errno) ← newFd answer
  if sockfd.value < 0 then throw (.systemError errno)
  else return { sockfd, family }

/-- `~Socket()` -/
def destroy (this : Socket) (report : Option Errno) : EStateM Thrown Kernel Unit :=
  if this.sockfd.value ≥ 0 then do
    let _ ← sysClose this.sockfd report
    return ()
  else return ()

/-- `Socket(Socket&& x)`: the new object and `x`. -/
def moveMake (x : Socket) : Socket × Socket :=
  ({ sockfd := x.sockfd, family := x.family }, { sockfd := .none, family := -1 })

/-- `Socket& operator=(Socket&& x)`: `*this` and `x`. -/
def moveAssign (this x : Socket) : Socket × Socket :=
  ({ sockfd := x.sockfd, family := x.family }, { sockfd := this.sockfd, family := this.family })

/-- From the label `again` of `Accept` on, with the kernel's answers to the calls of `accept`. -/
def acceptAgain (this : Socket) : List (Except Errno ℕ) → EStateM Thrown Kernel Socket
  | [] => throw .blocked
  | answer :: answers => do
    let (n, errno) ← sysAccept this.sockfd answer
    if n.value < 0 then
      if errno = some .EPROTO ∨ errno = some .ECONNABORTED then acceptAgain this answers
      else throw (.systemError errno)
    else
      let sock : Socket := { sockfd := n, family := this.family }
      let (result, sock) := sock.moveMake
      -- the local variable goes out of scope
      sock.destroy none
      return result

/-- `std::tuple<Socket, SocketAddress> Accept()`, the first component. `SocketAddress(family)` throws for
the families it does not know. -/
def accept (this : Socket) (answers : List (Except Errno ℕ)) : EStateM Thrown Kernel Socket :=
  if this.family = AF_INET ∨ this.family = AF_UNIX then this.acceptAgain answers
  else throw .runtimeError

/-- `void Close()`: the object afterwards, which is the one before when it throws. -/
def close (this : Socket) (report : Option Errno) : EStateM Thrown Kernel Socket := do
  let (n, errno) ← sysClose this.sockfd report
  if n < 0 then throw (.systemError errno)
  else return { this with sockfd := .none }

end Socket

/-! ### Objects and operations -/

/-- The objects of a process, under names of their own, and the kernel. -/
structure World where
  objects : ℕ → Option Socket
  kernel : Kernel

/-- Operations on the objects `x` and `y`, with what the kernel answers. -/
inductive Op
  /-- `Socket x;` -/
  | default (x : ℕ)
  /-- `Socket x(family, type, protocol);` -/
  | make (x : ℕ) (family : ℤ) (answer : Except Errno ℕ)
  /-- `Socket x(std::move(y));` -/
  | moveMake (x y : ℕ)
  /-- `x = std::move(y);` -/
  | moveAssign (x y : ℕ)
  /-- `auto [x, addr] = y.Accept();` -/
  | accept (x y : ℕ) (answers : List (Except Errno ℕ))
  /-- `x.Close();` -/
  | close (x : ℕ) (report : Option Errno)
  /-- The end of the lifetime of `x`. -/
  | destroy (x : ℕ) (report : Option Errno)

namespace World

/-- No object lives and no descriptor is open. -/
def init : World where
  objects _ := none
  kernel := { table := fun _ => none, acquired := 0, released := [], closeCalls := [] }

/-- The object `x` is made, changed or gone. -/
def set (w : World) (x : ℕ) (s : Option Socket) : World :=
  { w with objects := Function.update w.objects x s }

/-- A function that makes or changes `x`. When it throws, `x` is as it was, or was never made. -/
def call (w : World) (x : ℕ) (f : EStateM Thrown Kernel Socket) : World :=
  match f w.kernel with
  | .ok s kernel => { w.set x (some s) with kernel }
  | .error _ kernel => { w with kernel }

/-- One operation. A program makes no object that exists and uses none that does not, so as a step of a
program such an operation is none. -/
def step (w : World) : Op → World
  | .default x =>
    match w.objects x with
    | none => w.set x (some {})
    | some _ => w
  | .make x family answer =>
    match w.objects x with
    | none => w.call x (Socket.make family answer)
    | some _ => w
  | .moveMake x y =>
    match w.objects x, w.objects y with
    | none, some b => (w.set x (some b.moveMake.1)).set y (some b.moveMake.2)
    | _, _ => w
  | .moveAssign x y =>
    match w.objects x, w.objects y with
    | some a, some b => (w.set x (some (a.moveAssign b).1)).set y (some (a.moveAssign b).2)
    | _, _ => w
  | .accept x y answers =>
    match w.objects x, w.objects y with
    | none, some b => w.call x (b.accept answers)
    | _, _ => w
  | .close x report =>
    match w.objects x with
    | some a => w.call x (a.close report)
    | none => w
  | .destroy x report =>
    match w.objects x with
    | some a =>
      match a.destroy report w.kernel with
      | .ok _ kernel => { w.set x none with kernel }
      | .error _ kernel => { w with kernel }
    | none => w

/-- The process after a list of operations. -/
def run (ops : List Op) : World := Lib.run step init ops

/-- The number that an object holds. -/
def fd (w : World) (x : ℕ) : Fd :=
  match w.objects x with
  | some s => s.sockfd
  | none => .none

/-- The acquisitions passed to `close`. -/
def returned (w : World) : List ℕ := w.kernel.closeCalls.filterMap Fd.acquisition

/-- No number is passed to `close` twice for one acquisition. -/
def NoStaleClose (w : World) : Prop := w.returned.Nodup

/-- All objects are gone. -/
def Gone (w : World) : Prop := ∀ x, w.objects x = none

/-- Every descriptor was released exactly once. -/
def ReleasedOnce (w : World) : Prop := ∀ a < w.kernel.acquired, w.kernel.released.count a = 1

/-- The ownership property of a process. -/
def Owned (w : World) : Prop := w.NoStaleClose ∧ (w.Gone → w.ReleasedOnce)

/-- The kernel reports no error to a `Close` of an object with a descriptor. -/
def CloseSucceeds (w : World) : Op → Prop
  | .close x report => w.fd x ≠ .none → report = none
  | _ => True

/-! ### What an operation can do -/

/-- The process as a ledger whose tokens are the acquisitions. -/
def ledger (w : World) : Lib.Ledger ℕ where
  issued := w.kernel.acquired
  hand x := (w.fd x).acquisition
  returned := w.returned

/-- What an operation does to the numbers that objects hold and to the kernel, and the act of the ledger
that this is. -/
inductive Effect (w w' : World) : Lib.Ledger.Act ℕ → Prop
  | idle (hfd : w'.fd = w.fd) (hkernel : w'.kernel = w.kernel) : Effect w w' .idle
  | acquire {x number : ℕ} (hnone : w.fd x = .none) (hfree : w.kernel.table number = none)
      (hfd : w'.fd = Function.update w.fd x (.of number w.kernel.acquired))
      (hkernel : w'.kernel = w.kernel.acquire number) : Effect w w' (.issue x)
  | swap {x y : ℕ} (hfd : w'.fd = w.fd ∘ Equiv.swap x y) (hkernel : w'.kernel = w.kernel) :
      Effect w w' (.swap x y)
  | close {x : ℕ} (hfd : w'.fd = Function.update w.fd x .none)
      (hkernel : w'.kernel = w.kernel.close (w.fd x)) : Effect w w' (.settle x)
  | keep {x : ℕ} (hfd : w'.fd = w.fd) (hkernel : w'.kernel = w.kernel.close (w.fd x)) :
      Effect w w' (.overdue x)

theorem fd_of_some {w : World} {x : ℕ} {s : Socket} (h : w.objects x = some s) : w.fd x = s.sockfd := by
  rw [fd, h]

theorem fd_of_none {w : World} {x : ℕ} (h : w.objects x = none) : w.fd x = .none := by
  rw [fd, h]

@[simp] theorem objects_set (w : World) (x : ℕ) (s : Option Socket) :
    (w.set x s).objects = Function.update w.objects x s := rfl

theorem fd_set (w : World) (x : ℕ) (s : Option Socket) :
    (w.set x s).fd = Function.update w.fd x (s.elim .none Socket.sockfd) := by
  funext y
  by_cases hy : y = x
  · subst hy
    rw [Function.update_self, fd, objects_set, Function.update_self]
    cases s <;> rfl
  · rw [Function.update_of_ne hy, fd, fd, objects_set, Function.update_of_ne hy]

theorem newFd_cases (answer : Except Errno ℕ) (k : Kernel) :
    (∃ errno, newFd answer k = .ok (.none, some errno) k) ∨
      ∃ number, k.table number = none ∧
        newFd answer k = .ok (.of number k.acquired, none) (k.acquire number) := by
  cases answer with
  | error errno => exact .inl ⟨errno, rfl⟩
  | ok number =>
    by_cases hfree : k.table number = none
    · exact .inr ⟨number, hfree, if_pos hfree⟩
    · exact .inl ⟨_, if_neg hfree⟩

theorem sysAccept_cases (sockfd : Fd) (answer : Except Errno ℕ) (k : Kernel) :
    (∃ errno, sysAccept sockfd answer k = .ok (.none, some errno) k) ∨
      ∃ number, k.table number = none ∧
        sysAccept sockfd answer k = .ok (.of number k.acquired, none) (k.acquire number) := by
  by_cases hopen : k.IsOpen sockfd
  · rw [sysAccept, if_pos hopen]
    exact newFd_cases answer k
  · exact .inl ⟨_, if_neg hopen⟩

/-- What a function that makes a `Socket` can do. -/
def Makes (f : EStateM Thrown Kernel Socket) (k : Kernel) : Prop :=
  (∃ thrown, f k = .error thrown k) ∨
    ∃ number s, k.table number = none ∧ s.sockfd = .of number k.acquired ∧ f k = .ok s (k.acquire number)

theorem makes_make (family : ℤ) (answer : Except Errno ℕ) (k : Kernel) :
    Makes (Socket.make family answer) k := by
  rcases newFd_cases answer k with ⟨errno, h⟩ | ⟨number, hfree, h⟩
  · exact .inl ⟨_, Lib.run_bind_ok h⟩
  · refine .inr ⟨number, ⟨.of number k.acquired, family⟩, hfree, rfl, ?_⟩
    rw [Socket.make, Lib.run_bind_ok h]
    exact congrFun (if_neg (not_lt.mpr (Int.natCast_nonneg number))) _

theorem makes_acceptAgain (this : Socket) (answers : List (Except Errno ℕ)) (k : Kernel) :
    Makes (this.acceptAgain answers) k := by
  induction answers with
  | nil => exact .inl ⟨_, rfl⟩
  | cons answer answers ih =>
    rcases sysAccept_cases this.sockfd answer k with ⟨errno, h⟩ | ⟨number, hfree, h⟩
    · have hneg : Fd.none.value < 0 := by decide
      by_cases hagain : some errno = some Errno.EPROTO ∨ some errno = some Errno.ECONNABORTED
      · have hstep : this.acceptAgain (answer :: answers) k = this.acceptAgain answers k := by
          rw [Socket.acceptAgain, Lib.run_bind_ok h]
          simp only [if_pos hneg, if_pos hagain]
        rw [Makes, hstep]
        exact ih
      · refine .inl ⟨.systemError (some errno), ?_⟩
        rw [Socket.acceptAgain, Lib.run_bind_ok h]
        simp only [if_pos hneg, if_neg hagain, Lib.run_throw]
    · refine .inr ⟨number, ⟨.of number k.acquired, this.family⟩, hfree, rfl, ?_⟩
      rw [Socket.acceptAgain, Lib.run_bind_ok h]
      exact congrFun (if_neg (not_lt.mpr (Int.natCast_nonneg number))) _

theorem makes_accept (this : Socket) (answers : List (Except Errno ℕ)) (k : Kernel) :
    Makes (this.accept answers) k := by
  by_cases hfamily : this.family = AF_INET ∨ this.family = AF_UNIX
  · rw [Socket.accept, if_pos hfamily]
    exact makes_acceptAgain this answers k
  · rw [Socket.accept, if_neg hfamily]
    exact .inl ⟨_, rfl⟩

theorem effect_call {w : World} {x : ℕ} {f : EStateM Thrown Kernel Socket} (hx : w.objects x = none)
    (h : Makes f w.kernel) : ∃ a, Effect w (w.call x f) a ∧ ∀ y, a ≠ .overdue y := by
  rcases h with ⟨thrown, h⟩ | ⟨number, s, hfree, hs, h⟩
  · rw [call, h]
    exact ⟨.idle, .idle rfl rfl, fun _ => nofun⟩
  · rw [call, h]
    exact ⟨.issue x, .acquire (fd_of_none hx) hfree (hs ▸ fd_set w x (some s)) rfl, fun _ => nofun⟩

theorem effect_exchange {w : World} {x y : ℕ} {a b : Socket} (ha : a.sockfd = w.fd y)
    (hb : b.sockfd = w.fd x) :
    Effect w ((w.set x (some a)).set y (some b)) (.swap x y) := by
  refine .swap ?_ rfl
  rw [fd_set, fd_set, Option.elim_some, Option.elim_some, ha, hb]
  funext z
  rw [Function.comp_apply, Equiv.swap_apply_def, Function.update_apply, Function.update_apply]
  split_ifs with hzy hzx <;> simp_all

theorem sysClose_run (fd : Fd) (report : Option Errno) (k : Kernel) :
    ∃ n errno, sysClose fd report k = .ok (n, errno) (k.close fd) ∧
      (n < 0 ↔ ¬ (k.IsOpen fd ∧ report = none)) := by
  by_cases hopen : k.IsOpen fd
  · cases report with
    | none => exact ⟨0, none, if_pos hopen, by simp [hopen]⟩
    | some errno => exact ⟨-1, some errno, if_pos hopen, by simp⟩
  · exact ⟨-1, some .EBADF, if_neg hopen, by simp [hopen]⟩

theorem effect_close {w : World} {x : ℕ} {s : Socket} (hx : w.objects x = some s) (report : Option Errno) :
    if w.kernel.IsOpen (w.fd x) ∧ report = none then Effect w (w.call x (s.close report)) (.settle x)
    else Effect w (w.call x (s.close report)) (.overdue x) := by
  obtain ⟨n, errno, hrun, hneg⟩ := sysClose_run s.sockfd report w.kernel
  rw [← fd_of_some hx] at hrun hneg
  by_cases hsuccess : w.kernel.IsOpen (w.fd x) ∧ report = none
  · have hclose : s.close report w.kernel = .ok ⟨.none, s.family⟩ (w.kernel.close (w.fd x)) := by
      rw [Socket.close, ← fd_of_some hx, Lib.run_bind_ok hrun]
      simp only [if_neg (fun h => hneg.mp h hsuccess), Lib.run_pure]
    rw [if_pos hsuccess, call, hclose]
    exact .close (fd_set w x _) rfl
  · have hclose : s.close report w.kernel = .error (.systemError errno) (w.kernel.close (w.fd x)) := by
      rw [Socket.close, ← fd_of_some hx, Lib.run_bind_ok hrun]
      simp only [if_pos (hneg.mpr hsuccess), Lib.run_throw]
    rw [if_neg hsuccess, call, hclose]
    exact .keep rfl rfl

theorem effect_destroy {w : World} {x : ℕ} {s : Socket} (hx : w.objects x = some s)
    (report : Option Errno) :
    ∃ a, Effect w (w.step (.destroy x report)) a ∧ ∀ y, a ≠ .overdue y := by
  obtain ⟨n, errno, hrun, -⟩ := sysClose_run s.sockfd report w.kernel
  rw [step, hx]
  cases hfd : s.sockfd with
  | none =>
    have hdestroy : s.destroy report w.kernel = .ok () w.kernel := by
      rw [Socket.destroy, hfd]
      rfl
    refine ⟨.idle, ?_, fun _ => nofun⟩
    simp only [hdestroy]
    refine .idle ((fd_set w x none).trans ?_) rfl
    rw [Option.elim_none, ← hfd, ← fd_of_some hx, Function.update_eq_self]
  | of number acquisition =>
    have hdestroy : s.destroy report w.kernel = .ok () (w.kernel.close (w.fd x)) := by
      rw [Socket.destroy, if_pos (by rw [hfd]; exact Int.natCast_nonneg number), Lib.run_bind_ok hrun,
        fd_of_some hx, Lib.run_pure]
    refine ⟨.settle x, ?_, fun _ => nofun⟩
    simp only [hdestroy]
    exact .close (fd_set w x none) rfl

/-- An operation never keeps a number it has passed to `close`, other than a `Close` that throws. -/
theorem step_cases (w : World) (op : Op) :
    (∃ a, Effect w (w.step op) a ∧ ∀ y, a ≠ .overdue y) ∨
      ∃ x report, op = .close x report ∧ ¬ (w.kernel.IsOpen (w.fd x) ∧ report = none) ∧
        Effect w (w.step op) (.overdue x) := by
  have hidle : ∃ a, Effect w w a ∧ ∀ y, a ≠ .overdue y := ⟨.idle, .idle rfl rfl, fun _ => nofun⟩
  cases op with
  | default x =>
    apply Or.inl
    rw [step]
    cases hx : w.objects x with
    | some s => exact hidle
    | none =>
      refine ⟨.idle, .idle ((fd_set w x (some {})).trans ?_) rfl, fun _ => nofun⟩
      rw [Option.elim_some, ← fd_of_none hx, Function.update_eq_self]
  | make x family answer =>
    apply Or.inl
    rw [step]
    cases hx : w.objects x with
    | some s => exact hidle
    | none => exact effect_call hx (makes_make family answer w.kernel)
  | moveMake x y =>
    apply Or.inl
    rw [step]
    cases hx : w.objects x <;> cases hy : w.objects y
    case none.some b =>
      exact ⟨.swap x y, effect_exchange (fd_of_some hy).symm (fd_of_none hx).symm, fun _ => nofun⟩
    all_goals exact hidle
  | moveAssign x y =>
    apply Or.inl
    rw [step]
    cases hx : w.objects x <;> cases hy : w.objects y
    case some.some a b =>
      exact ⟨.swap x y, effect_exchange (fd_of_some hy).symm (fd_of_some hx).symm, fun _ => nofun⟩
    all_goals exact hidle
  | accept x y answers =>
    apply Or.inl
    rw [step]
    cases hx : w.objects x <;> cases hy : w.objects y
    case none.some b => exact effect_call hx (makes_accept b answers w.kernel)
    all_goals exact hidle
  | close x report =>
    cases hx : w.objects x with
    | none =>
      rw [step, hx]
      exact .inl hidle
    | some s =>
      have heffect := effect_close hx report
      rw [step, hx]
      split_ifs at heffect with hsuccess
      · exact .inl ⟨_, heffect, fun _ => nofun⟩
      · exact .inr ⟨x, report, rfl, hsuccess, heffect⟩
  | destroy x report =>
    cases hx : w.objects x with
    | none =>
      rw [step, hx]
      exact .inl hidle
    | some s => exact .inl (effect_destroy hx report)

/-! ### A process is a run of the ledger -/

theorem Effect.legal {w w' : World} {a : Lib.Ledger.Act ℕ} (h : Effect w w' a) : w.ledger.Legal a := by
  cases h with
  | acquire hnone => exact congrArg Fd.acquisition hnone
  | idle | swap | close | keep => trivial

theorem returned_close (w : World) (fd : Fd) :
    (w.kernel.close fd).closeCalls.filterMap Fd.acquisition = w.returned ++ fd.acquisition.toList := by
  cases fd with
  | none => rw [Kernel.close, List.filterMap_append]; rfl
  | of number acquisition => rw [Kernel.close, List.filterMap_append]; rfl

theorem Effect.ledger_eq {w w' : World} {a : Lib.Ledger.Act ℕ} (h : Effect w w' a) :
    w'.ledger = w.ledger.act a := by
  cases h with
  | idle hfd hkernel => rw [ledger, returned, hfd, hkernel]; rfl
  | @acquire x number hnone hfree hfd hkernel =>
    rw [ledger, returned, hfd, hkernel, Lib.Ledger.act, ledger]
    congr 1
    exact Function.comp_update Fd.acquisition w.fd x (.of number w.kernel.acquired)
  | swap hfd hkernel => rw [ledger, returned, hfd, hkernel]; rfl
  | @close x hfd hkernel =>
    rw [ledger, returned, hfd, hkernel, returned_close, Kernel.acquired_close, Lib.Ledger.act, ledger]
    congr 1
    exact Function.comp_update Fd.acquisition w.fd x .none
  | keep hfd hkernel =>
    rw [ledger, returned, hfd, hkernel, returned_close, Kernel.acquired_close]
    rfl

/-- What holds of a process in which every `Close` has succeeded. -/
structure Inv (w : World) : Prop where
  balanced : w.ledger.Balanced
  isOpen : ∀ x number acquisition, w.fd x = .of number acquisition →
    w.kernel.table number = some acquisition
  released_eq : w.kernel.released = w.returned

theorem inv_init : init.Inv where
  balanced := Lib.Ledger.balanced_empty
  isOpen _ _ _ h := nomatch h
  released_eq := rfl

theorem Inv.number_inj {w : World} (h : w.Inv) {x y number s t : ℕ} (hx : w.fd x = .of number s)
    (hy : w.fd y = .of number t) : y = x := by
  have hsame : s = t := by
    have hopen := h.isOpen x number s hx
    rw [h.isOpen y number t hy] at hopen
    exact (Option.some.inj hopen).symm
  apply h.balanced.unique y x t (congrArg Fd.acquisition hy)
  rw [← hsame]
  exact congrArg Fd.acquisition hx

theorem Inv.effect {w w' : World} {a : Lib.Ledger.Act ℕ} (h : w.Inv) (heffect : Effect w w' a)
    (hprompt : w.ledger.Prompt a) : w'.Inv := by
  have hbalanced : w'.ledger.Balanced := heffect.ledger_eq ▸ h.balanced.act heffect.legal hprompt
  cases heffect with
  | idle hfd hkernel =>
    refine ⟨hbalanced, ?_, ?_⟩
    · rw [hfd, hkernel]
      exact h.isOpen
    · rw [returned, hkernel]
      exact h.released_eq
  | @acquire x number hnone hfree hfd hkernel =>
    refine ⟨hbalanced, fun y n s hy => ?_, ?_⟩
    · rw [hfd, Function.update_apply] at hy
      rw [hkernel, Kernel.table_acquire, Function.update_apply]
      split_ifs at hy with hyx
      · obtain ⟨rfl, rfl⟩ := Fd.of.inj hy
        rw [if_pos rfl]
      · have hopen := h.isOpen y n s hy
        rw [if_neg fun heq => by rw [heq, hfree] at hopen; nomatch hopen]
        exact hopen
    · rw [returned, hkernel]
      exact h.released_eq
  | @swap x y hfd hkernel =>
    refine ⟨hbalanced, ?_, ?_⟩
    · rw [hfd, hkernel]
      exact fun z => h.isOpen (Equiv.swap x y z)
    · rw [returned, hkernel]
      exact h.released_eq
  | @close x hfd hkernel =>
    refine ⟨hbalanced, fun y n s hy => ?_, ?_⟩
    · rw [hfd, Function.update_apply] at hy
      split_ifs at hy with hyx
      have hopen := h.isOpen y n s hy
      rw [hkernel]
      cases hx : w.fd x with
      | none => exact hopen
      | of m s' =>
        have hne : n ≠ m := fun heq => hyx (h.number_inj hx (heq ▸ hy))
        exact (Function.update_of_ne hne ..).trans hopen
    · rw [returned, hkernel, returned_close]
      cases hx : w.fd x with
      | none => simpa [Kernel.close, Fd.acquisition] using h.released_eq
      | of m s =>
        rw [Kernel.close, h.isOpen x m s hx, h.released_eq]
        rfl
  | @keep x hfd hkernel =>
    have hnone : w.fd x = .none := Fd.eq_none_of_acquisition hprompt
    refine ⟨hbalanced, ?_, ?_⟩
    · rw [hfd, hkernel, hnone]
      exact h.isOpen
    · rw [returned, hkernel, returned_close, hnone]
      simpa [Kernel.close, Fd.acquisition] using h.released_eq

theorem Inv.step {w : World} {op : Op} (h : w.Inv) (hsucceeds : w.CloseSucceeds op) : (w.step op).Inv := by
  rcases step_cases w op with ⟨a, heffect, hne⟩ | ⟨x, report, rfl, hfail, heffect⟩
  · apply h.effect heffect
    cases a with
    | overdue y => exact absurd rfl (hne y)
    | idle | issue | swap | settle => trivial
  · apply h.effect heffect
    show (w.fd x).acquisition = none
    cases hx : w.fd x with
    | none => rfl
    | of number acquisition =>
      refine absurd ⟨?_, hsucceeds (by rw [hx]; nofun)⟩ hfail
      rw [hx, Kernel.IsOpen, h.isOpen x number acquisition hx]
      nofun

theorem spoiled_step {w : World} {op : Op} (h : w.ledger.Spoiled) : (w.step op).ledger.Spoiled := by
  rcases step_cases w op with ⟨a, heffect, -⟩ | ⟨x, report, -, -, heffect⟩ <;>
    exact heffect.ledger_eq ▸ h.act heffect.legal

theorem spoiled_of_not_closeSucceeds {w : World} {op : Op} (h : ¬ w.CloseSucceeds op) :
    (w.step op).ledger.Spoiled := by
  cases op with
  | close x report =>
    obtain ⟨hfd, hreport⟩ := Classical.not_imp.mp h
    cases hx : w.objects x with
    | none => exact absurd (fd_of_none hx) hfd
    | some s =>
      have heffect := effect_close hx report
      rw [if_neg (fun hand => hreport hand.2)] at heffect
      rw [World.step, hx, heffect.ledger_eq]
      exact Lib.Ledger.spoiled_overdue fun hacq => hfd (Fd.eq_none_of_acquisition hacq)
  | default | make | moveMake | moveAssign | accept | destroy => exact absurd trivial h

/-! ### Whole runs -/

/-- As long as every `Close` of a descriptor succeeds, no number is closed twice for one acquisition and at
the end every descriptor has been released once. A single one that throws breaks this by the time all
objects are gone. -/
theorem owned_run (ops : List Op) :
    (Lib.Along step CloseSucceeds init ops → (run ops).Owned) ∧
      ((run ops).Gone → ((run ops).Owned ↔ Lib.Along step CloseSucceeds init ops)) := by
  have hgone : (run ops).Gone → ∀ x, (run ops).ledger.hand x = none := fun h x =>
    congrArg Fd.acquisition (fd_of_none (h x))
  have howned : Lib.Along step CloseSucceeds init ops → (run ops).Owned := by
    intro h
    have hinv : (run ops).Inv := Lib.run_invariant (fun _ _ hw => hw.step) inv_init h
    refine ⟨hinv.balanced.nodup, ?_⟩
    intro hempty a ha
    rw [hinv.released_eq]
    exact hinv.balanced.count_returned (hgone hempty) ha
  refine ⟨howned, fun hempty => ⟨?_, howned⟩⟩
  intro h
  by_contra hfail
  have hspoiled : (run ops).ledger.Spoiled :=
    Lib.run_spoiled (I := fun _ => True) (J := fun w => w.ledger.Spoiled) (fun _ _ _ => trivial)
      (fun _ _ _ => spoiled_of_not_closeSucceeds) (fun _ _ => spoiled_step) trivial hfail
  exact hspoiled.not_nodup (hgone hempty) h.1

/-- An object whose `Close` was told `EINTR` closes number 3 again when it is destroyed, and by then the
number is another object's. -/
theorem close_twice :
    let opened : List Op := [.make 0 AF_INET (.ok 3), .close 0 (some .EINTR), .make 1 AF_INET (.ok 3)]
    (run opened).kernel.table 3 = some 1 ∧ (run opened).fd 1 = .of 3 1 ∧
      (run (opened ++ [.destroy 0 none])).kernel.table 3 = none ∧
      (run (opened ++ [.destroy 0 none])).fd 1 = .of 3 1 ∧
      ¬ (run (opened ++ [.destroy 0 none])).Owned :=
  ⟨rfl, rfl, rfl, rfl, fun h => absurd (show [0, 0].Nodup from h.1) (by decide)⟩

end World

end Cxx

end NetProg
