import NetProg.Cxx.Format
import NetProg.Lib.Run
import NetProg.System.Sockaddr

/-!
# `SocketAddress` of the C++ library

The address class of `lib/cxx/socket_address.cpp`, its printer `Sock_ntop`, and `Bind` and `Connect`, which
name the address in the message of the exception they throw. The printer throws an exception of its own for
a family it does not know, and it is called while the message is built: the cause of a failed `bind` or
`connect` is lost for the netlink addresses that the class itself builds (`keeps_cause_iff`). Like the printer
of the C library it does not look at `addrlen` before it reads the fields (`determined_iff`).
-/

namespace NetProg.Cxx
open Lib Sockaddr

def EAFNOSUPPORT : Errno := .other 97

/-- What a call throws, or that it reads past an object. -/
inductive Exception
  | systemError (ec : Errno) (what : Bytes)
  | format (failure : Util.Failure)
  | undefined
  deriving DecidableEq, Repr

/-- A computation that prints to `std::cerr`. -/
abbrev Printing := EStateM Exception Bytes

/-- What `Format` returns or throws. -/
def ofFormat : Except Util.Failure Bytes → Printing Bytes
  | .ok text => return text
  | .error failure => throw (.format failure)

/-- `Format(format, args...)`, which without arguments is the format string. The file name and the line that
`format_error_message` puts before the text are left out. -/
def formatErrorMessage (format : Bytes) : Option Util.Args → Printing Bytes
  | none => return format
  | some args => ofFormat (Util.format format args)

/-- `PrintRuntimeError(format, args...)`. -/
def printRuntimeError (format : Bytes) (args : Option Util.Args) : Printing Unit := do
  let msg ← formatErrorMessage format args
  modify (· ++ (msg ++ [newline]))

/-- `ThrowSystemErrorWithCode(ec, format, args...)`, and `ThrowSystemError` with `errno` for `ec`. -/
def throwSystemError {α : Type} (ec : Errno) (format : Bytes) (args : Option Util.Args) : Printing α := do
  let what ← formatErrorMessage format args
  throw (.systemError ec what)

theorem one_le_INT_MAX : 1 ≤ INT_MAX := by decide

theorem two_le_INT_MAX : 2 ≤ INT_MAX := by decide

/-- A single argument. -/
def oneArg (text : Bytes) : Option Util.Args := some ⟨[text], List.cons_ne_nil _ _, one_le_INT_MAX⟩

/-- Two arguments. -/
def twoArgs (text text' : Bytes) : Option Util.Args :=
  some ⟨[text, text'], List.cons_ne_nil _ _, two_le_INT_MAX⟩

/-- A read of an object. -/
def deref {α : Type} : Option α → Printing α
  | some a => return a
  | none => throw .undefined

/-! ### `Sock_ntop` -/

/-- The message for an unknown family. -/
def unknownFormat : Bytes := ascii "sock_ntop: unknown AF_xxx: \x7b\x7d, len \x7b\x7d"

/-- `Sock_ntop(addr, addrlen, ec)`: the text and `ec`. `Inet_ntop` does not fail for the two families. -/
def sockNtopEc (e : Endian) (ntop : InetNtop) (addr : Bytes) (addrlen : ℕ) :
    Printing (Bytes × Option Errno) := do
  let sa_family ← deref (saFamily e addr)
  if sa_family = Sockaddr.AF_INET then
    let sin_addr ← deref (field addr 4 4)
    let addr_str := ntop.text sin_addr
    if addr_str = [] then return ([], none)
    else
      let sin_port ← deref (field addr 2 2)
      if ofBe sin_port ≠ 0 then return (addr_str ++ (ascii ":" ++ decimalText (ofBe sin_port)), none)
      else return (addr_str, none)
  else if sa_family = Sockaddr.AF_INET6 then
    let sin6_addr ← deref (field addr 8 16)
    let addr_str := ntop.text sin6_addr
    if addr_str = [] then return ([], none)
    else
      let sin6_port ← deref (field addr 2 2)
      if ofBe sin6_port ≠ 0 then
        return (ascii "[" ++ addr_str ++ (ascii "]:" ++ decimalText (ofBe sin6_port)), none)
      else return (addr_str, none)
  else if sa_family = Sockaddr.AF_UNIX then
    let c ← deref addr[2]?
    if c = 0 then return (ascii "(no pathname bound)", none)
    else
      let sun_path ← deref (string addr 2)
      return (sun_path, none)
  else
    printRuntimeError unknownFormat (twoArgs (decimalText sa_family) (decimalText addrlen))
    return ([], some EAFNOSUPPORT)

/-- `Sock_ntop(addr, addrlen)`. -/
def sockNtop (e : Endian) (ntop : InetNtop) (addr : Bytes) (addrlen : ℕ) : Printing Bytes := do
  let (addr_str, ec) ← sockNtopEc e ntop addr addrlen
  match ec with
  | some ec => throwSystemError ec (ascii "Sock_ntop() error") none
  | none => return addr_str

/-! ### The class -/

/-- The object that `addr` points to, if any, and `addrlen`. -/
structure SocketAddress where
  addr : Option Bytes
  addrlen : ℕ
  deriving DecidableEq, Repr

/-- The `sa_family_t` or `in_port_t` of a number, in the byte order of the host. -/
def store16 : Endian → ℕ → Bytes
  | .little, n => [UInt8.ofNat n, UInt8.ofNat (n / 256)]
  | .big, n => [UInt8.ofNat (n / 256), UInt8.ofNat n]

namespace SocketAddress

/-- `SocketAddress(addr, addrlen)`: a copy of `addrlen` bytes. -/
def raw (addr : Bytes) (addrlen : ℕ) : SocketAddress := ⟨some (addr.take addrlen), addrlen⟩

/-- `SetIPv4(host, port)`, with `none` for `false`. An empty host, or none, is `0.0.0.0`. -/
def setIPv4 (e : Endian) (inet_pton : Bytes → Option (BitVec 32)) (host : Bytes) (port : BitVec 16) :
    Option SocketAddress :=
  let host := if host = [] then ascii "0.0.0.0" else host
  (inet_pton host).map fun sin_addr =>
    ⟨some (store16 e Sockaddr.AF_INET ++ store16 .big port.toNat ++ be32 sin_addr.toNat ++ List.replicate 8 0), 16⟩

/-- `SetUNIX(path)`, with `none` for `false`. -/
def setUNIX (e : Endian) (path : Bytes) : Option SocketAddress :=
  if path = [] then none
  else if 108 ≤ path.length then none
  else some ⟨some (store16 e Sockaddr.AF_UNIX ++ path ++ List.replicate (108 - path.length) 0), 110⟩

/-- `SetNetlink(groups, pid)`. -/
def setNetlink (e : Endian) (groups pid : BitVec 32) : SocketAddress :=
  ⟨some (store16 e Sockaddr.AF_NETLINK ++ [0, 0] ++ store e pid ++ store e groups), 12⟩

/-- `ToString()`. -/
def toString (e : Endian) (ntop : InetNtop) (a : SocketAddress) : Printing Bytes :=
  match a.addr with
  | none => return []
  | some addr => sockNtop e ntop addr a.addrlen

end SocketAddress

namespace Socket

def bindFormat : Bytes := ascii "bind('\x7b\x7d') error"

def connectFormat : Bytes := ascii "connect('\x7b\x7d') error"

/-- `Bind(sock_addr)`, when `bind` succeeds or reports an error. The message is an argument beside `errno`,
and building it leaves `errno` alone. -/
def bind (e : Endian) (ntop : InetNtop) (sock_addr : SocketAddress) : Option Errno → Printing Unit
  | none => return ()
  | some errno => do
    let text ← sock_addr.toString e ntop
    throwSystemError errno bindFormat (oneArg text)

/-- `Connect(sock_addr, ec)`, when `connect` succeeds or reports an error: the new `ec`. -/
def connectEc (ec answer : Option Errno) : Option Errno :=
  match answer with
  | none => ec
  | some errno => some errno

/-- `Connect(sock_addr)`. -/
def connect (e : Endian) (ntop : InetNtop) (sock_addr : SocketAddress) (answer : Option Errno) :
    Printing Unit := do
  match connectEc none answer with
  | none => return ()
  | some ec => do
    let text ← sock_addr.toString e ntop
    throwSystemError ec connectFormat (oneArg text)

end Socket

/-! ### What is printed -/

theorem unknownFormat_eq :
    unknownFormat = Util.automatic (ascii "sock_ntop: unknown AF_xxx: ") [ascii ", len ", []] := by
  decide

theorem length_ascii_le {s : String} (h : s.length ≤ INT_MAX) : (ascii s).length ≤ INT_MAX :=
  (length_ascii s).trans_le h

theorem formatErrorMessage_ok {format text : Bytes} {args : Util.Args}
    (h : Util.format format args = .ok text) : formatErrorMessage format (some args) = pure text := by
  change ofFormat (Util.format format args) = pure text
  rw [h]
  rfl

theorem formatErrorMessage_automatic {format s : Bytes} {segments : List Bytes}
    (hformat : format = Util.automatic s segments) (hlen : format.length ≤ INT_MAX) {args : Util.Args}
    (hargs : segments.length ≤ args.texts.length) :
    formatErrorMessage format (some args) = pure (s ++ Util.interleave args.texts segments) := by
  have hrun := Util.format_eq_interleave args s (hformat ▸ hlen)
  rw [if_pos hargs, ← hformat] at hrun
  exact formatErrorMessage_ok hrun

theorem interleave_one (a c : Bytes) : Util.interleave [a] [c] = a ++ c := by
  simp [Util.interleave]

theorem interleave_two (a b c : Bytes) : Util.interleave [a, b] [c, []] = a ++ (c ++ b) := by
  simp [Util.interleave]

/-- What is printed to `std::cerr` for a family that the printer does not know. -/
def unknownFamily (sa_family addrlen : ℕ) : Bytes :=
  ascii "sock_ntop: unknown AF_xxx: " ++
    (decimalText sa_family ++ (ascii ", len " ++ decimalText addrlen)) ++ [newline]

theorem printRuntimeError_unknown (sa_family addrlen : ℕ) (cerr : Bytes) :
    printRuntimeError unknownFormat (twoArgs (decimalText sa_family) (decimalText addrlen)) cerr =
      .ok () (cerr ++ unknownFamily sa_family addrlen) := by
  have hmessage : formatErrorMessage unknownFormat (twoArgs (decimalText sa_family) (decimalText addrlen)) =
      pure (ascii "sock_ntop: unknown AF_xxx: " ++
        (decimalText sa_family ++ (ascii ", len " ++ decimalText addrlen))) := by
    rw [twoArgs, formatErrorMessage_automatic unknownFormat_eq (length_ascii_le (by decide)) (le_refl 2),
      interleave_two]
  rw [printRuntimeError, hmessage, pure_bind]
  rfl

/-- The text of an address of a family that the printer knows. -/
def addressText (ntop : InetNtop) : Address → Bytes
  | .inet a port => if port ≠ 0 then ntop.text a ++ (ascii ":" ++ decimalText port) else ntop.text a
  | .inet6 a port =>
    if port ≠ 0 then ascii "[" ++ ntop.text a ++ (ascii "]:" ++ decimalText port) else ntop.text a
  | .unix path => if path = [] then ascii "(no pathname bound)" else path
  | .other _ => []

/-- What the printer does with an address that it has read. -/
def printed (ntop : InetNtop) (addrlen : ℕ) : Address → Printing Bytes
  | .other family => do
    modify (· ++ unknownFamily family addrlen)
    throw (.systemError EAFNOSUPPORT (ascii "Sock_ntop() error"))
  | a => return addressText ntop a

theorem sockNtop_eq (e : Endian) (ntop : InetNtop) (addr : Bytes) (addrlen : ℕ) :
    sockNtop e ntop addr addrlen = deref (address e addr) >>= printed ntop addrlen := by
  unfold sockNtop sockNtopEc address
  cases saFamily e addr with
  | none => rfl
  | some family =>
    simp only [Option.bind_some, deref, pure_bind]
    split_ifs with hinet hinet6 hunix
    · cases field addr 4 4 with
      | none => rfl
      | some sin_addr =>
        simp only [pure_bind, if_neg (ntop.text_ne_nil sin_addr), Option.bind_some]
        cases field addr 2 2 with
        | none => rfl
        | some port =>
          simp only [pure_bind, Option.map_some, printed, addressText]
          split_ifs <;> rfl
    · cases field addr 8 16 with
      | none => rfl
      | some sin6_addr =>
        simp only [pure_bind, if_neg (ntop.text_ne_nil sin6_addr), Option.bind_some]
        cases field addr 2 2 with
        | none => rfl
        | some port =>
          simp only [pure_bind, Option.map_some, printed, addressText]
          split_ifs <;> rfl
    · rcases string_cases addr 2 with ⟨hchar, hstring⟩ | ⟨hchar, hstring⟩ | ⟨c, hc, hchar, hstring⟩
      · rw [hchar, hstring]
        rfl
      · rw [hchar, hstring]
        rfl
      · simp only [hchar, pure_bind, if_neg hc]
        cases hpath : string addr 2 with
        | none => rfl
        | some path =>
          have hne : path ≠ [] := fun hnil => hstring (by rw [hpath, hnil])
          simp only [pure_bind, Option.map_some, printed, addressText, if_neg hne]
    · funext cerr
      rw [bind_assoc, run_bind_ok (printRuntimeError_unknown family addrlen cerr)]
      rfl

theorem printed_other {ntop : InetNtop} {addrlen family : ℕ} (cerr : Bytes) :
    printed ntop addrlen (.other family) cerr =
      .error (.systemError EAFNOSUPPORT (ascii "Sock_ntop() error")) (cerr ++ unknownFamily family addrlen) :=
  run_modify_bind _ _ _

theorem printed_of_known {ntop : InetNtop} {addrlen : ℕ} {a : Address} (h : ∀ family, a ≠ .other family) :
    printed ntop addrlen a = pure (addressText ntop a) := by
  cases a with
  | other family => exact absurd rfl (h family)
  | _ => rfl

/-- What is seen of a call that starts with nothing on `std::cerr`: what it returns or throws, and what it has
printed. A call that reads outside of an object is not defined. -/
def seen {α : Type} (x : Printing α) : Option (Except Exception α × Bytes) :=
  match x [] with
  | .ok a cerr => some (.ok a, cerr)
  | .error .undefined _ => none
  | .error thrown cerr => some (.error thrown, cerr)

/-- What is seen of the printer when it has read an address. -/
def seenOf (ntop : InetNtop) (addrlen : ℕ) : Address → Except Exception Bytes × Bytes
  | .other family =>
    (.error (.systemError EAFNOSUPPORT (ascii "Sock_ntop() error")), unknownFamily family addrlen)
  | a => (.ok (addressText ntop a), [])

theorem seen_sockNtop (e : Endian) (ntop : InetNtop) (addr : Bytes) (addrlen : ℕ) :
    seen (sockNtop e ntop addr addrlen) = (address e addr).map (seenOf ntop addrlen) := by
  rw [sockNtop_eq]
  cases address e addr with
  | none => rfl
  | some a =>
    rw [deref, pure_bind]
    cases a with
    | inet sin_addr port => rfl
    | inet6 sin6_addr port => rfl
    | unix path => rfl
    | other family =>
      rw [seen, printed_other]
      rfl

theorem determined_iff (e : Endian) (ntop : InetNtop) (addrlen : ℕ) (addr : Bytes) :
    Determined (fun addr => seen (sockNtop e ntop addr addrlen)) addrlen addr ↔
      Covers e (addr.take addrlen) := by
  simp only [seen_sockNtop]
  apply Sockaddr.determined_iff
  · intro port a a' hlen h
    apply ntop.text_injective a a' hlen
    simp only [seenOf, addressText, Prod.mk.injEq, Except.ok.injEq, and_true] at h
    split at h
    · exact List.append_cancel_right h
    · exact h
  · intro port a a' hlen h
    apply ntop.text_injective a a' hlen
    simp only [seenOf, addressText, Prod.mk.injEq, Except.ok.injEq, and_true] at h
    split at h
    · exact List.append_cancel_left (List.append_cancel_right h)
    · exact h
  · intro f f' h
    simp only [seenOf, Prod.mk.injEq, true_and, unknownFamily] at h
    exact decimalText_injective
      (List.append_cancel_right (List.append_cancel_left (List.append_cancel_right h)))

/-! ### What `Bind` and `Connect` throw -/

namespace Socket

theorem bindFormat_eq : bindFormat = Util.automatic (ascii "bind('") [ascii "') error"] := by
  decide

theorem connectFormat_eq : connectFormat = Util.automatic (ascii "connect('") [ascii "') error"] := by
  decide

theorem throwSystemError_automatic {α : Type} {format s : Bytes} {segments : List Bytes}
    (hformat : format = Util.automatic s segments) (hlen : format.length ≤ INT_MAX) {args : Util.Args}
    (hargs : segments.length ≤ args.texts.length) (errno : Errno) (cerr : Bytes) :
    @throwSystemError α errno format (some args) cerr =
      .error (.systemError errno (s ++ Util.interleave args.texts segments)) cerr := by
  rw [throwSystemError, formatErrorMessage_automatic hformat hlen hargs]
  rfl

theorem throwSystemError_oneArg {format s t : Bytes} (hformat : format = Util.automatic s [t])
    (hlen : format.length ≤ INT_MAX) (errno : Errno) (text cerr : Bytes) :
    throwSystemError (α := Unit) errno format (oneArg text) cerr =
      .error (.systemError errno (s ++ (text ++ t))) cerr := by
  rw [oneArg, throwSystemError_automatic hformat hlen (le_refl 1), interleave_one]

/-- What is thrown is a `std::system_error` with this code. -/
def ThrowsCode (x : Printing Unit) (ec : Errno) : Prop :=
  ∀ cerr, ∃ what cerr', x cerr = .error (.systemError ec what) cerr'

/-- A message that names an address replaces the error if the printer does not know its family, and is not
made at all if the printer leaves the object. -/
theorem throwsCode_iff {format s t : Bytes} (hformat : format = Util.automatic s [t])
    (hlen : format.length ≤ INT_MAX) (e : Endian) (ntop : InetNtop) (addr : Bytes) (addrlen : ℕ)
    (errno : Errno) :
    ThrowsCode (sockNtop e ntop addr addrlen >>= fun text => throwSystemError errno format (oneArg text))
        errno ↔
      ∃ a, address e addr = some a ∧ ((∃ family, a = .other family) → errno = EAFNOSUPPORT) := by
  have hthrow : ∀ text, ThrowsCode (throwSystemError errno format (oneArg text)) errno := fun text cerr =>
    ⟨_, _, throwSystemError_oneArg hformat hlen errno text cerr⟩
  rw [sockNtop_eq]
  cases address e addr with
  | none =>
    constructor
    · intro h
      obtain ⟨what, cerr', hrun⟩ := h []
      exact absurd hrun (by intro heq; cases heq)
    · rintro ⟨a, ha, -⟩
      cases ha
  | some a =>
    rw [deref, pure_bind]
    by_cases hother : ∃ family, a = .other family
    · obtain ⟨family, rfl⟩ := hother
      have hrun : ∀ cerr, (printed ntop addrlen (.other family) >>= fun text =>
          throwSystemError errno format (oneArg text) : Printing Unit) cerr =
            .error (.systemError EAFNOSUPPORT (ascii "Sock_ntop() error"))
              (cerr ++ unknownFamily family addrlen) := fun cerr => run_bind_error (printed_other cerr)
      constructor
      · intro h
        obtain ⟨what, cerr', hcode⟩ := h []
        rw [hrun] at hcode
        simp only [EStateM.Result.error.injEq, Exception.systemError.injEq] at hcode
        exact ⟨_, rfl, fun _ => hcode.1.1.symm⟩
      · rintro ⟨a, ha, hcode⟩
        have hnosupport := hcode ⟨family, (Option.some.inj ha).symm⟩
        subst hnosupport
        intro cerr
        exact ⟨_, _, hrun cerr⟩
    · rw [printed_of_known fun family heq => hother ⟨family, heq⟩, pure_bind]
      exact ⟨fun _ => ⟨a, rfl, fun h => absurd h hother⟩, fun _ => hthrow _⟩

end Socket

namespace SocketAddress

/-- The bytes of the object. -/
def bytes (a : SocketAddress) : Bytes := a.addr.getD []

/-- The addresses that the class can build. A raw copy is of an object that has all its bytes, at least
those of the structure of its family; an address of the unix domain can have any length from its family on.
-/
inductive Built (e : Endian) : SocketAddress → Prop
  | ipv4 {inet_pton : Bytes → Option (BitVec 32)} {host : Bytes} {port : BitVec 16} {a : SocketAddress}
      (h : setIPv4 e inet_pton host port = some a) : Built e a
  | unix {path : Bytes} {a : SocketAddress} (h : setUNIX e path = some a) : Built e a
  | netlink (groups pid : BitVec 32) : Built e (setNetlink e groups pid)
  | rawIPv4 {addr : Bytes} {addrlen : ℕ} (hlen : addrlen ≤ addr.length) (hsize : 16 ≤ addrlen)
      (hfamily : saFamily e (addr.take addrlen) = some Sockaddr.AF_INET) : Built e (raw addr addrlen)
  | rawIPv6 {addr : Bytes} {addrlen : ℕ} (hlen : addrlen ≤ addr.length) (hsize : 28 ≤ addrlen)
      (hfamily : saFamily e (addr.take addrlen) = some Sockaddr.AF_INET6) : Built e (raw addr addrlen)
  | rawUnix {addr : Bytes} {addrlen : ℕ} (hlen : addrlen ≤ addr.length)
      (hfamily : saFamily e (addr.take addrlen) = some Sockaddr.AF_UNIX) : Built e (raw addr addrlen)

theorem saFamily_store16 {n : ℕ} (hn : n < 2 ^ 16) (e : Endian) (rest : Bytes) :
    saFamily e (store16 e n ++ rest) = some n := by
  cases e <;> simp [saFamily, store16, load16] <;> omega

@[simp] theorem length_store16 (e : Endian) (n : ℕ) : (store16 e n).length = 2 := by
  cases e <;> rfl

theorem ofBe_store16 {n : ℕ} (hn : n < 2 ^ 16) : ofBe (store16 .big n) = n := by
  simp only [store16, ofBe, List.foldl_cons, List.foldl_nil, UInt8.toNat_ofNat']
  omega

theorem Built.cases {e : Endian} {a : SocketAddress} (h : Built e a) :
    ∃ addr, a.addr = some addr ∧
      (saFamily e addr = some Sockaddr.AF_INET ∧ 16 ≤ addr.length ∨
        saFamily e addr = some Sockaddr.AF_INET6 ∧ 28 ≤ addr.length ∨
        saFamily e addr = some Sockaddr.AF_UNIX ∨ saFamily e addr = some Sockaddr.AF_NETLINK) := by
  cases h with
  | ipv4 h =>
    obtain ⟨sin_addr, -, rfl⟩ := Option.map_eq_some_iff.1 h
    refine ⟨_, rfl, .inl ⟨?_, ?_⟩⟩
    · rw [List.append_assoc, List.append_assoc]
      exact saFamily_store16 (by decide) e _
    · cases e <;> simp [store16]
  | unix h =>
    unfold setUNIX at h
    split_ifs at h
    cases h
    refine ⟨_, rfl, .inr (.inr (.inl ?_))⟩
    rw [List.append_assoc]
    exact saFamily_store16 (by decide) e _
  | netlink groups pid =>
    refine ⟨_, rfl, .inr (.inr (.inr ?_))⟩
    rw [List.append_assoc, List.append_assoc]
    exact saFamily_store16 (by decide) e _
  | rawIPv4 hlen hsize hfamily =>
    exact ⟨_, rfl, .inl ⟨hfamily, by rw [List.length_take]; omega⟩⟩
  | rawIPv6 hlen hsize hfamily =>
    exact ⟨_, rfl, .inr (.inl ⟨hfamily, by rw [List.length_take]; omega⟩)⟩
  | rawUnix hlen hfamily => exact ⟨_, rfl, .inr (.inr (.inl hfamily))⟩

/-- Of an address that was built the printer can read all but a path that is not terminated, and it knows all
families but one. -/
theorem Built.address_iff {e : Endian} {a : SocketAddress} (h : Built e a) (errno : Errno) :
    (∃ addr, address e a.bytes = some addr ∧ ((∃ family, addr = .other family) → errno = EAFNOSUPPORT)) ↔
      (saFamily e a.bytes = some Sockaddr.AF_UNIX → 0 ∈ a.bytes.drop 2) ∧
        (saFamily e a.bytes = some Sockaddr.AF_NETLINK → errno = EAFNOSUPPORT) := by
  obtain ⟨addr, haddr, hkind⟩ := h.cases
  have hbytes : a.bytes = addr := by
    rw [bytes, haddr]
    rfl
  rw [hbytes]
  have hfield : ∀ {start size : ℕ}, start + size ≤ addr.length →
      field addr start size = some ((addr.drop start).take size) := fun hle => if_pos hle
  unfold address
  rcases hkind with ⟨hfamily, hsize⟩ | ⟨hfamily, hsize⟩ | hfamily | hfamily
  · rw [hfamily, Option.bind_some, if_pos rfl, hfield (by omega), hfield (by omega)]
    simp [Sockaddr.AF_INET, Sockaddr.AF_UNIX, Sockaddr.AF_NETLINK]
  · rw [hfamily, Option.bind_some, if_neg (by decide), if_pos rfl, hfield (by omega), hfield (by omega)]
    simp [Sockaddr.AF_INET6, Sockaddr.AF_UNIX, Sockaddr.AF_NETLINK]
  · rw [hfamily, Option.bind_some, if_neg (by decide), if_neg (by decide), if_pos rfl, string]
    by_cases hzero : 0 ∈ addr.drop 2
    · simp [hzero, Sockaddr.AF_UNIX, Sockaddr.AF_NETLINK]
    · simp [hzero, Sockaddr.AF_UNIX, Sockaddr.AF_NETLINK]
  · rw [hfamily, Option.bind_some, if_neg (by decide), if_neg (by decide), if_neg (by decide)]
    simp [Sockaddr.AF_UNIX, Sockaddr.AF_NETLINK]

end SocketAddress

namespace Socket
open SocketAddress

theorem bind_throwsCode_iff (e : Endian) (ntop : InetNtop) (addr : Bytes) (addrlen : ℕ) (errno : Errno) :
    ThrowsCode (bind e ntop ⟨some addr, addrlen⟩ (some errno)) errno ↔
      ∃ a, address e addr = some a ∧ ((∃ family, a = .other family) → errno = EAFNOSUPPORT) := by
  exact throwsCode_iff bindFormat_eq (length_ascii_le (by decide)) e ntop addr addrlen errno

theorem connect_throwsCode_iff (e : Endian) (ntop : InetNtop) (addr : Bytes) (addrlen : ℕ) (errno : Errno) :
    ThrowsCode (connect e ntop ⟨some addr, addrlen⟩ (some errno)) errno ↔
      ∃ a, address e addr = some a ∧ ((∃ family, a = .other family) → errno = EAFNOSUPPORT) := by
  exact throwsCode_iff connectFormat_eq (length_ascii_le (by decide)) e ntop addr addrlen errno

/-- `Bind` and `Connect` throw the error they met exactly if the path of an address of the unix domain is
terminated inside the copy and the address is no netlink address, whose own error takes the place of every
other. -/
theorem keeps_cause_iff {e : Endian} {a : SocketAddress} (h : Built e a) (ntop : InetNtop) (errno : Errno) :
    ThrowsCode (bind e ntop a (some errno)) errno ∧ ThrowsCode (connect e ntop a (some errno)) errno ↔
      (saFamily e a.bytes = some Sockaddr.AF_UNIX → 0 ∈ a.bytes.drop 2) ∧
        (saFamily e a.bytes = some Sockaddr.AF_NETLINK → errno = EAFNOSUPPORT) := by
  rw [← h.address_iff]
  obtain ⟨addr, haddr, -⟩ := h.cases
  obtain ⟨addr', addrlen⟩ := a
  cases haddr
  rw [bind_throwsCode_iff, connect_throwsCode_iff, and_self]
  rfl

/-- The path `/a`, which is in use (98), and 127.0.0.1, which refuses the connection (111). -/
theorem keeps_cause_iff_unix :
    let path : SocketAddress := ⟨some ([1, 0, 47, 97] ++ List.replicate 106 0), 110⟩
    let host : SocketAddress := ⟨some [2, 0, 0, 80, 127, 0, 0, 1, 0, 0, 0, 0, 0, 0, 0, 0], 16⟩
    (ThrowsCode (bind .little .dotted path (some (.other 98))) (.other 98) ∧
        ThrowsCode (connect .little .dotted path (some (.other 98))) (.other 98)) ∧
      ThrowsCode (bind .little .dotted host (some (.other 111))) (.other 111) ∧
        ThrowsCode (connect .little .dotted host (some (.other 111))) (.other 111) := by
  intro path host
  have hpath : setUNIX .little [47, 97] = some path := by decide
  have hhost : setIPv4 .little (fun _ => some 0x7f000001) [] 80 = some host := by decide
  exact ⟨(keeps_cause_iff (.unix hpath) .dotted (.other 98)).2 ⟨fun _ => by decide, by decide⟩,
    (keeps_cause_iff (.ipv4 hhost) .dotted (.other 111)).2 ⟨by decide, by decide⟩⟩

/-- A netlink address that is in use: error 98 is reported, and 97 is thrown. -/
theorem netlink_loses_cause :
    Built .little (setNetlink .little 1 0) ∧
      ¬ ThrowsCode (bind .little .dotted (setNetlink .little 1 0) (some (.other 98))) (.other 98) ∧
      ¬ ThrowsCode (connect .little .dotted (setNetlink .little 1 0) (some (.other 98))) (.other 98) := by
  have haddress : address .little [16, 0, 0, 0, 0, 0, 0, 0, 1, 0, 0, 0] = some (.other 16) := by decide
  refine ⟨.netlink 1 0, ?_, ?_⟩
  · intro h
    obtain ⟨a, ha, hcode⟩ := (bind_throwsCode_iff _ _ _ _ _).1 h
    exact absurd (hcode ⟨16, Option.some.inj (ha.symm.trans haddress)⟩) (by decide)
  · intro h
    obtain ⟨a, ha, hcode⟩ := (connect_throwsCode_iff _ _ _ _ _).1 h
    exact absurd (hcode ⟨16, Option.some.inj (ha.symm.trans haddress)⟩) (by decide)

end Socket

end NetProg.Cxx
