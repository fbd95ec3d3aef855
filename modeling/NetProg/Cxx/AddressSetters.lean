import NetProg.Cxx.SocketAddress
import NetProg.Lib.Register

/-!
# The setters of `SocketAddress`

`SetIPv4`, `SetUNIX` and `SetNetlink` of `lib/cxx/socket_address.cpp` build a new object beside the old one
and move it in place when nothing can fail any more, so a call that returns `false` has changed nothing
(`setters_call`, with `Setters` of `Lib.Register`). What they build reads back as what they were given
(`readsBack`), and after any sequence of calls that is true of the last one that has returned `true`
(`setters_read_back`). The allocation of the new object is taken to succeed.
-/

namespace NetProg.Cxx
open Lib Sockaddr

/-- A C string. -/
structure CString where
  bytes : Bytes
  noNul : 0 ∉ bytes
  deriving DecidableEq

/-- What `inet_pton(AF_INET, host, &sin_addr)` can come to. -/
inductive PtonAnswer
  | accepts (sin_addr : BitVec 32)
  | rejects
  | fails (errno : Errno)
  deriving DecidableEq, Repr

/-- The functions of the C library that the class calls. -/
structure Libc where
  inet_pton : Bytes → PtonAnswer
  strerror : Errno → Bytes

/-- The address that a text presents. -/
def Libc.pton (libc : Libc) (host : Bytes) : Option (BitVec 32) :=
  match libc.inet_pton host with
  | .accepts sin_addr => some sin_addr
  | _ => none

/-- An object of the class, and what was printed to `std::cerr`. -/
structure AddressObject where
  object : SocketAddress
  cerr : Bytes
  deriving DecidableEq

/-- A member of `SocketAddress` that can throw, print to `cerr` and change the object. -/
abbrev Setting := EStateM Exception AddressObject

/-- The output, as a part of the state. -/
def AddressObject.cerrLens : Lens AddressObject Bytes where
  get := AddressObject.cerr
  put cerr s := { s with cerr }
  get_put _ _ := rfl
  put_put _ _ _ := rfl

/-- What a member prints. -/
def Setting.prints {α : Type} (x : Printing α) : Setting α := AddressObject.cerrLens.lift x

/-- `PrintSystemError(format, args...)`. -/
def printSystemError (libc : Libc) (errno : Errno) (format : Bytes) (args : Option Util.Args) :
    Printing Unit := do
  let msg ← formatErrorMessage format args
  modify (· ++ (msg ++ (ascii ": " ++ (libc.strerror errno ++ [newline]))))

/-! ### The code -/

namespace AddressObject

/-- `addr = std::move(buf); addrlen = …;` -/
def commit (a : SocketAddress) : Setting Bool := do
  modify fun s => { s with object := a }
  return true

def ptonFormat : Bytes := ascii "inet_pton('\x7b\x7d') error"
def presentationFormat : Bytes := ascii "inet_pton('\x7b\x7d') error: Not in presentation format"
def tooLongFormat : Bytes := ascii "SetUNIX error: path [\x7b\x7d] is too long"

/-- The text that `SetIPv4` takes for its host. -/
def hostText : Option CString → Bytes
  | none => ascii "0.0.0.0"
  | some host => if host.bytes = [] then ascii "0.0.0.0" else host.bytes

/-- A `sockaddr_in`. -/
def sockaddrIn (e : Endian) (sin_port : BitVec 16) (sin_addr : BitVec 32) : SocketAddress :=
  ⟨some (store16 e Sockaddr.AF_INET ++ store16 .big sin_port.toNat ++ be32 sin_addr.toNat ++
    List.replicate 8 0), 16⟩

/-- A `sockaddr_un` with a path that was copied by `strcpy`. -/
def sockaddrUn (e : Endian) (sun_path : Bytes) : SocketAddress :=
  ⟨some (store16 e Sockaddr.AF_UNIX ++ sun_path ++ List.replicate (108 - sun_path.length) 0), 110⟩

/-- `SetIPv4(host, port)`. -/
def setIPv4 (e : Endian) (libc : Libc) (host : Option CString) (port : BitVec 16) : Setting Bool :=
  match libc.inet_pton (hostText host) with
  | .fails errno => do
    Setting.prints (printSystemError libc errno ptonFormat (oneArg (hostText host)))
    return false
  | .rejects => do
    Setting.prints (printRuntimeError presentationFormat (oneArg (hostText host)))
    return false
  | .accepts sin_addr => commit (sockaddrIn e port sin_addr)

/-- `SetUNIX(path)`. -/
def setUNIX (e : Endian) (path : Option CString) : Setting Bool :=
  match path with
  | none => return false
  | some path =>
    if path.bytes = [] then return false
    else if 108 ≤ path.bytes.length then do
      Setting.prints (printRuntimeError tooLongFormat (oneArg path.bytes))
      return false
    else commit (sockaddrUn e path.bytes)

/-- `SetNetlink(groups, pid)`. -/
def setNetlink (e : Endian) (groups pid : BitVec 32) : Setting Bool :=
  commit (SocketAddress.setNetlink e groups pid)

end AddressObject

namespace SocketAddress

def ipAddressFormat : Bytes := ascii "SocketAddress::IPAddress: unsupported AF_xxx: \x7b\x7d, len \x7b\x7d"
def ipPortFormat : Bytes := ascii "SocketAddress::IPPort: unsupported AF_xxx: \x7b\x7d, len \x7b\x7d"

/-- `IPAddress()`. `Inet_ntop` does not fail for the two families. -/
def ipAddress (e : Endian) (ntop : InetNtop) (a : SocketAddress) : Printing Bytes :=
  match a.addr with
  | none => return []
  | some addr => do
    let sa_family ← deref (saFamily e addr)
    if sa_family = Sockaddr.AF_INET then
      let sin_addr ← deref (field addr 4 4)
      return ntop.text sin_addr
    else if sa_family = Sockaddr.AF_INET6 then
      let sin6_addr ← deref (field addr 8 16)
      return ntop.text sin6_addr
    else
      printRuntimeError ipAddressFormat (twoArgs (decimalText sa_family) (decimalText a.addrlen))
      return []

/-- `IPPort()`. -/
def ipPort (e : Endian) (a : SocketAddress) : Printing ℤ :=
  match a.addr with
  | none => return -1
  | some addr => do
    let sa_family ← deref (saFamily e addr)
    if sa_family = Sockaddr.AF_INET ∨ sa_family = Sockaddr.AF_INET6 then
      let sin_port ← deref (field addr 2 2)
      return ofBe sin_port
    else
      printRuntimeError ipPortFormat (twoArgs (decimalText sa_family) (decimalText a.addrlen))
      return -1

end SocketAddress

/-! ### What a call sets -/

/-- The arguments of a setter. -/
inductive SetterCall
  | ipv4 (host : Option CString) (port : BitVec 16)
  | unix (path : Option CString)
  | netlink (groups pid : BitVec 32)
  deriving DecidableEq

namespace SetterCall

/-- The setter that is called. -/
def call (e : Endian) (libc : Libc) : SetterCall → Setting Bool
  | .ipv4 host port => AddressObject.setIPv4 e libc host port
  | .unix path => AddressObject.setUNIX e path
  | .netlink groups pid => AddressObject.setNetlink e groups pid

/-- The address that a call sets, or `none` for a call that is refused. -/
def value (e : Endian) (libc : Libc) : SetterCall → Option SocketAddress
  | .ipv4 host port => SocketAddress.setIPv4 e libc.pton (AddressObject.hostText host) port
  | .unix path => path.bind fun path => SocketAddress.setUNIX e path.bytes
  | .netlink groups pid => some (SocketAddress.setNetlink e groups pid)

/-- The arguments that a setter is to take. -/
def Accepted (libc : Libc) : SetterCall → Prop
  | .ipv4 host _ => ∃ sin_addr, libc.inet_pton (AddressObject.hostText host) = .accepts sin_addr
  | .unix path => ∃ sun_path, path = some sun_path ∧ sun_path.bytes ≠ [] ∧ sun_path.bytes.length < 108
  | .netlink _ _ => True

/-- What an address reads back as after a call has set it, with nothing printed. No member of the class reads
the fields of a netlink address. -/
def ReadsBack (e : Endian) (libc : Libc) (ntop : InetNtop) (a : SocketAddress) : SetterCall → Prop
  | .ipv4 host port =>
    ∃ sin_addr, libc.inet_pton (AddressObject.hostText host) = .accepts sin_addr ∧
      a.ipPort e = pure (port.toNat : ℤ) ∧ a.ipAddress e ntop = pure (ntop.text (be32 sin_addr.toNat)) ∧
      a.toString e ntop = pure (addressText ntop (.inet (be32 sin_addr.toNat) port.toNat))
  | .unix path => ∃ sun_path, path = some sun_path ∧ a.toString e ntop = pure sun_path.bytes
  | .netlink groups pid =>
    ∃ addr, a = ⟨some addr, 12⟩ ∧ saFamily e addr = some Sockaddr.AF_NETLINK ∧
      (field addr 4 4).map (load e) = some pid ∧ (field addr 8 4).map (load e) = some groups

end SetterCall

section

variable {e : Endian} {libc : Libc} {s : AddressObject}

/-! ### What a call does -/

theorem printRuntimeError_returns {format before behind : Bytes}
    (hformat : format = Util.automatic before [behind]) (hlen : format.length ≤ INT_MAX) (text cerr : Bytes) :
    ∃ cerr', printRuntimeError format (oneArg text) cerr = .ok () cerr' := by
  rw [printRuntimeError, oneArg, formatErrorMessage_automatic hformat hlen (le_refl 1)]
  exact ⟨_, rfl⟩

theorem printSystemError_returns {format before behind : Bytes}
    (hformat : format = Util.automatic before [behind]) (hlen : format.length ≤ INT_MAX) (errno : Errno)
    (text cerr : Bytes) : ∃ cerr', printSystemError libc errno format (oneArg text) cerr = .ok () cerr' := by
  rw [printSystemError, oneArg, formatErrorMessage_automatic hformat hlen (le_refl 1)]
  exact ⟨_, rfl⟩

theorem prints_refuses {x : Printing Unit} (h : ∃ cerr, x s.cerr = .ok () cerr) :
    ∃ cerr, (do Setting.prints x; return false : Setting Bool) s = .ok false { s with cerr } := by
  obtain ⟨cerr, hrun⟩ := h
  have hprints : Setting.prints x s = .ok () { s with cerr } := AddressObject.cerrLens.lift_ok hrun
  exact ⟨cerr, run_bind_ok hprints⟩

namespace AddressObject

theorem ptonFormat_eq : ptonFormat = Util.automatic (ascii "inet_pton('") [ascii "') error"] := by
  decide

theorem presentationFormat_eq : presentationFormat =
    Util.automatic (ascii "inet_pton('") [ascii "') error: Not in presentation format"] := by
  decide

theorem tooLongFormat_eq :
    tooLongFormat = Util.automatic (ascii "SetUNIX error: path [") [ascii "] is too long"] := by
  decide

theorem hostText_ne_nil (host : Option CString) : hostText host ≠ [] := by
  cases host with
  | none => decide
  | some host =>
    rw [hostText]
    split_ifs with hnil
    · decide
    · exact hnil

theorem setIPv4_eq (host : Option CString) (port : BitVec 16) :
    SocketAddress.setIPv4 e libc.pton (hostText host) port =
      (libc.pton (hostText host)).map (sockaddrIn e port) := by
  rw [SocketAddress.setIPv4, if_neg (hostText_ne_nil host)]
  rfl

theorem setIPv4_spec (host : Option CString) (port : BitVec 16) :
    ∃ cerr, setIPv4 e libc host port s =
      .ok (SocketAddress.setIPv4 e libc.pton (hostText host) port).isSome
        ⟨(SocketAddress.setIPv4 e libc.pton (hostText host) port).getD s.object, cerr⟩ := by
  rw [setIPv4_eq, setIPv4, Libc.pton]
  cases libc.inet_pton (hostText host) with
  | accepts sin_addr => exact ⟨s.cerr, rfl⟩
  | rejects =>
    exact prints_refuses (printRuntimeError_returns presentationFormat_eq (length_ascii_le (by decide)) _ _)
  | fails errno =>
    exact prints_refuses (printSystemError_returns ptonFormat_eq (length_ascii_le (by decide)) errno _ _)

theorem setUNIX_spec (path : Option CString) :
    ∃ cerr, setUNIX e path s =
      .ok (path.bind fun path => SocketAddress.setUNIX e path.bytes).isSome
        ⟨(path.bind fun path => SocketAddress.setUNIX e path.bytes).getD s.object, cerr⟩ := by
  rcases path with _ | path
  · exact ⟨s.cerr, rfl⟩
  · simp only [setUNIX, SocketAddress.setUNIX, Option.bind_some]
    split_ifs with hnil hlong
    · exact ⟨s.cerr, rfl⟩
    · exact prints_refuses (printRuntimeError_returns tooLongFormat_eq (length_ascii_le (by decide)) _ _)
    · exact ⟨s.cerr, rfl⟩

end AddressObject

namespace SetterCall

/-- A setter sets the whole address or none of it, and says which. -/
theorem setters_call (e : Endian) (libc : Libc) :
    Setters (call e libc) (value e libc) AddressObject.object where
  sets c s := by
    cases c with
    | ipv4 host port =>
      obtain ⟨cerr, hrun⟩ := @AddressObject.setIPv4_spec e libc s host port
      exact ⟨_, hrun, rfl⟩
    | unix path =>
      obtain ⟨cerr, hrun⟩ := @AddressObject.setUNIX_spec e s path
      exact ⟨_, hrun, rfl⟩
    | netlink groups pid => exact ⟨_, rfl, rfl⟩

theorem isSome_value_iff (c : SetterCall) : (c.value e libc).isSome ↔ c.Accepted libc := by
  cases c with
  | ipv4 host port =>
    rw [value, AddressObject.setIPv4_eq, Option.isSome_map, Libc.pton, Accepted]
    cases libc.inet_pton (AddressObject.hostText host) with
    | accepts sin_addr => exact iff_of_true rfl ⟨sin_addr, rfl⟩
    | _ => exact iff_of_false nofun nofun
  | unix path =>
    cases path with
    | none => exact iff_of_false nofun nofun
    | some path =>
      simp only [value, Option.bind_some, SocketAddress.setUNIX, Accepted, Option.some.injEq]
      split_ifs with hnil hlong
      · refine iff_of_false nofun ?_
        rintro ⟨sun_path, rfl, hne, -⟩
        exact hne hnil
      · refine iff_of_false nofun ?_
        rintro ⟨sun_path, rfl, -, hshort⟩
        omega
      · exact iff_of_true rfl ⟨path, rfl, hnil, by omega⟩
  | netlink groups pid => exact iff_of_true rfl trivial

/-! ### What is read back -/

section

variable {ntop : InetNtop} {addr : Bytes} {addrlen : ℕ}

theorem toString_eq {a : Address} (haddress : address e addr = some a)
    (hknown : ∀ family, a ≠ .other family) :
    SocketAddress.toString e ntop ⟨some addr, addrlen⟩ = pure (addressText ntop a) := by
  change sockNtop e ntop addr addrlen = _
  rw [sockNtop_eq, haddress, deref, pure_bind, printed_of_known hknown]

theorem ipPort_eq {sin_port : Bytes} (hfamily : saFamily e addr = some Sockaddr.AF_INET)
    (hport : field addr 2 2 = some sin_port) :
    SocketAddress.ipPort e ⟨some addr, addrlen⟩ = pure (ofBe sin_port : ℤ) := by
  simp only [SocketAddress.ipPort, hfamily, hport, deref, pure_bind, true_or, if_true]

theorem ipAddress_eq {sin_addr : Bytes} (hfamily : saFamily e addr = some Sockaddr.AF_INET)
    (haddr : field addr 4 4 = some sin_addr) :
    SocketAddress.ipAddress e ntop ⟨some addr, addrlen⟩ = pure (ntop.text sin_addr) := by
  simp only [SocketAddress.ipAddress, hfamily, haddr, deref, pure_bind, if_true]

theorem readsBack_ipv4 {host : Option CString} {port : BitVec 16} {sin_addr : BitVec 32}
    (h : libc.inet_pton (AddressObject.hostText host) = .accepts sin_addr) :
    (ipv4 host port).ReadsBack e libc ntop (AddressObject.sockaddrIn e port sin_addr) := by
  have hport : ofBe (store16 .big port.toNat) = port.toNat := SocketAddress.ofBe_store16 port.isLt
  have hsin_port : field (store16 e Sockaddr.AF_INET ++ store16 .big port.toNat ++ be32 sin_addr.toNat ++
      List.replicate 8 0) 2 2 = some (store16 .big port.toNat) := by
    rw [List.append_assoc, List.append_assoc]
    exact field_between (SocketAddress.length_store16 _ _) (SocketAddress.length_store16 _ _)
  have hsin_addr : field (store16 e Sockaddr.AF_INET ++ store16 .big port.toNat ++ be32 sin_addr.toNat ++
      List.replicate 8 0) 4 4 = some (be32 sin_addr.toNat) := by
    rw [List.append_assoc]
    exact field_between (by simp) (length_be32 _)
  have hsin_family : saFamily e (store16 e Sockaddr.AF_INET ++ store16 .big port.toNat ++
      be32 sin_addr.toNat ++ List.replicate 8 0) = some Sockaddr.AF_INET := by
    rw [List.append_assoc, List.append_assoc]
    exact SocketAddress.saFamily_store16 (by decide) e _
  refine ⟨sin_addr, h, ?_, ipAddress_eq hsin_family hsin_addr, ?_⟩
  · rw [AddressObject.sockaddrIn, ipPort_eq hsin_family hsin_port, hport]
  · refine toString_eq ?_ fun family heq => by cases heq
    rw [address, hsin_family, Option.bind_some, if_pos rfl, hsin_addr, hsin_port, Option.bind_some,
      Option.map_some, hport]

theorem readsBack_unix {path : CString} (hne : path.bytes ≠ []) (hshort : path.bytes.length < 108) :
    (unix (some path)).ReadsBack e libc ntop (AddressObject.sockaddrUn e path.bytes) := by
  have hfamily : ∀ rest, saFamily e (store16 e Sockaddr.AF_UNIX ++ rest) = some Sockaddr.AF_UNIX :=
    SocketAddress.saFamily_store16 (by decide) e
  have hterminated : List.replicate (108 - path.bytes.length) (0 : UInt8) =
      0 :: List.replicate (107 - path.bytes.length) 0 := by
    rw [← List.replicate_succ, show 107 - path.bytes.length + 1 = 108 - path.bytes.length by omega]
  refine ⟨path, rfl, ?_⟩
  have haddress : address e (store16 e Sockaddr.AF_UNIX ++ (path.bytes ++
      0 :: List.replicate (107 - path.bytes.length) 0)) = some (.unix path.bytes) := by
    rw [address, hfamily, Option.bind_some, if_neg (by decide), if_neg (by decide), if_pos rfl,
      string_between (SocketAddress.length_store16 _ _) path.noNul, Option.map_some]
  rw [AddressObject.sockaddrUn, List.append_assoc, hterminated,
    toString_eq haddress fun family heq => (by cases heq), addressText, if_neg hne]

theorem readsBack_netlink (groups pid : BitVec 32) :
    (netlink groups pid).ReadsBack e libc ntop (SocketAddress.setNetlink e groups pid) := by
  refine ⟨_, rfl, ?_, ?_, ?_⟩
  · rw [List.append_assoc, List.append_assoc]
    exact SocketAddress.saFamily_store16 (by decide) e _
  · rw [List.append_assoc, field_between (by simp) (length_store e pid), Option.map_some, load_store]
  · have hnothing : store e groups = store e groups ++ [] := (List.append_nil _).symm
    rw [hnothing, field_between (by simp) (length_store e groups), Option.map_some, load_store]

end

theorem readsBack {ntop : InetNtop} {c : SetterCall} {a : SocketAddress} (h : c.value e libc = some a) :
    c.ReadsBack e libc ntop a := by
  cases c with
  | ipv4 host port =>
    rw [value, AddressObject.setIPv4_eq, Option.map_eq_some_iff] at h
    obtain ⟨sin_addr, hpton, rfl⟩ := h
    unfold Libc.pton at hpton
    split at hpton
    · rename_i sin_addr' haccepts
      cases hpton
      exact readsBack_ipv4 haccepts
    · cases hpton
  | unix path =>
    obtain ⟨path, rfl, hpath⟩ := Option.bind_eq_some_iff.1 h
    unfold SocketAddress.setUNIX at hpath
    split_ifs at hpath with hne hlong
    cases hpath
    exact readsBack_unix hne (not_le.1 hlong)
  | netlink groups pid =>
    cases h
    exact readsBack_netlink groups pid

/-! ### Any sequence of calls -/

/-- A setter that returns `false` leaves the object as it was, one that returns `true` was given what it takes
and sets all of it, and after any sequence of calls the object reads back as the last of these has set it. -/
theorem setters_read_back (e : Endian) (libc : Libc) (ntop : InetNtop) :
    (∀ (c : SetterCall) (s : AddressObject), ∃ ok s', c.call e libc s = .ok ok s' ∧
        (ok = true ↔ c.Accepted libc) ∧ (ok = false → s'.object = s.object) ∧
        (ok = true → c.ReadsBack e libc ntop s'.object)) ∧
      ∀ (cs : List SetterCall) (s : AddressObject), ∃ answers s', cs.mapM (call e libc) s = .ok answers s' ∧
        ((∀ c ∈ cs, ¬ c.Accepted libc) → s'.object = s.object) ∧
        ∀ before c after, cs = before ++ c :: after → c.Accepted libc → (∀ d ∈ after, ¬ d.Accepted libc) →
          c.ReadsBack e libc ntop s'.object := by
  have hrefused : ∀ {c : SetterCall}, ¬ c.Accepted libc → c.value e libc = none := by
    intro c hc
    rw [← isSome_value_iff (e := e), Option.not_isSome_iff_eq_none] at hc
    exact hc
  constructor
  · intro c s
    obtain ⟨s', hrun, hobject⟩ := (setters_call e libc).sets c s
    refine ⟨_, s', hrun, isSome_value_iff c, ?_, ?_⟩
    · intro hfalse
      rw [hobject, Option.isNone_iff_eq_none.1 (Option.isSome_eq_false_iff.1 hfalse), Option.getD_none]
    · intro htrue
      obtain ⟨a, ha⟩ := Option.isSome_iff_exists.1 htrue
      rw [hobject, ha, Option.getD_some]
      exact readsBack ha
  · intro cs s
    obtain ⟨s', hrun, hobject⟩ := (setters_call e libc).mapM_calls cs s
    refine ⟨_, s', hrun, ?_, ?_⟩
    · intro hall
      rw [hobject, lastSet_eq_none fun c hc => hrefused (hall c hc), Option.getD_none]
    · rintro before c after rfl hc hafter
      obtain ⟨a, ha⟩ := Option.isSome_iff_exists.1 ((isSome_value_iff c).2 hc)
      rw [hobject, lastSet_append_cons ha fun d hd => hrefused (hafter d hd), Option.getD_some]
      exact readsBack ha

end SetterCall

end

end NetProg.Cxx
