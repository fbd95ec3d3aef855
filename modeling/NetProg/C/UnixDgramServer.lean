import NetProg.C.Wrapsock
import Mathlib.Data.List.TakeWhile

/-!
# The datagram server on a unix-domain socket

The loop of `send_dgram/c/unix_domain_dgram_server.c`: receive a datagram and its sender's address, reply to
`cliaddr`. `recvfrom` overwrites as many bytes of `cliaddr` as the address has, and `Sendto` is given
`sizeof(cliaddr)` where the received length `len` belongs, so a reply goes where all 110 bytes say.

`resolve_recvfrom`: they say the sender's name for a path, which ends at its NUL, and for an abstract
name that fills the buffer. For every other sender they name somebody else, or nobody
(`exists_misdirected`). The log line that the loop prints is left out.
-/

namespace NetProg.C.UnixDgram

def MAXLINE : ℕ := 1024

/-- `sizeof(cliaddr)` -/
def sizeofSockaddrUn : ℕ := 110

/-- `sa_family_t` with the value `AF_UNIX`, in the memory of the host. -/
def familyUnix : Endian → Bytes
  | .little => [1, 0]
  | .big => [0, 1]

/-- The bytes that can be a path name: they fit `sun_path`, which need not end in a NUL. -/
def IsPath (p : Bytes) : Prop := p ≠ [] ∧ 0 ∉ p ∧ p.length ≤ 108

instance : DecidablePred IsPath := fun _ => instDecidableAnd

/-- What a unix-domain socket can be bound to. The bytes of an abstract name follow a NUL. -/
inductive Name
  | path (p : Bytes) (isPath : IsPath p)
  | abstract (name : Bytes) (length_le : name.length ≤ 107)
  deriving DecidableEq

/-- The address of a socket. That of a path has the NUL behind it, also the one of 108 bytes. -/
def Name.address (e : Endian) : Name → Bytes
  | .path p _ => familyUnix e ++ (p ++ [0])
  | .abstract name _ => familyUnix e ++ (0 :: name)

/-- The address of a sender, which has no byte when the sender is not bound. -/
def address (e : Endian) : Option Name → Bytes
  | some n => n.address e
  | none => []

/-- A `struct sockaddr_un`. -/
structure SockaddrUn where
  bytes : Bytes
  size_eq : bytes.length = sizeofSockaddrUn

theorem length_received (a : SockaddrUn) (addr : Bytes) :
    (splice a.bytes 0 (addr.take sizeofSockaddrUn)).length = sizeofSockaddrUn := by
  rw [length_splice, a.size_eq]
  rw [List.length_take, a.size_eq]
  omega

/-- What `recvfrom` makes of `cliaddr` and `len` for a datagram from `addr`. -/
def recvfrom (cliaddr : SockaddrUn) (addr : Bytes) : SockaddrUn × ℕ :=
  (⟨splice cliaddr.bytes 0 (addr.take sizeofSockaddrUn), length_received cliaddr addr⟩, addr.length)

theorem isPath_takeWhile {s : Bytes} (hlen : s.length ≤ 108) (h : s.head? ≠ some 0) (hne : s ≠ []) :
    IsPath (s.takeWhile (· ≠ 0)) := by
  refine ⟨?_, ?_, (List.takeWhile_prefix _).length_le.trans hlen⟩
  · intro hnil
    obtain ⟨b, s, rfl⟩ := List.exists_cons_of_ne_nil hne
    rw [List.takeWhile_cons, if_pos (by simpa using h)] at hnil
    nomatch hnil
  · intro hmem
    simpa using List.mem_takeWhile_imp hmem

/-- The name that the kernel finds in an address of `sizeof(cliaddr)` bytes; an address of another family
has none. A path ends at the first NUL, an abstract name at the end of the address. -/
def resolve (e : Endian) (addr : SockaddrUn) : Option Name :=
  if addr.bytes.take 2 = familyUnix e then
    let sun_path := addr.bytes.drop 2
    if h : sun_path.head? = some 0 then
      some (.abstract sun_path.tail (by simp [sun_path, addr.size_eq, sizeofSockaddrUn]))
    else
      some (.path (sun_path.takeWhile (· ≠ 0)) (isPath_takeWhile
        (by simp [sun_path, addr.size_eq, sizeofSockaddrUn]) h
        (List.ne_nil_of_length_pos (by simp [sun_path, addr.size_eq, sizeofSockaddrUn]))))
  else none

/-- One datagram: who sends it, from which name, and who has which name when the server replies. Whatever
the sender is bound to is its own name or, once it has closed, nobody's, and it has no other. -/
structure Turn where
  client : ℕ
  name : Option Name
  text : Bytes
  owner : Name → Option ℕ
  owner_name : ∀ n, name = some n → owner n = some client ∨ owner n = none
  name_of_owner : ∀ n, owner n = some client → name = some n

/-- What the server sent after a datagram, and whom it reached. -/
structure Reply where
  turn : Turn
  text : String
  reached : Option ℕ

/-- The loop of `server`. A reply that reaches nobody makes `sendto` fail, and `Sendto` ends the process. -/
def server (e : Endian) : SockaddrUn → List Turn → List Reply
  | _, [] => []
  | cliaddr, turn :: turns =>
    let n := min turn.text.length (MAXLINE - 1)
    let (cliaddr, _) := recvfrom cliaddr (address e turn.name)
    let text := "Your data was " ++ toString n ++ " bytes long"
    match (resolve e cliaddr).bind turn.owner with
    | some client => ⟨turn, text, some client⟩ :: server e cliaddr turns
    | none => [⟨turn, text, none⟩]

/-- The reply went to the sender or to nobody. -/
def Reply.Right (r : Reply) : Prop := r.reached = none ∨ r.reached = some r.turn.client

/-- A name that says where it ends within any 110 bytes that start with its address. -/
def Name.Complete : Name → Prop
  | .path _ _ => True
  | .abstract name _ => name.length = 107

/-! ### One datagram -/

theorem length_familyUnix (e : Endian) : (familyUnix e).length = 2 := by cases e <;> rfl

theorem bytes_recvfrom (e : Endian) (a : SockaddrUn) (n : Name) : (recvfrom a (n.address e)).1.bytes =
    (n.address e).take sizeofSockaddrUn ++ a.bytes.drop (n.address e).length := by
  unfold recvfrom
  simp only [splice, List.take_zero, List.nil_append, Nat.zero_add, List.length_take]
  rcases Nat.lt_or_ge sizeofSockaddrUn (n.address e).length with hlt | hge
  · rw [min_eq_left hlt.le, List.drop_eq_nil_of_le a.size_eq.le,
      List.drop_eq_nil_of_le (a.size_eq.le.trans hlt.le)]
  · rw [min_eq_right hge]

theorem recvfrom_nil (a : SockaddrUn) : (recvfrom a []).1 = a := by
  unfold recvfrom
  simp

theorem resolve_path (e : Endian) (a : SockaddrUn) {p tail : Bytes} (hp : IsPath p)
    (hbytes : a.bytes = familyUnix e ++ (p ++ tail)) (htail : ∀ b, tail.head? = some b → b = 0) :
    resolve e a = some (.path p hp) := by
  have htake : a.bytes.take 2 = familyUnix e := by rw [hbytes, List.take_left' (length_familyUnix e)]
  have hdrop : a.bytes.drop 2 = p ++ tail := by rw [hbytes, List.drop_left' (length_familyUnix e)]
  have hhead : (p ++ tail).head? ≠ some 0 := by
    obtain ⟨b, rest, rfl⟩ := List.exists_cons_of_ne_nil hp.1
    rw [List.cons_append, List.head?_cons]
    exact fun h => hp.2.1 (Option.some.inj h ▸ List.mem_cons_self)
  have hwhile : (p ++ tail).takeWhile (· ≠ 0) = p := by
    rw [List.takeWhile_append_of_pos fun b hb => by simpa using ne_of_mem_of_not_mem hb hp.2.1]
    cases tail with
    | nil => simp
    | cons b tail => simp [htail b rfl]
  rw [resolve, if_pos htake]
  simp only [hdrop, hhead, dite_false, hwhile]

theorem resolve_abstract (e : Endian) (a : SockaddrUn) {name : Bytes}
    (hbytes : a.bytes = familyUnix e ++ (0 :: name)) : ∃ h, resolve e a = some (.abstract name h) := by
  have htake : a.bytes.take 2 = familyUnix e := by rw [hbytes, List.take_left' (length_familyUnix e)]
  have hdrop : a.bytes.drop 2 = 0 :: name := by rw [hbytes, List.drop_left' (length_familyUnix e)]
  have hlen : name.length ≤ 107 := by
    have := a.size_eq
    rw [hbytes, List.length_append, length_familyUnix, List.length_cons, sizeofSockaddrUn] at this
    omega
  refine ⟨hlen, ?_⟩
  rw [resolve, if_pos htake]
  simp only [hdrop, List.head?_cons, dite_true, List.tail_cons]

/-- After a datagram from a bound sender `cliaddr` names somebody, and the sender exactly when its name is
complete. -/
theorem resolve_recvfrom (e : Endian) (a : SockaddrUn) (n : Name) :
    ∃ target, resolve e (recvfrom a (n.address e)).1 = some target ∧ (target = n ↔ n.Complete) := by
  have hbytes := bytes_recvfrom e a n
  have hsize := a.size_eq
  rw [sizeofSockaddrUn] at hbytes hsize
  cases n with
  | path p hp =>
    refine ⟨.path p hp, ?_, iff_of_true rfl trivial⟩
    have hlen := hp.2.2
    rcases Nat.lt_or_ge p.length 108 with hlt | hge
    · have haddr : ((Name.path p hp).address e).length ≤ 110 := by
        simp only [Name.address, List.length_append, length_familyUnix, List.length_singleton]
        omega
      rw [List.take_of_length_le haddr, Name.address, List.append_assoc, List.append_assoc] at hbytes
      exact resolve_path e _ hp hbytes fun b hb => (Option.some.inj hb).symm
    · -- the NUL behind a path of 108 bytes has no room
      have hfull : (familyUnix e ++ p).length = 110 := by
        rw [List.length_append, length_familyUnix]
        omega
      have haddr : a.bytes.length ≤ ((Name.path p hp).address e).length := by
        simp only [Name.address, List.length_append, length_familyUnix, List.length_singleton]
        omega
      have htake : ((Name.path p hp).address e).take 110 = familyUnix e ++ p := by
        rw [Name.address, ← List.append_assoc, List.take_left' hfull]
      rw [List.drop_eq_nil_of_le haddr, htake, List.append_assoc] at hbytes
      exact resolve_path e _ hp hbytes fun _ hb => nomatch hb
  | abstract name hname =>
    have haddr : ((Name.abstract name hname).address e).length = name.length + 3 := by
      simp only [Name.address, List.length_append, length_familyUnix, List.length_cons]
      omega
    rw [List.take_of_length_le (by omega), haddr, Name.address, List.append_assoc,
      List.cons_append] at hbytes
    obtain ⟨hlen, hresolve⟩ := resolve_abstract e _ hbytes
    refine ⟨_, hresolve, ?_⟩
    rw [Name.abstract.injEq, List.append_right_eq_self, List.drop_eq_nil_iff, hsize, Name.Complete]
    omega

theorem resolve_eq_none (e : Endian) (a : SockaddrUn) :
    resolve e a = none ↔ a.bytes.take 2 ≠ familyUnix e := by
  by_cases hfamily : a.bytes.take 2 = familyUnix e
  · rw [resolve, if_pos hfamily]
    refine iff_of_false ?_ (not_not_intro hfamily)
    dsimp only
    split_ifs <;> nofun
  · rw [resolve, if_neg hfamily]
    exact iff_of_true rfl hfamily

/-! ### Whole runs -/

/-- The senders are all bound, to names that are complete. -/
def AllComplete (names : List (Option Name)) : Prop := ∀ n ∈ names, ∃ m, n = some m ∧ m.Complete

/-- The first reply is addressed with what the uninitialised `cliaddr` holds, which is no unix-domain
address, so it is the last. -/
def ExitsAtOnce (e : Endian) (cliaddr : SockaddrUn) (names : List (Option Name)) : Prop :=
  names.head? = some none ∧ cliaddr.bytes.take 2 ≠ familyUnix e

theorem right_of_complete (e : Endian) (cliaddr : SockaddrUn) {turns : List Turn}
    (h : AllComplete (turns.map Turn.name)) : ∀ r ∈ server e cliaddr turns, r.Right := by
  induction turns generalizing cliaddr with
  | nil => exact fun r hr => absurd hr List.not_mem_nil
  | cons turn turns ih =>
    rw [List.map_cons, AllComplete, List.forall_mem_cons] at h
    obtain ⟨⟨n, hname, hcomplete⟩, hrest⟩ := h
    obtain ⟨target, hresolve, hiff⟩ := resolve_recvfrom e cliaddr n
    rw [hiff.mpr hcomplete] at hresolve
    rw [server]
    simp only [hname, address, hresolve, Option.bind_some]
    rcases turn.owner_name n hname with howner | howner
    · rw [howner]
      exact List.forall_mem_cons.mpr ⟨.inr rfl, ih _ hrest⟩
    · rw [howner]
      exact List.forall_mem_singleton.mpr (.inl rfl)

theorem right_of_exitsAtOnce (e : Endian) (cliaddr : SockaddrUn) {turns : List Turn}
    (h : ExitsAtOnce e cliaddr (turns.map Turn.name)) : ∀ r ∈ server e cliaddr turns, r.Right := by
  cases turns with
  | nil => exact fun r hr => absurd hr List.not_mem_nil
  | cons turn turns =>
    have hname : turn.name = none := Option.some.inj h.1
    have hresolve := (resolve_eq_none e cliaddr).mpr h.2
    rw [server]
    simp only [hname, address, recvfrom_nil, hresolve, Option.bind_none]
    exact List.forall_mem_singleton.mpr (.inl rfl)

/-- A datagram from a client that is still there, in a world where nobody else has a name. -/
def Turn.alone (client : ℕ) (name : Option Name) : Turn where
  client
  name
  text := []
  owner n := if name = some n then some client else none
  owner_name n h := .inl (if_pos h)
  name_of_owner n h := by
    by_contra hne
    rw [if_neg hne] at h
    nomatch h

/-- A datagram from `client`, in a world where `other` has the name `target` and nobody else has one. -/
def Turn.beside (client other : ℕ) (hother : other ≠ client) (name : Option Name) (target : Name)
    (htarget : name ≠ some target) : Turn where
  client
  name
  text := []
  owner n := if n = target then some other else none
  owner_name n h := .inr (if_neg fun heq : n = target => htarget (by rw [h, heq]))
  name_of_owner n h := by
    split_ifs at h
    exact absurd (Option.some.inj h) hother

theorem exists_misdirected (e : Endian) (cliaddr : SockaddrUn) {names : List (Option Name)}
    (hincomplete : ¬ AllComplete names) (hstart : ¬ ExitsAtOnce e cliaddr names) :
    ∃ turns, turns.map Turn.name = names ∧ ∃ r ∈ server e cliaddr turns, ¬ r.Right := by
  induction names generalizing cliaddr with
  | nil => exact absurd (fun n hn => absurd hn List.not_mem_nil) hincomplete
  | cons name names ih =>
    -- somebody else can have the name that the reply goes to
    have hwrong : ∀ target, resolve e (recvfrom cliaddr (address e name)).1 = some target →
        name ≠ some target →
          ∃ turns, turns.map Turn.name = name :: names ∧ ∃ r ∈ server e cliaddr turns, ¬ r.Right := by
      intro target hresolve hne
      refine ⟨.beside 0 1 (by decide) name target hne :: names.map (Turn.alone 0), ?_, ?_⟩
      · rw [List.map_cons, List.map_map]
        exact congrArg (name :: ·) (List.map_id names)
      · rw [server]
        simp only [Turn.beside, hresolve, Option.bind_some, if_true]
        refine ⟨_, List.mem_cons_self, ?_⟩
        rintro (h | h) <;> nomatch h
    cases name with
    | none =>
      have hfamily : resolve e cliaddr ≠ none := fun h => hstart ⟨rfl, (resolve_eq_none e cliaddr).mp h⟩
      obtain ⟨target, htarget⟩ := Option.ne_none_iff_exists'.mp hfamily
      exact hwrong target (by rw [address, recvfrom_nil, htarget]) nofun
    | some n =>
      obtain ⟨target, hresolve, hiff⟩ := resolve_recvfrom e cliaddr n
      by_cases hcomplete : n.Complete
      · rw [hiff.mpr hcomplete] at hresolve
        have hrest : ¬ AllComplete names := fun h =>
          hincomplete (List.forall_mem_cons.mpr ⟨⟨n, rfl, hcomplete⟩, h⟩)
        obtain ⟨turns, hturns, r, hr, hright⟩ := ih (recvfrom cliaddr (n.address e)).1 hrest fun h =>
          absurd ((resolve_eq_none e _).mpr h.2) (by rw [hresolve]; nofun)
        refine ⟨.alone 0 (some n) :: turns, congrArg (some n :: ·) hturns, r, ?_, hright⟩
        rw [server]
        simp only [Turn.alone, address, hresolve, Option.bind_some, if_true]
        exact List.mem_cons_of_mem _ hr
      · exact hwrong target hresolve fun h => hcomplete (hiff.mp (Option.some.inj h).symm)

/-- Datagrams from these names, in this order, from whatever clients and whoever else has a name: every
reply goes to its sender or to nobody exactly when all the names are complete, or the server ends at the
first reply. -/
theorem server_right_iff (e : Endian) (cliaddr : SockaddrUn) (names : List (Option Name)) :
    (∀ turns : List Turn, turns.map Turn.name = names → ∀ r ∈ server e cliaddr turns, r.Right) ↔
      AllComplete names ∨ ExitsAtOnce e cliaddr names := by
  constructor
  · intro hright
    by_contra hor
    rw [not_or] at hor
    obtain ⟨turns, hturns, r, hr, hwrong⟩ := exists_misdirected e cliaddr hor.1 hor.2
    exact hwrong (hright turns hturns r hr)
  · rintro (h | h) turns rfl
    · exact right_of_complete e cliaddr h
    · exact right_of_exitsAtOnce e cliaddr h

/-- The path `/a`. -/
def slashA : Name := .path [47, 97] (by decide)

/-- Client 0, bound to `/a`, is followed by client 1, which is not bound: client 0 gets both replies. -/
theorem unbound_misdirected :
    let cliaddr : SockaddrUn := ⟨List.replicate 110 0, rfl⟩
    let turns : List Turn := [.alone 0 (some slashA), .beside 1 0 (by decide) none slashA nofun]
    turns.map Turn.client = [0, 1] ∧ (server .little cliaddr turns).map Reply.reached = [some 0, some 0] ∧
      ¬ ∀ r ∈ server .little cliaddr turns, r.Right := by
  intro cliaddr turns
  have hreached : (server .little cliaddr turns).map Reply.reached = [some 0, some 0] := by decide
  refine ⟨rfl, hreached, ?_⟩
  intro h
  have hlast : ∀ r ∈ (server .little cliaddr turns).drop 1,
      r.reached = none ∨ r.reached = some r.turn.client :=
    fun r hr => h r (List.mem_of_mem_drop hr)
  exact absurd hlast (by decide)

end NetProg.C.UnixDgram
