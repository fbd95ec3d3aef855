import NetProg.C.UnixDgramServer
import NetProg.Cxx.SocketAddress
import NetProg.UdpLocal

/-!
# The datagram servers on a unix-domain socket in C++ and Python

The loops of `send_dgram/cxx/unix_domain_dgram_server.cpp` and `send_dgram/python/unix_domain_dgram_server.py`, with
the senders of `C.UnixDgram`. In C++ `RecvFrom` builds a `SocketAddress` of its own for every datagram and leaves in it
the length that the kernel reports, and `SendTo` passes this length on; in Python the address is a value. So the
kernel reads no byte but those of the sender's address, and the reply goes to the sender or to nobody.

They go on as long as the senders can be reached, in C++ at least as long as in Python (`siblings_reply`).
-/

namespace NetProg
open C.UnixDgram (Name Turn Reply SockaddrUn familyUnix length_familyUnix isPath_takeWhile recvfrom bytes_recvfrom
  sizeofSockaddrUn)

namespace UnixDgram

/-- The loop of a server that prints a datagram and replies to it. For each datagram `serve` tells the text of the
reply and the name to which it is addressed, if any, unless the process ends before. It ends as well when a reply
reaches nobody. -/
def loop (serve : ℕ → Turn → Option (String × Option Name)) : ℕ → List Turn → List Reply
  | _, [] => []
  | k, turn :: turns =>
    match serve k turn with
    | none => []
    | some (text, target) =>
      match target.bind turn.owner with
      | some client => ⟨turn, text, some client⟩ :: loop serve (k + 1) turns
      | none => [⟨turn, text, none⟩]

/-- Every one of the datagrams has a reply that reaches its sender. -/
def Answered (turns : List Turn) (replies : List Reply) : Prop :=
  replies.map (fun r => (r.turn.client, r.reached)) = turns.map fun turn => (turn.client, some turn.client)

theorem loop_right {serve : ℕ → Turn → Option (String × Option Name)}
    (hserve : ∀ k turn text n, serve k turn = some (text, some n) → turn.name = some n) (k : ℕ) (turns : List Turn) :
    ∀ r ∈ loop serve k turns, r.Right := by
  induction turns generalizing k with
  | nil => simp [loop]
  | cons turn turns ih =>
    rw [loop]
    cases hturn : serve k turn with
    | none => simp
    | some reply =>
      obtain ⟨text, target⟩ := reply
      cases howner : target.bind turn.owner with
      | none => simp [howner, Reply.Right]
      | some client =>
        obtain ⟨n, rfl, hn⟩ := Option.bind_eq_some_iff.1 howner
        have hown : turn.owner n = some turn.client := by
          apply (turn.owner_name n (hserve k turn text n hturn)).resolve_right
          simp [hn]
        simp only [howner]
        refine List.forall_mem_cons.2 ⟨.inr ?_, ih (k + 1)⟩
        rw [← hn, hown]

/-- It answers as long as the senders meet a condition if this is what it takes to reach one. -/
theorem loop_answered_iff {serve : ℕ → Turn → Option (String × Option Name)} {P : Turn → Prop}
    (hserve : ∀ k turn, P turn ↔ ∃ text n, serve k turn = some (text, some n) ∧ turn.owner n = some turn.client)
    (k : ℕ) (turns : List Turn) : Answered turns (loop serve k turns) ↔ ∀ turn ∈ turns, P turn := by
  induction turns generalizing k with
  | nil => simp [Answered, loop]
  | cons turn turns ih =>
    rw [List.forall_mem_cons, ← ih (k + 1), hserve k turn, loop, Answered, Answered]
    cases hturn : serve k turn with
    | none => simp
    | some reply =>
      obtain ⟨text, target⟩ := reply
      cases target with
      | none => simp
      | some n =>
        cases howner : turn.owner n with
        | none => simp [howner]
        | some client => simp [howner]

end UnixDgram

namespace Cxx.UnixDgram

/-- The name that the kernel finds in an address of `addrlen` bytes. It takes no address that is not longer than
its family, or longer than a `sockaddr_un`. -/
def resolve (e : Endian) (addr : Bytes) (addrlen : ℕ) : Option Name :=
  if h : 2 < addrlen ∧ addrlen ≤ sizeofSockaddrUn ∧ addrlen ≤ addr.length then
    if addr.take 2 = familyUnix e then
      let sun_path := (addr.take addrlen).drop 2
      if hhead : sun_path.head? = some 0 then
        some (.abstract sun_path.tail (by
          rw [sizeofSockaddrUn] at h
          simp only [sun_path, List.length_tail, List.length_drop, List.length_take]
          omega))
      else
        some (.path (sun_path.takeWhile (· ≠ 0)) (isPath_takeWhile
          (by rw [sizeofSockaddrUn] at h
              simp only [sun_path, List.length_drop, List.length_take]
              omega)
          hhead
          (List.ne_nil_of_length_pos (by
            simp only [sun_path, List.length_drop, List.length_take]
            omega))))
    else none
  else none

/-- `RecvFrom(buf, len, src_addr)`: what becomes of a fresh `src_addr`. -/
def recvFrom (fresh : SockaddrUn) (addr : Bytes) : SocketAddress :=
  let (src_addr, addrlen) := recvfrom fresh addr
  ⟨some src_addr.bytes, addrlen⟩

/-- One turn of `server`, where `fresh` is what `malloc` returns for `src_addr`. Printing the address or `SendTo` can
throw. -/
def serve (e : Endian) (ntop : InetNtop) (fresh : SockaddrUn) (turn : Turn) : Option (String × Option Name) :=
  let address := recvFrom fresh (C.UnixDgram.address e turn.name)
  match address.toString e ntop [] with
  | .error _ _ => none
  | .ok _ _ =>
    let text := "Your data was " ++ toString (min turn.text.length MAX_BYTES) ++ " bytes long"
    some (text, resolve e address.bytes address.addrlen)

/-- The loop of `server`, where `fresh k` is for the datagram `k`. -/
def server (e : Endian) (ntop : InetNtop) (fresh : ℕ → SockaddrUn) (turns : List Turn) : List Reply :=
  UnixDgram.loop (fun k => serve e ntop (fresh k)) 0 turns

/-! ### One datagram -/

theorem lengths_address (e : Endian) (n : Name) : 2 < (n.address e).length ∧ (n.address e).take 2 = familyUnix e := by
  cases n with
  | path p hp | abstract name hname =>
    rw [Name.address, List.take_left' (length_familyUnix e), List.length_append, length_familyUnix]
    simp

variable {e : Endian} {n : Name}

theorem resolve_address (hfits : (n.address e).length ≤ sizeofSockaddrUn) (rest : Bytes) :
    resolve e (n.address e ++ rest) (n.address e).length = some n := by
  obtain ⟨hlong, hfamily⟩ := lengths_address e n
  have hcond : 2 < (n.address e).length ∧ (n.address e).length ≤ sizeofSockaddrUn ∧
      (n.address e).length ≤ (n.address e ++ rest).length := ⟨hlong, hfits, by simp⟩
  have htake : (n.address e ++ rest).take 2 = familyUnix e := by
    rw [List.take_append_of_le_length hlong.le, hfamily]
  have hall : (n.address e ++ rest).take (n.address e).length = n.address e := List.take_left
  rw [resolve, dif_pos hcond, if_pos htake]
  cases n with
  | path p hp =>
    have hdrop : ((Name.path p hp).address e).drop 2 = p ++ [0] := by
      rw [Name.address, List.drop_left' (length_familyUnix e)]
    have hhead : (p ++ [0]).head? ≠ some 0 := by
      obtain ⟨b, tail, rfl⟩ := List.exists_cons_of_ne_nil hp.1
      rw [List.cons_append, List.head?_cons]
      exact fun h => hp.2.1 (Option.some.inj h ▸ List.mem_cons_self)
    have hwhile : (p ++ [0]).takeWhile (· ≠ 0) = p := (Lib.takeWhile_ne_append hp.2.1 []).1
    simp only [hall, hdrop, hhead, dite_false, hwhile]
  | abstract name hname =>
    have hdrop : ((Name.abstract name hname).address e).drop 2 = 0 :: name := by
      rw [Name.address, List.drop_left' (length_familyUnix e)]
    simp only [hall, hdrop, List.head?_cons, dite_true, List.tail_cons]

theorem exists_toString (hfits : (n.address e).length ≤ sizeofSockaddrUn) (ntop : InetNtop) (fresh : SockaddrUn) :
    ∃ text, (recvFrom fresh (n.address e)).toString e ntop [] = .ok text [] := by
  obtain ⟨hlong, hfamily⟩ := lengths_address e n
  have hbytes := bytes_recvfrom e fresh n
  rw [List.take_of_length_le hfits] at hbytes
  have hunix : Sockaddr.saFamily e (n.address e) = some Sockaddr.AF_UNIX := by
    obtain ⟨rest, hrest⟩ := (hfamily ▸ List.take_prefix 2 (n.address e) : familyUnix e <+: n.address e)
    rw [← hrest]
    cases e <;> rfl
  have hnul : 0 ∈ (n.address e).drop 2 := by
    cases n with
    | path p hp | abstract name hname => simp [Name.address, List.drop_left' (length_familyUnix e)]
  have haddress : ∃ path, Sockaddr.address e (recvfrom fresh (n.address e)).1.bytes = some (.unix path) := by
    refine ⟨cString ((n.address e).drop 2), ?_⟩
    rw [hbytes, Sockaddr.address, Sockaddr.saFamily_append hlong.le, hunix, Option.bind_some, if_neg (by decide),
      if_neg (by decide), if_pos rfl, Sockaddr.string_append hnul, Sockaddr.string, if_pos hnul, Option.map_some]
  obtain ⟨path, hpath⟩ := haddress
  have hprinted := @printed_of_known ntop (n.address e).length (.unix path) (by simp)
  refine ⟨Cxx.addressText ntop (.unix path), ?_⟩
  show sockNtop e ntop (recvfrom fresh (n.address e)).1.bytes (n.address e).length [] = _
  rw [sockNtop_eq, hpath, deref, pure_bind, hprinted]
  rfl

variable {ntop : InetNtop} {fresh : SockaddrUn} {turn : Turn}

theorem resolve_recvFrom (hfits : (n.address e).length ≤ sizeofSockaddrUn) :
    resolve e (recvFrom fresh (n.address e)).bytes (recvFrom fresh (n.address e)).addrlen = some n := by
  have hbytes := bytes_recvfrom e fresh n
  rw [List.take_of_length_le hfits] at hbytes
  show resolve e (recvfrom fresh (n.address e)).1.bytes (n.address e).length = some n
  rw [hbytes, resolve_address hfits]

theorem resolve_recvFrom_eq_none {addr : Bytes} (h : ¬(2 < addr.length ∧ addr.length ≤ sizeofSockaddrUn)) :
    resolve e (recvFrom fresh addr).bytes (recvFrom fresh addr).addrlen = none := by
  rw [resolve, dif_neg]
  exact fun hlen => h ⟨hlen.1, hlen.2.1⟩

theorem serve_eq_some_iff :
    (∃ text, serve e ntop fresh turn = some (text, some n)) ↔
      turn.name = some n ∧ (n.address e).length ≤ sizeofSockaddrUn := by
  cases hname : turn.name with
  | none =>
    -- the length of no address is 0
    have hnobody := @resolve_recvFrom_eq_none e fresh [] (by simp)
    simp only [serve, hname, C.UnixDgram.address, hnobody]
    split <;> simp
  | some m =>
    by_cases hfits : (m.address e).length ≤ sizeofSockaddrUn
    · obtain ⟨text, htext⟩ := exists_toString hfits ntop fresh
      simp only [serve, hname, C.UnixDgram.address, htext, resolve_recvFrom hfits, Option.some.injEq, Prod.mk.injEq,
        exists_and_right, exists_eq', true_and]
      constructor
      · rintro rfl
        exact ⟨rfl, hfits⟩
      · exact And.left
    · have hnobody := @resolve_recvFrom_eq_none e fresh (m.address e) fun h => hfits h.2
      simp only [serve, hname, C.UnixDgram.address, hnobody]
      constructor
      · split <;> simp
      · rintro ⟨hm, hn⟩
        exact absurd (Option.some.inj hm ▸ hn) hfits

/-- The sender is bound to a name whose address fits, and is still there. -/
def Reachable (e : Endian) (turn : Turn) : Prop :=
  ∃ n, turn.name = some n ∧ (n.address e).length ≤ sizeofSockaddrUn ∧ turn.owner n = some turn.client

/-- Datagrams from any senders, bound or not, in any order: every reply of the server goes to its sender or to
nobody, and all of them are answered exactly if the senders can be reached. -/
theorem cxx_replies (e : Endian) (ntop : InetNtop) (fresh : ℕ → SockaddrUn) (turns : List Turn) :
    (∀ r ∈ server e ntop fresh turns, r.Right) ∧
      (UnixDgram.Answered turns (server e ntop fresh turns) ↔ ∀ turn ∈ turns, Reachable e turn) := by
  constructor
  · exact UnixDgram.loop_right (fun k turn text n h => (serve_eq_some_iff.1 ⟨text, h⟩).1) 0 turns
  · apply UnixDgram.loop_answered_iff
    intro k turn
    rw [exists_comm]
    refine exists_congr fun n => ?_
    rw [exists_and_right, serve_eq_some_iff, and_assoc]

end Cxx.UnixDgram

namespace Python.UnixDgram

/-- The path of an address can be printed if it is text. Everything else is `bytes`. -/
def printable (isText : Bytes → Bool) : Option Name → Bool
  | some (.path p _) => isText p
  | _ => true

/-- The name that `sendto` passes to the kernel. It raises for `None` and for a path that leaves no room for the NUL. -/
def sendto : Option Name → Option Name
  | some (.path p h) => if p.length < 108 then some (.path p h) else none
  | some (.abstract name h) => some (.abstract name h)
  | none => none

/-- One turn of `server`. Decoding the datagram and printing the address can raise. -/
def serve (isText : Bytes → Bool) (turn : Turn) : Option (String × Option Name) := do
  let _ ← decodeAscii (turn.text.take MAX_BYTES)
  if printable isText turn.name then
    let text := "Your data was " ++ toString (min turn.text.length MAX_BYTES) ++ " bytes long"
    some (text, sendto turn.name)
  else none

/-- The loop of `server`. -/
def server (isText : Bytes → Bool) (turns : List Turn) : List Reply :=
  UnixDgram.loop (fun _ => serve isText) 0 turns

/-- The sender of a text in ASCII is bound to an abstract name, or to the name of a file that is text and fits, and is
still there. -/
def Reachable (isText : Bytes → Bool) (turn : Turn) : Prop :=
  (∀ b ∈ turn.text.take MAX_BYTES, b < 128) ∧ printable isText turn.name = true ∧
    ∃ n, sendto turn.name = some n ∧ turn.owner n = some turn.client

theorem sendto_eq_some {name : Option Name} {n : Name} (h : sendto name = some n) : name = some n := by
  rcases name with _ | p | name
  · simp [sendto] at h
  · simp only [sendto] at h
    split_ifs at h
    exact h
  · exact h

theorem serve_eq_some_iff {isText : Bytes → Bool} {turn : Turn} {n : Name} :
    (∃ text, serve isText turn = some (text, some n)) ↔
      (∀ b ∈ turn.text.take MAX_BYTES, b < 128) ∧ printable isText turn.name = true ∧ sendto turn.name = some n := by
  simp only [serve, Option.bind_eq_bind, Option.bind_eq_some_iff, decodeAscii_eq_some]
  constructor
  · rintro ⟨text, -, ⟨hascii, -⟩, hsend⟩
    split_ifs at hsend with hprint
    exact ⟨hascii, hprint, congrArg Prod.snd (Option.some.inj hsend)⟩
  · rintro ⟨hascii, hprint, hname⟩
    exact ⟨_, _, ⟨hascii, rfl⟩, by rw [if_pos hprint, hname]⟩

/-- The same for the server in Python. -/
theorem python_replies (isText : Bytes → Bool) (turns : List Turn) :
    (∀ r ∈ server isText turns, r.Right) ∧
      (UnixDgram.Answered turns (server isText turns) ↔ ∀ turn ∈ turns, Reachable isText turn) := by
  constructor
  · exact UnixDgram.loop_right (fun _ turn text n h => sendto_eq_some (serve_eq_some_iff.1 ⟨text, h⟩).2.2) 0 turns
  · apply UnixDgram.loop_answered_iff
    intro k turn
    rw [exists_comm, Reachable, ← exists_and_left, ← exists_and_left]
    refine exists_congr fun n => ?_
    rw [exists_and_right, serve_eq_some_iff, and_assoc, and_assoc]

theorem length_address_le (e : Endian) {name : Option Name} {n : Name} (h : sendto name = some n) :
    (n.address e).length ≤ sizeofSockaddrUn := by
  rcases name with _ | p | ⟨name, hname⟩
  · simp [sendto] at h
  · simp only [sendto] at h
    split_ifs at h with hlen
    obtain rfl := Option.some.inj h
    simp only [Name.address, List.length_append, length_familyUnix, List.length_singleton, sizeofSockaddrUn]
    omega
  · obtain rfl := Option.some.inj h
    simp only [Name.address, List.length_append, length_familyUnix, List.length_cons, sizeofSockaddrUn]
    omega

end Python.UnixDgram

/-- Datagrams from any senders, bound or not, in any order, to the servers in C++ and Python: their replies go to the
senders or to nobody. A server has answered all of the datagrams exactly if it could reach the senders, and whatever
the server in Python answers is answered in C++ as well. -/
theorem UnixDgram.siblings_reply (e : Endian) (ntop : InetNtop) (fresh : ℕ → SockaddrUn) (isText : Bytes → Bool)
    (turns : List Turn) :
    let cxx := Cxx.UnixDgram.server e ntop fresh turns
    let python := Python.UnixDgram.server isText turns
    (∀ r ∈ cxx ++ python, r.Right) ∧
      (Answered turns cxx ↔ ∀ turn ∈ turns, Cxx.UnixDgram.Reachable e turn) ∧
      (Answered turns python ↔ ∀ turn ∈ turns, Python.UnixDgram.Reachable isText turn) ∧
      (Answered turns python → Answered turns cxx) := by
  intro cxx python
  obtain ⟨hcxx, hcxx_iff⟩ := Cxx.UnixDgram.cxx_replies e ntop fresh turns
  obtain ⟨hpython, hpython_iff⟩ := Python.UnixDgram.python_replies isText turns
  refine ⟨?_, hcxx_iff, hpython_iff, ?_⟩
  · exact List.forall_mem_append.2 ⟨hcxx, hpython⟩
  · rw [hcxx_iff, hpython_iff]
    intro h turn hturn
    obtain ⟨-, -, n, hsend, howner⟩ := h turn hturn
    exact ⟨n, Python.UnixDgram.sendto_eq_some hsend, Python.UnixDgram.length_address_le e hsend, howner⟩

end NetProg
