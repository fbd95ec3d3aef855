import NetProg.C.SockNtopBuffer
import NetProg.Cxx.SocketAddress

/-!
# The address printers of the two libraries

`sock_ntop` and `Sock_ntop` are given the length of an address and do not look at it before they read the
fields of its family. What they print is determined by the bytes that the kernel supplied exactly if these
cover the fields (`determined_iff`), which the two bytes of an unnamed peer of the unix domain and a path
without terminator do not.

Both print an internet address as the same text, and no other internet address as that text
(`internet_text_unambiguous`).
-/

namespace NetProg
open Sockaddr

/-- For each of the two printers: nothing outside of the object is read, and no other bytes behind the
supplied ones would be printed differently, exactly if the supplied bytes cover the fields of their family.
-/
theorem sock_ntop_determined_iff (e : Endian) (ntop : InetNtop) (addrlen : ℕ) (addr : Bytes) :
    (Determined (fun addr => C.sockNtop e ntop addr addrlen) addrlen addr ↔ Covers e (addr.take addrlen)) ∧
      (Determined (fun addr => Cxx.seen (Cxx.sockNtop e ntop addr addrlen)) addrlen addr ↔
        Covers e (addr.take addrlen)) :=
  ⟨C.determined_iff e ntop addrlen addr, Cxx.determined_iff e ntop addrlen addr⟩

/-- An unnamed peer of the unix domain in a buffer that was used before: the path of the last peer is
printed. -/
theorem unnamed_peer_undetermined :
    ([1, 0, 97, 0] : Bytes).take 2 = ([1, 0, 98, 0] : Bytes).take 2 ∧
      C.sockNtop .little .dotted [1, 0, 97, 0] 2 = some [97] ∧
      C.sockNtop .little .dotted [1, 0, 98, 0] 2 = some [98] ∧
      Cxx.seen (Cxx.sockNtop .little .dotted [1, 0, 97, 0] 2) = some (.ok [97], []) ∧
      Cxx.seen (Cxx.sockNtop .little .dotted [1, 0, 98, 0] 2) = some (.ok [98], []) := by
  decide

/-! ### Internet addresses -/

/-- An object of one of the two families with an address in it. -/
structure HoldsInternet (e : Endian) (addr : Bytes) (a : Address) : Prop where
  family : saFamily e addr = some AF_INET ∨ saFamily e addr = some AF_INET6
  address_eq : address e addr = some a

theorem seen_eq_shown {e : Endian} {addr : Bytes} {a : Address} (h : HoldsInternet e addr a) (ntop : InetNtop)
    (addrlen : ℕ) :
    Cxx.seen (Cxx.sockNtop e ntop addr addrlen) = some (.ok (C.shown ntop addrlen a), []) := by
  rw [Cxx.seen_sockNtop, h.address_eq]
  have hinternet := internet_of_address h.family h.address_eq
  cases a with
  | inet | inet6 => simp [Cxx.seenOf, Cxx.addressText, C.shown, C.intText_natCast]
  | unix | other => exact absurd hinternet not_false

/-- For two addresses, whatever is in the arrays of the C library and whatever lengths are given: both
libraries give the same text for each, and if the two texts are equal then so are the families, the
addresses and the ports. -/
theorem internet_text_unambiguous (e : Endian) {ntop : InetNtop} (hntop : ntop.Standard)
    {str portstr str' portstr' : Bytes} (hstr : str.length = C.sizeofStr) (hportstr : portstr.length = C.sizeofPortstr)
    (hstr' : str'.length = C.sizeofStr) (hportstr' : portstr'.length = C.sizeofPortstr) {addr addr' : Bytes}
    {a a' : Address} (h : HoldsInternet e addr a) (h' : HoldsInternet e addr' a') (addrlen addrlen' : ℕ) :
    ∃ text text',
      (C.sockNtopText e ntop str portstr addr addrlen = some (some text) ∧
        Cxx.seen (Cxx.sockNtop e ntop addr addrlen) = some (.ok text, [])) ∧
      (C.sockNtopText e ntop str' portstr' addr' addrlen' = some (some text') ∧
        Cxx.seen (Cxx.sockNtop e ntop addr' addrlen') = some (.ok text', [])) ∧
      (text = text' → a = a') := by
  refine ⟨C.shown ntop addrlen a, C.shown ntop addrlen' a', ⟨?_, seen_eq_shown h ntop addrlen⟩,
    ⟨?_, seen_eq_shown h' ntop addrlen'⟩, ?_⟩
  · rw [C.sockNtopText_eq hntop hstr hportstr, C.sockNtop_eq, h.address_eq]
    rfl
  · rw [C.sockNtopText_eq hntop hstr' hportstr', C.sockNtop_eq, h'.address_eq]
    rfl
  · exact C.shown_injective hntop (internet_of_address h.family h.address_eq)
      (internet_of_address h'.family h'.address_eq)

/-- A `sockaddr_in` with the address `127.0.0.1` and the port 80, on a host of little-endian order. -/
def loopback : Bytes := [2, 0, 0, 80, 127, 0, 0, 1] ++ List.replicate 8 0

/-- A `sockaddr_in6` with the address `2001:1db8:1111:2222:3333:4444:5555:6666` and the same port. -/
def global : Bytes :=
  [10, 0, 0, 80, 0, 0, 0, 0, 32, 1, 29, 184, 17, 17, 34, 34, 51, 51, 68, 68, 85, 85, 102, 102, 0, 0, 0, 0]

theorem internet_text_unambiguous_both :
    ∃ text text',
      (C.sockNtopText .little .groups (List.replicate 128 0) (List.replicate 8 0) loopback 16 = some (some text) ∧
        Cxx.seen (Cxx.sockNtop .little .groups loopback 16) = some (.ok text, [])) ∧
      (C.sockNtopText .little .groups (List.replicate 128 7) (List.replicate 8 7) global 28 = some (some text') ∧
        Cxx.seen (Cxx.sockNtop .little .groups global 28) = some (.ok text', [])) ∧
      (text = text' → Address.inet [127, 0, 0, 1] 80 =
        .inet6 [32, 1, 29, 184, 17, 17, 34, 34, 51, 51, 68, 68, 85, 85, 102, 102] 80) :=
  internet_text_unambiguous .little InetNtop.standard_groups List.length_replicate List.length_replicate
    List.length_replicate List.length_replicate ⟨.inl (by decide), by decide⟩ ⟨.inr (by decide), by decide⟩
    16 28

end NetProg
