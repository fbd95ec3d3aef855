import NetProg.C.TcpSixteenServer
import NetProg.Cxx.TcpSixteenServer

/-!
# The servers of sixteen bytes and their clients

Both servers end with the first client that closes its connection early, resets it or lets a call fail in any
other way, and the clients behind it are not served.
-/

namespace NetProg
open Lib Peer

/-- A client that sends sixteen bytes and takes as many gets its reply exactly if every client before it did
so too and could be closed, and from the C server only if the array `message` ends in a terminator or every
client so far has sent one. -/
theorem farewell_iff {message : Bytes} (hlen : message.length = 128) (before rest : List Peer) {client : Peer}
    (hclient : client.Patient) (hwire : client.tx.wire = []) :
    ((∃ p, (C.TcpSixteenServer.server message (before ++ client :: rest))[before.length]? = some p ∧
        p.tx.wire = farewell) ↔
      (∀ p ∈ before, p.Patient ∧ p.closed = none) ∧
        (0 ∈ message.drop 16 ∨ ∀ p ∈ before ++ [client], 0 ∈ p.rx.input.take 16)) ∧
    ((∃ p, (Cxx.TcpSixteenServer.server (before ++ client :: rest))[before.length]? = some p ∧
        p.tx.wire = farewell) ↔
      ∀ p ∈ before, p.Patient ∧ p.closed = none) :=
  ⟨C.TcpSixteenServer.reply_iff hlen before rest hclient hwire,
    Cxx.TcpSixteenServer.reply_iff before rest hclient hwire⟩

/-- A client whose sixteen bytes come at once. -/
def blanks : Peer :=
  ⟨[], none, none, ⟨List.replicate 16 32, [.deliver 16]⟩, ⟨[], [.accept 16]⟩, none⟩

/-- A client that closes its connection without having sent anything. -/
def hasty : Peer := ⟨[], none, none, ⟨[], [.deliver 1]⟩, ⟨[], []⟩, none⟩

theorem patient_blanks : blanks.Patient where
  retried := List.forall_mem_nil _
  sockname := rfl
  peername := rfl
  sends := by decide
  delivered := (offers_cons (by decide)).2 ⟨.inl trivial, offers_zero⟩
  taken := (offers_cons (by decide)).2 ⟨.inl trivial, offers_zero⟩

theorem farewell_iff_blanks :
    (∃ p, (C.TcpSixteenServer.server (List.replicate 128 0) [blanks, blanks])[1]? = some p ∧
        p.tx.wire = farewell) ∧
      ∃ p, (Cxx.TcpSixteenServer.server [blanks, blanks])[1]? = some p ∧ p.tx.wire = farewell := by
  have hbefore : ∀ p ∈ [blanks], p.Patient ∧ p.closed = none := by
    intro p hp
    rw [List.mem_singleton.1 hp]
    exact ⟨patient_blanks, rfl⟩
  obtain ⟨hc, hcxx⟩ := @farewell_iff (List.replicate 128 0) rfl [blanks] [] blanks patient_blanks rfl
  exact ⟨hc.2 ⟨hbefore, .inl (by decide)⟩, hcxx.2 hbefore⟩

/-- A client that closes early, and one behind it that gets no reply from either server. -/
theorem hasty_stops_servers :
    blanks.Patient ∧
      (¬ ∃ p, (C.TcpSixteenServer.server (List.replicate 128 0) [hasty, blanks])[1]? = some p ∧
        p.tx.wire = farewell) ∧
      ¬ ∃ p, (Cxx.TcpSixteenServer.server [hasty, blanks])[1]? = some p ∧ p.tx.wire = farewell := by
  have hhasty : ¬ hasty.Patient := fun h => absurd h.sends (by decide)
  have hmem : hasty ∈ [hasty] := List.mem_singleton_self _
  refine ⟨patient_blanks, ?_, ?_⟩
  · intro h
    obtain ⟨hbefore, -⟩ := (C.TcpSixteenServer.reply_iff rfl [hasty] [] patient_blanks rfl).1 h
    exact hhasty (hbefore hasty hmem).1
  · intro h
    exact hhasty ((Cxx.TcpSixteenServer.reply_iff [hasty] [] patient_blanks rfl).1 h hasty hmem).1

end NetProg
