import NetProg.C.Blocks
import NetProg.Cxx.Blocks

/-!
# The C block server

`Send` of `lib/c/wrapsock.c`, `PutBlock` of `lib/c/blocks.c`, the client of `tcp_block_client.c` for any
list of strings in place of its three sentences, and the loop of `tcp_block_server.c`.

`Send` calls `send` once and exits unless all of the buffer went out. `NetProg.send` never accepts more
than `INT_MAX` bytes in one call, as Linux never does, and would end every client of a longer string, so
the call is an argument here.

The loop knows a block as a C string only: it leaves when the first byte is the terminator. That is the
empty block or a block that begins with a zero byte, and `server_of_frames` says what the loop has received
by then. A client of strings never sends the latter (`strings_arrive`), a client of arbitrary blocks may
(`understands_iff`).
-/

namespace NetProg.C
open Lib (run_pure run_bind_ok run_bind_error Served)

/-- A system call `send` on the sending end of a connection. -/
abbrev SendCall := Bytes → ℕ → EStateM Stop Tx (ℤ × Option Errno)

/-- `void Send(int, const void *, size_t, int)`. -/
def send (call : SendCall) (buf : Bytes) (len : ℕ) : EStateM Stop Tx Unit := do
  let (n, errno) ← call buf len
  if n ≠ toSsize len then throw (.systemError errno)

/-- `void PutBlock(int, const char *)` on a host of byte order `e`, for the object that `message` points
to. -/
def putBlock (call : SendCall) (e : Endian) (message : Bytes) : EStateM Stop Tx Unit := do
  let block_length := htonl e (toU32 (strlen message))
  send call (store e block_length) 4
  send call message (strlen message)

/-- A client that sends `strings` and then the empty string. -/
def client (call : SendCall) (e : Endian) (strings : List Bytes) : EStateM Stop Tx Unit := do
  strings.forM fun string => putBlock call e (literal string)
  putBlock call e (literal [])

/-- The loop of `server` on one connection. `blocks` are the objects that `block` points to in the turns
that print; `fresh` is what new memory holds in each turn. -/
def serverLoop (e : Endian) : ℕ → (ℕ → ℕ → UInt8) → Statics → Rx → Served UInt8 Stop Rx
  | 0, _, _, rx => ⟨[], .running, rx⟩
  | turns + 1, fresh, s, rx =>
    match getBlock e (fresh 0) s rx with
    | .error stop rx => ⟨[], .failed stop, rx⟩
    | .ok s rx =>
      if s.read_buf.head? = some 0 then ⟨[], .finished, rx⟩
      else
        let r := serverLoop e turns (fun turn => fresh (turn + 1)) s rx
        { r with blocks := s.read_buf :: r.blocks }

/-- The server of a fresh process: every `GetBlock` that returns takes at least one call of `recv`. -/
def server (e : Endian) (fresh : ℕ → ℕ → UInt8) (rx : Rx) : Served UInt8 Stop Rx :=
  serverLoop e (rx.script.length + 1) fresh .init rx

/-! ### The sending side -/

/-- Every call accepts its whole buffer. -/
def AcceptsWhole (call : SendCall) : Prop :=
  ∀ ptr len tx, len ≤ ptr.length → ∃ errno tx',
    call ptr len tx = .ok ((len : ℤ), errno) tx' ∧ tx'.wire = tx.wire ++ ptr.take len

/-- The call of a kernel whose buffers have no end. -/
def SendCall.whole : SendCall := fun ptr len tx =>
  .ok (len, none) { tx with wire := tx.wire ++ ptr.take len }

theorem SendCall.acceptsWhole_whole : AcceptsWhole whole := fun _ _ _ _ => ⟨_, _, rfl, rfl⟩

theorem send_whole {call : SendCall} (hcall : AcceptsWhole call) {buf : Bytes} {len : ℕ} (tx : Tx)
    (hlen : len ≤ buf.length) (hlt : len < 2 ^ 63) :
    ∃ tx', send call buf len tx = .ok () tx' ∧ tx'.wire = tx.wire ++ buf.take len := by
  obtain ⟨errno, tx', hrun, hwire⟩ := hcall buf len tx hlen
  refine ⟨tx', ?_, hwire⟩
  rw [send, run_bind_ok hrun]
  simp only [toSsize_of_lt hlt, ne_eq, not_true, if_false]
  exact run_pure _ _

theorem putBlock_writesFrames {call : SendCall} (hcall : AcceptsWhole call) (e : Endian) :
    Lib.WritesFrames networkOrder (fun string => 0 ∉ string ∧ string.length < 2 ^ 32) Tx.wire
      (fun _ _ => True) fun string => putBlock call e (literal string) := by
  intro string _ tx ⟨hnul, hlt⟩ _
  have hlen := strlen_literal hnul
  obtain ⟨tx₁, hrun₁, hwire₁⟩ :=
    send_whole hcall tx (length_store e (htonl e (toU32 string.length))).ge (by decide)
  obtain ⟨tx₂, hrun₂, hwire₂⟩ := send_whole hcall tx₁
    (show string.length ≤ (literal string).length by simp [literal]) (by omega)
  refine ⟨tx₂, ?_, ?_, trivial⟩
  · show putBlock call e (literal string) tx = .ok () tx₂
    rw [putBlock, hlen, run_bind_ok hrun₁, hrun₂]
  · rw [hwire₂, hwire₁, literal, List.take_left, store_htonl_toU32 e hlt, ← length_be32 string.length,
      List.take_length, List.append_assoc]
    rfl

theorem client_spec {call : SendCall} (hcall : AcceptsWhole call) (e : Endian) {strings : List Bytes}
    (tx : Tx) (hstrings : ∀ s ∈ strings, 0 ∉ s ∧ s.length < 2 ^ 32) :
    ∃ tx', client call e strings tx = .ok () tx' ∧
      tx'.wire = tx.wire ++ (networkOrder.frames strings ++ networkOrder.closing) :=
  (putBlock_writesFrames hcall e).conversation hstrings ⟨List.not_mem_nil, by simp⟩ trivial

/-- A call takes as much of its buffer as it says, and takes nothing when it fails. -/
structure SendCall.Conforms (call : SendCall) : Prop where
  returned : ∀ ptr len tx n errno tx', len ≤ ptr.length → call ptr len tx = .ok (n, errno) tx' →
    n ≤ len ∧ tx'.wire = tx.wire ++ ptr.take n.toNat
  failed : ∀ ptr len tx stop tx', call ptr len tx = .error stop tx' → tx'.wire = tx.wire

theorem SendCall.conforms_send : Conforms NetProg.send where
  returned ptr len tx n errno tx' _ hrun := by
    obtain ⟨wire, _ | ⟨_ | _ | _, script⟩⟩ := tx
    · cases hrun
    · cases hrun
      exact ⟨Int.ofNat_le.2 (moved_le _ _), by rw [Int.toNat_natCast]⟩
    · cases hrun
      exact ⟨Int.natCast_nonneg len, by simp⟩
    · cases hrun
      exact ⟨by omega, by simp⟩
  failed ptr len tx stop tx' hrun := by
    obtain ⟨wire, _ | ⟨_ | _ | _, script⟩⟩ := tx
    · cases hrun
      rfl
    · cases hrun
    · cases hrun
    · cases hrun

theorem send_puts {call : SendCall} (hcall : call.Conforms) {buf : Bytes} {len : ℕ} (tx : Tx)
    (hlen : len ≤ buf.length) (hlt : len < 2 ^ 63) : Puts (buf.take len) tx (send call buf len tx) := by
  rw [send]
  rcases hrun : call buf len tx with ⟨⟨n, errno⟩, tx'⟩ | ⟨stop, tx'⟩
  · obtain ⟨hle, hwire⟩ := hcall.returned buf len tx n errno tx' hlen hrun
    rw [run_bind_ok hrun, toSsize_of_lt hlt]
    simp only
    split_ifs with hne
    · refine ⟨buf.take n.toNat, List.take_prefix_take_left (by omega), hwire⟩
    · rw [not_ne_iff.1 hne, Int.toNat_natCast] at hwire
      exact hwire
  · rw [run_bind_error hrun]
    exact ⟨[], List.nil_prefix, by rw [hcall.failed buf len tx stop tx' hrun, List.append_nil]⟩

/-- One call takes all of a buffer of `len` bytes. -/
def TakesWhole (len : ℕ) : SendAnswer → Prop
  | .accept n => len ≤ offered n
  | _ => False

section

variable {buf wire : Bytes} {len : ℕ} {a : SendAnswer} {script : List SendAnswer}

theorem send_takesWhole (ha : TakesWhole len a) (hlt : len < 2 ^ 63) :
    send NetProg.send buf len ⟨wire, a :: script⟩ = .ok () ⟨wire ++ buf.take len, script⟩ := by
  cases a with
  | accept n =>
    have hmoved : moved n len = len := min_eq_left ha
    rw [send, run_bind_ok send_accept, hmoved, toSsize_of_lt hlt]
    simp only [ne_eq, not_true, if_false]
    exact run_pure _ _
  | zero | fail => exact absurd ha not_false

theorem send_short (hbenign : a.Benign) (ha : ¬ TakesWhole len a) (hlt : len < 2 ^ 63) :
    ∃ stop tx, send NetProg.send buf len ⟨wire, a :: script⟩ = .error stop tx := by
  rcases hbenign.cases with ⟨n, rfl⟩ | rfl
  · have hne : (moved n len : ℤ) ≠ len := by
      intro heq
      exact ha (min_eq_left_iff.1 (Int.ofNat_inj.1 heq))
    refine ⟨.systemError none, ⟨wire ++ buf.take (moved n len), script⟩, ?_⟩
    rw [send, run_bind_ok send_accept, toSsize_of_lt hlt]
    simp only [if_pos hne]
    rfl
  · have hne : (-1 : ℤ) ≠ len := by omega
    refine ⟨.systemError (some .EINTR), ⟨wire, script⟩, ?_⟩
    rw [send, run_bind_ok send_fail, toSsize_of_lt hlt]
    simp only [if_pos hne]
    rfl

end

theorem putBlock_returns_iff (e : Endian) {string wire : Bytes} (hnul : 0 ∉ string)
    (hlt : string.length < 2 ^ 32) {a b : SendAnswer} (ha : a.Benign) (hb : b.Benign)
    (script : List SendAnswer) :
    (∃ tx, putBlock NetProg.send e (literal string) ⟨wire, a :: b :: script⟩ = .ok () tx ∧
        tx.wire = wire ++ networkOrder.frame string) ↔ TakesWhole 4 a ∧ TakesWhole string.length b := by
  rw [putBlock, strlen_literal hnul]
  constructor
  · rintro ⟨tx, hrun, -⟩
    obtain ⟨u, tx₁, hheader, hstring⟩ := Lib.bind_eq_ok_iff.1 hrun
    have hfirst : TakesWhole 4 a := by
      by_contra hshort
      obtain ⟨stop, tx', hfails⟩ := @send_short (store e (htonl e (toU32 string.length))) wire 4 a
        (b :: script) ha hshort (by decide)
      rw [hfails] at hheader
      cases hheader
    rw [send_takesWhole hfirst (by decide)] at hheader
    cases hheader
    refine ⟨hfirst, ?_⟩
    by_contra hshort
    obtain ⟨stop, tx', hfails⟩ := @send_short (literal string)
      (wire ++ (store e (htonl e (toU32 string.length))).take 4) string.length b script hb hshort (by omega)
    rw [hfails] at hstring
    cases hstring
  · rintro ⟨hfirst, hsecond⟩
    refine ⟨_, (run_bind_ok (send_takesWhole hfirst (by decide))).trans
      (send_takesWhole hsecond (by omega)), ?_⟩
    rw [List.take_of_length_le (length_store e _).le, store_htonl_toU32 e hlt, literal, List.take_left,
      List.append_assoc]
    rfl

/-! ### The receiving side -/

/-- A run that left its loop with `rest` unread, after turns in which `block` held `blocks`. -/
structure LeavesAfter (blocks : List Bytes) (rest : Bytes) (r : Served UInt8 Stop Rx) : Prop where
  holds : List.Forall₂ Holds r.blocks blocks
  finished : r.outcome = .finished
  input_eq : r.final.input = rest

/-- A block that a C program takes for the empty string. -/
def LooksEmpty (block : Bytes) : Prop := block = [] ∨ block.head? = some 0

instance (block : Bytes) : Decidable (LooksEmpty block) := inferInstanceAs (Decidable (_ ∨ _))

theorem getBlock_frame (e : Endian) (fresh : ℕ → UInt8) {s : Statics} (hinv : s.Inv) {m rest : Bytes}
    {rx : Rx} (hlt : m.length < 2 ^ 32 - 1) (hbenign : rx.Benign)
    (hinput : rx.input = networkOrder.frame m ++ rest) (hbudget : rx.input.length ≤ rx.budget) :
    ∃ s' rx', getBlock e fresh s rx = .ok s' rx' ∧ s'.Inv ∧ Holds s'.read_buf m ∧ rx'.Benign ∧
      rx'.input = rest ∧ rx'.input.length ≤ rx'.budget := by
  have hmax : UINT32_MAX.toNat = 2 ^ 32 - 1 := BitVec.toNat_allOnes
  have hlen : (BitVec.ofNat 32 m.length).toNat = m.length := by
    rw [BitVec.toNat_ofNat]
    omega
  have hne : BitVec.ofNat 32 m.length ≠ UINT32_MAX := by
    intro heq
    rw [heq] at hlen
    omega
  have hstream : rx.input = be32 m.length ++ (m ++ rest) := by
    rw [hinput, Lib.LengthCode.frame, List.append_assoc]
    rfl
  have hsize : rx.input.length = 4 + m.length + rest.length := by
    rw [hstream, List.length_append, List.length_append, length_be32]
    omega
  have hcomplete : Complete (BitVec.ofNat 32 m.length) ⟨rx, fresh⟩ := by
    refine ⟨⟨m ++ rest, ?_⟩, hbenign, ?_, ?_⟩
    · rw [hlen, ← hstream]
    · show 4 + (BitVec.ofNat 32 m.length).toNat ≤ rx.input.length
      omega
    · show 4 + (BitVec.ofNat 32 m.length).toNat ≤ rx.budget
      omega
  obtain ⟨s', rx', hrun, hinv', hholds, hben, hrest, hbud⟩ := getBlock_complete e hinv hcomplete hne
  rw [hlen] at hholds hrest hbud
  have hdrop : rx.input.drop 4 = m ++ rest := by rw [hstream, List.drop_left' (length_be32 _)]
  rw [← List.drop_drop, hdrop, List.drop_left] at hrest
  rw [hdrop, List.take_left] at hholds
  refine ⟨s', rx', hrun, hinv', hholds, hben, hrest, ?_⟩
  rw [hrest]
  simp only at hbud
  omega

/-- The loop prints the blocks before the first one that looks empty, and leaves behind that one. The
invariant is that of the buffer: what it holds of earlier blocks does not matter. -/
theorem serverLoop_frames (e : Endian) {blocks : List Bytes} {last rest : Bytes}
    (hblocks : ∀ b ∈ blocks, ¬ LooksEmpty b ∧ b.length < 2 ^ 32 - 1) (hlast : LooksEmpty last)
    (hlt : last.length < 2 ^ 32 - 1) {turns : ℕ} {fresh : ℕ → ℕ → UInt8} {s : Statics} (hinv : s.Inv)
    {rx : Rx} (hbenign : rx.Benign)
    (hinput : rx.input = networkOrder.frames blocks ++ (networkOrder.frame last ++ rest))
    (hbudget : rx.input.length ≤ rx.budget) (hturns : blocks.length < turns) :
    LeavesAfter blocks rest (serverLoop e turns fresh s rx) := by
  obtain ⟨turns, rfl⟩ := Nat.exists_eq_succ_of_ne_zero (by omega : turns ≠ 0)
  induction blocks generalizing turns fresh s rx with
  | nil =>
    obtain ⟨s', rx', hrun, -, hholds, -, hrest, -⟩ :=
      getBlock_frame e (fresh 0) hinv hlt hbenign hinput hbudget
    rw [serverLoop, hrun]
    simp only [if_pos (hholds.head?_eq.2 hlast)]
    exact ⟨.nil, rfl, hrest⟩
  | cons b blocks ih =>
    obtain ⟨hprints, hb⟩ := hblocks b List.mem_cons_self
    rw [Lib.LengthCode.frames_cons, List.append_assoc] at hinput
    obtain ⟨s', rx', hrun, hinv', hholds, hben, hrest, hbud⟩ :=
      getBlock_frame e (fresh 0) hinv hb hbenign hinput hbudget
    rw [List.length_cons] at hturns
    obtain ⟨turns, rfl⟩ := Nat.exists_eq_succ_of_ne_zero (by omega : turns ≠ 0)
    obtain ⟨htail, hfinished, hleft⟩ := @ih (fun b' hb' => hblocks b' (List.mem_cons_of_mem b hb'))
      (fun turn => fresh (turn + 1)) s' hinv' rx' hben hrest hbud turns (by omega)
    rw [serverLoop, hrun]
    simp only [if_neg (mt hholds.head?_eq.1 hprints)]
    exact ⟨.cons hholds htail, hfinished, hleft⟩

theorem server_of_frames (e : Endian) (fresh : ℕ → ℕ → UInt8) {blocks : List Bytes} {last rest : Bytes}
    (hblocks : ∀ b ∈ blocks, ¬ LooksEmpty b ∧ b.length < 2 ^ 32 - 1) (hlast : LooksEmpty last)
    (hlt : last.length < 2 ^ 32 - 1) {rx : Rx} (hbenign : rx.Benign)
    (hinput : rx.input = networkOrder.frames blocks ++ (networkOrder.frame last ++ rest))
    (hbudget : rx.input.length ≤ rx.budget) : LeavesAfter blocks rest (server e fresh rx) := by
  have hscript := rx.budget_le
  have hcount : blocks.length ≤ rx.input.length := by
    rw [hinput, List.length_append]
    exact (Lib.LengthCode.length_le_frames (by decide : 0 < networkOrder.width) blocks).trans
      (Nat.le_add_right _ _)
  exact serverLoop_frames e hblocks hlast hlt Statics.inv_init hbenign hinput hbudget (by omega)

/-! ### A client of strings -/

theorem not_looksEmpty_of_string {string : Bytes} (hne : string ≠ []) (hnul : 0 ∉ string) :
    ¬ LooksEmpty string := by
  rintro (hnil | hhead)
  · exact hne hnil
  · exact hnul (List.mem_of_head? hhead)

theorem map_cString_of_holds {objects strings : List Bytes} (h : List.Forall₂ Holds objects strings)
    (hnul : ∀ s ∈ strings, 0 ∉ s) : objects.map cString = strings := by
  induction h with
  | nil => rfl
  | cons hholds _ ih =>
    rw [List.map_cons, hholds.cString_eq (hnul _ List.mem_cons_self),
      ih fun s hs => hnul s (List.mem_cons_of_mem _ hs)]

theorem terminated_of_holds {objects strings : List Bytes} (h : List.Forall₂ Holds objects strings) :
    ∀ object ∈ objects, 0 ∈ object := by
  induction h with
  | nil => exact fun _ hmem => absurd hmem List.not_mem_nil
  | cons hholds _ ih =>
    refine List.forall_mem_cons.2 ⟨?_, ih⟩
    exact hholds.subset (List.mem_append_right _ List.mem_cons_self)

/-- However the kernel splits the receives, and whatever new memory holds: in each turn `block` is a
terminated string, the one the client sent, and the loop leaves at the empty one with nothing unread. -/
theorem strings_arrive {call : SendCall} (hcall : AcceptsWhole call) (clientOrder serverOrder : Endian)
    (strings : List Bytes) (hstrings : ∀ s ∈ strings, s ≠ [] ∧ 0 ∉ s ∧ s.length < 2 ^ 32 - 1)
    (script : List SendAnswer) (fresh : ℕ → ℕ → UInt8) (recvs : RecvSchedule) :
    ∃ tx, client call clientOrder strings ⟨[], script⟩ = .ok () tx ∧ ∃ N, ∀ n ≥ N,
      (∀ object ∈ (server serverOrder fresh ⟨tx.wire, recvs.upTo n⟩).blocks, 0 ∈ object) ∧
      (server serverOrder fresh ⟨tx.wire, recvs.upTo n⟩).blocks.map cString = strings ∧
      (server serverOrder fresh ⟨tx.wire, recvs.upTo n⟩).outcome = .finished ∧
      (server serverOrder fresh ⟨tx.wire, recvs.upTo n⟩).final.input = [] := by
  obtain ⟨tx, hrun, hwire⟩ := client_spec hcall clientOrder ⟨[], script⟩
    fun s hs => ⟨(hstrings s hs).2.1, (hstrings s hs).2.2.trans (by norm_num)⟩
  obtain ⟨N, hN⟩ := recvs.exists_budget tx.wire.length
  refine ⟨tx, hrun, N, ?_⟩
  intro n hn
  have hinput : tx.wire = networkOrder.frames strings ++ (networkOrder.frame [] ++ []) := by
    rw [hwire, Lib.LengthCode.frame_nil, List.append_nil, List.nil_append]
  have hblocks : ∀ s ∈ strings, ¬ LooksEmpty s ∧ s.length < 2 ^ 32 - 1 := by
    intro s hs
    obtain ⟨hne, hnul, hlt⟩ := hstrings s hs
    exact ⟨not_looksEmpty_of_string hne hnul, hlt⟩
  obtain ⟨hholds, hfinished, hrest⟩ := server_of_frames serverOrder fresh hblocks (.inl rfl) (by simp)
    (recvs.benign tx.wire n) hinput (hN n hn tx.wire)
  exact ⟨terminated_of_holds hholds, map_cString_of_holds hholds fun s hs => (hstrings s hs).2.1, hfinished,
    hrest⟩

/-- Three characters and then one, which the buffer receives over them. -/
theorem strings_arrive_abc :
    ∃ tx, client .whole .little [[97, 98, 99], [100]] ⟨[], []⟩ = .ok () tx ∧ ∃ N, ∀ n ≥ N,
      (∀ object ∈ (server .big (fun _ _ => 255) ⟨tx.wire, (RecvSchedule.always 1).upTo n⟩).blocks,
        0 ∈ object) ∧
      (server .big (fun _ _ => 255) ⟨tx.wire, (RecvSchedule.always 1).upTo n⟩).blocks.map cString =
        [[97, 98, 99], [100]] ∧
      (server .big (fun _ _ => 255) ⟨tx.wire, (RecvSchedule.always 1).upTo n⟩).outcome = .finished ∧
      (server .big (fun _ _ => 255) ⟨tx.wire, (RecvSchedule.always 1).upTo n⟩).final.input = [] :=
  strings_arrive SendCall.acceptsWhole_whole .little .big _ (by decide) [] _ (.always 1)

/-! ### A client of blocks -/

theorem not_leavesAfter_of_looksEmpty (e : Endian) (fresh : ℕ → ℕ → UInt8) {blocks : List Bytes}
    {b rest : Bytes} (hlt : ∀ b ∈ blocks, b.length < 2 ^ 32 - 1) (hmem : b ∈ blocks) (hb : LooksEmpty b)
    {rx : Rx} (hbenign : rx.Benign) (hinput : rx.input = networkOrder.frames blocks ++ rest)
    (hbudget : rx.input.length ≤ rx.budget) : ¬ LeavesAfter blocks [] (server e fresh rx) := by
  intro hall
  obtain ⟨before, first, after, rfl, hbefore, hfirst⟩ := Lib.exists_first ⟨b, hmem, hb⟩
  rw [Lib.LengthCode.frames_append, Lib.LengthCode.frames_cons, List.append_assoc,
    List.append_assoc] at hinput
  have hearly := server_of_frames e fresh
    (fun a ha => ⟨hbefore a ha, hlt a (List.mem_append_left _ ha)⟩) hfirst
    (hlt first (List.mem_append_right _ List.mem_cons_self)) hbenign hinput hbudget
  have hcount := hearly.holds.length_eq.symm.trans hall.holds.length_eq
  rw [List.length_append, List.length_cons] at hcount
  omega

/-- However the kernel splits the sends and the receives, the C++ server receives what the C++ client sent.
On the same stream the C server leaves its loop at the empty block, having received every block, exactly
when no block begins with a zero byte. -/
theorem understands_iff (clientOrder cxxOrder cOrder : Endian) (blocks : List Bytes)
    (hblocks : ∀ b ∈ blocks, b ≠ [] ∧ b.length < 2 ^ 32 - 1) (sends : SendSchedule)
    (cxxRecvs cRecvs : RecvSchedule) (fresh : ℕ → ℕ → UInt8) :
    ∃ N, ∀ n ≥ N, ∃ tx, Cxx.client clientOrder blocks ⟨[], sends.upTo n⟩ = .ok () tx ∧
      ∃ N', ∀ n' ≥ N',
        (Cxx.server cxxOrder ⟨tx.wire, cxxRecvs.upTo n'⟩).blocks = blocks ∧
        (Cxx.server cxxOrder ⟨tx.wire, cxxRecvs.upTo n'⟩).outcome = .finished ∧
        (Cxx.server cxxOrder ⟨tx.wire, cxxRecvs.upTo n'⟩).final.input = [] ∧
        (LeavesAfter blocks [] (server cOrder fresh ⟨tx.wire, cRecvs.upTo n'⟩) ↔
          ∀ b ∈ blocks, b.head? ≠ some 0) := by
  have hfits : ∀ b ∈ blocks, networkOrder.Fits b := fun b hb =>
    ⟨(hblocks b hb).1, (hblocks b hb).2.trans (by norm_num [networkOrder])⟩
  obtain ⟨N, hN⟩ := sends.exists_budget (networkOrder.frames blocks ++ networkOrder.closing).length
  refine ⟨N, ?_⟩
  intro n hn
  obtain ⟨tx, hrun, hwire⟩ := Cxx.client_spec clientOrder (fun b hb => (hfits b hb).2) (sends.benign [] n)
    (hN n hn [])
  rw [List.nil_append] at hwire
  obtain ⟨N₁, hN₁⟩ := cxxRecvs.exists_budget (tx.wire.length + 1)
  obtain ⟨N₂, hN₂⟩ := cRecvs.exists_budget tx.wire.length
  refine ⟨tx, hrun, max N₁ N₂, ?_⟩
  intro n' hn'
  have hdecodes : Lib.Decodes networkOrder tx.wire blocks [] .closed := by
    have h := Lib.decodes_frames hfits []
    rwa [List.append_nil, ← hwire] at h
  obtain ⟨hcxx, hfinished, hrest⟩ := Cxx.server_of_decodes cxxOrder hdecodes (cxxRecvs.benign tx.wire n')
    (hN₁ n' (le_of_max_le_left hn') tx.wire)
  have hbudget := hN₂ n' (le_of_max_le_right hn') tx.wire
  refine ⟨hcxx, hfinished, hrest, ?_, ?_⟩
  · intro hleaves b hb hhead
    exact not_leavesAfter_of_looksEmpty cOrder fresh (fun b hb => (hblocks b hb).2) hb (.inr hhead)
      (cRecvs.benign tx.wire n') hwire hbudget hleaves
  · intro hheads
    have hinput : tx.wire = networkOrder.frames blocks ++ (networkOrder.frame [] ++ []) := by
      rw [hwire, Lib.LengthCode.frame_nil, List.append_nil]
    have hprinted : ∀ b ∈ blocks, ¬ LooksEmpty b ∧ b.length < 2 ^ 32 - 1 := fun b hb =>
      ⟨not_or.2 ⟨(hblocks b hb).1, hheads b hb⟩, (hblocks b hb).2⟩
    exact server_of_frames cOrder fresh hprinted (.inl rfl) (by simp) (cRecvs.benign tx.wire n') hinput
      hbudget

/-- Two blocks, from and to hosts of either byte order. -/
theorem understands_hi :
    ∃ N, ∀ n ≥ N, ∃ tx, Cxx.client .little [[104, 105], [33]] ⟨[], (SendSchedule.always 1).upTo n⟩ = .ok () tx ∧
      ∃ N', ∀ n' ≥ N',
        (Cxx.server .little ⟨tx.wire, (RecvSchedule.always 1).upTo n'⟩).blocks = [[104, 105], [33]] ∧
        (Cxx.server .little ⟨tx.wire, (RecvSchedule.always 1).upTo n'⟩).outcome = .finished ∧
        (Cxx.server .little ⟨tx.wire, (RecvSchedule.always 1).upTo n'⟩).final.input = [] ∧
        (LeavesAfter [[104, 105], [33]] []
            (server .big (fun _ _ => 0) ⟨tx.wire, (RecvSchedule.always 1).upTo n'⟩) ↔
          ∀ b ∈ [[104, 105], [33]], b.head? ≠ some (0 : UInt8)) :=
  understands_iff .little .little .big [[104, 105], [33]] (by decide) (.always 1) (.always 1) (.always 1) _

/-- The block of a zero byte and the letter `A`, and then the empty block: the C++ server receives it, and
the C server leaves at once, with the empty block unread. -/
theorem zero_byte_ends_loop :
    ∃ tx, Cxx.client .little [[0, 65]] ⟨[], [.accept 4, .accept 2, .accept 4]⟩ = .ok () tx ∧
      (Cxx.server .little ⟨tx.wire, [.deliver 4, .deliver 2, .deliver 4]⟩).blocks = [[0, 65]] ∧
      server .little (fun _ _ => 0) ⟨tx.wire, [.deliver 4, .deliver 2, .deliver 4]⟩ =
        ⟨[], .finished, ⟨[0, 0, 0, 0], [.deliver 4]⟩⟩ ∧
      ¬ LeavesAfter [[0, 65]] [] ⟨[], .finished, ⟨[0, 0, 0, 0], [.deliver 4]⟩⟩ := by
  refine ⟨⟨[0, 0, 0, 2, 0, 65, 0, 0, 0, 0], []⟩, rfl, rfl, rfl, ?_⟩
  intro hleaves
  exact absurd hleaves.input_eq (List.cons_ne_nil _ _)

end NetProg.C
