import NetProg.C.Clients
import NetProg.C.StrEcho
import NetProg.Cxx.Clients
import NetProg.Cxx.SocketStream
import NetProg.Cxx.StrEcho
import NetProg.EchoEnds
import NetProg.System.StrCli
import NetProg.System.Transcript

/-!
# The echo clients in their runs

`str_cli` of the four clients, with the `SendAll` and the reader of each, makes the calls of its `LineClient`: on the
socket that a run with any server leaves it, it has ended as the program has and printed what the program has printed
(`str_cli_run`).
-/

namespace NetProg
open Lib (Program Duplex Move LineEnd takeLine run run_bind_ok run_bind_error run_get_bind run_modify_bind)
open Lib.Duplex (step)
open Conn
open LineClient (GetsChars Hands Reads)

theorem ne_zero_of_take {n : ℕ} {input rest : Bytes} {ch : UInt8} (h : input.take n = ch :: rest) : n ≠ 0 := by
  rintro rfl
  rw [List.take_zero] at h
  cases h

/-! ### The client in C -/

namespace C

/-- `Readline(sockfd, recvline, maxlen)`: what it returns and stores. `err_sys` ends the process. -/
def readlineOrExit (maxlen : ℕ) : EStateM Stop LineBuffer (ℤ × Bytes) := do
  let (n, line) ← readline maxlen
  if n < 0 then throw (.systemError none) else return (n, line)

/-- `recvline` after a `Readline`, where nothing counts if that returns `0`. -/
def replyLine (_recvline : Bytes) : LineBuffer → EStateM Stop Rx (Bytes × LineBuffer) :=
  onRx LineBuffer.rx (fun b rx => { b with rx }) do
    let (n, line) ← readlineOrExit 1024
    if n = 0 then return [] else return line

/-- `str_cli(fp, sockfd)`. -/
def strCliRun (input : Bytes) : EStateM Stop Conn (StrCliEnd × Bytes) :=
  strCliLoop strCli (fun sendline => sendAll sendline sendline.length) replyLine (input.length + 1) input [] []
    ⟨[], ⟨[], []⟩⟩

end C

theorem C.getsChars_myRead : GetsChars C.strCli (fun b unread rx => b = ⟨unread, rx⟩) C.myRead where
  taken b ch rest rx hat := by
    subst hat
    have hrefill : C.refill ⟨ch :: rest, rx⟩ = .ok ((ch :: rest).length : ℤ) ⟨ch :: rest, rx⟩ := rfl
    have hpos : (0 : ℤ) < ((ch :: rest).length : ℤ) := by simp
    refine ⟨⟨rest, rx⟩, ?_, rfl⟩
    rw [C.myRead, run_bind_ok hrefill, C.takeByte, if_neg (by omega), if_neg (by omega)]
    rfl
  delivered b m input script ch rest hat hcons := by
    subst hat
    have hcount : moved m (min 4096 input.length) ≠ 0 := ne_zero_of_take hcons
    have hcons' : input.take (moved m (min 4096 input.length)) = ch :: rest := hcons
    have hrefill : C.refill ⟨[], ⟨input, .deliver m :: script⟩⟩ = .ok (moved m (min 4096 input.length) : ℤ)
        ⟨input.take (moved m (min 4096 input.length)), input.drop (moved m (min 4096 input.length)), script⟩ :=
      C.again_deliver (RecvAnswer.deliver m :: script).length m [] input script
    refine ⟨_, ?_, rfl⟩
    rw [C.myRead, run_bind_ok hrefill, C.takeByte, if_neg (by omega), if_neg (by omega), hcons']
    rfl
  ended b m script hat := by
    subst hat
    have hrefill : C.refill ⟨[], ⟨[], .deliver m :: script⟩⟩ = .ok 0 ⟨[], ⟨[], script⟩⟩ := by
      have hagain := C.again_deliver (RecvAnswer.deliver m :: script).length m [] [] script
      rw [List.length_nil, Nat.min_zero, moved_zero] at hagain
      exact hagain
    refine ⟨0, _, ?_, rfl⟩
    rw [C.myRead, run_bind_ok hrefill]
    rfl
  repeats b e input script he hat := by
    subst hat
    have heintr : e = .EINTR := by
      by_contra hne
      simp [C.strCli, hne] at he
    refine ⟨_, ?_, rfl⟩
    have hrefill : C.refill ⟨[], ⟨input, .fail e :: script⟩⟩ = C.refill ⟨[], ⟨input, script⟩⟩ := by
      have hagain := C.again_fail (RecvAnswer.fail e :: script).length [] input e script
      rw [if_pos heintr] at hagain
      exact hagain
    simp only [C.myRead, bind, EStateM.bind, hrefill]
  fails b e input script he hat := by
    subst hat
    have heintr : e ≠ .EINTR := by
      rintro rfl
      simp [C.strCli] at he
    have hrefill : C.refill ⟨[], ⟨input, .fail e :: script⟩⟩ = .ok (-1) ⟨[], ⟨input, script⟩⟩ := by
      have hagain := C.again_fail (RecvAnswer.fail e :: script).length [] input e script
      rw [if_neg heintr] at hagain
      exact hagain
    refine ⟨-1, 0, _, ?_, by decide, by decide, rfl⟩
    rw [C.myRead, run_bind_ok hrefill]
    rfl
  blocked b input hat := by
    subst hat
    exact ⟨_, _, run_bind_error rfl⟩

theorem C.replyLine_ok {recvline out : Bytes} {b b' : C.LineBuffer} {rx : Rx} {e : LineEnd}
    (hrun : takeLine C.myRead (· = newline) 1023 [] { b with rx } = .ok (e, out) b') :
    C.replyLine recvline b rx =
      if e = .failed then .error (.systemError none) b'.rx else .ok (out, b') b'.rx := by
  have hread : C.readline 1024 { b with rx } = .ok (C.returned (e, out), out) b' := by
    rw [C.readline_eq (by decide), run_bind_ok hrun]
    rfl
  by_cases hfailed : e = .failed
  · rw [if_pos hfailed]
    subst hfailed
    apply onRx_error
    apply run_bind_error
    rw [C.readlineOrExit, run_bind_ok hread]
    rfl
  · rw [if_neg hfailed]
    have hnonneg : ¬ C.returned (e, out) < 0 := by
      cases e with
      | failed => exact absurd rfl hfailed
      | stopped | ended | full =>
        simp only [C.returned]
        omega
    have hcall : C.readlineOrExit 1024 { b with rx } = .ok (C.returned (e, out), out) b' := by
      rw [C.readlineOrExit, run_bind_ok hread]
      simp only [if_neg hnonneg]
      rfl
    apply onRx_ok
    rw [run_bind_ok hcall]
    dsimp only
    split_ifs with hzero
    · have hnil : out = [] := by
        cases e with
        | failed => exact absurd rfl hfailed
        | stopped | ended => simpa [C.returned] using hzero
        | full =>
          simp only [C.returned] at hzero
          omega
      rw [hnil]
      rfl
    · rfl

theorem C.hands_replyLine (bound : ℕ) :
    Hands C.strCli (fun b unread rx => b = ⟨unread, rx⟩) C.myRead 1023 bound (fun b rx => { b with rx })
      (fun b unread ended => b.unread = unread ∧ ended = false) C.replyLine where
  at_start b unread rx hkeeps := by rw [← hkeeps.1]
  line recvline b unread rx e out b' rest rx' hkeeps hrun he hat := by
    subst hat
    have hne : e ≠ .failed := by
      rintro rfl
      simp at he
    refine ⟨⟨rest, rx'⟩, ?_, rfl, rfl⟩
    rw [C.replyLine_ok hrun, if_neg hne]
    rfl
  ended recvline b unread rx out b' rx' hkeeps hrun hat := by
    subst hat
    refine ⟨⟨[], rx'⟩, ?_, rfl, rfl⟩
    rw [C.replyLine_ok hrun, if_neg (by decide)]
  gives_up recvline b rx out b' e hrun he := by
    rw [C.replyLine_ok hrun, if_pos rfl]
    exact ⟨_, _, rfl⟩
  goes_on recvline b unread rx out b' rx' e hkeeps hrun he hat := by
    have hne : C.strCli.onError e ≠ .endOfStream := by
      simp only [C.strCli]
      split <;> decide
    exact absurd he hne
  throws recvline b unread rx stop b' hkeeps hrun := by
    refine ⟨stop, b'.rx, onRx_error ?_⟩
    apply run_bind_error
    apply run_bind_error
    rw [C.readline_eq (by decide)]
    exact run_bind_error hrun
  skips recvline b unread rx hkeeps := by cases hkeeps.2

theorem C.reads_replyLine (bound : ℕ) :
    Reads C.strCli (fun b unread ended => b.unread = unread ∧ ended = false) bound C.replyLine :=
  C.getsChars_myRead.reads (C.hands_replyLine bound) (by decide) fun line ch _ => by
    simp [C.strCli, EndsLine]

/-! ### The client in C++ with the `ReadBuffer` -/

namespace Cxx

/-- `recvline = buffer.Readline(buf_size);` -/
def replyLine (_recvline : Bytes) : ReadBuffer → EStateM Stop Rx (Bytes × ReadBuffer) :=
  onRx ReadBuffer.rx (fun b rx => { b with rx }) (ReadBuffer.readline 1024 newline)

/-- `str_cli(in, sock)` of `str_cli.cpp`. -/
def strCliRun (input : Bytes) : EStateM Stop Conn (StrCliEnd × Bytes) :=
  strCliLoop strCli (fun sendline => Socket.sendAll sendline sendline.length) replyLine (input.length + 1) input [] []
    (.new 1024 ⟨[], []⟩)

namespace ReadBuffer

variable {b : ReadBuffer} {rx : Rx} {unread : Bytes}

/-- The buffer has `unread`, and its descriptor has the connection `rx`. -/
def At (b : ReadBuffer) (unread : Bytes) (rx : Rx) : Prop := Safe 1024 b ∧ b.unread = unread ∧ b.rx = rx

theorem room : sizeofVector ≤ 1024 := by decide

theorem unread_takeChar (hsafe : Safe 1024 b) (hcnt : 0 < b.read_cnt) :
    b.unread = b.read_buf.getD b.read_ptr 0 ::
      ({ b with read_cnt := b.read_cnt - 1, read_ptr := b.read_ptr + 1 } : ReadBuffer).unread := by
  have hstream := stream_takeChar hsafe hcnt
  rw [stream, stream, ← List.cons_append] at hstream
  exact List.append_cancel_right hstream

theorem At.cnt_nonpos (h : At b [] rx) : b.read_cnt ≤ 0 := by
  by_contra hcnt
  have hcons := unread_takeChar h.1 (not_le.1 hcnt)
  rw [h.2.1] at hcons
  cases hcons

theorem Safe.failed {buf : Bytes} {cnt : ℤ} {ptr : ℕ} {rx rx' : Rx} {asked : List ℕ} {errno : Option Errno}
    (h : Safe 1024 ⟨buf, cnt, ptr, rx, asked, errno⟩) (e : Errno) :
    Safe 1024 ⟨buf, -1, ptr, rx', asked ++ [sizeofVector], some e⟩ := by
  refine ⟨h.length_eq, ?_, ?_⟩
  · intro len hlen
    rcases List.mem_append.1 hlen with hmem | hmem
    · exact h.asked_le len hmem
    · exact List.mem_singleton.1 hmem ▸ room
  · have hwindow := h.window_le
    simp only at hwindow ⊢
    omega

theorem At.taken {ch : UInt8} {rest : Bytes} (h : At b (ch :: rest) rx) :
    ∃ b', getChar b = .ok (1, ch) b' ∧ At b' rest rx := by
  obtain ⟨hsafe, hunread, hrx⟩ := h
  have hcnt : 0 < b.read_cnt := by
    by_contra hcnt
    rw [unread_of_nonpos (not_lt.1 hcnt)] at hunread
    cases hunread
  have hcons := unread_takeChar hsafe hcnt
  rw [hunread, List.cons.injEq] at hcons
  have hget : getChar b = takeChar b := getChar_of_pos hcnt
  rw [takeChar, ← hcons.1] at hget
  exact ⟨_, hget, safe_takeChar hsafe hcnt, hcons.2.symm, hrx⟩

theorem getChar_refill {b₁ : ReadBuffer} (hcnt : b.read_cnt ≤ 0)
    (h : again (b.rx.script.length + 1) b = .ok 1 b₁) (hcnt' : 0 < b₁.read_cnt) : getChar b = getChar b₁ := by
  rw [getChar_of_nonpos hcnt, run_bind_ok h, getChar_of_pos hcnt']
  rfl

end ReadBuffer

end Cxx

theorem Cxx.getsChars_getChar : GetsChars Cxx.strCli Cxx.ReadBuffer.At Cxx.ReadBuffer.getChar where
  taken b ch rest rx hat := hat.taken
  delivered b m input script ch rest hat hcons := by
    have hcnt := hat.cnt_nonpos
    obtain ⟨hsafe, -, hrx⟩ := hat
    obtain ⟨buf, cnt, ptr, rx, asked, errno⟩ := b
    obtain rfl : rx = ⟨input, .deliver m :: script⟩ := hrx
    obtain ⟨k, hk⟩ : ∃ k, moved m (min Cxx.sizeofVector input.length) = k := ⟨_, rfl⟩
    have hcons' : input.take k = ch :: rest := hk ▸ hcons
    have hzero : k ≠ 0 := ne_zero_of_take hcons'
    have hkle : k ≤ min Cxx.sizeofVector input.length := hk ▸ moved_le _ _
    have htake : (input.take k).length = k := List.length_take_of_le (by omega)
    have hagain := @Cxx.ReadBuffer.again_deliver (script.length + 1) m buf input cnt ptr script asked errno
      (hsafe.length_eq ▸ Cxx.ReadBuffer.room) k hk
    rw [if_neg hzero, if_neg hzero] at hagain
    have hat' : Cxx.ReadBuffer.At ⟨input.take k ++ buf.drop k, k, 0, ⟨input.drop k, script⟩,
        asked ++ [Cxx.sizeofVector], errno⟩ (ch :: rest) ⟨input.drop k, script⟩ := by
      refine ⟨(Cxx.ReadBuffer.keeps_again Cxx.ReadBuffer.room _).ok hsafe hagain, ?_, rfl⟩
      rw [Cxx.ReadBuffer.unread]
      simp only [List.drop_zero, Int.toNat_natCast]
      rw [List.take_append_of_le_length htake.ge, List.take_of_length_le htake.le, hcons']
    obtain ⟨b', hget, hat''⟩ := hat'.taken
    refine ⟨b', ?_, ?_⟩
    · rw [Cxx.ReadBuffer.getChar_refill hcnt hagain (by simp only; omega), hget]
    · rw [show Cxx.strCli.size = Cxx.sizeofVector from rfl, hk]
      exact hat''
  ended b m script hat := by
    have hcnt := hat.cnt_nonpos
    obtain ⟨hsafe, -, hrx⟩ := hat
    obtain ⟨buf, cnt, ptr, rx, asked, errno⟩ := b
    obtain rfl : rx = ⟨[], .deliver m :: script⟩ := hrx
    have hagain := @Cxx.ReadBuffer.again_deliver (script.length + 1) m buf [] cnt ptr script asked errno
      (hsafe.length_eq ▸ Cxx.ReadBuffer.room) 0 (by simp)
    rw [if_pos rfl, if_pos rfl] at hagain
    refine ⟨0, _, ?_, (Cxx.ReadBuffer.keeps_again Cxx.ReadBuffer.room _).ok hsafe hagain, ?_, rfl⟩
    · rw [Cxx.ReadBuffer.getChar_of_nonpos hcnt]
      exact run_bind_ok hagain
    · exact Cxx.ReadBuffer.unread_of_nonpos le_rfl
  repeats b e input script he hat := by
    have hcnt := hat.cnt_nonpos
    obtain ⟨hsafe, -, hrx⟩ := hat
    obtain ⟨buf, cnt, ptr, rx, asked, errno⟩ := b
    obtain rfl : rx = ⟨input, .fail e :: script⟩ := hrx
    have heintr : e = .EINTR := by
      by_contra hne
      simp [Cxx.strCli, hne] at he
    have hagain := @Cxx.ReadBuffer.again_fail (script.length + 1) buf input cnt ptr script asked errno e
    rw [if_pos heintr] at hagain
    refine ⟨⟨buf, -1, ptr, ⟨input, script⟩, asked ++ [Cxx.sizeofVector], some e⟩, ?_, ?_, ?_, rfl⟩
    · rw [Cxx.ReadBuffer.getChar_of_nonpos hcnt, Cxx.ReadBuffer.getChar_of_nonpos (show (-1 : ℤ) ≤ 0 by decide)]
      simp only [bind, EStateM.bind, List.length_cons, hagain]
    · exact hsafe.failed e
    · exact Cxx.ReadBuffer.unread_of_nonpos (show (-1 : ℤ) ≤ 0 by decide)
  fails b e input script he hat := by
    have hcnt := hat.cnt_nonpos
    obtain ⟨hsafe, -, hrx⟩ := hat
    obtain ⟨buf, cnt, ptr, rx, asked, errno⟩ := b
    obtain rfl : rx = ⟨input, .fail e :: script⟩ := hrx
    have heintr : e ≠ .EINTR := by
      rintro rfl
      simp [Cxx.strCli] at he
    have hagain := @Cxx.ReadBuffer.again_fail (script.length + 1) buf input cnt ptr script asked errno e
    rw [if_neg heintr] at hagain
    refine ⟨-1, 0, _, ?_, by decide, by decide, hsafe.failed e, ?_, rfl⟩
    · rw [Cxx.ReadBuffer.getChar_of_nonpos hcnt]
      exact run_bind_ok hagain
    · exact Cxx.ReadBuffer.unread_of_nonpos (show (-1 : ℤ) ≤ 0 by decide)
  blocked b input hat := by
    have hcnt := hat.cnt_nonpos
    obtain ⟨-, -, hrx⟩ := hat
    obtain ⟨buf, cnt, ptr, rx, asked, errno⟩ := b
    obtain rfl : rx = ⟨input, []⟩ := hrx
    exact ⟨_, _, (Cxx.ReadBuffer.getChar_of_nonpos hcnt).trans (run_bind_error Cxx.ReadBuffer.again_nil)⟩

theorem Cxx.hands_replyLine (bound : ℕ) :
    Hands Cxx.strCli Cxx.ReadBuffer.At Cxx.ReadBuffer.getChar 1023 bound (fun b rx => { b with rx })
      (fun b unread ended => ReadBuffer.Safe 1024 b ∧ b.unread = unread ∧ ended = false) Cxx.replyLine where
  at_start b unread rx hkeeps := by
    obtain ⟨hsafe, hunread, -⟩ := hkeeps
    exact ⟨⟨hsafe.length_eq, hsafe.asked_le, hsafe.window_le⟩, hunread, rfl⟩
  line recvline b unread rx e out b' rest rx' hkeeps hrun he hat := by
    obtain ⟨hsafe, hunread, rfl⟩ := hat
    refine ⟨b', onRx_ok ?_, hsafe, hunread, rfl⟩
    rw [Cxx.ReadBuffer.readline_eq]
    apply (run_bind_ok hrun).trans
    rcases he with rfl | ⟨rfl, -⟩ <;> rfl
  ended recvline b unread rx out b' rx' hkeeps hrun hat := by
    obtain ⟨hsafe, hunread, rfl⟩ := hat
    refine ⟨b', onRx_ok ?_, hsafe, hunread, rfl⟩
    rw [Cxx.ReadBuffer.readline_eq]
    exact run_bind_ok hrun
  gives_up recvline b rx out b' e hrun he := by
    refine ⟨.systemError b'.errno, b'.rx, onRx_error ?_⟩
    rw [Cxx.ReadBuffer.readline_eq]
    exact run_bind_ok hrun
  goes_on recvline b unread rx out b' rx' e hkeeps hrun he hat := by
    have hne : Cxx.strCli.onError e ≠ .endOfStream := by
      simp only [Cxx.strCli]
      split <;> decide
    exact absurd he hne
  throws recvline b unread rx stop b' hkeeps hrun := by
    refine ⟨stop, b'.rx, onRx_error ?_⟩
    rw [Cxx.ReadBuffer.readline_eq]
    exact run_bind_error hrun
  skips recvline b unread rx hkeeps := by cases hkeeps.2.2

theorem Cxx.reads_replyLine (bound : ℕ) :
    Reads Cxx.strCli (fun b unread ended => ReadBuffer.Safe 1024 b ∧ b.unread = unread ∧ ended = false) bound
      Cxx.replyLine :=
  Cxx.getsChars_getChar.reads (Cxx.hands_replyLine bound) (by decide) fun line ch _ => by
    simp [Cxx.strCli, EndsLine]

/-! ### The client in C++ with the stream -/

namespace Cxx

namespace SocketInputStream

/-- `std::getline(sock_stream, recvline)`: what becomes of `recvline`. -/
def getlineInto (recvline : Bytes) : EStateM Stop SocketInputStream Bytes := do
  let s ← get
  if s.eofbit ∨ s.failbit ∨ s.badbit then do
    modify fun s => { s with failbit := true }
    return recvline
  else do
    match ← takeLine sbumpc (· = newline) maxSize [] with
    | (.stopped, line) => return line.dropLast
    | (.ended, line) => do
      modify fun s => { s with eofbit := true }
      if line = [] then do
        modify fun s => { s with failbit := true }
        return line
      else return line
    | (.full, line) => do
      modify fun s => { s with failbit := true }
      return line
    | (.failed, line) => do
      modify fun s => { s with badbit := true }
      return line

/-- The characters in the get area. -/
def unread (s : SocketInputStream) : Bytes := (s.buffer.take s.egptr).drop s.gptr

/-- The stream has `unread` in its get area, and its socket has the connection `rx`. -/
def At (s : SocketInputStream) (unread : Bytes) (rx : Rx) : Prop := s.Inv ∧ s.unread = unread ∧ s.rx = rx

/-- The same between two calls, where the stream may have ended. -/
def Keeps (s : SocketInputStream) (unread : Bytes) (ended : Bool) : Prop :=
  if ended then s.eofbit ∨ s.failbit ∨ s.badbit else s.Inv ∧ s.unread = unread

variable {s : SocketInputStream} {rx : Rx}

theorem Keeps.inv {unread : Bytes} (h : Keeps s unread false) (rx : Rx) : ({ s with rx } : SocketInputStream).Inv :=
  ⟨h.1.length_eq, h.1.egptr_le, h.1.good⟩

theorem unread_of_le (h : s.egptr ≤ s.gptr) : s.unread = [] :=
  List.drop_eq_nil_of_le ((List.length_take_le _ _).trans h)

theorem unread_takeChar (hinv : s.Inv) (hlt : s.gptr < s.egptr) :
    s.unread = s.buffer.getD s.gptr 0 :: ({ s with gptr := s.gptr + 1 } : SocketInputStream).unread := by
  have hstream := stream_takeChar hinv hlt
  rw [stream, stream, ← List.cons_append] at hstream
  exact List.append_cancel_right hstream

theorem At.empty (h : At s [] rx) : ¬ s.gptr < s.egptr := by
  intro hlt
  have hcons := unread_takeChar h.1 hlt
  rw [h.2.1] at hcons
  cases hcons

theorem At.taken {ch : UInt8} {rest : Bytes} (h : At s (ch :: rest) rx) :
    ∃ s', sbumpc s = .ok (1, ch) s' ∧ At s' rest rx := by
  obtain ⟨hinv, hunread, hrx⟩ := h
  have hlt : s.gptr < s.egptr := by
    by_contra hle
    rw [unread_of_le (not_lt.1 hle)] at hunread
    cases hunread
  have hcons := unread_takeChar hinv hlt
  rw [hunread, List.cons.injEq] at hcons
  have hget : sbumpc s = takeChar s := sbumpc_of_lt hlt
  rw [takeChar, ← hcons.1] at hget
  exact ⟨_, hget, ⟨hinv.length_eq, hinv.egptr_le, hinv.good⟩, hcons.2.symm, hrx⟩

end SocketInputStream

/-- `std::getline(sock_stream, recvline);` -/
def replyLineIstream (recvline : Bytes) : SocketInputStream → EStateM Stop Rx (Bytes × SocketInputStream) :=
  onRx SocketInputStream.rx (fun s rx => { s with rx }) (SocketInputStream.getlineInto recvline)

/-- `str_cli(in, sock)` of `str_cli_istream.cpp`. -/
def strCliIstreamRun (input : Bytes) : EStateM Stop Conn (StrCliEnd × Bytes) :=
  strCliLoop strCliIstream (fun sendline => Socket.sendAll sendline sendline.length) replyLineIstream
    (input.length + 1) input [] [] (.new ⟨[], []⟩)

end Cxx

theorem Cxx.getsChars_sbumpc :
    GetsChars Cxx.strCliIstream Cxx.SocketInputStream.At Cxx.SocketInputStream.sbumpc where
  taken s ch rest rx hat := hat.taken
  delivered s m input script ch rest hat hcons := by
    have hempty := hat.empty
    obtain ⟨hinv, -, hrx⟩ := hat
    obtain ⟨buffer, gptr, egptr, rx, eofbit, failbit, badbit⟩ := s
    obtain rfl : rx = ⟨input, .deliver m :: script⟩ := hrx
    obtain ⟨k, hk⟩ : ∃ k, moved m (min 1024 input.length) = k := ⟨_, rfl⟩
    have hcons' : input.take k = ch :: rest := hk ▸ hcons
    have hzero : k ≠ 0 := ne_zero_of_take hcons'
    have hkle : k ≤ min 1024 input.length := hk ▸ moved_le _ _
    have htake : (input.take k).length = k := List.length_take_of_le (by omega)
    have hunder := @Cxx.SocketInputStream.underflow_deliver buffer input gptr egptr m eofbit failbit badbit script k hk
    rw [if_neg hzero] at hunder
    have hlen := hinv.length_eq
    have hat' : Cxx.SocketInputStream.At ⟨input.take k ++ buffer.drop k, 0, k, ⟨input.drop k, script⟩, eofbit, failbit,
        badbit⟩ (ch :: rest) ⟨input.drop k, script⟩ := by
      refine ⟨⟨?_, ?_, hinv.good⟩, ?_, rfl⟩
      · simp only at hlen ⊢
        rw [List.length_append, htake, List.length_drop]
        omega
      · simp only
        omega
      · rw [Cxx.SocketInputStream.unread]
        simp only [List.drop_zero]
        rw [List.take_append_of_le_length htake.ge, List.take_of_length_le htake.le, hcons']
    obtain ⟨s', hget, hat''⟩ := hat'.taken
    refine ⟨s', ?_, ?_⟩
    · rw [Cxx.SocketInputStream.sbumpc_of_not_lt hempty, run_bind_ok hunder, ← hget,
        Cxx.SocketInputStream.sbumpc_of_lt (Nat.pos_of_ne_zero hzero)]
      rfl
    · rw [show Cxx.strCliIstream.size = 1024 from rfl, hk]
      exact hat''
  ended s m script hat := by
    have hempty := hat.empty
    obtain ⟨hinv, hunread, hrx⟩ := hat
    obtain ⟨buffer, gptr, egptr, rx, eofbit, failbit, badbit⟩ := s
    obtain rfl : rx = ⟨[], .deliver m :: script⟩ := hrx
    have hunder := @Cxx.SocketInputStream.underflow_deliver buffer [] gptr egptr m eofbit failbit badbit script 0
      (by simp)
    rw [if_pos rfl] at hunder
    refine ⟨0, ⟨buffer, gptr, egptr, ⟨[], script⟩, eofbit, failbit, badbit⟩, ?_,
      ⟨hinv.length_eq, hinv.egptr_le, hinv.good⟩, hunread, rfl⟩
    rw [Cxx.SocketInputStream.sbumpc_of_not_lt hempty]
    exact run_bind_ok hunder
  repeats s e input script he hat := by cases he
  fails s e input script _ hat := by
    have hempty := hat.empty
    obtain ⟨hinv, hunread, hrx⟩ := hat
    obtain ⟨buffer, gptr, egptr, rx, eofbit, failbit, badbit⟩ := s
    obtain rfl : rx = ⟨input, .fail e :: script⟩ := hrx
    refine ⟨-1, 0, ⟨buffer, gptr, egptr, ⟨input, script⟩, eofbit, failbit, badbit⟩, ?_, by decide, by decide,
      ⟨hinv.length_eq, hinv.egptr_le, hinv.good⟩, hunread, rfl⟩
    rw [Cxx.SocketInputStream.sbumpc_of_not_lt hempty]
    exact run_bind_ok Cxx.SocketInputStream.underflow_fail
  blocked s input hat := by
    have hempty := hat.empty
    obtain ⟨-, -, hrx⟩ := hat
    obtain ⟨buffer, gptr, egptr, rx, eofbit, failbit, badbit⟩ := s
    obtain rfl : rx = ⟨input, []⟩ := hrx
    exact ⟨_, _, (Cxx.SocketInputStream.sbumpc_of_not_lt hempty).trans (run_bind_error rfl)⟩

theorem Cxx.SocketInputStream.getlineInto_ok {recvline out : Bytes} {s s' : SocketInputStream} {e : LineEnd}
    (hinv : s.Inv) (hrun : takeLine sbumpc (· = newline) maxSize [] s = .ok (e, out) s') :
    getlineInto recvline s = .ok (if e = .stopped then out.dropLast else out)
      { s' with
        eofbit := s'.eofbit || e = .ended
        failbit := s'.failbit || e = .full || (e = .ended && out = [])
        badbit := s'.badbit || e = .failed } := by
  obtain ⟨-, -, heof, hfail, hbad⟩ := hinv
  rw [getlineInto, run_get_bind, heof, hfail, hbad, if_neg (by simp), run_bind_ok hrun]
  cases e with
  | stopped => simp
  | ended =>
    by_cases hnil : out = []
    · simp [hnil, run_modify_bind]
      rfl
    · simp [hnil, run_modify_bind]
  | full => simp [run_modify_bind]
  | failed => simp [run_modify_bind]

theorem Cxx.SocketInputStream.getlineInto_error {recvline : Bytes} {s s' : SocketInputStream} {stop : Stop}
    (hinv : s.Inv) (hrun : takeLine sbumpc (· = newline) maxSize [] s = .error stop s') :
    getlineInto recvline s = .error stop s' := by
  obtain ⟨-, -, heof, hfail, hbad⟩ := hinv
  rw [getlineInto, run_get_bind, heof, hfail, hbad, if_neg (by simp), run_bind_error hrun]

theorem Cxx.SocketInputStream.getlineInto_ended {recvline : Bytes} {s : SocketInputStream}
    (h : s.eofbit ∨ s.failbit ∨ s.badbit) :
    getlineInto recvline s = .ok recvline { s with failbit := true } := by
  rw [getlineInto, run_get_bind, if_pos h]
  rfl

theorem Cxx.hands_replyLineIstream {bound : ℕ} (hbound : bound < SocketInputStream.maxSize) :
    Hands Cxx.strCliIstream Cxx.SocketInputStream.At Cxx.SocketInputStream.sbumpc SocketInputStream.maxSize bound
      (fun s rx => { s with rx }) Cxx.SocketInputStream.Keeps Cxx.replyLineIstream where
  at_start s unread rx hkeeps := ⟨hkeeps.inv rx, hkeeps.2, rfl⟩
  line recvline s unread rx e out s' rest rx' hkeeps hrun he hat := by
    obtain rfl : e = .stopped := he.resolve_right fun hfull => by omega
    obtain ⟨hinv, hrest, rfl⟩ := hat
    have hline := @Cxx.SocketInputStream.getlineInto_ok recvline out _ s' _ (hkeeps.inv rx) hrun
    simp only [reduceCtorEq, decide_false, Bool.or_false, Bool.false_and, if_true] at hline
    exact ⟨s', onRx_ok hline, hinv, hrest⟩
  ended recvline s unread rx out s' rx' hkeeps hrun hat := by
    obtain ⟨-, -, rfl⟩ := hat
    have hline := @Cxx.SocketInputStream.getlineInto_ok recvline out _ s' _ (hkeeps.inv rx) hrun
    simp only [reduceCtorEq, decide_true, Bool.or_true, if_false] at hline
    exact ⟨{ s' with eofbit := true, failbit := _, badbit := _ }, onRx_ok hline, .inl rfl⟩
  gives_up recvline s rx out s' e hrun he := by cases he
  goes_on recvline s unread rx out s' rx' e hkeeps hrun he hat := by
    obtain ⟨-, -, rfl⟩ := hat
    have hline := @Cxx.SocketInputStream.getlineInto_ok recvline out _ s' _ (hkeeps.inv rx) hrun
    simp only [reduceCtorEq, decide_true, Bool.or_true, if_false] at hline
    exact ⟨{ s' with eofbit := _, failbit := _, badbit := true }, onRx_ok hline, .inr (.inr rfl)⟩
  throws recvline s unread rx stop s' hkeeps hrun := by
    refine ⟨stop, s'.rx, onRx_error ?_⟩
    exact Cxx.SocketInputStream.getlineInto_error (hkeeps.inv rx) hrun
  skips recvline s unread rx hkeeps := by
    have hline := @Cxx.SocketInputStream.getlineInto_ended recvline { s with rx } hkeeps
    exact ⟨{ s with rx, failbit := true }, onRx_ok hline, .inr (.inl rfl)⟩

theorem Cxx.reads_replyLineIstream {bound : ℕ} (hbound : bound < SocketInputStream.maxSize) :
    Reads Cxx.strCliIstream Cxx.SocketInputStream.Keeps bound Cxx.replyLineIstream :=
  Cxx.getsChars_sbumpc.reads (Cxx.hands_replyLineIstream hbound) (by decide) fun line ch hle => by
    have hroom : ¬ SocketInputStream.maxSize ≤ line.length + 1 := by omega
    simp [Cxx.strCliIstream, hroom]

/-! ### The runs of the clients -/

/-- The `str_cli` of the two libraries. -/
inductive EchoClient
  | c
  | cxx
  | cxxIstream
  deriving DecidableEq, Repr

namespace EchoClient

/-- The client as a program that makes one call at a time. -/
def client : EchoClient → LineClient
  | .c => C.strCli
  | .cxx => Cxx.strCli
  | .cxxIstream => Cxx.strCliIstream

/-- The client as the function that makes all its calls. -/
def strCliRun : EchoClient → Bytes → EStateM Stop Conn (StrCliEnd × Bytes)
  | .c => C.strCliRun
  | .cxx => Cxx.strCliRun
  | .cxxIstream => Cxx.strCliIstreamRun

end EchoClient

section

variable {c : LineClient} {ρ : Type} {Keeps : ρ → Bytes → Bool → Prop} {bound : ℕ} {input : Bytes}
  {readLine : Bytes → ρ → EStateM Stop Rx (Bytes × ρ)} {sendAll : Bytes → EStateM Stop Tx Unit}

theorem LineClient.Reads.follows (hread : Reads c Keeps bound readLine) (hshrinks : EchoSession.Shrinks c)
    (hsend : ∀ text sendline rest, text.length ≤ input.length → c.next text = some (sendline, rest) →
      SendsAll sendline (sendAll sendline)) {b : ρ} (hkeeps : Keeps b [] false) :
    Follows (fun conn => conn.TakesSome ∧ conn.rx.input.length ≤ bound) c.program (LineClient.start input)
      LineClient.value Eq (strCliLoop c sendAll readLine (input.length + 1) input [] [] b) := by
  rintro conn ⟨htakes, hbound⟩
  have hpieces : ∀ text sendline rest, text.length ≤ input.length → c.next text = some (sendline, rest) →
      rest.length < text.length ∧ SendsAll sendline (sendAll sendline) := fun text sendline rest hle hnext =>
    ⟨(hshrinks text sendline rest hnext).1, hsend text sendline rest hle hnext⟩
  apply (LineClient.strCliLoop_reaches hread hpieces (Nat.lt_succ_self _) le_rfl hkeeps
    (by simpa using hbound) htakes).mono
  rintro r t s conn' ⟨rfl, hhalt, hvalue⟩
  exact ⟨rfl, hhalt, r, hvalue, rfl⟩

end

theorem C.sends_strCli {text sendline rest : Bytes} (hnext : C.strCli.next text = some (sendline, rest)) :
    SendsAll sendline (C.sendAll sendline sendline.length) := by
  have hlen : sendline.length ≤ 1023 := by
    by_cases hnil : text = []
    · simp [C.strCli, fgets, hnil] at hnext
    · simp only [C.strCli, fgets, if_neg hnil, Option.map_some, Option.some.injEq, Prod.mk.injEq] at hnext
      rw [← hnext.1]
      exact (List.takeWhile_prefix _).length_le.trans (length_cutLine_le 1023 text)
  have hsends := @C.sendAll_sendsAll sendline sendline.length le_rfl (by omega)
  rwa [List.take_length] at hsends

theorem Cxx.sends_nextLine {c : LineClient} (hnextLine : c.next = Cxx.nextLine) {input : Bytes}
    (hinput : input.length < Cxx.SocketInputStream.maxSize) (text sendline rest : Bytes)
    (hle : text.length ≤ input.length) (hnext : c.next text = some (sendline, rest)) :
    SendsAll sendline (Cxx.Socket.sendAll sendline sendline.length) := by
  have hsum := (EchoSession.shrinks_nextLine hnextLine text sendline rest hnext).2
  have hmax : Cxx.SocketInputStream.maxSize < 2 ^ 64 - 1 := by decide
  exact Cxx.sendAll_sendsAll (by omega)

namespace EchoClient

/-- The strings of the clients in C++ have room for what they take: for the input, and those of the stream for what
comes back. -/
def Fits (k : EchoClient) (input reply : Bytes) : Prop :=
  (k ≠ .c → input.length < Cxx.SocketInputStream.maxSize) ∧
    (k = .cxxIstream → reply.length < Cxx.SocketInputStream.maxSize)

end EchoClient

/-- Each of the functions does what its program does. -/
theorem strCliRun_follows (k : EchoClient) (input : Bytes) :
    Follows (fun conn => conn.TakesSome ∧ k.Fits input conn.rx.input) k.client.program
      (LineClient.start input) LineClient.value Eq (k.strCliRun input) := by
  rintro conn ⟨htakes, hinput, hreply⟩
  cases k with
  | c =>
    refine (C.reads_replyLine conn.rx.input.length).follows EchoSession.shrinks_strCli ?_ ?_ conn ⟨htakes, le_rfl⟩
    · exact fun _ _ _ _ => C.sends_strCli
    · exact ⟨rfl, rfl⟩
  | cxx =>
    refine (Cxx.reads_replyLine conn.rx.input.length).follows (EchoSession.shrinks_nextLine rfl) ?_ ?_ conn
      ⟨htakes, le_rfl⟩
    · exact Cxx.sends_nextLine rfl (hinput (by simp))
    · exact ⟨Cxx.ReadBuffer.safe_new 1024 _, Cxx.ReadBuffer.unread_of_nonpos le_rfl, rfl⟩
  | cxxIstream =>
    refine (Cxx.reads_replyLineIstream (hreply rfl)).follows (EchoSession.shrinks_nextLine rfl) ?_ ?_ conn
      ⟨htakes, le_rfl⟩
    · exact Cxx.sends_nextLine rfl (hinput (by simp))
    · exact ⟨Cxx.SocketInputStream.inv_new _, Cxx.SocketInputStream.unread_of_le le_rfl⟩

/-- After every run of a client with any server, over a connection whose calls may fail, that leaves the client at a
call or at its end: `str_cli` has returned on the socket that the run leaves it exactly if the program has, and has
then ended as the program has and printed what the program has printed. -/
theorem str_cli_run (k : EchoClient) {Q : Program UInt8 Errno} (server : Q.State) (roomRight roomLeft : ℕ)
    (errors : List Errno) (moves : List (Move Errno)) (input : Bytes) :
    let start : Duplex k.client.program Q := ⟨LineClient.start input, server, [], []⟩
    let s := run (step (tcp roomRight roomLeft errors)) start moves
    let socket := leftSocket (tcp roomRight roomLeft errors) start moves
    k.Fits input socket.rx.input → k.client.request s.left ≠ .work →
      ∀ r, (∃ conn, k.strCliRun input socket = .ok r conn) ↔ LineClient.value s.left = some r := by
  intro start s socket hfit hcall r
  have hfollows := strCliRun_follows k input
  have hfits : socket.TakesSome ∧ k.Fits input socket.rx.input := ⟨takesSome_leftSocket start moves, hfit⟩
  obtain ⟨wire, hpath⟩ := @path_left k.client.program Q (tcp roomRight roomLeft errors) start moves rfl []
  have hsocket : { socket with tx.wire := [] } = socket := by rw [← wire_leftSocket start moves]
  rw [hsocket] at hpath
  constructor
  · rintro ⟨conn, hrun⟩
    have hend : (Conn.mk ⟨[], []⟩ ⟨wire, []⟩).answer (k.client.request s.left) = none := by
      cases hreq : k.client.request s.left with
      | work => exact absurd hreq hcall
      | send | recv | halt => rfl
    obtain ⟨-, b, hvalue, rfl⟩ := hfollows.returned hfits hpath hend hrun
    exact hvalue
  · intro hvalue
    have hhalt : k.client.request s.left = .halt := LineClient.halt_of_value hvalue
    obtain ⟨a, hrun, rfl⟩ := hfollows.returns hfits hpath hhalt hvalue
    exact ⟨_, hrun⟩

/-- Someone types an empty line, and the client of the stream takes it for the end of the server. -/
theorem str_cli_run_empty_line :
    let start : Duplex Cxx.strCliIstream.program (Echo.server .cxx) :=
      ⟨LineClient.start [newline], .serving [], [], []⟩
    let moves : List (Move Errno) := [.left (.go 1), .left (.go 1), .left (.go 1), .right (.go 1), .right (.go 1),
      .left (.go 1), .left (.go 1), .left (.go 1)]
    let socket := leftSocket (tcp 1024 1024 []) start moves
    ∃ conn, Cxx.strCliIstreamRun [newline] socket = .ok (.terminated, []) conn := by
  intro start moves socket
  apply (@str_cli_run .cxxIstream (Echo.server .cxx) (.serving []) 1024 1024 [] moves [newline] ⟨?_, ?_⟩ ?_
    (.terminated, [])).2
  · rfl
  · exact fun _ => (by decide : 1 < Cxx.SocketInputStream.maxSize)
  · exact fun _ => (by decide : 1 < Cxx.SocketInputStream.maxSize)
  · exact (by simp : (Lib.Request.halt : Lib.Request UInt8) ≠ .work)

end NetProg
