import NetProg.C.Blocks
import NetProg.C.Strings
import NetProg.Lib.Loop
import NetProg.System.Chunked

/-!
# The C server of a stream

The loop of `tcp_streamer_server.c`: what a client sends is collected in a block that grows with every
chunk, up to the end of the stream, and is then printed as a string. The length is an `int`, and one more
than the length has to be one too (`server_cases`).
-/

namespace NetProg.C.TcpStreamerServer
open Lib Sockaddr

/-- Why a run ended before the message was printed. -/
inductive Halt
  | stop (why : Stop)
  /-- Signed overflow: undefined behaviour. -/
  | signedOverflow
  deriving DecidableEq, Repr

/-- The variables of the loop, where `message` stands for the block it points to, and whether `break` has been
reached. -/
structure Vars where
  msg_len : ℤ
  message : Bytes
  buf : Bytes
  eof : Bool
  deriving DecidableEq, Repr

/-- A call of the library. -/
def call {α : Type} (x : EStateM Stop Rx α) : EStateM Halt Rx α := EStateM.adaptExcept Halt.stop x

/-- The sum of two `int`s. -/
def add (a b : ℤ) : EStateM Halt Rx ℤ :=
  if -INT_MAX - 1 ≤ a + b ∧ a + b ≤ INT_MAX then return a + b else throw .signedOverflow

/-- `Recv(connfd, buf, sizeof(buf), 0)`, and `buf` afterwards. -/
def recv (buf : Bytes) : EStateM Stop Rx (ℤ × Bytes) := do
  let (n, errno, got) ← NetProg.recv buf.length
  let buf ← write buf 0 got
  if n < 0 then throw (.systemError errno) else return (n, buf)

/-- The body of `while (1)`. The bytes that `realloc` adds are `fresh`. -/
def turn (fresh : ℕ → ℕ → UInt8) (v : Vars) : EStateM Halt Rx Vars := do
  let (n, buf) ← call (recv v.buf)
  let n := toInt n
  if n = 0 then return { v with buf, eof := true }
  else do
    let sum ← add v.msg_len n
    let size ← add sum 1
    let message := realloc (fresh (toSize size)) v.message (toSize size)
    let message ← call (write message v.msg_len.toNat (buf.take (toSize n)))
    let msg_len ← add v.msg_len n
    let message ← call (write message msg_len.toNat [0])
    return { v with msg_len, message, buf }

/-- The loop, with so many turns left. -/
def loop (fresh : ℕ → ℕ → UInt8) : ℕ → Vars → EStateM Halt Rx Vars :=
  whileLoop (fun v => v.eof = false) (turn fresh) id (.stop .blocked)

/-- The text that `puts(message)` prints. -/
def puts (message : Bytes) : EStateM Halt Rx Bytes :=
  match string message 0 with
  | some text => return text
  | none => throw (.stop (.outOfBounds message.length message.length))

/-- Before the first turn, when the array `buf` has such bytes. -/
def start (buf : Bytes) : Vars := ⟨0, [0], buf, false⟩

/-- `server` from the accepted connection on, up to the text that it prints for the message. -/
def server (fresh : ℕ → ℕ → UInt8) (buf : Bytes) : EStateM Halt Rx Bytes := fun rx =>
  (loop fresh (rx.script.length + 1) (start buf) >>= fun v => puts v.message) rx

/-! ### Calls -/

section

variable {α : Type} {x : EStateM Stop Rx α} {a : α} {rx rx' : Rx} {buf : Bytes}

theorem call_ok (h : x rx = .ok a rx') : call x rx = .ok a rx' := adapt_ok _ h

theorem call_error {stop : Stop} (h : x rx = .error stop rx') : call x rx = .error (.stop stop) rx' :=
  adapt_error _ h

theorem add_ok {a b : ℤ} (ha : 0 ≤ a) (hb : 0 ≤ b) (hle : a + b ≤ INT_MAX) : add a b rx = .ok (a + b) rx := by
  rw [add, if_pos ⟨by omega, hle⟩, run_pure]

theorem add_overflow {a b : ℤ} (hlt : INT_MAX < a + b) : add a b rx = .error .signedOverflow rx := by
  rw [add, if_neg (by omega), run_throw]

theorem recv_next (h : rx.Chunked buf.length) (hbuf : buf.length ≤ INT_MAX) :
    ∃ got rx', recv buf rx = .ok (got.length, splice buf 0 got) rx' ∧ rx.NextChunk buf.length got rx' := by
  obtain ⟨got, rx', hrecv, hnext⟩ := h.recv_next hbuf
  refine ⟨got, rx', ?_, hnext⟩
  have hle := hnext.length_le
  have hwrite : write buf 0 got rx' = .ok (splice buf 0 got) rx' := write_ok (by omega)
  rw [recv, run_bind_ok hrecv]
  dsimp only
  rw [run_bind_ok hwrite, if_neg (by omega), run_pure]

end

/-! ### The block -/

section

variable {got chunk block : Bytes}

theorem prefix_realloc (fresh : ℕ → UInt8) {old : Bytes} {size : ℕ} (h : old.length ≤ size) :
    old <+: realloc fresh old size := by
  rw [List.prefix_iff_eq_take]
  apply List.ext_getElem
  · simp [h]
  · intro i hi hi'
    simp [realloc, hi]

theorem writes_fill (fresh : ℕ → UInt8) (got chunk : Bytes) (rx : Rx) :
    ∃ block, write (realloc fresh (got ++ [0]) (got.length + chunk.length + 1)) got.length chunk rx = .ok block rx ∧
      write block (got.length + chunk.length) [0] rx = .ok (got ++ chunk ++ [0]) rx := by
  have hlen := length_realloc fresh (got ++ [0]) (got.length + chunk.length + 1)
  have hlies : got <+: realloc fresh (got ++ [0]) (got.length + chunk.length + 1) := by
    apply (List.prefix_append got [0]).trans (prefix_realloc fresh _)
    rw [List.length_append, List.length_singleton]
    omega
  generalize realloc fresh (got ++ [0]) (got.length + chunk.length + 1) = block at hlen hlies
  have hfirst : got.length + chunk.length ≤ block.length := by omega
  have hsecond : got.length + chunk.length + [(0 : UInt8)].length ≤ (splice block got.length chunk).length := by
    rw [length_splice hfirst, List.length_singleton, hlen]
  have hbehind : block.drop (got.length + (chunk ++ [0]).length) = [] := by
    apply List.drop_eq_nil_of_le
    simp [hlen, Nat.add_assoc]
  refine ⟨splice block got.length chunk, write_ok hfirst, ?_⟩
  rw [write_ok hsecond, splice_splice hlies.length_le, splice, hbehind, ← List.prefix_iff_eq_take.1 hlies,
    List.append_nil, List.append_assoc]

end

/-! ### One turn -/

/-- What has been collected, and has been counted, is the stream up to what is still to come. -/
def Collected (input : Bytes) (v : Vars) (rx : Rx) : Prop :=
  ∃ got, got ++ rx.input = input ∧ v.message = got ++ [0] ∧ v.msg_len = got.length ∧ got.length < INT_MAX

/-- What holds at the head of the loop. -/
structure Head (input : Bytes) (v : Vars) (rx : Rx) : Prop where
  collected : Collected input v rx
  length_buf : v.buf.length = 8192
  chunked : v.eof = false → rx.Chunked 8192
  ended : v.eof = true → rx.input = []

section

variable {v : Vars} {got chunk buf : Bytes} {rx rx' : Rx}

theorem turn_of_end (fresh : ℕ → ℕ → UInt8) (hrecv : recv v.buf rx = .ok (0, buf) rx') :
    turn fresh v rx = .ok { v with buf, eof := true } rx' := by
  rw [turn, run_bind_ok (call_ok hrecv)]
  rfl

theorem turn_of_chunk (fresh : ℕ → ℕ → UInt8) (hrecv : recv v.buf rx = .ok (chunk.length, buf) rx')
    (hne : chunk ≠ []) (hlies : chunk <+: buf) (hmessage : v.message = got ++ [0]) (hlen : v.msg_len = got.length)
    (hlt : got.length + chunk.length < INT_MAX) :
    turn fresh v rx =
      .ok { v with msg_len := (got.length + chunk.length : ℕ), message := got ++ chunk ++ [0], buf } rx' := by
  have hpos : 0 < chunk.length := List.length_pos_iff.2 hne
  have hn : toInt chunk.length = chunk.length := toInt_of_le (by omega)
  have hsum : add v.msg_len chunk.length rx' = .ok ((got.length + chunk.length : ℕ) : ℤ) rx' := by
    rw [hlen, add_ok (by omega) (by omega) (by omega), Nat.cast_add]
  have hsize : add ((got.length + chunk.length : ℕ) : ℤ) 1 rx' =
      .ok ((got.length + chunk.length + 1 : ℕ) : ℤ) rx' := by
    rw [add_ok (by omega) (by omega) (by omega), Nat.cast_succ]
  have hmax : INT_MAX < 2 ^ 64 := by decide
  have htake : buf.take (toSize chunk.length) = chunk := by
    rw [toSize_of_lt (by omega)]
    exact (List.prefix_iff_eq_take.1 hlies).symm
  obtain ⟨block, hfirst, hsecond⟩ := writes_fill (fresh (got.length + chunk.length + 1)) got chunk rx'
  rw [turn, run_bind_ok (call_ok hrecv)]
  simp only [hn]
  rw [if_neg (by omega), run_bind_ok hsum, run_bind_ok hsize, toSize_of_lt (Nat.lt_of_le_of_lt hlt hmax), htake, hmessage, hlen,
    Int.toNat_natCast, run_bind_ok (call_ok hfirst), ← hlen, run_bind_ok hsum, Int.toNat_natCast,
    run_bind_ok (call_ok hsecond)]
  rfl

/-- There is no `int` for the size of the next block. -/
theorem turn_of_overflow (fresh : ℕ → ℕ → UInt8) (hrecv : recv v.buf rx = .ok (chunk.length, buf) rx')
    (hne : chunk ≠ []) (hchunk : chunk.length ≤ INT_MAX) (hlen : v.msg_len = got.length)
    (hle : INT_MAX ≤ got.length + chunk.length) : turn fresh v rx = .error .signedOverflow rx' := by
  have hpos : 0 < chunk.length := List.length_pos_iff.2 hne
  have hn : toInt chunk.length = chunk.length := toInt_of_le hchunk
  rw [turn, run_bind_ok (call_ok hrecv)]
  simp only [hn]
  rw [if_neg (by omega)]
  by_cases hsum : got.length + chunk.length = INT_MAX
  · have hfits : add v.msg_len chunk.length rx' = .ok (v.msg_len + chunk.length) rx' :=
      add_ok (by omega) (by omega) (by omega)
    have hsize : add (v.msg_len + chunk.length) 1 rx' = .error .signedOverflow rx' := add_overflow (by omega)
    rw [run_bind_ok hfits, run_bind_error hsize]
  · have hlarge : add v.msg_len chunk.length rx' = .error .signedOverflow rx' := add_overflow (by omega)
    rw [run_bind_error hlarge]

theorem turns_head (fresh : ℕ → ℕ → UInt8) (input : Bytes) :
    Turns (fun v : Vars => v.eof = false) (turn fresh) (Head input) (fun rx : Rx => rx.script.length)
      fun halt => INT_MAX ≤ input.length ∧ halt = .signedOverflow := by
  intro v rx h heof
  obtain ⟨got, hinput, hmessage, hlen, hgot⟩ := h.collected
  have hchunked : rx.Chunked v.buf.length := h.length_buf ▸ h.chunked heof
  obtain ⟨chunk, rx', hrecv, hstream, hfits, hscript, hrest⟩ :=
    recv_next hchunked (by rw [h.length_buf]; decide)
  have hlength : (splice v.buf 0 chunk).length = 8192 := by
    rw [length_splice (by omega), h.length_buf]
  rcases hrest with ⟨rfl, hend⟩ | ⟨hne, hmore⟩
  · have hall : got ++ rx'.input = input := by rwa [← hstream] at hinput
    refine .inl ⟨_, rx', turn_of_end fresh hrecv, ⟨⟨got, hall, hmessage, hlen, hgot⟩, hlength, ?_, fun _ => hend⟩,
      hscript⟩
    intro heof'
    cases heof'
  · have hall : (got ++ chunk) ++ rx'.input = input := by rw [List.append_assoc, hstream, hinput]
    have hlies : chunk <+: splice v.buf 0 chunk := by
      rw [splice, List.take_zero, List.nil_append]
      exact List.prefix_append _ _
    by_cases hlt : got.length + chunk.length < INT_MAX
    · refine .inl ⟨_, rx', turn_of_chunk fresh hrecv hne hlies hmessage hlen hlt, ⟨?_, hlength, ?_, ?_⟩, hscript⟩
      · exact ⟨got ++ chunk, hall, rfl, by simp, by simpa using hlt⟩
      · intro _
        rwa [h.length_buf] at hmore
      · intro heof'
        simp [heof] at heof'
    · have hle : INT_MAX ≤ got.length + chunk.length := by omega
      have hsmall : chunk.length ≤ INT_MAX := by
        rw [h.length_buf] at hfits
        exact hfits.trans (by decide)
      refine .inr ⟨_, rx', turn_of_overflow fresh hrecv hne hsmall hlen hle, ?_, rfl⟩
      rw [← hall, List.length_append, List.length_append]
      omega

end

/-! ### A whole run -/

section

variable {input buf : Bytes} {script : List RecvAnswer}

theorem head_start (hbuf : buf.length = 8192) (h : (Rx.mk input script).Chunked 8192) :
    Head input (start buf) ⟨input, script⟩ :=
  ⟨⟨[], rfl, rfl, rfl, by decide⟩, hbuf, fun _ => h, fun heof => by cases heof⟩

theorem collected_atHead (fresh : ℕ → ℕ → UInt8) (hbuf : buf.length = 8192)
    (h : (Rx.mk input script).Chunked 8192) {v : Vars} {rx : Rx}
    (hhead : AtHead (fun v : Vars => v.eof = false) (turn fresh) (start buf) ⟨input, script⟩ v rx) :
    Collected input v rx :=
  ((turns_head fresh input).atHead hhead (head_start hbuf h)).collected

theorem loop_cases (fresh : ℕ → ℕ → UInt8) (hbuf : buf.length = 8192) (h : (Rx.mk input script).Chunked 8192) :
    (input.length < INT_MAX ∧
        ∃ v rx, loop fresh (script.length + 1) (start buf) ⟨input, script⟩ = .ok v rx ∧ v.message = input ++ [0]) ∨
      (INT_MAX ≤ input.length ∧
        ∃ rx, loop fresh (script.length + 1) (start buf) ⟨input, script⟩ = .error .signedOverflow rx) := by
  rcases (turns_head fresh input).run_cases id (.stop .blocked) (head_start hbuf h) (Nat.lt_succ_self _) with
    ⟨v, rx, hhead, heof, hrun⟩ | ⟨halt, rx, ⟨hle, rfl⟩, hrun⟩
  · obtain ⟨got, hinput, hmessage, -, hlt⟩ := hhead.collected
    rw [hhead.ended (by simpa using heof), List.append_nil] at hinput
    subst hinput
    exact .inl ⟨hlt, v, rx, hrun, hmessage⟩
  · exact .inr ⟨hle, rx, hrun⟩

/-- The server prints the stream up to its first zero, if one more than its length is an `int`. -/
theorem server_cases (fresh : ℕ → ℕ → UInt8) (hbuf : buf.length = 8192)
    (h : (Rx.mk input script).Chunked 8192) :
    (input.length < INT_MAX ∧ ∃ rx, server fresh buf ⟨input, script⟩ = .ok (cString input) rx) ∨
      (INT_MAX ≤ input.length ∧ ∃ rx, server fresh buf ⟨input, script⟩ = .error .signedOverflow rx) := by
  rcases loop_cases fresh hbuf h with ⟨hlt, v, rx, hrun, hmessage⟩ | ⟨hle, rx, hrun⟩
  · have hputs : puts v.message rx = .ok (cString input) rx := by
      have hstring : string v.message 0 = some (cString input) := by
        rw [hmessage, string, List.drop_zero, if_pos (by simp), cString_terminated]
      rw [puts, hstring]
      rfl
    exact .inl ⟨hlt, rx, by rw [server, run_bind_ok hrun, hputs]⟩
  · exact .inr ⟨hle, rx, by rw [server, run_bind_error hrun]⟩

end

end NetProg.C.TcpStreamerServer
