import NetProg.C.Readline
import NetProg.Cxx.ReadBuffer
import NetProg.Cxx.SocketStream

/-!
# The line readers of the two libraries

`readline` of the C library and `ReadBuffer::Readline` of the C++ library refill their buffers in different
sizes and keep different variables between their calls, and both take the cuts of the stream
(`take_cuts`): the k-th call delivers the shortest prefix of what is left that ends with the delimiter, but at
most `maxlen - 1` bytes and no more than there are.

A program of the C++ library has two ways to its lines, `Readline` and `std::getline` on a
`SocketInputStream`. Where no line is too long for `Readline` both lead to the lines of the stream
(`lineReaders_agree`).
-/

namespace NetProg
open Lib
open Cxx (ReadBuffer SocketInputStream)

/-- The lines of calls of `Readline`, by what the calls ask for. -/
def linesOf (calls : List ReadBuffer.ReadlineCall) (input : Bytes) : List Bytes :=
  cuts (fun c => (· = c.delim)) (fun c => (c.maxlen - 1).toNat) calls input

/-- The lines of calls of `readline`, by their limits. -/
def linesUpTo (maxlens : List ℕ) (input : Bytes) : List Bytes :=
  cuts (fun _ => (· = newline)) (· - 1) maxlens input

/-- However the bytes of a stream arrive, with interruptions anywhere and the end of the stream after them,
calls of `ReadBuffer::Readline` on a buffer of 1024 characters and calls of `readline` on a descriptor of its
own return, and deliver the lines of the stream one after the other, none of its bytes lost and none twice. -/
theorem take_cuts (input : Bytes) (s : RecvSchedule) :
    (∀ calls : List ReadBuffer.ReadlineCall, (∀ c ∈ calls, 1 ≤ c.maxlen ∧ c.maxlen ≤ INT_MAX) →
      (∀ n lines b, calls.mapM (fun c => ReadBuffer.readline c.maxlen c.delim)
          (ReadBuffer.new 1024 ⟨input, s.upTo n⟩) = .ok lines b → lines = linesOf calls input) ∧
        (∃ N, ∀ n ≥ N, ∃ lines b, calls.mapM (fun c => ReadBuffer.readline c.maxlen c.delim)
          (ReadBuffer.new 1024 ⟨input, s.upTo n⟩) = .ok lines b) ∧
        (linesOf calls input).flatten <+: input) ∧
    (∀ maxlens : List ℕ, (∀ maxlen ∈ maxlens, 1 ≤ maxlen ∧ maxlen ≤ INT_MAX) →
      (∀ n rs b, maxlens.mapM C.readline ⟨[], input, s.upTo n⟩ = .ok rs b →
          rs.map Prod.snd = linesUpTo maxlens input) ∧
        (∃ N, ∀ n ≥ N, ∃ rs b, maxlens.mapM C.readline ⟨[], input, s.upTo n⟩ = .ok rs b) ∧
        (linesUpTo maxlens input).flatten <+: input) := by
  constructor
  · intro calls hcalls
    have hlines := @ReadBuffer.readsLines_readline 1024 (by decide)
    have hok : ∀ c ∈ calls, 1 ≤ c.maxlen := fun c hc => (hcalls c hc).1
    have hsafe : ∀ n, ReadBuffer.Safe 1024 (ReadBuffer.new 1024 ⟨input, s.upTo n⟩) :=
      fun n => ReadBuffer.safe_new 1024 _
    have hstream : ∀ n, (ReadBuffer.new 1024 ⟨input, s.upTo n⟩).stream = input := by
      intro n
      rw [ReadBuffer.stream, ReadBuffer.unread_of_nonpos (le_refl 0)]
      rfl
    refine ⟨?_, ?_, flatten_cuts_prefix _ _ _ _⟩
    · intro n lines b hrun
      have hcuts := hlines.mapM_eq_cuts hok (hsafe n) (s.benign input n) hrun
      rwa [List.map_id, hstream] at hcuts
    · obtain ⟨N, hbudget⟩ := s.exists_budget (total (fun c => (c.maxlen - 1).toNat) calls)
      refine ⟨N, fun n hn => ?_⟩
      exact hlines.mapM_returns hok (hsafe n) (s.benign input n) (hbudget n hn input)
  · intro maxlens hok
    have hlines := C.readsLines_readline
    refine ⟨?_, ?_, flatten_cuts_prefix _ _ _ _⟩
    · intro n rs b hrun
      exact hlines.mapM_eq_cuts hok trivial (s.benign input n) hrun
    · obtain ⟨N, hbudget⟩ := s.exists_budget (total (· - 1) maxlens)
      refine ⟨N, fun n hn => ?_⟩
      exact hlines.mapM_returns hok trivial (s.benign input n) (hbudget n hn input)

theorem take_cuts_ab :
    let calls : List ReadBuffer.ReadlineCall := [⟨100, 10⟩, ⟨2, 99⟩]
    let s := RecvSchedule.always 1
    (∀ c ∈ calls, 1 ≤ c.maxlen ∧ c.maxlen ≤ INT_MAX) ∧
      (∀ maxlen ∈ [100, 2], 1 ≤ maxlen ∧ maxlen ≤ INT_MAX) ∧
      (∀ n lines b, calls.mapM (fun c => ReadBuffer.readline c.maxlen c.delim)
        (ReadBuffer.new 1024 ⟨[97, 10, 98], s.upTo n⟩) = .ok lines b → lines = [[97, 10], [98]]) ∧
      (∀ n rs b, [100, 2].mapM C.readline ⟨[], [97, 10, 98], s.upTo n⟩ = .ok rs b →
        rs.map Prod.snd = [[97, 10], [98]]) := by
  intro calls s
  have hcalls : ∀ c ∈ calls, 1 ≤ c.maxlen ∧ c.maxlen ≤ INT_MAX := by
    intro c hc
    rcases List.mem_pair.1 hc with rfl | rfl <;> decide
  have hmaxlens : ∀ maxlen ∈ [100, 2], 1 ≤ maxlen ∧ maxlen ≤ INT_MAX := by
    intro maxlen hmem
    rcases List.mem_pair.1 hmem with rfl | rfl <;> decide
  have hcuts := take_cuts [97, 10, 98] s
  exact ⟨hcalls, hmaxlens, (hcuts.1 calls hcalls).1, (hcuts.2 [100, 2] hmaxlens).1⟩

/-! ### `Readline` and `std::getline` -/

/-- The lines of a stream, each with its newline, the last one perhaps without. -/
def linesWithEnds (input : Bytes) : List Bytes := segments (· = newline) input

namespace Cxx.ReadBuffer

/-- A line of `Readline(maxlen)` without its newline, or `none` at the end of the stream. -/
def nextLine (maxlen : ℤ) : EStateM Stop ReadBuffer (Option Bytes) := do
  let line ← readline maxlen newline
  if line = [] then return none else return some (chomp line)

/-- The buffer has the lines `ls` to come, with calls of `read` that move bytes for them and for the end. -/
structure Ready (maxlen : ℤ) (ls : List Bytes) (b : ReadBuffer) : Prop where
  safe : Safe 1024 b
  benign : b.rx.Benign
  fits : ∀ l ∈ ls, (l.length : ℤ) ≤ maxlen - 1
  lines : linesWithEnds b.stream = ls
  budget : (ls.length + 1) * (maxlen - 1).toNat ≤ b.rx.budget

section

variable {maxlen : ℤ} {b : ReadBuffer} {l : Bytes} {ls : List Bytes}

theorem stream_new (buf_size : ℕ) (rx : Rx) : (new buf_size rx).stream = rx.input := by
  rw [stream, unread_of_nonpos (le_refl 0)]
  rfl

theorem nextLine_line (h : Ready maxlen (l :: ls) b) :
    ∃ b', nextLine maxlen b = .ok (some (chomp l)) b' ∧ Ready maxlen ls b' := by
  obtain ⟨hsafe, hbenign, hfits, hlines, hbudget⟩ := h
  have hne : l ≠ [] := ne_nil_of_mem_segments (hlines ▸ List.mem_cons_self : l ∈ linesWithEnds b.stream)
  have hlen := hfits l List.mem_cons_self
  have hpos : 0 < l.length := List.length_pos_iff.2 hne
  have hmax : 1 ≤ maxlen := by omega
  rw [List.length_cons, Nat.succ_mul] at hbudget
  have hreads := @readsLines_readline 1024 (by decide)
  obtain ⟨line, b', hcall⟩ := hreads.returns ⟨maxlen, newline⟩ b hmax hsafe hbenign
    ((Nat.le_add_left _ _).trans hbudget)
  obtain ⟨hline, hstream, hsafe', hbenign', hspent⟩ :=
    hreads.takes ⟨maxlen, newline⟩ b line b' hmax hsafe hbenign hcall
  obtain ⟨hcut, hrest⟩ := cut_of_segments hlines (by omega : l.length ≤ (maxlen - 1).toNat)
  simp only [hcut, id_eq] at hline hstream hspent
  refine ⟨b', ?_, hsafe', hbenign', fun l' hl' => hfits l' (List.mem_cons_of_mem l hl'), ?_, by omega⟩
  · rw [nextLine, run_bind_ok hcall, hline, if_neg hne]
    rfl
  · rw [hstream]
    exact hrest

theorem nextLine_ended (h : Ready maxlen [] b) : ∃ b', nextLine maxlen b = .ok none b' := by
  obtain ⟨hsafe, hbenign, -, hlines, hbudget⟩ := h
  have hended : b.stream = [] := segments_eq_nil.1 hlines
  rw [List.length_nil, Nat.zero_add, Nat.one_mul] at hbudget
  rcases lt_or_ge maxlen 1 with hlow | hmax
  · have hcall : readline maxlen newline b = .ok [] b := by
      rw [readline, Int.toNat_of_nonpos (by omega)]
      rfl
    exact ⟨b, by rw [nextLine, run_bind_ok hcall]; rfl⟩
  · have hreads := @readsLines_readline 1024 (by decide)
    obtain ⟨line, b', hcall⟩ := hreads.returns ⟨maxlen, newline⟩ b hmax hsafe hbenign hbudget
    obtain ⟨hline, -⟩ := hreads.takes ⟨maxlen, newline⟩ b line b' hmax hsafe hbenign hcall
    have hempty : line = [] := by
      rw [hended] at hline
      refine hline.trans ?_
      cases (maxlen - 1).toNat <;> rfl
    exact ⟨b', by rw [nextLine, run_bind_ok hcall, if_pos hempty]; rfl⟩

end

end Cxx.ReadBuffer

/-- The answers to the receives of a run in which none reports an error. -/
abbrev QuietSchedule := Schedule RecvAnswer.Moves RecvAnswer.Moves

/-- Whatever the two readers get at a time, each collects the lines of the stream without their newlines, if
no line is too long for `Readline`. -/
theorem lineReaders_agree (input : Bytes) (maxlen : ℤ) (hmax : maxlen ≤ INT_MAX)
    (hfits : ∀ l ∈ linesWithEnds input, (l.length : ℤ) ≤ maxlen - 1) (recvs reads : QuietSchedule) :
    ∃ N, ∀ n ≥ N,
      (∃ s, collect .blocked SocketInputStream.getline (input.length + 1) (.new ⟨input, recvs.upTo n⟩) =
          .ok ((linesWithEnds input).map chomp) s) ∧
        ∃ b, collect .blocked (ReadBuffer.nextLine maxlen) (input.length + 1)
            (.new 1024 ⟨input, reads.upTo n⟩) =
          .ok ((linesWithEnds input).map chomp) b := by
  obtain ⟨N, hN⟩ := recvs.exists_le_countP (input.length + 1)
  obtain ⟨N', hN'⟩ := reads.exists_le_countP ((input.length + 1) * (maxlen - 1).toNat)
  refine ⟨max N N', ?_⟩
  intro n hn
  have hturns : (linesWithEnds input).length < input.length + 1 :=
    Nat.lt_succ_of_le (length_segments_le _ input)
  constructor
  · have hstream : (SocketInputStream.new ⟨input, recvs.upTo n⟩).stream = input :=
      SocketInputStream.stream_of_le le_rfl
    have hstart : SocketInputStream.Ready (linesWithEnds input) (.new ⟨input, recvs.upTo n⟩) := by
      refine .inr ⟨SocketInputStream.inv_new _, ?_, ?_, ?_⟩
      · exact fun a ha => recvs.allowed_of_mem_upTo ha
      · rw [hstream, linesWithEnds]
      · rw [hstream]
        exact hN n (le_of_max_le_left hn)
    refine SocketInputStream.collect_getline hstart ?_ hturns
    intro l hl
    have hlen := hfits l hl
    rw [INT_MAX] at hmax
    rw [SocketInputStream.maxSize]
    omega
  · have hstart : ReadBuffer.Ready maxlen (linesWithEnds input) (.new 1024 ⟨input, reads.upTo n⟩) := by
      refine ⟨ReadBuffer.safe_new 1024 _, ?_, hfits, ?_, ?_⟩
      · exact fun a ha => .inl (reads.allowed_of_mem_upTo ha)
      · rw [ReadBuffer.stream_new]
      · exact (Nat.mul_le_mul_right _ hturns).trans (hN' n (le_of_max_le_right hn))
    exact collect_eq (fun _ _ _ => ReadBuffer.nextLine_line) (fun _ => ReadBuffer.nextLine_ended) .blocked
      hstart
      hturns

theorem lineReaders_agree_ab :
    let always : QuietSchedule := .const (.deliver 1) trivial trivial
    ∃ N, ∀ n ≥ N,
      (∃ s, collect .blocked SocketInputStream.getline 4 (.new ⟨[97, 10, 98], always.upTo n⟩) =
          .ok [[97], [98]] s) ∧
        ∃ b, collect .blocked (ReadBuffer.nextLine 3) 4 (.new 1024 ⟨[97, 10, 98], always.upTo n⟩) =
          .ok [[97], [98]] b := by
  intro always
  have hfits : ∀ l ∈ linesWithEnds [97, 10, 98], (l.length : ℤ) ≤ 3 - 1 := by decide
  exact lineReaders_agree [97, 10, 98] 3 (by decide) hfits always always

end NetProg
