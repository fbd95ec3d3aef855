import NetProg.Lib.LineReader
import NetProg.System.Calls
import NetProg.System.LineClient

/-!
# `str_cli` on its socket

The loop that the four `str_cli` have in common, as a function of the socket (`strCliLoop`): `LineClient` is the
program of it, one call at a time. The readers of three of them take a line out of a source of characters
(`Lib.takeLine`), which gets them from a buffer and refills it by a call (`GetsChars`). Where the reader goes, there the
program goes (`GetsChars.takeLine_reaches`); so the loop does what the program does (`strCliLoop_reaches`).
-/

namespace NetProg
open Lib (LineEnd takeLine run_bind_ok run_bind_error)
open Conn

/-- How a `str_cli` ends that does not fail. -/
inductive StrCliEnd
  | returned
  /-- `str_cli: server terminated prematurely`. -/
  | terminated
  deriving DecidableEq, Repr

/-- `str_cli`: how it has ended and what it has printed. `readLine` is handed the old `recvline`, which a stream that
has failed leaves as it is, and what the reader keeps from one round to the next. -/
def strCliLoop {ρ : Type} (c : LineClient) (sendAll : Bytes → EStateM Stop Tx Unit)
    (readLine : Bytes → ρ → EStateM Stop Rx (Bytes × ρ)) :
    ℕ → Bytes → Bytes → Bytes → ρ → EStateM Stop Conn (StrCliEnd × Bytes)
  | 0, _, _, _, _ => throw .blocked
  | turns + 1, input, stdout, recvline, reader =>
    match c.next input with
    | none => return (.returned, stdout)
    | some (sendline, input) => do
      Conn.transmit (sendAll sendline)
      let (recvline, reader) ← Conn.receive (readLine recvline reader)
      if recvline = [] then return (.terminated, stdout)
      else
        strCliLoop c sendAll readLine turns input (stdout ++ c.printed (recvline ++ c.suffix)) (recvline ++ c.suffix)
          reader

/-- What a reader does on the connection of its descriptor, where `b` is what it keeps. -/
def onRx {ρ α : Type} (rx : ρ → Rx) (withRx : ρ → Rx → ρ) (x : EStateM Stop ρ α) (b : ρ) : EStateM Stop Rx (α × ρ) :=
  fun r =>
    match x (withRx b r) with
    | .ok a b' => .ok (a, b') (rx b')
    | .error stop b' => .error stop (rx b')

section

variable {ρ α : Type} {rx : ρ → Rx} {withRx : ρ → Rx → ρ} {x : EStateM Stop ρ α} {b b' : ρ} {r : Rx}

theorem onRx_ok {a : α} (h : x (withRx b r) = .ok a b') : onRx rx withRx x b r = .ok (a, b') (rx b') := by
  rw [onRx, h]

theorem onRx_error {stop : Stop} (h : x (withRx b r) = .error stop b') :
    onRx rx withRx x b r = .error stop (rx b') := by
  rw [onRx, h]

end

namespace LineClient

/-- What there is to know when a client has ended. -/
def value (s : State) : Option (StrCliEnd × Bytes) :=
  match s.pc with
  | .returned => some (.returned, s.stdout)
  | .terminated => some (.terminated, s.stdout)
  | _ => none

variable {c : LineClient} {in₀ stdout unread recvline line : Bytes} {ended : Bool}

theorem halt_of_value {s : State} {r : StrCliEnd × Bytes} (h : value s = some r) : c.request s = .halt := by
  obtain ⟨in₀, stdout, unread, recvline, ended, pc⟩ := s
  cases pc with
  | returned | terminated => rfl
  | top | sendAll | readline | reply | failed => simp [value] at h

theorem sends_sendAll : Sends c.program value fun ptr => ⟨in₀, stdout, unread, recvline, ended, .sendAll ptr⟩ where
  request ptr hne := by
    obtain ⟨b, ptr, rfl⟩ := List.exists_cons_of_ne_nil hne
    rfl
  waits _ _ := rfl
  sent ptr k _ hk := by simp [program, resume, hk.ne']
  again ptr _ := by simp [program, resume]
  zero ptr conn _ := ⟨_, _, .refl, rfl, rfl⟩
  gives_up ptr errno conn _ herrno := by
    refine ⟨_, _, .refl, ?_, ?_⟩ <;> simp [program, resume, herrno, request, Conn.answer, value]

theorem path_work {s : State} (hreq : c.request s = .work) (conn : Conn) :
    Path c.program s conn (c.work s) conn := by
  apply Path.call (a := .done) _ .refl
  show conn.answer (c.request s) = _
  rw [hreq]
  rfl

/-! ### A source of characters -/

/-- What the calls of a reader that asks for `c.size` bytes do with each answer of the kernel. `At b unread rx` says
that the reader `b` has read `unread` and not yet taken it, and that `rx` is the connection of its descriptor. -/
structure GetsChars {ρ : Type} (c : LineClient) (At : ρ → Bytes → Rx → Prop) (getc : EStateM Stop ρ (ℤ × UInt8)) :
    Prop where
  taken : ∀ b ch rest rx, At b (ch :: rest) rx → ∃ b', getc b = .ok (1, ch) b' ∧ At b' rest rx
  delivered : ∀ b m input script ch rest, At b [] ⟨input, .deliver m :: script⟩ →
    input.take (moved m (min c.size input.length)) = ch :: rest →
    ∃ b', getc b = .ok (1, ch) b' ∧ At b' rest ⟨input.drop (moved m (min c.size input.length)), script⟩
  ended : ∀ b m script, At b [] ⟨[], .deliver m :: script⟩ → ∃ a b', getc b = .ok (0, a) b' ∧ At b' [] ⟨[], script⟩
  repeats : ∀ b e input script, c.onError e = .again → At b [] ⟨input, .fail e :: script⟩ →
    ∃ b₁, getc b = getc b₁ ∧ At b₁ [] ⟨input, script⟩
  fails : ∀ b e input script, c.onError e ≠ .again → At b [] ⟨input, .fail e :: script⟩ →
    ∃ rc a b', getc b = .ok (rc, a) b' ∧ rc ≠ 1 ∧ rc ≠ 0 ∧ At b' [] ⟨input, script⟩
  blocked : ∀ b input, At b [] ⟨input, []⟩ → ∃ stop b', getc b = .error stop b'

/-- Where a client is when its reader has taken `line` and ends so. -/
def Ended (c : LineClient) (in₀ stdout recvline : Bytes) : LineEnd → Bytes → Bytes → State → Prop
  | .stopped, line, unread, s => s = ⟨in₀, stdout, unread, c.stored line, false, .reply⟩
  | .full, line, unread, s => s = ⟨in₀, stdout, unread, c.stored line, false, .reply⟩
  | .ended, line, unread, s => unread = [] ∧ s = ⟨in₀, stdout, [], line, c.endsOnce, .reply⟩
  | .failed, line, unread, s => unread = [] ∧ ∃ e,
      c.onError e = .giveUp ∧ s = ⟨in₀, stdout, [], recvline, false, .failed (some e)⟩ ∨
        c.onError e = .endOfStream ∧ s = ⟨in₀, stdout, [], line, c.endsOnce, .reply⟩

section

variable {ρ : Type} {At : ρ → Bytes → Rx → Prop} {getc : EStateM Stop ρ (ℤ × UInt8)} {b : ρ} {rx : Rx} {tx : Tx}

theorem GetsChars.reaches (h : GetsChars c At getc) (hat : At b unread rx) :
    Reaches c.program value ⟨in₀, stdout, unread, recvline, false, .readline line⟩ ⟨rx, tx⟩
      (fun r b' s conn => ∃ rest rx', At b' rest rx' ∧ conn = ⟨rx', tx⟩ ∧
        (r.1 = 1 ∧ s = ⟨in₀, stdout, r.2 :: rest, recvline, false, .readline line⟩ ∧
            rest.length + 1 + rx'.input.length = unread.length + rx.input.length ∨
          rest.length + rx'.input.length = unread.length + rx.input.length ∧
            (r.1 = 0 ∧ Ended c in₀ stdout recvline .ended line rest s ∨
              r.1 ≠ 1 ∧ r.1 ≠ 0 ∧ Ended c in₀ stdout recvline .failed line rest s)))
      (getc b) := by
  cases unread with
  | cons ch rest =>
    obtain ⟨b', hget, hat'⟩ := h.taken b ch rest rx hat
    rw [hget]
    exact ⟨_, _, .refl, rest, rx, hat', rfl, .inl ⟨rfl, rfl, rfl⟩⟩
  | nil =>
    obtain ⟨input, script⟩ := rx
    induction script generalizing b with
    | nil =>
      obtain ⟨stop, b', hget⟩ := h.blocked b input hat
      rw [hget]
      exact ⟨_, _, .refl, answer_recv_nil, rfl⟩
    | cons a script ih =>
      cases a with
      | deliver m =>
        by_cases hinput : input = []
        · -- the end of the stream
          rw [hinput] at hat ⊢
          obtain ⟨a, b', hget, hat'⟩ := h.ended b m script hat
          rw [hget]
          refine ⟨_, _, .call answer_recv_deliver .refl, [], ⟨[], script⟩, hat', ?_, ?_⟩
          · simp
          · refine .inr ⟨rfl, .inl ⟨rfl, rfl, ?_⟩⟩
            simp [program, resume, atEnd]
        · have hlen := List.length_pos_iff.2 hinput
          have hpos : 0 < moved m (min c.size input.length) := moved_pos (Nat.lt_min.2 ⟨c.size_pos, hlen⟩)
          have hle := moved_le m (min c.size input.length)
          have htake : (input.take (moved m (min c.size input.length))).length = moved m (min c.size input.length) :=
            List.length_take_of_le (by omega)
          obtain ⟨ch, rest, hcons⟩ : ∃ ch rest, input.take (moved m (min c.size input.length)) = ch :: rest := by
            apply List.exists_cons_of_ne_nil
            apply List.ne_nil_of_length_pos
            rwa [htake]
          obtain ⟨b', hget, hat'⟩ := h.delivered b m input script ch rest hat hcons
          rw [hget]
          refine ⟨_, _, .call answer_recv_deliver .refl, rest, _, hat', rfl, .inl ⟨rfl, ?_, ?_⟩⟩
          · simp only [program, resume, hcons, if_neg (List.cons_ne_nil ch rest)]
          · have hcount := congrArg List.length hcons
            rw [htake, List.length_cons] at hcount
            simp only [List.length_drop, List.length_nil]
            omega
      | fail e =>
        cases honError : c.onError e with
        | again =>
          obtain ⟨b₁, hget, hat'⟩ := h.repeats b e input script honError hat
          rw [hget]
          apply reaches_call answer_recv_fail
          simp only [program, resume, honError]
          exact ih hat'
        | giveUp =>
          obtain ⟨rc, a, b', hget, hone, hzero, hat'⟩ := h.fails b e input script (by simp [honError]) hat
          rw [hget]
          refine ⟨_, _, .call answer_recv_fail .refl, [], _, hat', rfl, .inr ⟨rfl, .inr ⟨hone, hzero, rfl, e, ?_⟩⟩⟩
          simp [program, resume, honError]
        | endOfStream =>
          obtain ⟨rc, a, b', hget, hone, hzero, hat'⟩ := h.fails b e input script (by simp [honError]) hat
          rw [hget]
          refine ⟨_, _, .call answer_recv_fail .refl, [], _, hat', rfl, .inr ⟨rfl, .inr ⟨hone, hzero, rfl, e, ?_⟩⟩⟩
          simp [program, resume, honError, atEnd]

variable {bound limit : ℕ}

theorem GetsChars.takeLine_reaches (h : GetsChars c At getc)
    (hfull : ∀ line ch, line.length + 1 ≤ bound →
      c.full (line ++ [ch]) = decide (ch = newline ∨ limit ≤ line.length + 1))
    {room : ℕ} (hpos : 0 < room) (hroom : line.length + room = limit) (hat : At b unread rx)
    (hbound : line.length + (unread.length + rx.input.length) ≤ bound) :
    Reaches c.program value ⟨in₀, stdout, unread, recvline, false, .readline line⟩ ⟨rx, tx⟩
      (fun r b' s conn => ∃ rest rx', At b' rest rx' ∧ conn = ⟨rx', tx⟩ ∧
        rest.length + rx'.input.length ≤ unread.length + rx.input.length ∧ (r.1 = .full → limit ≤ bound) ∧
          Ended c in₀ stdout recvline r.1 r.2 rest s)
      (takeLine getc (· = newline) room line b) := by
  induction room generalizing line b unread rx with
  | zero => exact absurd hpos (Nat.lt_irrefl 0)
  | succ room ih =>
    rw [takeLine]
    apply (h.reaches hat).bind
    rintro ⟨rc, ch⟩ b₁ s₁ c₁ - ⟨rest, rx', hat', rfl, ⟨rfl, rfl, hlen⟩ | ⟨hlen, ⟨rfl, hend⟩ | ⟨hone, hzero, hend⟩⟩⟩
    · -- the client takes the character
      have hstep := hfull line ch (by omega)
      apply (path_work (c := c) rfl _).reaches
      simp only [work, hstep, decide_eq_true_eq, if_true]
      by_cases hstop : ch = newline
      · rw [if_pos hstop, if_pos (.inl hstop)]
        exact ⟨_, _, .refl, rest, rx', hat', rfl, by omega, by simp, rfl⟩
      · rw [if_neg hstop]
        rcases Nat.eq_zero_or_pos room with rfl | hpos'
        · rw [if_pos (.inr (by omega)), takeLine]
          exact ⟨_, _, .refl, rest, rx', hat', rfl, by omega, fun _ => by omega, rfl⟩
        · rw [if_neg (not_or.2 ⟨hstop, by omega⟩)]
          apply (ih hpos' (by simp only [List.length_append, List.length_singleton]; omega) hat'
            (by simp only [List.length_append, List.length_singleton]; omega)).mono
          rintro r b' s conn ⟨rest', rx'', hat'', rfl, hle, hend⟩
          exact ⟨rest', rx'', hat'', rfl, by omega, hend⟩
    · exact ⟨_, _, .refl, rest, rx', hat', rfl, hlen.le, by simp, hend⟩
    · simp only [if_neg hone, if_neg hzero]
      exact ⟨_, _, .refl, rest, rx', hat', rfl, hlen.le, by simp, hend⟩

end

/-! ### The loop -/

/-- What the reader of a `str_cli` does on its connection. `Keeps b unread ended` says that it has read `unread` and not
yet taken it, and whether it has met the end of the stream. -/
structure Reads {ρ : Type} (c : LineClient) (Keeps : ρ → Bytes → Bool → Prop) (bound : ℕ)
    (readLine : Bytes → ρ → EStateM Stop Rx (Bytes × ρ)) : Prop where
  reads : ∀ in₀ stdout recvline b unread rx tx, Keeps b unread false → unread.length + rx.input.length ≤ bound →
    Reaches c.program value ⟨in₀, stdout, unread, recvline, false, .readline []⟩ ⟨rx, tx⟩
      (fun r rx' s conn => conn = ⟨rx', tx⟩ ∧ ∃ rest ended, Keeps r.2 rest ended ∧
        rest.length + rx'.input.length ≤ unread.length + rx.input.length ∧
          s = ⟨in₀, stdout, rest, r.1, ended, .reply⟩)
      (readLine recvline b rx)
  skips : ∀ recvline b unread rx, Keeps b unread true →
    ∃ b₁, readLine recvline b rx = .ok (recvline, b₁) rx ∧ Keeps b₁ unread true

/-- What a reader makes of the ways in which `takeLine` ends. -/
structure Hands {ρ : Type} (c : LineClient) (At : ρ → Bytes → Rx → Prop) (getc : EStateM Stop ρ (ℤ × UInt8))
    (limit bound : ℕ) (withRx : ρ → Rx → ρ) (Keeps : ρ → Bytes → Bool → Prop)
    (readLine : Bytes → ρ → EStateM Stop Rx (Bytes × ρ)) : Prop where
  at_start : ∀ b unread rx, Keeps b unread false → At (withRx b rx) unread rx
  line : ∀ recvline b unread rx e out b' rest rx', Keeps b unread false →
    takeLine getc (· = newline) limit [] (withRx b rx) = .ok (e, out) b' →
    e = .stopped ∨ e = .full ∧ limit ≤ bound → At b' rest rx' →
    ∃ b₁, readLine recvline b rx = .ok (c.stored out, b₁) rx' ∧ Keeps b₁ rest false
  ended : ∀ recvline b unread rx out b' rx', Keeps b unread false →
    takeLine getc (· = newline) limit [] (withRx b rx) = .ok (.ended, out) b' → At b' [] rx' →
    ∃ b₁, readLine recvline b rx = .ok (out, b₁) rx' ∧ Keeps b₁ [] c.endsOnce
  gives_up : ∀ recvline b rx out b' e, takeLine getc (· = newline) limit [] (withRx b rx) = .ok (.failed, out) b' →
    c.onError e = .giveUp → ∃ stop rx', readLine recvline b rx = .error stop rx'
  goes_on : ∀ recvline b unread rx out b' rx' e, Keeps b unread false →
    takeLine getc (· = newline) limit [] (withRx b rx) = .ok (.failed, out) b' → c.onError e = .endOfStream →
    At b' [] rx' → ∃ b₁, readLine recvline b rx = .ok (out, b₁) rx' ∧ Keeps b₁ [] c.endsOnce
  throws : ∀ recvline b unread rx stop b', Keeps b unread false →
    takeLine getc (· = newline) limit [] (withRx b rx) = .error stop b' →
    ∃ stop rx', readLine recvline b rx = .error stop rx'
  skips : ∀ recvline b unread rx, Keeps b unread true →
    ∃ b₁, readLine recvline b rx = .ok (recvline, b₁) rx ∧ Keeps b₁ unread true

theorem GetsChars.reads {ρ : Type} {At : ρ → Bytes → Rx → Prop} {getc : EStateM Stop ρ (ℤ × UInt8)} {limit bound : ℕ}
    {withRx : ρ → Rx → ρ} {Keeps : ρ → Bytes → Bool → Prop} {readLine : Bytes → ρ → EStateM Stop Rx (Bytes × ρ)}
    (h : GetsChars c At getc) (hhands : Hands c At getc limit bound withRx Keeps readLine) (hpos : 0 < limit)
    (hfull : ∀ line ch, line.length + 1 ≤ bound →
      c.full (line ++ [ch]) = decide (ch = newline ∨ limit ≤ line.length + 1)) :
    Reads c Keeps bound readLine where
  reads in₀ stdout recvline b unread rx tx hkeeps hbound := by
    have htake := @GetsChars.takeLine_reaches c in₀ stdout unread recvline [] ρ At getc (withRx b rx) rx tx bound
      limit h hfull limit hpos (by simp) (hhands.at_start b unread rx hkeeps) (by simpa using hbound)
    rcases hrun : takeLine getc (· = newline) limit [] (withRx b rx) with ⟨⟨e, out⟩, b'⟩ | ⟨stop, b'⟩
    · rw [hrun] at htake
      obtain ⟨s, conn, hpath, rest, rx', hat, rfl, hle, hlimit, hend⟩ := htake
      have hline : e = .stopped ∨ e = .full → e = .stopped ∨ e = .full ∧ limit ≤ bound :=
        Or.imp_right fun hfull => ⟨hfull, hlimit hfull⟩
      cases e with
      | stopped | full =>
        obtain ⟨b₁, hread, hkeeps'⟩ :=
          hhands.line recvline b unread rx _ out b' rest rx' hkeeps hrun (hline (by simp)) hat
        rw [hread]
        exact ⟨_, _, hpath, rfl, rest, false, hkeeps', hle, hend⟩
      | ended =>
        obtain ⟨rfl, rfl⟩ := hend
        obtain ⟨b₁, hread, hkeeps'⟩ := hhands.ended recvline b unread rx out b' rx' hkeeps hrun hat
        rw [hread]
        exact ⟨_, _, hpath, rfl, [], c.endsOnce, hkeeps', hle, rfl⟩
      | failed =>
        obtain ⟨rfl, e, ⟨he, rfl⟩ | ⟨he, rfl⟩⟩ := hend
        · obtain ⟨stop, r, hread⟩ := hhands.gives_up recvline b rx out b' e hrun he
          rw [hread]
          exact ⟨_, _, hpath, rfl, rfl⟩
        · obtain ⟨b₁, hread, hkeeps'⟩ := hhands.goes_on recvline b unread rx out b' rx' e hkeeps hrun he hat
          rw [hread]
          exact ⟨_, _, hpath, rfl, [], c.endsOnce, hkeeps', hle, rfl⟩
    · rw [hrun] at htake
      obtain ⟨stop', r, hread⟩ := hhands.throws recvline b unread rx stop b' hkeeps hrun
      rw [hread]
      exact htake
  skips := hhands.skips

section

variable {ρ : Type} {Keeps : ρ → Bytes → Bool → Prop} {bound size : ℕ}
  {readLine : Bytes → ρ → EStateM Stop Rx (Bytes × ρ)} {sendAll : Bytes → EStateM Stop Tx Unit}

theorem Reads.reaches (h : Reads c Keeps bound readLine) {b : ρ} {conn : Conn} (hkeeps : Keeps b unread ended)
    (hbound : unread.length + conn.rx.input.length ≤ bound) :
    Reaches c.program value ⟨in₀, stdout, unread, recvline, ended, .sendAll []⟩ conn
      (fun r t s conn' => conn' = t ∧ ∃ rest ended', Keeps r.2 rest ended' ∧ rest.length + t.rx.input.length ≤ bound ∧
        s = ⟨in₀, stdout, rest, r.1, ended', .reply⟩)
      (Conn.receive (readLine recvline b) conn) := by
  obtain ⟨rx, tx⟩ := conn
  apply (path_work (c := c) rfl _).reaches
  apply Reaches.receive
  cases ended with
  | true =>
    obtain ⟨b₁, hread, hkeeps'⟩ := h.skips recvline b unread rx hkeeps
    rw [hread]
    exact ⟨_, _, .refl, rfl, unread, true, hkeeps', hbound, rfl⟩
  | false =>
    apply (h.reads in₀ stdout recvline b unread rx tx hkeeps hbound).mono
    rintro r rx' s conn ⟨rfl, rest, ended', hkeeps', hle, rfl⟩
    exact ⟨rfl, rest, ended', hkeeps', hle.trans hbound, rfl⟩

theorem strCliLoop_reaches (hread : Reads c Keeps bound readLine)
    (hsend : ∀ input sendline rest, input.length ≤ size → c.next input = some (sendline, rest) →
      rest.length < input.length ∧ SendsAll sendline (sendAll sendline))
    {turns : ℕ} {input : Bytes} {b : ρ} {conn : Conn} (hturns : input.length < turns) (hsize : input.length ≤ size)
    (hkeeps : Keeps b unread ended) (hbound : unread.length + conn.rx.input.length ≤ bound)
    (htakes : conn.TakesSome) :
    Reaches c.program value ⟨input, stdout, unread, recvline, ended, .top⟩ conn
      (fun r t s conn' => conn' = t ∧ c.program.request s = .halt ∧ value s = some r)
      (strCliLoop c sendAll readLine turns input stdout recvline b conn) := by
  induction turns generalizing input stdout unread recvline ended b conn with
  | zero => exact absurd hturns (Nat.not_lt_zero _)
  | succ turns ih =>
    rw [strCliLoop]
    apply (path_work (c := c) rfl _).reaches
    simp only [work]
    cases hnext : c.next input with
    | none => exact ⟨_, _, .refl, rfl, rfl, rfl⟩
    | some cut =>
      obtain ⟨sendline, rest⟩ := cut
      obtain ⟨hlt, hsends⟩ := hsend input sendline rest hsize hnext
      apply (hsends sends_sendAll conn htakes).bind
      rintro - conn₁ s₁ c₁ hpath ⟨rfl, rfl, hrx⟩
      apply (hread.reaches hkeeps (hrx ▸ hbound)).bind
      rintro ⟨recvline', b'⟩ conn₂ s₂ c₂ hpath' ⟨rfl, rest', ended', hkeeps', hbound', rfl⟩
      have htakes' := hpath'.takesSome (hpath.takesSome htakes)
      apply (path_work (c := c) rfl _).reaches
      by_cases hnil : recvline' = []
      · simp only [work, if_pos hnil]
        exact ⟨_, _, .refl, rfl, rfl, rfl⟩
      · simp only [work, if_neg hnil]
        exact ih (by omega) (by omega) hkeeps' hbound' htakes'

end

end LineClient

end NetProg
