import NetProg.System.Echo

/-!
# Line clients over TCP

The loop of the three `str_cli`: take a piece of the input, send it, read a line of the reply, stop if it
is empty and print it otherwise. The reader of the reply asks the connection for many bytes at once, keeps
what came beyond the line for the next round, and takes the line from there byte by byte. The three differ
in how they cut the input, in where the reader stops, and in what it does at the end of the stream
(`LineClient`).

The client's last cut has to fall where its first one did. `LineClient.Inv` says, at every point of the
round, how the piece that is under way is spread over the bytes still to send, the queue, the reader's
buffer and the line read so far; it is kept by every step (`inv_step`), as long as no reader would stop
inside a piece (`Whole`). Where it does, the rest of the piece stays behind for the next round:
`LineClient.Owes` says how much that is, and is kept by every step whatever the pieces are (`owes_step`).
`plays_round`, `plays_leaves` and `plays_stuck` are runs that show what happens.
-/

namespace NetProg

/-- What a reader does when its read has failed. -/
inductive OnError
  | again
  | giveUp
  | endOfStream
  deriving DecidableEq, Repr

/-- What a `str_cli` does its own way. -/
structure LineClient where
  /-- The bytes to send in a round and the input that is left, or `none` at the end of the input. -/
  next : Bytes → Option (Bytes × Bytes)
  /-- How many bytes the reader asks for when it has none. -/
  size : ℕ
  /-- The reader stops after these bytes. -/
  full : Bytes → Bool
  /-- What the reader returns when it has stopped after these bytes. -/
  stored : Bytes → Bytes
  /-- What is appended to the line before it is printed. -/
  suffix : Bytes
  /-- How the line is printed. -/
  printed : Bytes → Bytes
  /-- After the end of the stream the reader leaves `recvline` as it is. -/
  endsOnce : Bool
  onError : Errno → OnError
  size_pos : 0 < size
  full_nil : full [] = false

namespace LineClient

/-- Where the client is. -/
inductive Pc
  /-- About to take the next piece of the input. -/
  | top
  /-- In `SendAll`, with `ptr` left to send. -/
  | sendAll (ptr : Bytes)
  /-- In the reader, which has taken `line` so far. -/
  | readline (line : Bytes)
  /-- The reader has returned. -/
  | reply
  | returned
  /-- `server terminated prematurely`. -/
  | terminated
  | failed (ec : Option Errno)
  deriving DecidableEq, Repr

/-- The variables of the client. -/
structure State where
  input : Bytes
  stdout : Bytes
  /-- The bytes the reader has read and not yet taken. -/
  unread : Bytes
  recvline : Bytes
  /-- The reader has met the end of the stream and will not read again. -/
  ended : Bool
  pc : Pc
  deriving DecidableEq, Repr

variable (c : LineClient)

/-- The call that comes next. A reader that has unread bytes takes one of them without a call. -/
def request (s : State) : Lib.Request UInt8 :=
  match s.pc with
  | .sendAll (b :: ptr) => .send (b :: ptr)
  | .readline _ => if s.unread = [] then .recv c.size else .work
  | .returned => .halt
  | .terminated => .halt
  | .failed _ => .halt
  | _ => .work

/-- A step without a call. -/
def work (s : State) : State :=
  match s.pc with
  | .top =>
    match c.next s.input with
    | none => { s with pc := .returned }
    | some (sendline, input) => { s with input := input, pc := .sendAll sendline }
  | .sendAll _ => { s with pc := if s.ended then .reply else .readline [] }
  | .readline line =>
    match s.unread with
    | [] => s
    | ch :: unread =>
      if c.full (line ++ [ch]) then
        { s with unread := unread, recvline := c.stored (line ++ [ch]), pc := .reply }
      else { s with unread := unread, pc := .readline (line ++ [ch]) }
  | .reply =>
    if s.recvline = [] then { s with pc := .terminated }
    else
      { s with
        recvline := s.recvline ++ c.suffix
        stdout := s.stdout ++ c.printed (s.recvline ++ c.suffix)
        pc := .top }
  | _ => s

/-- The end of the stream, where the reader returns what it has. -/
def atEnd (s : State) (line : Bytes) : State :=
  { s with recvline := line, ended := c.endsOnce, pc := .reply }

/-- The client after an answer. -/
def resume (s : State) : Lib.Answer UInt8 Errno → State
  | .done => c.work s
  | .sent n =>
    match s.pc with
    | .sendAll ptr => { s with pc := if n = 0 then .failed none else .sendAll (ptr.drop n) }
    | _ => s
  | .received buf =>
    match s.pc with
    | .readline line => if buf = [] then c.atEnd s line else { s with unread := buf }
    | _ => s
  | .failed e =>
    match s.pc with
    | .sendAll ptr => { s with pc := if e = .EINTR then .sendAll ptr else .failed (some e) }
    | .readline line =>
      match c.onError e with
      | .again => s
      | .giveUp => { s with pc := .failed (some e) }
      | .endOfStream => c.atEnd s line
    | _ => s

section

variable {c} {s : State}

theorem request_send {bytes : Bytes} (h : c.request s = .send bytes) :
    s.pc = .sendAll bytes ∧ bytes ≠ [] := by
  unfold request at h
  split at h
  · rename_i b ptr hpc
    obtain rfl : b :: ptr = bytes := by simpa using h
    exact ⟨hpc, List.cons_ne_nil b ptr⟩
  · split at h <;> simp at h
  all_goals simp at h

theorem request_recv {n : ℕ} (h : c.request s = .recv n) :
    ∃ line, s.pc = .readline line ∧ s.unread = [] ∧ n = c.size := by
  unfold request at h
  split at h
  · simp at h
  · rename_i line hpc
    split at h
    · rename_i hunread
      exact ⟨line, hpc, hunread, by simpa using h.symm⟩
    · simp at h
  all_goals simp at h

theorem request_work (h : c.request s = .work) :
    s.pc = .top ∨ s.pc = .sendAll [] ∨ (∃ line, s.pc = .readline line ∧ s.unread ≠ []) ∨ s.pc = .reply := by
  unfold request at h
  split at h
  · simp at h
  · rename_i line hpc
    split at h
    · simp at h
    · rename_i hunread
      exact .inr (.inr (.inl ⟨line, hpc, hunread⟩))
  · simp at h
  · simp at h
  · simp at h
  · rename_i hsend hread hret hterm hfail
    cases hpc : s.pc with
    | top => exact .inl rfl
    | sendAll ptr =>
      cases ptr with
      | nil => exact .inr (.inl rfl)
      | cons b ptr => exact absurd hpc (hsend b ptr)
    | readline line => exact absurd hpc (hread line)
    | reply => exact .inr (.inr (.inr rfl))
    | returned => exact absurd hpc hret
    | terminated => exact absurd hpc hterm
    | failed ec => exact absurd hpc (hfail ec)

end

/-- The client as a program at one end of a connection. -/
def program : Lib.Program UInt8 Errno where
  State := State
  request := c.request
  resume := c.resume
  send_ne_nil _ _ h := (request_send h).2
  recv_pos _ _ h := by
    obtain ⟨_, _, _, rfl⟩ := request_recv h
    exact c.size_pos

/-- The client at its start. -/
def start (input : Bytes) : State := ⟨input, [], [], [], false, .top⟩

/-- The state that the client and an echo server reach from the start of the connection. -/
def reached (link : Lib.Link Errno) (Q : Lib.EchoServer UInt8 Errno link.errors) (input : Bytes)
    (moves : List (Lib.Move Errno)) : Lib.Duplex c.program Q.toProgram :=
  Lib.run (Lib.Duplex.step link) (.initial link Q (start input)) moves

section

variable {c} {errors : List Errno}

/-- Everything that a step of the client on its queue can be, where its reader does not take an error for the
end of the stream. -/
theorem step_cases (herrors : ∀ e ∈ errors, c.onError e ≠ .endOfStream) {s : State} {queue : Bytes}
    {l : Lib.Loop c.program} (h : Lib.Loop.Step errors (⟨s, queue⟩ : Lib.Loop c.program) l) :
    (∃ ptr k, s.pc = .sendAll ptr ∧ l = ⟨{ s with pc := .sendAll (ptr.drop k) }, queue ++ ptr.take k⟩) ∨
    (∃ line k, s.pc = .readline line ∧ s.unread = [] ∧
      l = ⟨{ s with unread := queue.take k }, queue.drop k⟩) ∨
    (∃ ec, ((∃ ptr, s.pc = .sendAll ptr) ∨ ∃ line, s.pc = .readline line) ∧
      l = ⟨{ s with pc := .failed ec }, queue⟩) ∨
    l = ⟨s, queue⟩ ∨
    (c.request s = .work ∧ l = ⟨c.work s, queue⟩) := by
  cases h with
  | @send bytes k hreq hpos hle =>
    obtain ⟨hpc, -⟩ := request_send hreq
    refine .inl ⟨bytes, k, hpc, ?_⟩
    show (⟨c.resume s (.sent k), queue ++ bytes.take k⟩ : Lib.Loop c.program) = _
    rw [resume, hpc]
    simp only [if_neg (Nat.ne_of_gt hpos)]
  | @recv size k hreq hpos hsize hle =>
    obtain ⟨line, hpc, hunread, -⟩ := request_recv hreq
    have hbuf : queue.take k ≠ [] := by
      have hqueue : k ≤ queue.length := hle
      rw [← List.length_pos_iff, List.length_take]
      omega
    refine .inr (.inl ⟨line, k, hpc, hunread, ?_⟩)
    show (⟨c.resume s (.received (queue.take k)), queue.drop k⟩ : Lib.Loop c.program) = _
    rw [resume, hpc]
    simp only [if_neg hbuf]
  | @fail e hhalt hwork he =>
    obtain ⟨in₀, stdout, unread, recvline, ended, pc⟩ := s
    show _ ∨ _ ∨ (∃ ec, _ ∧ (⟨c.resume _ (.failed e), queue⟩ : Lib.Loop c.program) = _) ∨
      (⟨c.resume _ (.failed e), queue⟩ : Lib.Loop c.program) = _ ∨ _
    cases pc with
    | sendAll ptr =>
      simp only [resume]
      by_cases heintr : e = .EINTR
      · rw [if_pos heintr]
        exact .inr (.inr (.inr (.inl rfl)))
      · rw [if_neg heintr]
        exact .inr (.inr (.inl ⟨_, .inl ⟨ptr, rfl⟩, rfl⟩))
    | readline line =>
      simp only [resume]
      split
      · exact .inr (.inr (.inr (.inl rfl)))
      · exact .inr (.inr (.inl ⟨_, .inr ⟨line, rfl⟩, rfl⟩))
      · exact absurd ‹_› (herrors e he)
    | top | reply | returned | terminated | failed => exact .inr (.inr (.inr (.inl rfl)))
  | work hreq => exact .inr (.inr (.inr (.inr ⟨hreq, rfl⟩)))

end

/-! ### Whole rounds -/

/-- What is printed of a piece that comes back whole. -/
def echoed (sendline : Bytes) : Bytes := c.printed (c.stored sendline ++ c.suffix)

/-- The output and the input left after rounds in which every piece came back whole. -/
inductive Rounds (input : Bytes) : Bytes → Bytes → Prop
  | start : Rounds input [] input
  | next {stdout i sendline rest : Bytes} (h : Rounds input stdout i)
      (hnext : c.next i = some (sendline, rest)) : Rounds input (stdout ++ c.echoed sendline) rest

/-- The reader does not stop inside a piece, and what it makes of the piece is not empty. -/
structure Whole (sendline : Bytes) : Prop where
  eq_of_full : ∀ q, q <+: sendline → c.full q = true → q = sendline
  stored_ne_nil : c.stored sendline ≠ []

/-- All the pieces of an input are whole. -/
def AllWhole (input : Bytes) : Prop :=
  ∀ stdout i sendline rest, c.Rounds input stdout i → c.next i = some (sendline, rest) → c.Whole sendline

/-- `sendline` has been taken from the input and its round is not over. -/
def Underway (input stdout rest sendline : Bytes) : Prop :=
  ∃ i, c.Rounds input stdout i ∧ c.next i = some (sendline, rest)

/-- Where the piece under way is, with `queue` on its way back to the client. -/
def Inv (input : Bytes) (s : State) (queue : Bytes) : Prop :=
  s.ended = false ∧
    match s.pc with
    | .top => c.Rounds input s.stdout s.input ∧ s.unread = [] ∧ queue = []
    | .sendAll ptr => s.unread = [] ∧ c.Underway input s.stdout s.input (queue ++ ptr)
    | .readline line => c.full line = false ∧ c.Underway input s.stdout s.input (line ++ (s.unread ++ queue))
    | .reply => s.unread = [] ∧ queue = [] ∧
        ∃ sendline, c.Underway input s.stdout s.input sendline ∧ s.recvline = c.stored sendline
    | .returned => c.Rounds input s.stdout s.input
    | .terminated => False
    | .failed _ => ∃ sendline, c.Underway input s.stdout s.input sendline

section

variable {c} {input : Bytes} {errors : List Errno}

theorem inv_work (hwhole : c.AllWhole input) {s : State} {queue : Bytes} (hinv : c.Inv input s queue)
    (hreq : c.request s = .work) : c.Inv input (c.work s) queue := by
  obtain ⟨in₀, stdout, unread, recvline, ended, pc⟩ := s
  obtain ⟨hended, hinv⟩ := hinv
  obtain rfl : ended = false := hended
  rcases request_work hreq with hpc | hpc | ⟨line, hpc, hunread⟩ | hpc <;>
    (simp only at hpc; subst hpc)
  · -- the next piece
    obtain ⟨hrounds, rfl, rfl⟩ := hinv
    simp only [work]
    split
    · exact ⟨rfl, hrounds⟩
    · rename_i sendline rest hnext
      exact ⟨rfl, rfl, in₀, hrounds, hnext⟩
  · -- everything is sent
    obtain ⟨rfl, hunderway⟩ := hinv
    refine ⟨rfl, c.full_nil, ?_⟩
    simpa [work] using hunderway
  · -- the reader takes a byte
    obtain ⟨hline, hunderway⟩ := hinv
    cases unread with
    | nil => exact absurd rfl hunread
    | cons ch unread =>
      have hshift : line ++ (ch :: unread ++ queue) = line ++ [ch] ++ (unread ++ queue) := by simp
      simp only at hunderway
      rw [hshift] at hunderway
      simp only [work]
      by_cases hfull : c.full (line ++ [ch]) = true
      · -- it has the whole piece, so nothing is left in its buffer or in the queue
        rw [if_pos hfull]
        obtain ⟨i, hrounds, hnext⟩ := hunderway
        have heq := (hwhole _ _ _ _ hrounds hnext).eq_of_full _ (List.prefix_append _ _) hfull
        have hnil : unread ++ queue = [] := List.self_eq_append_right.1 heq
        obtain ⟨rfl, rfl⟩ := List.append_eq_nil_iff.1 hnil
        exact ⟨rfl, rfl, rfl, _, ⟨i, hrounds, by simpa using hnext⟩, rfl⟩
      · rw [if_neg hfull]
        exact ⟨rfl, by simpa using hfull, hunderway⟩
  · -- the line is printed
    obtain ⟨rfl, rfl, sendline, ⟨i, hrounds, hnext⟩, hrecv⟩ := hinv
    obtain rfl : recvline = c.stored sendline := hrecv
    simp only [work, if_neg (hwhole _ _ _ _ hrounds hnext).stored_ne_nil]
    exact ⟨rfl, hrounds.next hnext, rfl, rfl⟩

theorem inv_step (hwhole : c.AllWhole input) (herrors : ∀ e ∈ errors, c.onError e ≠ .endOfStream)
    {l l' : Lib.Loop c.program} (hinv : c.Inv input l.prog l.queue)
    (hstep : Lib.Loop.Step errors l l') : c.Inv input l'.prog l'.queue := by
  obtain ⟨⟨in₀, stdout, unread, recvline, ended, pc⟩, queue⟩ := l
  rcases step_cases herrors hstep with ⟨ptr, k, rfl, rfl⟩ | ⟨line, k, rfl, rfl, rfl⟩ |
      ⟨ec, ⟨ptr, rfl⟩ | ⟨line, rfl⟩, rfl⟩ | rfl | ⟨hreq, rfl⟩
  · -- bytes are sent
    obtain ⟨hended, hunread, hunderway⟩ := hinv
    refine ⟨hended, hunread, ?_⟩
    show c.Underway input stdout in₀ (queue ++ ptr.take k ++ ptr.drop k)
    rwa [List.append_assoc, List.take_append_drop]
  · -- bytes are received
    obtain ⟨hended, hline, hunderway⟩ := hinv
    refine ⟨hended, hline, ?_⟩
    show c.Underway input stdout in₀ (line ++ (queue.take k ++ queue.drop k))
    rwa [List.take_append_drop]
  · -- `SendAll` fails
    exact ⟨hinv.1, _, hinv.2.2⟩
  · -- the reader fails
    exact ⟨hinv.1, _, hinv.2.2⟩
  · exact hinv
  · exact inv_work hwhole hinv hreq

/-- With an echo server at the other end the invariant holds in every reachable state, where the bytes on
their way back are those in both directions and in the server. -/
theorem inv_reached (hwhole : c.AllWhole input) {link : Lib.Link Errno}
    (herrors : ∀ e ∈ link.errors, c.onError e ≠ .endOfStream)
    (Q : Lib.EchoServer UInt8 Errno link.errors) (moves : List (Lib.Move Errno)) :
    c.Inv input (c.reached link Q input moves).left ((c.reached link Q input moves).toLeft ++
      (Q.pending (c.reached link Q input moves).right ++ (c.reached link Q input moves).toRight)) :=
  have hinit : c.Inv input (start input) [] := ⟨rfl, .start, rfl, rfl⟩
  Lib.Duplex.run_loop (I := fun l => c.Inv input l.prog l.queue)
    (fun _ _ hinv hstep => inv_step hwhole herrors hinv hstep) hinit moves

theorem Inv.rounds {s : State} {queue : Bytes} (hinv : c.Inv input s queue) :
    ∃ i, c.Rounds input s.stdout i ∧ (s.pc = .top → i = s.input) := by
  obtain ⟨in₀, stdout, unread, recvline, ended, pc⟩ := s
  obtain ⟨-, hinv⟩ := hinv
  cases pc with
  | top => exact ⟨in₀, hinv.1, fun _ => rfl⟩
  | sendAll ptr =>
    obtain ⟨-, i, hrounds, -⟩ := hinv
    exact ⟨i, hrounds, fun h => by simp at h⟩
  | readline line =>
    obtain ⟨-, i, hrounds, -⟩ := hinv
    exact ⟨i, hrounds, fun h => by simp at h⟩
  | reply =>
    obtain ⟨-, -, _, ⟨i, hrounds, -⟩, -⟩ := hinv
    exact ⟨i, hrounds, fun h => by simp at h⟩
  | returned => exact ⟨in₀, hinv, fun _ => rfl⟩
  | terminated => exact absurd hinv not_false
  | failed ec =>
    obtain ⟨_, i, hrounds, -⟩ := hinv
    exact ⟨i, hrounds, fun h => by simp at h⟩

theorem Inv.ne_terminated {s : State} {queue : Bytes} (hinv : c.Inv input s queue) : s.pc ≠ .terminated := by
  intro hpc
  have hfalse := hinv.2
  rw [hpc] at hfalse
  exact hfalse

/-- A client that waits with nothing on its way back has all of the piece, and the reader wants more. -/
theorem Inv.waiting {s : State} {n : ℕ} (hinv : c.Inv input s []) (hreq : c.request s = .recv n) :
    ∃ line, c.full line = false ∧ c.Underway input s.stdout s.input line := by
  obtain ⟨line, hpc, hunread, -⟩ := request_recv hreq
  obtain ⟨-, hinv⟩ := hinv
  simp only [hpc, hunread, List.append_nil] at hinv
  exact ⟨line, hinv⟩

end

/-! ### What the reader leaves -/

/-- What the reader leaves of a stream when it has taken `line` already. -/
def leaves (line : Bytes) : Bytes → Bytes
  | [] => []
  | ch :: stream => if c.full (line ++ [ch]) then stream else leaves (line ++ [ch]) stream

/-- The bytes sent and not read, and the input left, after rounds in which the reader has stopped where it
stops. -/
inductive Owing (input : Bytes) : Bytes → Bytes → Prop
  | start : Owing input [] input
  | next {owed i sendline rest : Bytes} (h : Owing input owed i) (hnext : c.next i = some (sendline, rest)) :
      Owing input (c.leaves [] (owed ++ sendline)) rest

/-- Where the bytes are that the client has yet to read, with `queue` on its way back to the client. -/
def Owes (input : Bytes) (s : State) (queue : Bytes) : Prop :=
  s.ended = false ∧
    match s.pc with
    | .top => c.Owing input (s.unread ++ queue) s.input
    | .sendAll ptr => ∃ owed i sendline, c.Owing input owed i ∧ c.next i = some (sendline, s.input) ∧
        s.unread ++ (queue ++ ptr) = owed ++ sendline
    | .readline line => c.Owing input (c.leaves line (s.unread ++ queue)) s.input
    | .reply => c.Owing input (s.unread ++ queue) s.input
    | _ => True

section

variable {c} {input : Bytes} {errors : List Errno}

theorem owes_work {s : State} {queue : Bytes} (howes : c.Owes input s queue) (hreq : c.request s = .work) :
    c.Owes input (c.work s) queue := by
  obtain ⟨in₀, stdout, unread, recvline, ended, pc⟩ := s
  obtain ⟨hended, howes⟩ := howes
  obtain rfl : ended = false := hended
  rcases request_work hreq with hpc | hpc | ⟨line, hpc, hunread⟩ | hpc <;>
    (simp only at hpc; subst hpc)
  · -- the next piece
    simp only [work]
    split
    · exact ⟨rfl, trivial⟩
    · rename_i sendline rest hnext
      exact ⟨rfl, _, in₀, sendline, howes, hnext, (List.append_assoc _ _ _).symm⟩
  · -- everything is sent
    obtain ⟨owed, i, sendline, howing, hnext, hsplit⟩ := howes
    simp only [List.append_nil] at hsplit
    refine ⟨rfl, ?_⟩
    show c.Owing input (c.leaves [] (unread ++ queue)) in₀
    rw [hsplit]
    exact howing.next hnext
  · -- the reader takes a byte
    cases unread with
    | nil => exact absurd rfl hunread
    | cons ch unread =>
      simp only [List.cons_append, leaves] at howes
      simp only [work]
      by_cases hfull : c.full (line ++ [ch]) = true
      · rw [if_pos hfull] at howes ⊢
        exact ⟨rfl, howes⟩
      · rw [if_neg hfull] at howes ⊢
        exact ⟨rfl, howes⟩
  · -- the line is printed
    simp only [work]
    split
    · exact ⟨rfl, trivial⟩
    · exact ⟨rfl, howes⟩

theorem owes_step (herrors : ∀ e ∈ errors, c.onError e ≠ .endOfStream) {l l' : Lib.Loop c.program}
    (howes : c.Owes input l.prog l.queue) (hstep : Lib.Loop.Step errors l l') :
    c.Owes input l'.prog l'.queue := by
  obtain ⟨⟨in₀, stdout, unread, recvline, ended, pc⟩, queue⟩ := l
  rcases step_cases herrors hstep with ⟨ptr, k, rfl, rfl⟩ | ⟨line, k, rfl, rfl, rfl⟩ |
      ⟨ec, -, rfl⟩ | rfl | ⟨hreq, rfl⟩
  · -- bytes are sent
    obtain ⟨hended, owed, i, sendline, howing, hnext, hsplit⟩ := howes
    refine ⟨hended, owed, i, sendline, howing, hnext, ?_⟩
    show unread ++ (queue ++ ptr.take k ++ ptr.drop k) = owed ++ sendline
    rwa [List.append_assoc, List.take_append_drop]
  · -- bytes are received
    obtain ⟨hended, howing⟩ := howes
    refine ⟨hended, ?_⟩
    show c.Owing input (c.leaves line (queue.take k ++ queue.drop k)) in₀
    rwa [List.take_append_drop]
  · exact ⟨howes.1, trivial⟩
  · exact howes
  · exact owes_work howes hreq

/-- With an echo server at the other end the same is true in every reachable state, whatever comes back
when. -/
theorem owes_reached {link : Lib.Link Errno} (herrors : ∀ e ∈ link.errors, c.onError e ≠ .endOfStream)
    (Q : Lib.EchoServer UInt8 Errno link.errors) (moves : List (Lib.Move Errno)) :
    c.Owes input (c.reached link Q input moves).left (c.reached link Q input moves).loop.queue :=
  have hinit : c.Owes input (start input) [] := ⟨rfl, .start⟩
  Lib.Duplex.run_loop (I := fun l => c.Owes input l.prog l.queue)
    (fun _ _ howes hstep => owes_step herrors howes hstep) hinit moves

theorem Owes.queue_lt {s : State} {queue bytes : Bytes} (howes : c.Owes input s queue)
    (hreq : c.request s = .send bytes) :
    ∃ owed i sendline, c.Owing input owed i ∧ c.next i = some (sendline, s.input) ∧
      queue.length < owed.length + sendline.length := by
  obtain ⟨hpc, hne⟩ := request_send hreq
  obtain ⟨-, howes⟩ := howes
  simp only [hpc] at howes
  obtain ⟨owed, i, sendline, howing, hnext, hsplit⟩ := howes
  have hpos := List.length_pos_iff.2 hne
  have hlength := congrArg List.length hsplit
  simp only [List.length_append] at hlength
  exact ⟨owed, i, sendline, howing, hnext, by omega⟩

theorem exists_leaves {line stream : Bytes} (hline : c.full line = false)
    (hfull : c.full (line ++ stream) = true) :
    ∃ q b, stream = q ++ b :: c.leaves line stream ∧
      (∀ p, p ≠ [] → p <+: q → c.full (line ++ p) = false) ∧ c.full (line ++ q ++ [b]) = true := by
  induction stream generalizing line with
  | nil =>
    rw [List.append_nil, hline] at hfull
    exact absurd hfull Bool.false_ne_true
  | cons ch stream ih =>
    by_cases hch : c.full (line ++ [ch]) = true
    · refine ⟨[], ch, ?_, fun p hne hp => absurd (List.prefix_nil.1 hp) hne, by simpa using hch⟩
      rw [leaves, if_pos hch, List.nil_append]
    · obtain ⟨q, b, hstream, hopen, hstop⟩ := ih (by simpa using hch) (by simpa using hfull)
      refine ⟨ch :: q, b, ?_, ?_, by simpa using hstop⟩
      · rw [leaves, if_neg hch, List.cons_append, ← hstream]
      · intro p hne hp
        obtain ⟨b', p, rfl⟩ := List.exists_cons_of_ne_nil hne
        obtain ⟨rfl, hpq⟩ := List.cons_prefix_cons.1 hp
        by_cases hnil : p = []
        · subst hnil
          simpa using hch
        · simpa using hopen p hnil hpq

end

/-! ### Playing rounds -/

/-- The client on its queue goes from one state to the other, one byte at a time. -/
abbrev Plays (cap : ℕ) : Lib.Loop c.program → Lib.Loop c.program → Prop :=
  Relation.ReflTransGen (Lib.Loop.UnitStep cap)

section

variable {c} {cap : ℕ} {input stdout recvline rest : Bytes} {ended : Bool}

theorem plays_sendAll (ptr : Bytes) {queue left : Bytes} (hcap : queue.length + ptr.length ≤ cap) :
    c.Plays cap ⟨⟨input, stdout, [], recvline, ended, .sendAll (ptr ++ left)⟩, queue⟩
      ⟨⟨input, stdout, [], recvline, ended, .sendAll left⟩, queue ++ ptr⟩ := by
  induction ptr generalizing queue with
  | nil => simpa using Relation.ReflTransGen.refl
  | cons b ptr ih =>
    rw [List.length_cons] at hcap
    have hrest : c.Plays cap ⟨⟨input, stdout, [], recvline, ended, .sendAll (ptr ++ left)⟩, queue ++ [b]⟩
        ⟨⟨input, stdout, [], recvline, ended, .sendAll left⟩, queue ++ [b] ++ ptr⟩ :=
      ih (by rw [List.length_append, List.length_singleton]; omega)
    rw [List.append_assoc, List.singleton_append] at hrest
    have hone : Lib.Loop.UnitStep cap
        (⟨⟨input, stdout, [], recvline, ended, .sendAll (b :: (ptr ++ left))⟩, queue⟩ : Lib.Loop c.program)
        ⟨⟨input, stdout, [], recvline, ended, .sendAll (ptr ++ left)⟩, queue ++ [b]⟩ :=
      .send rfl (show queue.length < cap by omega)
    exact .head hone hrest

theorem plays_take (line : Bytes) (b : UInt8) (queue : Bytes) :
    c.Plays cap ⟨⟨input, stdout, [], recvline, ended, .readline line⟩, b :: queue⟩
      ⟨c.work ⟨input, stdout, [b], recvline, ended, .readline line⟩, queue⟩ := by
  have hrecv : Lib.Loop.UnitStep cap
      (⟨⟨input, stdout, [], recvline, ended, .readline line⟩, b :: queue⟩ : Lib.Loop c.program)
      ⟨⟨input, stdout, [b], recvline, ended, .readline line⟩, queue⟩ :=
    @Lib.Loop.UnitStep.recv _ _ c.program cap _ c.size b queue rfl rfl
  have hwork : Lib.Loop.UnitStep cap
      (⟨⟨input, stdout, [b], recvline, ended, .readline line⟩, queue⟩ : Lib.Loop c.program)
      ⟨c.work ⟨input, stdout, [b], recvline, ended, .readline line⟩, queue⟩ := .work rfl
  exact .head hrecv (.single hwork)

theorem plays_readline (q : Bytes) {line queue : Bytes}
    (hopen : ∀ p, p ≠ [] → p <+: q → c.full (line ++ p) = false) :
    c.Plays cap ⟨⟨input, stdout, [], recvline, ended, .readline line⟩, q ++ queue⟩
      ⟨⟨input, stdout, [], recvline, ended, .readline (line ++ q)⟩, queue⟩ := by
  induction q generalizing line with
  | nil => simpa using Relation.ReflTransGen.refl
  | cons b q ih =>
    have hrest : c.Plays cap ⟨⟨input, stdout, [], recvline, ended, .readline (line ++ [b])⟩, q ++ queue⟩
        ⟨⟨input, stdout, [], recvline, ended, .readline (line ++ [b] ++ q)⟩, queue⟩ := by
      apply ih
      intro p hp hpq
      rw [List.append_assoc]
      exact hopen _ (by simp) ((List.prefix_cons_inj b).2 hpq)
    have hb : ¬ c.full (line ++ [b]) = true := by
      rw [hopen [b] (by simp) (by simp)]
      exact Bool.false_ne_true
    have hone : c.Plays cap ⟨⟨input, stdout, [], recvline, ended, .readline line⟩, b :: q ++ queue⟩
        ⟨c.work ⟨input, stdout, [b], recvline, ended, .readline line⟩, q ++ queue⟩ :=
      plays_take line b (q ++ queue)
    simp only [work, if_neg hb] at hone
    rw [List.append_assoc] at hrest
    exact hone.trans hrest

theorem plays_top {sendline : Bytes} (hnext : c.next input = some (sendline, rest)) (owed : Bytes) :
    c.Plays cap ⟨⟨input, stdout, [], recvline, false, .top⟩, owed⟩
      ⟨⟨rest, stdout, [], recvline, false, .sendAll sendline⟩, owed⟩ := by
  have htop : Lib.Loop.UnitStep cap
      (⟨⟨input, stdout, [], recvline, false, .top⟩, owed⟩ : Lib.Loop c.program)
      ⟨c.work ⟨input, stdout, [], recvline, false, .top⟩, owed⟩ := .work rfl
  simp only [work, hnext] at htop
  exact .single htop

theorem plays_start {owed sendline : Bytes} (hnext : c.next input = some (sendline, rest))
    (hcap : owed.length + sendline.length ≤ cap) :
    c.Plays cap ⟨⟨input, stdout, [], recvline, false, .top⟩, owed⟩
      ⟨⟨rest, stdout, [], recvline, false, .readline []⟩, owed ++ sendline⟩ := by
  have hsend : c.Plays cap ⟨⟨rest, stdout, [], recvline, false, .sendAll (sendline ++ [])⟩, owed⟩
      ⟨⟨rest, stdout, [], recvline, false, .sendAll []⟩, owed ++ sendline⟩ := plays_sendAll sendline hcap
  have hsent : Lib.Loop.UnitStep cap
      (⟨⟨rest, stdout, [], recvline, false, .sendAll []⟩, owed ++ sendline⟩ : Lib.Loop c.program)
      ⟨⟨rest, stdout, [], recvline, false, .readline []⟩, owed ++ sendline⟩ := .work rfl
  rw [List.append_nil] at hsend
  exact ((plays_top hnext owed).trans hsend).tail hsent

/-- A piece that does not make the reader stop leaves it waiting with everything back. -/
theorem plays_stuck {sendline : Bytes} (hnext : c.next input = some (sendline, rest))
    (hcap : sendline.length ≤ cap)
    (hopen : ∀ p, p ≠ [] → p <+: sendline → c.full p = false) :
    c.Plays cap ⟨⟨input, stdout, [], recvline, false, .top⟩, []⟩
      ⟨⟨rest, stdout, [], recvline, false, .readline sendline⟩, []⟩ := by
  have hstart : c.Plays cap ⟨⟨input, stdout, [], recvline, false, .top⟩, []⟩
      ⟨⟨rest, stdout, [], recvline, false, .readline []⟩, [] ++ sendline⟩ :=
    plays_start hnext (by simpa using hcap)
  have hread : c.Plays cap ⟨⟨rest, stdout, [], recvline, false, .readline []⟩, sendline ++ []⟩
      ⟨⟨rest, stdout, [], recvline, false, .readline sendline⟩, []⟩ := plays_readline sendline hopen
  rw [List.append_nil] at hread
  exact hstart.trans hread

theorem plays_reply {owed sendline q t : Bytes} {b : UInt8} (hnext : c.next input = some (sendline, rest))
    (hsplit : owed ++ sendline = q ++ b :: t) (hcap : owed.length + sendline.length ≤ cap)
    (hopen : ∀ p, p ≠ [] → p <+: q → c.full p = false) (hfull : c.full (q ++ [b]) = true) :
    c.Plays cap ⟨⟨input, stdout, [], recvline, false, .top⟩, owed⟩
      ⟨⟨rest, stdout, [], c.stored (q ++ [b]), false, .reply⟩, t⟩ := by
  have hstart : c.Plays cap ⟨⟨input, stdout, [], recvline, false, .top⟩, owed⟩
      ⟨⟨rest, stdout, [], recvline, false, .readline []⟩, owed ++ sendline⟩ := plays_start hnext hcap
  have hread : c.Plays cap ⟨⟨rest, stdout, [], recvline, false, .readline []⟩, q ++ b :: t⟩
      ⟨⟨rest, stdout, [], recvline, false, .readline q⟩, b :: t⟩ := plays_readline q hopen
  have htake : c.Plays cap ⟨⟨rest, stdout, [], recvline, false, .readline q⟩, b :: t⟩
      ⟨c.work ⟨rest, stdout, [b], recvline, false, .readline q⟩, t⟩ := plays_take q b t
  simp only [work, if_pos hfull] at htake
  rw [hsplit] at hstart
  exact (hstart.trans hread).trans htake

theorem plays_print (hreply : recvline ≠ []) (queue : Bytes) :
    c.Plays cap ⟨⟨input, stdout, [], recvline, false, .reply⟩, queue⟩
      ⟨⟨input, stdout ++ c.printed (recvline ++ c.suffix), [], recvline ++ c.suffix, false, .top⟩,
        queue⟩ := by
  have hprint : Lib.Loop.UnitStep cap
      (⟨⟨input, stdout, [], recvline, false, .reply⟩, queue⟩ : Lib.Loop c.program)
      ⟨c.work ⟨input, stdout, [], recvline, false, .reply⟩, queue⟩ := .work rfl
  simp only [work, if_neg hreply] at hprint
  exact .single hprint

theorem plays_terminate (queue : Bytes) :
    c.Plays cap ⟨⟨input, stdout, [], [], false, .reply⟩, queue⟩
      ⟨⟨input, stdout, [], [], false, .terminated⟩, queue⟩ :=
  .single (.work rfl)

/-- The round of a piece that the reader takes in one go and at whose end it stops. -/
theorem plays_round {sendline : Bytes} (hnext : c.next input = some (sendline, rest))
    (hcap : sendline.length ≤ cap) (hwhole : c.Whole sendline) (hfull : c.full sendline = true) :
    c.Plays cap ⟨⟨input, stdout, [], recvline, false, .top⟩, []⟩
      ⟨⟨rest, stdout ++ c.echoed sendline, [], c.stored sendline ++ c.suffix, false, .top⟩, []⟩ := by
  have hne : sendline ≠ [] := by
    rintro rfl
    rw [c.full_nil] at hfull
    exact Bool.false_ne_true hfull
  obtain ⟨q, b, rfl⟩ := (List.eq_nil_or_concat' sendline).resolve_left hne
  have hopen : ∀ p, p ≠ [] → p <+: q → c.full p = false := by
    intro p _ hp
    by_contra hstop
    have heq := hwhole.eq_of_full p (hp.trans (List.prefix_append q [b])) (by simpa using hstop)
    have hle := hp.length_le
    rw [heq, List.length_append, List.length_singleton] at hle
    omega
  have hreply : c.Plays cap ⟨⟨input, stdout, [], recvline, false, .top⟩, []⟩
      ⟨⟨rest, stdout, [], c.stored (q ++ [b]), false, .reply⟩, []⟩ :=
    plays_reply hnext rfl (by simpa using hcap) hopen hfull
  exact hreply.trans (plays_print hwhole.stored_ne_nil [])

theorem plays_leaves {owed sendline : Bytes} (hnext : c.next input = some (sendline, rest))
    (hcap : owed.length + sendline.length ≤ cap) (hfull : c.full (owed ++ sendline) = true)
    (hstored : ∀ line, line ≠ [] → c.stored line ≠ []) (stdout recvline : Bytes) :
    (c.leaves [] (owed ++ sendline)).length < cap ∧ ∃ stdout' recvline',
      c.Plays cap ⟨⟨input, stdout, [], recvline, false, .top⟩, owed⟩
        ⟨⟨rest, stdout', [], recvline', false, .top⟩, c.leaves [] (owed ++ sendline)⟩ := by
  obtain ⟨q, b, hsplit, hopen, hstop⟩ := exists_leaves c.full_nil hfull
  refine ⟨?_, _, _, (plays_reply hnext hsplit hcap hopen hstop).trans
    (plays_print (hstored _ (List.append_ne_nil_of_right_ne_nil q (List.cons_ne_nil b []))) _)⟩
  have hlength : (owed ++ sendline).length = (q ++ b :: c.leaves [] (owed ++ sendline)).length :=
    congrArg List.length hsplit
  rw [List.length_append, List.length_append, List.length_cons] at hlength
  omega

/-- What the client can play on its queue it can do with an echo server, given room. -/
theorem exists_reached {link : Lib.Link Errno} (hcap : cap ≤ link.roomRight) (hroom : 0 < link.roomLeft)
    (Q : Lib.EchoServer UInt8 Errno link.errors) {l : Lib.Loop c.program}
    (h : c.Plays cap ⟨start input, []⟩ l) :
    ∃ moves, (c.reached link Q input moves).Serving ∧ (c.reached link Q input moves).loop = l :=
  Lib.Duplex.exists_run hcap hroom h

end

end LineClient

end NetProg
