import NetProg.Lib.Runs
import Mathlib.Data.List.Basic
import Mathlib.Logic.Relation

/-!
# Two programs at the ends of a connection

A program is a state machine that asks for one thing at a time: to send bytes, to receive some, to do a
step of work that nobody else sees, or nothing any more. Two programs at the ends of a connection take
turns in any order; each call moves as many bytes as a scheduler chooses, within what was asked for, what
has arrived and the room on the link, and may fail with one of the errors of the link. A call that cannot
be answered yet leaves everything as it is, so a run is any list of moves.

When the right program is an echo server, the bytes in both directions and in the server together are one
queue that the left program fills and empties. `Duplex.loop` forgets where in the queue the bytes are,
and `Duplex.run_loop` says that whatever the left program keeps true of itself and its queue (`Loop.Step`)
holds at the end of every run of the two. Conversely `Duplex.exists_run_trickling` plays every run of the left
program on its queue, one byte at a time, as a run of the two, as long as the queue fits both directions and
the server. One byte more than fits both directions is what blocks two programs that send to each other
(`Duplex.BothBlocked`).
-/

namespace NetProg.Lib

/-- What a program waits for. -/
inductive Request (β : Type)
  | send (bytes : List β)
  | recv (size : ℕ)
  | work
  | halt

/-- What a program is told. The peer's end of stream is `received []`. -/
inductive Answer (β ε : Type)
  | sent (n : ℕ)
  | received (bytes : List β)
  | failed (error : ε)
  | done

/-- A program that makes one call at a time: the call of a state, and the state after its answer. -/
structure Program (β ε : Type) where
  State : Type
  request : State → Request β
  resume : State → Answer β ε → State
  send_ne_nil : ∀ s bytes, request s = .send bytes → bytes ≠ []
  recv_pos : ∀ s size, request s = .recv size → 0 < size

/-- The program makes no more calls. -/
def Program.halted {β ε : Type} (P : Program β ε) (s : P.State) : Bool :=
  match P.request s with
  | .halt => true
  | _ => false

theorem Program.halted_iff {β ε : Type} (P : Program β ε) (s : P.State) :
    P.halted s = true ↔ P.request s = .halt := by
  unfold Program.halted
  split <;> simp_all

/-- The most one call moves, the room for bytes under way in each direction, and how calls may fail. -/
structure Link (ε : Type) where
  limit : ℕ
  roomRight : ℕ
  roomLeft : ℕ
  errors : List ε

/-- What the scheduler offers a call. -/
inductive Choice (ε : Type)
  | go (n : ℕ)
  | fail (error : ε)
  deriving DecidableEq

/-- The end that goes on. -/
inductive Move (ε : Type)
  | left (choice : Choice ε)
  | right (choice : Choice ε)
  deriving DecidableEq

section

variable {β ε : Type}

/-- How many of `len` bytes a call moves when it is offered `n`. -/
def Link.count (link : Link ε) (n len : ℕ) : ℕ := min len (max 1 (min n link.limit))

theorem Link.count_le (link : Link ε) (n len : ℕ) : link.count n len ≤ len := Nat.min_le_left _ _

theorem Link.count_pos (link : Link ε) {n len : ℕ} (h : 0 < len) : 0 < link.count n len := by
  unfold Link.count
  omega

theorem Link.count_one (link : Link ε) {len : ℕ} (h : 0 < len) : link.count 1 len = 1 := by
  unfold Link.count
  omega

/-- A call that was answered: the answer, the bytes it put on the link and the bytes it left there. -/
structure Call (β ε : Type) where
  answer : Answer β ε
  sent : List β
  inbox : List β

variable [DecidableEq ε]

/-- The answer to a request, with `free` room for bytes to the peer, and `inbox` come from it; `closed`
when the peer will send no more. -/
def call (link : Link ε) (free : ℕ) (closed : Bool) (inbox : List β) :
    Request β → Choice ε → Option (Call β ε)
  | .send bytes, .go n =>
    if free = 0 then none
    else
      let k := link.count n (min bytes.length free)
      some ⟨.sent k, bytes.take k, inbox⟩
  | .recv size, .go n =>
    if inbox.isEmpty && !closed then none
    else
      let k := link.count n (min size inbox.length)
      some ⟨.received (inbox.take k), [], inbox.drop k⟩
  | .work, .go _ => some ⟨.done, [], inbox⟩
  | .send _, .fail e => if e ∈ link.errors then some ⟨.failed e, [], inbox⟩ else none
  | .recv _, .fail e => if e ∈ link.errors then some ⟨.failed e, [], inbox⟩ else none
  | .work, .fail _ => none
  | .halt, _ => none

theorem call_cases {link : Link ε} {free : ℕ} {closed : Bool} {inbox : List β} {r : Request β}
    {c : Choice ε} {x : Call β ε} (h : call link free closed inbox r c = some x) :
    (∃ bytes k, r = .send bytes ∧ k ≤ bytes.length ∧ (bytes ≠ [] → 0 < k) ∧
      x = ⟨.sent k, bytes.take k, inbox⟩) ∨
    (∃ size k, r = .recv size ∧ k ≤ size ∧ k ≤ inbox.length ∧ (0 < size → inbox ≠ [] → 0 < k) ∧
      x = ⟨.received (inbox.take k), [], inbox.drop k⟩ ∧ (inbox = [] → closed = true)) ∨
    (∃ e ∈ link.errors, r ≠ .halt ∧ r ≠ .work ∧ x = ⟨.failed e, [], inbox⟩) ∨
    (r = .work ∧ x = ⟨.done, [], inbox⟩) := by
  unfold call at h
  split at h
  · rename_i bytes n
    split at h
    · simp at h
    · rename_i hfree
      have hle := link.count_le n (min bytes.length free)
      refine .inl ⟨bytes, _, rfl, by omega, ?_, (Option.some.inj h).symm⟩
      intro hbytes
      apply link.count_pos
      have := List.length_pos_iff.2 hbytes
      omega
  · rename_i size n
    split at h
    · simp at h
    · rename_i hopen
      have hle := link.count_le n (min size inbox.length)
      refine .inr (.inl ⟨size, _, rfl, by omega, by omega, ?_, (Option.some.inj h).symm, ?_⟩)
      · intro hsize hinbox
        apply link.count_pos
        have := List.length_pos_iff.2 hinbox
        omega
      · intro hinbox
        simpa [hinbox] using hopen
  · exact .inr (.inr (.inr ⟨rfl, (Option.some.inj h).symm⟩))
  · split at h
    · rename_i he
      exact .inr (.inr (.inl ⟨_, he, by simp, by simp, (Option.some.inj h).symm⟩))
    · simp at h
  · split at h
    · rename_i he
      exact .inr (.inr (.inl ⟨_, he, by simp, by simp, (Option.some.inj h).symm⟩))
    · simp at h
  · simp at h
  · simp at h

end

/-! ### The two programs -/

/-- The states of the two programs and the bytes on their way to each. -/
structure Duplex {β ε : Type} (P Q : Program β ε) where
  left : P.State
  right : Q.State
  toRight : List β
  toLeft : List β

namespace Duplex

variable {β ε : Type} [DecidableEq ε] {P Q : Program β ε}

/-- A call of the left end, if it can be answered now. -/
def stepLeft (link : Link ε) (s : Duplex P Q) (c : Choice ε) : Duplex P Q :=
  match call link (link.roomRight - s.toRight.length) (Q.halted s.right) s.toLeft (P.request s.left) c with
  | none => s
  | some x => ⟨P.resume s.left x.answer, s.right, s.toRight ++ x.sent, x.inbox⟩

/-- A call of the right end, if it can be answered now. -/
def stepRight (link : Link ε) (s : Duplex P Q) (c : Choice ε) : Duplex P Q :=
  match call link (link.roomLeft - s.toLeft.length) (P.halted s.left) s.toRight (Q.request s.right) c with
  | none => s
  | some x => ⟨s.left, Q.resume s.right x.answer, x.inbox, s.toLeft ++ x.sent⟩

/-- One move of the scheduler. -/
def step (link : Link ε) (s : Duplex P Q) : Move ε → Duplex P Q
  | .left c => s.stepLeft link c
  | .right c => s.stepRight link c

end Duplex

/-! ### A program and its queue -/

/-- A program whose peer gives it back what it sends: its state and the bytes it has yet to receive. -/
structure Loop {β ε : Type} (P : Program β ε) where
  prog : P.State
  queue : List β

namespace Loop

variable {β ε : Type} {P : Program β ε}

/-- What the program can do while the peer is there. -/
inductive Step (errors : List ε) (s : Loop P) : Loop P → Prop
  | send {bytes : List β} {k : ℕ} (hreq : P.request s.prog = .send bytes) (hpos : 0 < k)
      (hle : k ≤ bytes.length) :
      Step errors s ⟨P.resume s.prog (.sent k), s.queue ++ bytes.take k⟩
  | recv {size k : ℕ} (hreq : P.request s.prog = .recv size) (hpos : 0 < k) (hsize : k ≤ size)
      (hle : k ≤ s.queue.length) :
      Step errors s ⟨P.resume s.prog (.received (s.queue.take k)), s.queue.drop k⟩
  | fail {e : ε} (hhalt : P.request s.prog ≠ .halt) (hwork : P.request s.prog ≠ .work) (he : e ∈ errors) :
      Step errors s ⟨P.resume s.prog (.failed e), s.queue⟩
  | work (hreq : P.request s.prog = .work) : Step errors s ⟨P.resume s.prog .done, s.queue⟩

/-- The same one byte at a time, with at most `cap` bytes in the queue and no failure. -/
inductive UnitStep (cap : ℕ) (s : Loop P) : Loop P → Prop
  | send {b : β} {bytes : List β} (hreq : P.request s.prog = .send (b :: bytes))
      (hroom : s.queue.length < cap) : UnitStep cap s ⟨P.resume s.prog (.sent 1), s.queue ++ [b]⟩
  | recv {size : ℕ} {b : β} {queue : List β} (hreq : P.request s.prog = .recv size)
      (hqueue : s.queue = b :: queue) : UnitStep cap s ⟨P.resume s.prog (.received [b]), queue⟩
  | work (hreq : P.request s.prog = .work) : UnitStep cap s ⟨P.resume s.prog .done, s.queue⟩

end Loop

/-! ### Echo servers -/

/-- A program that sends back what it receives: in every state it serves it holds the bytes it has still
to send, and it receives only when there are none. Only the end of the stream makes it halt, while its
calls fail with nothing but `errors`. -/
structure EchoServer (β ε : Type) (errors : List ε) extends Program β ε where
  start : State
  pending : State → List β
  request_ne_work : ∀ s, request s ≠ .work
  recv_pending : ∀ s size, request s = .recv size → pending s = []
  send_pending : ∀ s bytes, request s = .send bytes → pending s = bytes
  received : ∀ s size bytes, request s = .recv size → bytes ≠ [] → bytes.length ≤ size →
    request (resume s (.received bytes)) ≠ .halt ∧ pending (resume s (.received bytes)) = bytes
  sent : ∀ s bytes n, request s = .send bytes → 0 < n → n ≤ bytes.length →
    request (resume s (.sent n)) ≠ .halt ∧ pending (resume s (.sent n)) = bytes.drop n
  failed : ∀ s, request s ≠ .halt → ∀ e ∈ errors,
    request (resume s (.failed e)) ≠ .halt ∧ pending (resume s (.failed e)) = pending s
  closed : ∀ s size, request s = .recv size → pending (resume s (.received [])) = []
  start_serving : request start ≠ .halt
  start_pending : pending start = []

namespace Duplex

variable {β ε : Type} [DecidableEq ε] {P : Program β ε} {link : Link ε}

/-- The left program and the bytes on their way back to it, through the server and both directions. -/
def loop {Q : EchoServer β ε link.errors} (s : Duplex P Q.toProgram) : Loop P :=
  ⟨s.left, s.toLeft ++ (Q.pending s.right ++ s.toRight)⟩

/-- The server leaves only after the left program. -/
def Open {Q : EchoServer β ε link.errors} (s : Duplex P Q.toProgram) : Prop :=
  Q.request s.right = .halt → P.request s.left = .halt

theorem stepLeft_loop {Q : EchoServer β ε link.errors} {s : Duplex P Q.toProgram} (hopen : Open s)
    (c : Choice ε) : Open (stepLeft link s c) ∧
      (loop (stepLeft link s c) = loop s ∨ Loop.Step link.errors (loop s) (loop (stepLeft link s c))) := by
  unfold stepLeft
  split
  · exact ⟨hopen, .inl rfl⟩
  · rename_i x hx
    -- the left program was served, so it has not halted, and neither has the server
    have hserver : Q.request s.right ≠ .halt := by
      intro hhalt
      rw [hopen hhalt] at hx
      simp [call] at hx
    refine ⟨fun hhalt => absurd hhalt hserver, .inr ?_⟩
    rcases call_cases hx with ⟨bytes, k, hreq, hle, hpos, rfl⟩ |
        ⟨size, k, hreq, hsize, hle, hpos, rfl, hclosed⟩ | ⟨e, he, hhalt, hwork, rfl⟩ | ⟨hreq, rfl⟩
    · have hstep : Loop.Step link.errors (loop s)
          ⟨P.resume s.left (.sent k), (loop s).queue ++ bytes.take k⟩ :=
        .send hreq (hpos (P.send_ne_nil _ _ hreq)) hle
      simpa [loop] using hstep
    · have hinbox : s.toLeft ≠ [] := by
        intro hnil
        exact hserver ((Q.halted_iff _).1 (hclosed hnil))
      have hqueue : k ≤ (loop s).queue.length := by
        simp only [loop, List.length_append]
        omega
      have hstep : Loop.Step link.errors (loop s)
          ⟨P.resume s.left (.received ((loop s).queue.take k)), (loop s).queue.drop k⟩ :=
        .recv hreq (hpos (P.recv_pos _ _ hreq) hinbox) hsize hqueue
      simpa [loop, List.take_append_of_le_length hle, List.drop_append_of_le_length hle] using hstep
    · have hstep := Loop.Step.fail (s := loop s) hhalt hwork he
      simpa [loop] using hstep
    · have hstep : Loop.Step link.errors (loop s) ⟨P.resume s.left .done, (loop s).queue⟩ := .work hreq
      simpa [loop] using hstep

theorem stepRight_loop {Q : EchoServer β ε link.errors} {s : Duplex P Q.toProgram} (hopen : Open s)
    (c : Choice ε) : Open (stepRight link s c) ∧ loop (stepRight link s c) = loop s := by
  unfold stepRight
  split
  · exact ⟨hopen, rfl⟩
  · rename_i x hx
    rcases call_cases hx with ⟨bytes, k, hreq, hle, hpos, rfl⟩ |
        ⟨size, k, hreq, hsize, hle, hpos, rfl, hclosed⟩ | ⟨e, he, hhalt, hwork, rfl⟩ | ⟨hreq, rfl⟩
    · obtain ⟨hserving, hpending⟩ := Q.sent _ _ _ hreq (hpos (Q.send_ne_nil _ _ hreq)) hle
      refine ⟨fun hhalt => absurd hhalt hserving, ?_⟩
      simp only [loop, hpending, Q.send_pending _ _ hreq, Loop.mk.injEq, true_and, List.append_assoc]
      rw [← List.append_assoc (bytes.take k), List.take_append_drop]
    · by_cases hinbox : s.toRight = []
      · refine ⟨fun _ => (P.halted_iff _).1 (hclosed hinbox), ?_⟩
        simp [loop, hinbox, Q.closed _ _ hreq, Q.recv_pending _ _ hreq]
      · have hk := hpos (Q.recv_pos _ _ hreq) hinbox
        have hbytes : s.toRight.take k ≠ [] := by
          rw [Ne, List.take_eq_nil_iff]
          rintro (rfl | hnil)
          · exact Nat.lt_irrefl 0 hk
          · exact hinbox hnil
        obtain ⟨hserving, hpending⟩ := Q.received _ _ (s.toRight.take k) hreq hbytes
          (Nat.le_trans (List.length_take_le _ _) hsize)
        refine ⟨fun hhalt => absurd hhalt hserving, ?_⟩
        simp [loop, hpending, Q.recv_pending _ _ hreq]
    · obtain ⟨hserving, hpending⟩ := Q.failed _ hhalt e he
      refine ⟨fun hhalt => absurd hhalt hserving, ?_⟩
      simp [loop, hpending]
    · exact absurd hreq (Q.request_ne_work _)

/-- The state in which two programs meet. -/
def initial (link : Link ε) (Q : EchoServer β ε link.errors) (left : P.State) : Duplex P Q.toProgram :=
  ⟨left, Q.start, [], []⟩

/-- What the left program keeps true of itself and its queue holds in every reachable state. -/
theorem run_loop {Q : EchoServer β ε link.errors} {I : Loop P → Prop}
    (hstep : ∀ s t, I s → Loop.Step link.errors s t → I t) {left : P.State} (hinit : I ⟨left, []⟩)
    (moves : List (Move ε)) : I (loop (run (step link) (initial link Q left) moves)) := by
  have h : Open (run (step link) (initial link Q left) moves) ∧
      I (loop (run (step link) (initial link Q left) moves)) := by
    refine @run_stable _ _ (step link) (fun s => Open s ∧ I (loop s)) ?_ _ ?_ moves
    · intro s m hs
      cases m with
      | left c =>
        obtain ⟨hopen, hloop⟩ := stepLeft_loop hs.1 c
        refine ⟨hopen, ?_⟩
        rcases hloop with hsame | hmove
        · exact hsame ▸ hs.2
        · exact hstep _ _ hs.2 hmove
      | right c =>
        obtain ⟨hopen, hsame⟩ := stepRight_loop hs.1 c
        exact ⟨hopen, hsame ▸ hs.2⟩
    · refine ⟨fun hhalt => absurd hhalt Q.start_serving, ?_⟩
      simpa [loop, initial, Q.start_pending] using hinit
  exact h.2

/-! ### Playing a run of the left program -/

/-- The server is there. -/
def Serving {Q : EchoServer β ε link.errors} (s : Duplex P Q.toProgram) : Prop := Q.request s.right ≠ .halt

omit [DecidableEq ε] in
theorem Serving.open {Q : EchoServer β ε link.errors} {s : Duplex P Q.toProgram} (h : Serving s) : Open s :=
  fun hhalt => absurd hhalt h

/-- The server is there and never holds more than one byte, and the bytes under way have room. -/
structure Trickling {Q : EchoServer β ε link.errors} (s : Duplex P Q.toProgram) : Prop where
  serving : Serving s
  pending_le : (Q.pending s.right).length ≤ 1
  toRight_le : s.toRight.length ≤ link.roomRight
  toLeft_le : s.toLeft.length ≤ link.roomLeft

omit [DecidableEq ε] in
theorem request_of_pending {Q : EchoServer β ε link.errors} {s : Duplex P Q.toProgram} (hs : Serving s)
    (hpending : Q.pending s.right ≠ []) : Q.request s.right = .send (Q.pending s.right) := by
  cases hreq : Q.request s.right with
  | send bytes => rw [Q.send_pending _ _ hreq]
  | recv size => exact absurd (Q.recv_pending _ _ hreq) hpending
  | work => exact absurd hreq (Q.request_ne_work _)
  | halt => exact absurd hreq hs

theorem stepRight_send_one {Q : EchoServer β ε link.errors} {s : Duplex P Q.toProgram} {b : β}
    {bytes : List β} (hs : Trickling s) (hpending : Q.pending s.right = b :: bytes)
    (hroom : s.toLeft.length < link.roomLeft) :
    Trickling (stepRight link s (.go 1)) ∧ (stepRight link s (.go 1)).toLeft = s.toLeft ++ [b] ∧
      (stepRight link s (.go 1)).toRight = s.toRight ∧ Q.pending (stepRight link s (.go 1)).right = [] := by
  have hnil : bytes = [] := by
    have hle := hs.pending_le
    rw [hpending, List.length_cons] at hle
    exact List.length_eq_zero_iff.1 (by omega)
  subst hnil
  have hreq : Q.request s.right = .send [b] := by
    rw [request_of_pending hs.serving (by rw [hpending]; exact List.cons_ne_nil b []), hpending]
  have hcount : link.count 1 (min [b].length (link.roomLeft - s.toLeft.length)) = 1 :=
    link.count_one (by simp only [List.length_cons]; omega)
  have hstep : stepRight link s (.go 1) =
      ⟨s.left, Q.resume s.right (.sent 1), s.toRight, s.toLeft ++ [b]⟩ := by
    unfold stepRight
    rw [hreq]
    simp only [call, if_neg (show ¬ link.roomLeft - s.toLeft.length = 0 by omega), hcount]
    rfl
  obtain ⟨hserving, hsent⟩ := Q.sent _ _ 1 hreq Nat.one_pos (by simp)
  rw [hstep]
  refine ⟨⟨hserving, ?_, hs.toRight_le, ?_⟩, rfl, rfl, hsent⟩
  · rw [hsent]
    exact Nat.zero_le 1
  · rw [List.length_append, List.length_singleton]
    omega

theorem stepRight_recv_one {Q : EchoServer β ε link.errors} {s : Duplex P Q.toProgram} {b : β}
    {bytes : List β} (hs : Trickling s) (hpending : Q.pending s.right = [])
    (htoRight : s.toRight = b :: bytes) :
    Trickling (stepRight link s (.go 1)) ∧ (stepRight link s (.go 1)).toLeft = s.toLeft ∧
      (stepRight link s (.go 1)).toRight = bytes ∧ Q.pending (stepRight link s (.go 1)).right = [b] := by
  obtain ⟨size, hreq⟩ : ∃ size, Q.request s.right = .recv size := by
    cases hreq : Q.request s.right with
    | send bytes' =>
      exact absurd ((Q.send_pending _ _ hreq).symm.trans hpending) (Q.send_ne_nil _ _ hreq)
    | recv size => exact ⟨size, rfl⟩
    | work => exact absurd hreq (Q.request_ne_work _)
    | halt => exact absurd hreq hs.serving
  have hsize := Q.recv_pos _ _ hreq
  have hcount : link.count 1 (min size (b :: bytes).length) = 1 :=
    link.count_one (by simp only [List.length_cons]; omega)
  have hstep : stepRight link s (.go 1) =
      ⟨s.left, Q.resume s.right (.received [b]), bytes, s.toLeft⟩ := by
    unfold stepRight
    rw [hreq, htoRight]
    simp only [call, List.isEmpty_cons, Bool.false_and, hcount]
    simp
  obtain ⟨hserving, hreceived⟩ := Q.received _ _ [b] hreq (by simp) hsize
  have hroom := hs.toRight_le
  rw [htoRight, List.length_cons] at hroom
  rw [hstep]
  refine ⟨⟨hserving, ?_, Nat.le_of_succ_le hroom, hs.toLeft_le⟩, rfl, rfl, hreceived⟩
  rw [hreceived]
  exact Nat.le_refl 1

theorem exists_run_fetch {Q : EchoServer β ε link.errors} (hroom : 0 < link.roomLeft)
    {s : Duplex P Q.toProgram} (hs : Trickling s) {b : β} {queue : List β}
    (hqueue : (loop s).queue = b :: queue) :
    ∃ moves, Trickling (run (step link) s moves) ∧ loop (run (step link) s moves) = loop s ∧
      ∃ rest, (run (step link) s moves).toLeft = b :: rest := by
  by_cases hleft : s.toLeft = []
  · by_cases hpending : Q.pending s.right = []
    · have htoRight : s.toRight = b :: queue := by simpa [loop, hleft, hpending] using hqueue
      obtain ⟨hs₁, hleft₁, -, hpending₁⟩ := stepRight_recv_one hs hpending htoRight
      have hroom₁ : (stepRight link s (.go 1)).toLeft.length < link.roomLeft := by
        rw [hleft₁, hleft]
        exact hroom
      obtain ⟨hs₂, hleft₂, -⟩ := stepRight_send_one hs₁ hpending₁ hroom₁
      refine ⟨[.right (.go 1), .right (.go 1)], hs₂, ?_, [], ?_⟩
      · exact (stepRight_loop hs₁.serving.open _).2.trans (stepRight_loop hs.serving.open _).2
      · rw [hleft₁, hleft] at hleft₂
        exact hleft₂
    · obtain ⟨b', bytes, hpending'⟩ := List.exists_cons_of_ne_nil hpending
      have hb : b' = b := by simp_all [loop]
      obtain ⟨hs₁, hleft₁, -⟩ := stepRight_send_one hs hpending' (by rw [hleft]; exact hroom)
      refine ⟨[.right (.go 1)], hs₁, (stepRight_loop hs.serving.open _).2, [], ?_⟩
      rw [hleft, hb] at hleft₁
      exact hleft₁
  · obtain ⟨b', bytes, hleft'⟩ := List.exists_cons_of_ne_nil hleft
    have hb : b' = b := by simp_all [loop]
    exact ⟨[], hs, rfl, bytes, hb ▸ hleft'⟩

theorem exists_run_room {Q : EchoServer β ε link.errors} (hroom : 0 < link.roomRight)
    {s : Duplex P Q.toProgram} (hs : Trickling s)
    (hqueue : (loop s).queue.length ≤ link.roomRight + link.roomLeft) :
    ∃ moves, Trickling (run (step link) s moves) ∧ loop (run (step link) s moves) = loop s ∧
      (run (step link) s moves).toRight.length < link.roomRight := by
  by_cases hfree : s.toRight.length < link.roomRight
  · exact ⟨[], hs, rfl, hfree⟩
  have hright := hs.toRight_le
  obtain ⟨b, bytes, htoRight⟩ := List.exists_cons_of_ne_nil (List.length_pos_iff.1
    (show 0 < s.toRight.length by omega))
  have hbytes : bytes.length < link.roomRight := by
    rw [htoRight, List.length_cons] at hright
    omega
  by_cases hpending : Q.pending s.right = []
  · obtain ⟨hs₁, -, hright₁, -⟩ := stepRight_recv_one hs hpending htoRight
    refine ⟨[.right (.go 1)], hs₁, (stepRight_loop hs.serving.open _).2, ?_⟩
    change (stepRight link s (.go 1)).toRight.length < _
    rwa [hright₁]
  · -- the byte it holds has to go first
    obtain ⟨b', bytes', hpending'⟩ := List.exists_cons_of_ne_nil hpending
    have hleft : s.toLeft.length < link.roomLeft := by
      simp only [loop, List.length_append, hpending', List.length_cons] at hqueue
      omega
    obtain ⟨hs₁, -, hright₁, hpending₁⟩ := stepRight_send_one hs hpending' hleft
    obtain ⟨hs₂, -, hright₂, -⟩ := stepRight_recv_one hs₁ hpending₁ (hright₁.trans htoRight)
    refine ⟨[.right (.go 1), .right (.go 1)], hs₂, ?_, ?_⟩
    · exact (stepRight_loop hs₁.serving.open _).2.trans (stepRight_loop hs.serving.open _).2
    · change (stepRight link (stepRight link s (.go 1)) (.go 1)).toRight.length < _
      rwa [hright₂]

theorem stepLeft_send_one {Q : EchoServer β ε link.errors} {s : Duplex P Q.toProgram} {b : β} {bytes : List β}
    (hs : Trickling s) (hreq : P.request s.left = .send (b :: bytes))
    (hroom : s.toRight.length < link.roomRight) :
    Trickling (stepLeft link s (.go 1)) ∧
      loop (stepLeft link s (.go 1)) = ⟨P.resume s.left (.sent 1), (loop s).queue ++ [b]⟩ := by
  have hcount : link.count 1 (min (b :: bytes).length (link.roomRight - s.toRight.length)) = 1 :=
    link.count_one (by simp only [List.length_cons]; omega)
  have hstep : stepLeft link s (.go 1) =
      ⟨P.resume s.left (.sent 1), s.right, s.toRight ++ [b], s.toLeft⟩ := by
    unfold stepLeft
    rw [hreq]
    simp only [call, if_neg (show ¬ link.roomRight - s.toRight.length = 0 by omega), hcount]
    rfl
  rw [hstep]
  refine ⟨⟨hs.serving, hs.pending_le, ?_, hs.toLeft_le⟩, by simp [loop]⟩
  rw [List.length_append, List.length_singleton]
  omega

theorem stepLeft_recv_one {Q : EchoServer β ε link.errors} {s : Duplex P Q.toProgram} {b : β}
    {rest queue : List β} {size : ℕ} (hs : Trickling s) (hreq : P.request s.left = .recv size)
    (hleft : s.toLeft = b :: rest) (hqueue : (loop s).queue = b :: queue) :
    Trickling (stepLeft link s (.go 1)) ∧
      loop (stepLeft link s (.go 1)) = ⟨P.resume s.left (.received [b]), queue⟩ := by
  have hsize := P.recv_pos _ _ hreq
  have hcount : link.count 1 (min size (b :: rest).length) = 1 :=
    link.count_one (by simp only [List.length_cons]; omega)
  have hstep : stepLeft link s (.go 1) =
      ⟨P.resume s.left (.received [b]), s.right, s.toRight, rest⟩ := by
    unfold stepLeft
    rw [hreq, hleft]
    simp only [call, List.isEmpty_cons, Bool.false_and, hcount]
    simp
  have hle := hs.toLeft_le
  rw [hleft, List.length_cons] at hle
  simp only [loop, hleft, List.cons_append, List.cons.injEq, true_and] at hqueue
  rw [hstep]
  refine ⟨⟨hs.serving, hs.pending_le, hs.toRight_le, Nat.le_of_succ_le hle⟩, ?_⟩
  simp only [loop, hqueue]

theorem stepLeft_work {Q : EchoServer β ε link.errors} {s : Duplex P Q.toProgram} (hs : Trickling s)
    (hreq : P.request s.left = .work) :
    Trickling (stepLeft link s (.go 1)) ∧
      loop (stepLeft link s (.go 1)) = ⟨P.resume s.left .done, (loop s).queue⟩ := by
  have hstep : stepLeft link s (.go 1) = ⟨P.resume s.left .done, s.right, s.toRight, s.toLeft⟩ := by
    unfold stepLeft
    rw [hreq]
    simp [call]
  rw [hstep]
  exact ⟨⟨hs.serving, hs.pending_le, hs.toRight_le, hs.toLeft_le⟩, rfl⟩

/-- A step of the left program on its queue, one byte at most, can be played by the two. The queue can be as
long as both directions together and the byte in the server. -/
theorem exists_run_unitStep {Q : EchoServer β ε link.errors} {cap : ℕ}
    (hcap : cap ≤ link.roomRight + link.roomLeft + 1) (hright : 0 < cap → 0 < link.roomRight)
    (hroom : 0 < link.roomLeft) {s : Duplex P Q.toProgram} (hs : Trickling s) {t : Loop P}
    (h : Loop.UnitStep cap (loop s) t) :
    ∃ moves, Trickling (run (step link) s moves) ∧ loop (run (step link) s moves) = t := by
  -- the moves that bring the byte or make room for it, and then the step itself
  have hlast : ∀ moves, Trickling (stepLeft link (run (step link) s moves) (.go 1)) ∧
        loop (stepLeft link (run (step link) s moves) (.go 1)) = t →
      ∃ moves, Trickling (run (step link) s moves) ∧ loop (run (step link) s moves) = t := by
    intro moves hend
    refine ⟨moves ++ [.left (.go 1)], ?_⟩
    rw [run_append]
    exact hend
  cases h with
  | @send b bytes hreq hlen =>
    obtain ⟨moves, hs₁, hloop, hfree⟩ := exists_run_room (hright (by omega)) hs (by omega)
    have hprog : (run (step link) s moves).left = s.left := congrArg Loop.prog hloop
    apply hlast moves
    rw [show (loop s).prog = (run (step link) s moves).left from hprog.symm, ← hloop]
    apply stepLeft_send_one hs₁ _ hfree
    · exact bytes
    · rw [hprog]
      exact hreq
  | @recv size b queue hreq hqueue =>
    obtain ⟨moves, hs₁, hloop, rest, hleft⟩ := exists_run_fetch hroom hs hqueue
    have hprog : (run (step link) s moves).left = s.left := congrArg Loop.prog hloop
    apply hlast moves
    rw [show (loop s).prog = (run (step link) s moves).left from hprog.symm]
    apply stepLeft_recv_one hs₁ _ hleft
    · rw [hloop, hqueue]
    · exact size
    · rw [hprog]
      exact hreq
  | work hreq => exact ⟨[.left (.go 1)], stepLeft_work hs hreq⟩

theorem exists_run_trickling {Q : EchoServer β ε link.errors} {cap : ℕ}
    (hcap : cap ≤ link.roomRight + link.roomLeft + 1) (hright : 0 < cap → 0 < link.roomRight)
    (hroom : 0 < link.roomLeft) {left : P.State} {t : Loop P}
    (h : Relation.ReflTransGen (Loop.UnitStep cap) ⟨left, []⟩ t) :
    ∃ moves, Trickling (run (step link) (initial link Q left) moves) ∧
      loop (run (step link) (initial link Q left) moves) = t := by
  induction h with
  | refl =>
    refine ⟨[], ⟨Q.start_serving, ?_, Nat.zero_le _, Nat.zero_le _⟩, ?_⟩
    · show (Q.pending Q.start).length ≤ 1
      rw [Q.start_pending]
      exact Nat.zero_le 1
    · simp [run, loop, initial, Q.start_pending]
  | tail _ hstep ih =>
    obtain ⟨moves, hs, hloop⟩ := ih
    obtain ⟨moves', hs', hloop'⟩ := exists_run_unitStep hcap hright hroom hs (hloop ▸ hstep)
    refine ⟨moves ++ moves', ?_, ?_⟩
    · rwa [run_append]
    · rwa [run_append]

theorem exists_run {Q : EchoServer β ε link.errors} {cap : ℕ} (hcap : cap ≤ link.roomRight)
    (hroom : 0 < link.roomLeft) {left : P.State} {t : Loop P}
    (h : Relation.ReflTransGen (Loop.UnitStep cap) ⟨left, []⟩ t) :
    ∃ moves, Serving (run (step link) (initial link Q left) moves) ∧
      loop (run (step link) (initial link Q left) moves) = t := by
  obtain ⟨moves, hs, hloop⟩ := exists_run_trickling (show cap ≤ link.roomRight + link.roomLeft + 1 by omega)
    (fun hpos => by omega) hroom h
  exact ⟨moves, hs.serving, hloop⟩

/-! ### Both sending -/

/-- Both programs send, and there is no room for their bytes in either direction. -/
structure BothBlocked (link : Link ε) {Q : Program β ε} (s : Duplex P Q) : Prop where
  left_sends : ∃ bytes, P.request s.left = .send bytes
  right_sends : ∃ bytes, Q.request s.right = .send bytes
  toRight_full : link.roomRight ≤ s.toRight.length
  toLeft_full : link.roomLeft ≤ s.toLeft.length

section

omit [DecidableEq ε]

variable {Q : EchoServer β ε link.errors} {s : Duplex P Q.toProgram}

theorem BothBlocked.lt_queue (h : BothBlocked link s) :
    link.roomRight + link.roomLeft < (loop s).queue.length := by
  obtain ⟨bytes, hreq⟩ := h.right_sends
  have hpos : 0 < (Q.pending s.right).length := by
    rw [Q.send_pending _ _ hreq]
    exact List.length_pos_iff.2 (Q.send_ne_nil _ _ hreq)
  have hright := h.toRight_full
  have hleft := h.toLeft_full
  simp only [loop, List.length_append]
  omega

theorem Trickling.bothBlocked (hs : Trickling s) {bytes : List β} (hreq : P.request s.left = .send bytes)
    (hqueue : link.roomRight + link.roomLeft < (loop s).queue.length) : BothBlocked link s := by
  have hpending := hs.pending_le
  have hright := hs.toRight_le
  have hleft := hs.toLeft_le
  simp only [loop, List.length_append] at hqueue
  have hne : Q.pending s.right ≠ [] := by
    apply List.length_pos_iff.1
    omega
  exact ⟨⟨bytes, hreq⟩, ⟨_, request_of_pending hs.serving hne⟩, by omega, by omega⟩

end

end Duplex

end NetProg.Lib
