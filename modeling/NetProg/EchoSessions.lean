import NetProg.EchoRuns
import NetProg.Lib.Completion

/-!
# Echo sessions

A line client and an echo server in any language, up to the end of the session. What the session has still to do is
counted by `todo`, where a byte counts for more the further it is from the client's output: in the input, in
`SendAll`, on its way to the server, in the server, on its way back, in the buffer of the reader. Every call that is
not interrupted makes that less. Where both sides are blocked the session is through, or the client has its piece back
and waits for more of it (`Smooth.end_of_blocked`), and one of the two is what every run comes to that neglects neither
side (`Smooth.ends`).

Which of the two it is depends on the input only. If the reader stops at the end of each piece, it is the first
(`Smooth.completes`). If not, a piece at whose end it does not stop is still to come or under way in every state
(`Unfinished`), and it is the second (`Smooth.hangs`).
-/

namespace NetProg
open Lib (Choice Duplex Link Move run stateAt EchoServer)
open Lib.Duplex (Fair Advances step stepLeft stepRight callLeft callRight Open)
open Conn

namespace EchoSession

/-! ### What there is to do -/

/-- The steps that a client has before it in its round. -/
def phase : LineClient.Pc → ℕ
  | .sendAll _ => 4
  | .readline _ => 3
  | .reply => 2
  | .top => 1
  | _ => 0

/-- The bytes that `SendAll` has yet to send. -/
def unsent : LineClient.Pc → Bytes
  | .sendAll ptr => ptr
  | _ => []

/-- Twenty are enough for a byte of the input, even if the client adds a newline to it. -/
def clientTodo (s : LineClient.State) : ℕ :=
  20 * s.input.length + 5 * (unsent s.pc).length + phase s.pc + s.unread.length

/-- Three moves for a byte the server still has, and one for the end of the stream. -/
def serverTodo (s : Echo.State) : ℕ := 3 * (Echo.pending s).length + if s = .returned then 0 else 1

section

variable {c : LineClient} {v : Language}

/-- The moves that the whole session can still make, counting what is under way. -/
def todo (s : Duplex c.program (Echo.server v)) : ℕ :=
  clientTodo s.left + 4 * s.toRight.length + serverTodo s.right + 2 * s.toLeft.length

/-- The bytes on their way back to the client. -/
def queue (s : Duplex c.program (Echo.server v)) : Bytes := s.toLeft ++ (Echo.pending s.right ++ s.toRight)

end

/-- A piece is taken off the beginning of the input, and may get a newline. -/
def Shrinks (c : LineClient) : Prop :=
  ∀ input sendline rest, c.next input = some (sendline, rest) →
    rest.length < input.length ∧ sendline.length + rest.length ≤ input.length + 1

theorem clientTodo_work {c : LineClient} (hshrinks : Shrinks c) {s : LineClient.State} (hended : s.ended = false)
    (h : c.request s = .work) : clientTodo (c.work s) < clientTodo s := by
  obtain ⟨input, stdout, unread, recvline, ended, pc⟩ := s
  obtain rfl : ended = false := hended
  rcases LineClient.request_work h with hpc | hpc | ⟨line, hpc, hunread⟩ | hpc <;> (simp only at hpc; subst hpc)
  · simp only [LineClient.work]
    split
    · simp [clientTodo, unsent, phase]
    · rename_i sendline rest hnext
      have hless := hshrinks input sendline rest hnext
      simp only [clientTodo, unsent, phase, List.length_nil]
      omega
  · simp [LineClient.work, clientTodo, unsent, phase]
  · obtain ⟨ch, unread, rfl⟩ := List.exists_cons_of_ne_nil hunread
    simp only [LineClient.work]
    split <;>
      · simp only [clientTodo, unsent, phase, List.length_cons, List.length_nil]
        omega
  · simp only [LineClient.work]
    split <;> simp [clientTodo, unsent, phase]

theorem work_pc {c : LineClient} {s : LineClient.State} (h : c.request s = .work) :
    (∀ ec, (c.work s).pc ≠ .failed ec) ∧
      ((c.work s).pc = .returned → s.pc = .top ∧ c.next s.input = none ∧ (c.work s).input = s.input) := by
  obtain ⟨input, stdout, unread, recvline, ended, pc⟩ := s
  rcases LineClient.request_work h with hpc | hpc | ⟨line, hpc, hunread⟩ | hpc <;> (simp only at hpc; subst hpc)
  · simp only [LineClient.work]
    cases hnext : c.next input <;> simp
  · cases ended <;> simp [LineClient.work]
  · obtain ⟨ch, unread, rfl⟩ := List.exists_cons_of_ne_nil hunread
    simp only [LineClient.work]
    split <;> simp
  · simp only [LineClient.work]
    split <;> simp

/-! ### Going on -/

variable {c : LineClient} {v : Language} {link : Link Errno} {input : Bytes}

/-- The client gets its pieces back whole, there is room for them, and what fails is tried again. -/
structure Smooth (c : LineClient) (v : Language) (link : Link Errno) (input : Bytes) : Prop where
  roomRight : 0 < link.roomRight
  roomLeft : 0 < link.roomLeft
  whole : c.AllWhole input
  room : ∀ stdout i sendline rest, c.Rounds input stdout i → c.next i = some (sendline, rest) →
    sendline.length ≤ link.roomRight + link.roomLeft + 1
  shrinks : Shrinks c
  errors : ∀ e ∈ link.errors, e = .EINTR ∧ Echo.again v e = true ∧ c.onError e = .again

/-- Neither side has failed, and none leaves before it is through. -/
structure Going (input : Bytes) (s : Duplex c.program (Echo.server v)) : Prop where
  inv : c.Inv input s.left (queue s)
  client : ∀ ec, LineClient.State.pc s.left ≠ .failed ec
  server : ∀ ec, s.right ≠ .failed ec
  through : LineClient.State.pc s.left = .returned → c.next (LineClient.State.input s.left) = none ∧ queue s = []
  stays : (Echo.server v).request s.right = .halt → c.program.request s.left = .halt

/-- The client has its piece back and waits for more of it, and the server waits for the client. -/
structure Hanging (input : Bytes) (s : Duplex c.program (Echo.server v)) : Prop where
  client : ∃ line i, LineClient.State.pc s.left = .readline line ∧ c.full line = false ∧
    c.Rounds input (LineClient.State.stdout s.left) i ∧ c.next i = some (line, LineClient.State.input s.left)
  unread : LineClient.State.unread s.left = []
  server : s.right = .serving []
  toRight : s.toRight = []
  toLeft : s.toLeft = []

/-- Both have returned, and all of the input has been printed. -/
structure Through (input : Bytes) (s : Duplex c.program (Echo.server v)) : Prop where
  client : LineClient.State.pc s.left = .returned
  server : s.right = .returned
  toRight : s.toRight = []
  toLeft : s.toLeft = []
  rounds : c.Rounds input (LineClient.State.stdout s.left) (LineClient.State.input s.left)
  next : c.next (LineClient.State.input s.left) = none

variable {s : Duplex c.program (Echo.server v)}

theorem Going.returned (h : Going input s) (halt : c.program.request s.left = .halt) :
    LineClient.State.pc s.left = .returned := by
  have hrequest : c.request s.left = .halt := halt
  unfold LineClient.request at hrequest
  split at hrequest
  · cases hrequest
  · split at hrequest <;> cases hrequest
  · assumption
  · exact absurd ‹_› h.inv.ne_terminated
  · exact absurd ‹_› (h.client _)
  · cases hrequest

theorem Going.server_returned (h : Going input s) (halt : (Echo.server v).request s.right = .halt) :
    s.right = .returned := by
  have hserver := h.server
  generalize s.right = server at halt hserver ⊢
  cases server with
  | serving ptr => exact absurd halt (Echo.request_serving_ne_halt 1024 ptr)
  | returned => rfl
  | failed ec => exact absurd rfl (hserver ec)

/-- The server among the echo servers. -/
def server (h : Smooth c v link input) : EchoServer UInt8 Errno link.errors :=
  echoServer 1024 echoSize_pos (Echo.again v) link.errors fun e he => ⟨(h.errors e he).1, (h.errors e he).2.1⟩

theorem Smooth.not_endOfStream (h : Smooth c v link input) : ∀ e ∈ link.errors, c.onError e ≠ .endOfStream := by
  intro e he
  rw [(h.errors e he).2.2]
  decide

/-! ### The moves of the client -/

theorem resume_eintr (hagain : c.onError .EINTR = .again) (s : LineClient.State) :
    c.resume s (.failed .EINTR) = s := by
  obtain ⟨input, stdout, unread, recvline, ended, pc⟩ := s
  cases pc <;> simp [LineClient.resume, hagain]

theorem Smooth.stepLeft_fail (h : Smooth c v link input) (e : Errno) : stepLeft link s (.fail e) = s := by
  apply Lib.Duplex.stepLeft_fail
  intro he _
  obtain ⟨rfl, -, hagain⟩ := h.errors e he
  exact resume_eintr hagain s.left

theorem Smooth.inv_stepLeft (h : Smooth c v link input) (hg : Going input s) (ch : Choice Errno) :
    c.Inv input (stepLeft link s ch).left (queue (stepLeft link s ch)) ∧
      ((Echo.server v).request (stepLeft link s ch).right = .halt →
        c.program.request (stepLeft link s ch).left = .halt) := by
  have hopen : @Open _ _ _ link (server h) s := hg.stays
  obtain ⟨hopen', hloop⟩ := @Lib.Duplex.stepLeft_loop _ _ _ c.program link (server h) s hopen ch
  refine ⟨?_, hopen'⟩
  rcases hloop with hsame | hstep
  · have hleft : (stepLeft link s ch).left = s.left := congrArg Lib.Loop.prog hsame
    have hqueue : queue (stepLeft link s ch) = queue s := congrArg Lib.Loop.queue hsame
    rw [hleft, hqueue]
    exact hg.inv
  · exact LineClient.inv_step h.whole h.not_endOfStream hg.inv hstep

theorem Smooth.say (h : Smooth c v link input) (hg : Going input s) {n k : ℕ} {bytes : Bytes}
    (hcall : callLeft link s (.go n) = some ⟨.sent k, bytes.take k, s.toLeft⟩)
    (hreq : c.request s.left = .send bytes) (hpos : 0 < k) (hle : k ≤ bytes.length) :
    Going input (stepLeft link s (.go n)) ∧ todo (stepLeft link s (.go n)) < todo s := by
  obtain ⟨hinv, hstays⟩ := h.inv_stepLeft hg (.go n)
  obtain ⟨hpc, -⟩ := LineClient.request_send hreq
  have hleft : c.resume s.left (.sent k) = { s.left with pc := .sendAll (bytes.drop k) } := by
    simp only [LineClient.resume, hpc, if_neg hpos.ne']
  have hstep : stepLeft link s (.go n) =
      ⟨{ s.left with pc := .sendAll (bytes.drop k) }, s.right, s.toRight ++ bytes.take k, s.toLeft⟩ := by
    rw [Lib.Duplex.stepLeft_some hcall]
    exact congrArg (fun left => Duplex.mk left s.right (s.toRight ++ bytes.take k) s.toLeft) hleft
  rw [hstep] at hinv hstays ⊢
  refine ⟨⟨hinv, by simp, hg.server, by simp, hstays⟩, ?_⟩
  simp only [todo, clientTodo, hpc, unsent, phase, List.length_append, List.length_take, List.length_drop]
  omega

theorem Smooth.hear (h : Smooth c v link input) (hg : Going input s) {n k size : ℕ}
    (hcall : callLeft link s (.go n) = some ⟨.received (s.toLeft.take k), [], s.toLeft.drop k⟩)
    (hreq : c.request s.left = .recv size) (hpos : 0 < k) (hle : k ≤ s.toLeft.length) :
    Going input (stepLeft link s (.go n)) ∧ todo (stepLeft link s (.go n)) < todo s := by
  obtain ⟨hinv, hstays⟩ := h.inv_stepLeft hg (.go n)
  obtain ⟨line, hpc, hunread, -⟩ := LineClient.request_recv hreq
  have hlen : (s.toLeft.take k).length = k := List.length_take_of_le hle
  have hne : s.toLeft.take k ≠ [] := by
    apply List.ne_nil_of_length_pos
    rwa [hlen]
  have hleft : c.resume s.left (.received (s.toLeft.take k)) =
      { (s.left : LineClient.State) with unread := s.toLeft.take k } := by
    simp only [LineClient.resume, hpc, if_neg hne]
  have hstep : stepLeft link s (.go n) =
      ⟨{ (s.left : LineClient.State) with unread := s.toLeft.take k }, s.right, s.toRight, s.toLeft.drop k⟩ := by
    rw [Lib.Duplex.stepLeft_some hcall, List.append_nil]
    exact congrArg (fun left => Duplex.mk left s.right s.toRight (s.toLeft.drop k)) hleft
  rw [hstep] at hinv hstays ⊢
  refine ⟨⟨hinv, hg.client, hg.server, fun hreturned => ?_, hstays⟩, ?_⟩
  · cases hpc.symm.trans hreturned
  · simp only [todo, clientTodo, hunread, hlen, List.length_drop, List.length_nil]
    omega

theorem Smooth.work (h : Smooth c v link input) (hg : Going input s) {n : ℕ}
    (hcall : callLeft link s (.go n) = some ⟨.done, [], s.toLeft⟩) (hreq : c.request s.left = .work) :
    Going input (stepLeft link s (.go n)) ∧ todo (stepLeft link s (.go n)) < todo s := by
  obtain ⟨hinv, hstays⟩ := h.inv_stepLeft hg (.go n)
  have hstep : stepLeft link s (.go n) = ⟨c.work s.left, s.right, s.toRight, s.toLeft⟩ := by
    rw [Lib.Duplex.stepLeft_some hcall, List.append_nil]
    rfl
  rw [hstep] at hinv hstays ⊢
  have hless := clientTodo_work h.shrinks hg.inv.1 hreq
  refine ⟨⟨hinv, ?_, hg.server, ?_, hstays⟩, ?_⟩
  · exact (work_pc hreq).1
  · intro hreturned
    obtain ⟨htop, hnext, hinput⟩ := (work_pc hreq).2 hreturned
    have hinv' := hg.inv.2
    simp only [htop] at hinv'
    exact ⟨hinput ▸ hnext, hinv'.2.2⟩
  · simp only [todo]
    omega

theorem Smooth.stepLeft (h : Smooth c v link input) (hg : Going input s) (ch : Choice Errno) :
    (stepLeft link s ch = s ∧ ((∃ e, ch = .fail e) ∨ callLeft link s ch = none)) ∨
      Going input (stepLeft link s ch) ∧ todo (stepLeft link s ch) < todo s := by
  cases ch with
  | fail e => exact .inl ⟨h.stepLeft_fail e, .inl ⟨e, rfl⟩⟩
  | go n =>
    cases hcall : callLeft link s (.go n) with
    | none => exact .inl ⟨Lib.Duplex.stepLeft_none hcall, .inr rfl⟩
    | some x =>
      right
      rcases Lib.Duplex.call_go_cases hcall with ⟨bytes, k, hreq, hle, hpos, rfl⟩ |
          ⟨size, k, hreq, -, hle, hpos, rfl, hclosed⟩ | ⟨hreq, rfl⟩
      · exact h.say hg hcall hreq (hpos (c.program.send_ne_nil _ _ hreq)) hle
      · -- the server stays as long as the client waits
        have hinbox : s.toLeft ≠ [] := by
          intro hnil
          have halt := hg.stays (((Echo.server v).halted_iff _).1 (hclosed hnil))
          rw [halt] at hreq
          cases hreq
        exact h.hear hg hcall hreq (hpos (c.program.recv_pos _ _ hreq) hinbox) hle
      · exact h.work hg hcall hreq

/-! ### The moves of the server -/

theorem Smooth.inv_stepRight (h : Smooth c v link input) (hg : Going input s) (ch : Choice Errno) :
    queue (stepRight link s ch) = queue s ∧
      ((Echo.server v).request (stepRight link s ch).right = .halt → c.program.request s.left = .halt) := by
  have hopen : @Open _ _ _ link (server h) s := hg.stays
  obtain ⟨hopen', hloop⟩ := @Lib.Duplex.stepRight_loop _ _ _ c.program link (server h) s hopen ch
  have hleft : (stepRight link s ch).left = s.left := congrArg Lib.Loop.prog hloop
  exact ⟨congrArg Lib.Loop.queue hloop, fun halt => hleft ▸ hopen' halt⟩

theorem Smooth.moved (h : Smooth c v link input) (hg : Going input s) {ch : Choice Errno} {right : Echo.State}
    {toRight toLeft : Bytes} (hstep : stepRight link s ch = ⟨s.left, right, toRight, toLeft⟩)
    (hserver : ∀ ec, right ≠ .failed ec)
    (hless : 4 * toRight.length + serverTodo right + 2 * toLeft.length <
      4 * s.toRight.length + serverTodo s.right + 2 * s.toLeft.length) :
    Going input (stepRight link s ch) ∧ todo (stepRight link s ch) < todo s := by
  obtain ⟨hqueue, hstays⟩ := h.inv_stepRight hg ch
  rw [hstep] at hqueue hstays ⊢
  refine ⟨⟨?_, hg.client, hserver, ?_, hstays⟩, ?_⟩
  · rw [hqueue]
    exact hg.inv
  · intro hreturned
    rw [hqueue]
    exact hg.through hreturned
  · simp only [todo]
    omega

theorem Smooth.stepRight_fail (h : Smooth c v link input) (e : Errno) : stepRight link s (.fail e) = s := by
  apply Lib.Duplex.stepRight_fail
  intro he _
  obtain ⟨rfl, hagain, -⟩ := h.errors e he
  show Echo.resume (Echo.again v) s.right (.failed .EINTR) = s.right
  generalize s.right = right
  rcases right with ⟨_ | _⟩ | _ | _ <;> simp [Echo.resume, hagain]

theorem Smooth.stepRight (h : Smooth c v link input) (hg : Going input s) (ch : Choice Errno) :
    (stepRight link s ch = s ∧ ((∃ e, ch = .fail e) ∨ callRight link s ch = none)) ∨
      Going input (stepRight link s ch) ∧ todo (stepRight link s ch) < todo s := by
  cases ch with
  | fail e => exact .inl ⟨h.stepRight_fail e, .inl ⟨e, rfl⟩⟩
  | go n =>
    cases hcall : callRight link s (.go n) with
    | none => exact .inl ⟨Lib.Duplex.stepRight_none hcall, .inr rfl⟩
    | some x =>
      right
      have hstep := Lib.Duplex.stepRight_some hcall
      rcases Lib.Duplex.call_go_cases hcall with ⟨bytes, k, hreq, hle, hpos, rfl⟩ |
          ⟨size, k, hreq, -, hle, hpos, rfl, hclosed⟩ | ⟨hreq, rfl⟩
      · -- it sends back
        obtain ⟨hright, hne⟩ := Echo.request_send hreq
        have hk := hpos hne
        have hresume : (Echo.server v).resume s.right (.sent k) = .serving (bytes.drop k) := by
          show Echo.resume (Echo.again v) s.right (.sent k) = _
          rw [hright, Echo.resume, if_neg hk.ne']
        rw [hresume] at hstep
        refine h.moved hg hstep (by simp) ?_
        simp only [hright, serverTodo, Echo.pending, List.length_append, List.length_take, List.length_drop,
          reduceCtorEq, if_false]
        omega
      · obtain ⟨hright, -⟩ := Echo.request_recv hreq
        by_cases hinbox : s.toRight = []
        · -- it meets the end of the stream
          have hresume : (Echo.server v).resume s.right (.received (s.toRight.take k)) = .returned := by
            show Echo.resume (Echo.again v) s.right (.received (s.toRight.take k)) = _
            rw [hright, hinbox, List.take_nil]
            rfl
          rw [hresume] at hstep
          refine h.moved hg hstep (by simp) ?_
          simp [hright, hinbox, serverTodo, Echo.pending]
        · -- it receives
          have hlen : (s.toRight.take k).length = k := List.length_take_of_le hle
          have hk := hpos ((Echo.server v).recv_pos _ _ hreq) hinbox
          have hne : s.toRight.take k ≠ [] := by
            apply List.ne_nil_of_length_pos
            rwa [hlen]
          have hresume : (Echo.server v).resume s.right (.received (s.toRight.take k)) =
              .serving (s.toRight.take k) := by
            rw [hright]
            exact resume_received hne
          rw [hresume] at hstep
          refine h.moved hg hstep (by simp) ?_
          simp only [hright, serverTodo, Echo.pending, hlen, List.append_nil, List.length_drop, List.length_nil,
            reduceCtorEq, if_false]
          omega
      · exact absurd hreq ((server h).request_ne_work _)

/-! ### Where it ends -/

/-- Where both sides are blocked the session is through, or the client waits for the server and the server for the
client. -/
theorem Smooth.end_of_blocked (h : Smooth c v link input) (hg : Going input s) {n m : ℕ}
    (hleft : callLeft link s (.go n) = none) (hright : callRight link s (.go m) = none) :
    Through input s ∨ Hanging input s := by
  have hroomRight := h.roomRight
  have hroomLeft := h.roomLeft
  rcases Lib.Duplex.call_go_eq_none hleft with halt | ⟨bytes, hreq, hfree⟩ | ⟨size, hreq, toLeft, hopen⟩
  · -- the client has returned
    left
    have hreturned := hg.returned halt
    obtain ⟨hnext, hqueue⟩ := hg.through hreturned
    obtain ⟨toLeft, hrest⟩ := List.append_eq_nil_iff.1 hqueue
    obtain ⟨hpending, toRight⟩ := List.append_eq_nil_iff.1 hrest
    rcases Lib.Duplex.call_go_eq_none hright with halt' | ⟨bytes, hreq, -⟩ | ⟨size, -, -, hopen⟩
    · have hrounds := hg.inv.2
      simp only [hreturned] at hrounds
      exact ⟨hreturned, hg.server_returned halt', toRight, toLeft, hrounds, hnext⟩
    · obtain ⟨hserving, hne⟩ := Echo.request_send hreq
      rw [hserving] at hpending
      exact absurd hpending hne
    · rw [(c.program.halted_iff _).2 halt] at hopen
      cases hopen
  · -- the client is blocked in `SendAll`
    obtain ⟨hpc, hne⟩ := LineClient.request_send hreq
    have hpos := List.length_pos_iff.2 hne
    rcases Lib.Duplex.call_go_eq_none hright with halt' | ⟨bytes', hreq', hfree'⟩ | ⟨size, -, toRight, -⟩
    · have halt : c.program.request s.left = .halt := hg.stays halt'
      rw [halt] at hreq
      cases hreq
    · obtain ⟨hserving, hne'⟩ := Echo.request_send hreq'
      have hpos' := List.length_pos_iff.2 hne'
      have hinv := hg.inv.2
      simp only [hpc] at hinv
      obtain ⟨-, i, hrounds, hnext⟩ := hinv
      have hle := h.room _ _ _ _ hrounds hnext
      simp only [queue, hserving, Echo.pending, List.length_append] at hle
      omega
    · rw [toRight, List.length_nil] at hfree
      omega
  · -- the client waits in its reader
    right
    rcases Lib.Duplex.call_go_eq_none hright with halt' | ⟨bytes', -, hfree'⟩ | ⟨size', hreq', toRight, -⟩
    · rw [((Echo.server v).halted_iff _).2 halt'] at hopen
      cases hopen
    · rw [toLeft, List.length_nil] at hfree'
      omega
    · obtain ⟨hserving, -⟩ := Echo.request_recv hreq'
      obtain ⟨line, hpc, hunread, -⟩ := LineClient.request_recv hreq
      have hinv := hg.inv.2
      simp only [hpc, hunread, queue, toLeft, hserving, toRight, Echo.pending, List.append_nil] at hinv
      obtain ⟨hline, i, hrounds, hnext⟩ := hinv
      exact ⟨⟨line, i, hpc, hline, hrounds, hnext⟩, hunread, hserving, toRight, toLeft⟩

theorem Through.step (hs : Through input s) (move : Move Errno) : step link s move = s := by
  cases move with
  | left ch =>
    apply Lib.Duplex.stepLeft_of_halt
    show c.request s.left = .halt
    simp only [LineClient.request, hs.client]
  | right ch =>
    apply Lib.Duplex.stepRight_of_halt
    rw [hs.server]
    rfl

theorem Hanging.step (hs : Hanging input s) (h : Smooth c v link input) (move : Move Errno) :
    step link s move = s := by
  obtain ⟨line, i, hpc, -⟩ := hs.client
  have hclient : c.program.request s.left = .recv c.size := by
    show c.request s.left = .recv c.size
    simp only [LineClient.request, hpc, hs.unread, if_true]
  have hserver : (Echo.server v).request s.right = .recv 1024 := by
    rw [hs.server]
    rfl
  cases move with
  | left ch =>
    cases ch with
    | fail e => exact h.stepLeft_fail e
    | go n =>
      apply Lib.Duplex.stepLeft_waits hclient _ hs.toLeft
      simp only [Lib.Program.halted, hserver]
  | right ch =>
    cases ch with
    | fail e => exact h.stepRight_fail e
    | go n =>
      apply Lib.Duplex.stepRight_waits hserver _ hs.toRight
      simp only [Lib.Program.halted, hclient]

theorem Smooth.advances (h : Smooth c v link input) :
    Advances link (fun m s => Going (c := c) (v := v) input s ∧ todo s = m)
      (fun s => Through input s ∨ Hanging input s) where
  left m s ch := by
    rintro ⟨hg, rfl⟩
    exact (h.stepLeft hg ch).imp_right fun ⟨hg', hlt⟩ => ⟨_, hlt, hg', rfl⟩
  right m s ch := by
    rintro ⟨hg, rfl⟩
    exact (h.stepRight hg ch).imp_right fun ⟨hg', hlt⟩ => ⟨_, hlt, hg', rfl⟩
  blocked m s n k := by
    rintro ⟨hg, -⟩ hleft hright
    exact h.end_of_blocked hg hleft hright
  stays s move hs := hs.elim (fun hthrough => hthrough.step move) fun hhanging => hhanging.step h move

/-- Where the two start. -/
def start (c : LineClient) (v : Language) (input : Bytes) : Duplex c.program (Echo.server v) :=
  ⟨LineClient.start input, .serving [], [], []⟩

theorem going_start : Going input (start c v input) where
  inv := ⟨rfl, .start, rfl, rfl⟩
  client ec h := by cases h
  server ec h := by cases h
  through h := by cases h
  stays h := by cases h

theorem Smooth.ends (h : Smooth c v link input) {moves : ℕ → Move Errno} (hfair : Fair moves) :
    ∃ N, ∀ n ≥ N, Through input (stateAt (step link) (start c v input) moves n) ∨
      Hanging input (stateAt (step link) (start c v input) moves n) :=
  h.advances.completes ⟨_, going_start, rfl⟩ hfair

/-! ### Which of the two it is -/

/-- The reader stops at the end of each piece of the input. -/
def AllFull (c : LineClient) (input : Bytes) : Prop :=
  ∀ stdout i sendline rest, c.Rounds input stdout i → c.next i = some (sendline, rest) → c.full sendline = true

theorem rounds_inv {sendline rest stdout i : Bytes} (hnext : c.next input = some (sendline, rest))
    (h : c.Rounds input stdout i) : i = input ∨ ∃ stdout', c.Rounds rest stdout' i := by
  induction h with
  | start => exact .inl rfl
  | next _ hnext' ih =>
    right
    rcases ih with rfl | ⟨stdout', hrounds⟩
    · rw [hnext, Option.some.injEq, Prod.mk.injEq] at hnext'
      exact ⟨[], hnext'.2 ▸ .start⟩
    · exact ⟨_, hrounds.next hnext'⟩

theorem rounds_of_none {stdout i : Bytes} (hnext : c.next input = none) (h : c.Rounds input stdout i) :
    i = input := by
  induction h with
  | start => rfl
  | next _ hnext' ih =>
    rw [ih, hnext] at hnext'
    cases hnext'

theorem exists_rounds (hshrinks : Shrinks c) (input : Bytes) :
    ∃ stdout rest, c.Rounds input stdout rest ∧ c.next rest = none := by
  suffices h : ∀ n stdout i, i.length = n → c.Rounds input stdout i →
      ∃ stdout rest, c.Rounds input stdout rest ∧ c.next rest = none from h _ [] input rfl .start
  intro n
  induction n using Nat.strong_induction_on with
  | _ n ih =>
    rintro stdout i rfl hrounds
    cases hnext : c.next i with
    | none => exact ⟨stdout, i, hrounds, hnext⟩
    | some cut => exact ih _ (hshrinks i cut.1 cut.2 hnext).1 _ cut.2 rfl (hrounds.next hnext)

theorem AllFull.of_none (hnext : c.next input = none) : AllFull c input := by
  intro stdout i sendline rest hrounds hnext'
  rw [rounds_of_none hnext hrounds, hnext] at hnext'
  cases hnext'

theorem AllFull.cons {sendline rest : Bytes} (hnext : c.next input = some (sendline, rest))
    (hfull : c.full sendline = true) (h : AllFull c rest) : AllFull c input := by
  intro stdout i sendline' rest' hrounds hnext'
  rcases rounds_inv hnext hrounds with rfl | ⟨stdout', hrounds'⟩
  · rw [hnext, Option.some.injEq, Prod.mk.injEq] at hnext'
    exact hnext'.1 ▸ hfull
  · exact h _ _ _ _ hrounds' hnext'

/-- A piece is still to come, or is under way, at whose end the reader does not stop. -/
def Unfinished (c : LineClient) (s : LineClient.State) (queue : Bytes) : Prop :=
  ¬ AllFull c s.input ∨
    match s.pc with
    | .sendAll ptr => s.unread = [] ∧ c.Whole (queue ++ ptr) ∧ c.full (queue ++ ptr) = false
    | .readline line => c.Whole (line ++ (s.unread ++ queue)) ∧ c.full (line ++ (s.unread ++ queue)) = false
    | .failed _ => True
    | _ => False

theorem unfinished_work (hwhole : c.AllWhole input) {s : LineClient.State} {queue : Bytes}
    (hinv : c.Inv input s queue) (hreq : c.request s = .work) (h : Unfinished c s queue) :
    Unfinished c (c.work s) queue := by
  obtain ⟨in₀, stdout, unread, recvline, ended, pc⟩ := s
  obtain ⟨hended, hinv⟩ := hinv
  obtain rfl : ended = false := hended
  rcases LineClient.request_work hreq with hpc | hpc | ⟨line, hpc, hunread⟩ | hpc <;> (simp only at hpc; subst hpc)
  · -- the next piece
    have hnot : ¬ AllFull c in₀ := h.resolve_right id
    obtain ⟨hrounds, rfl, rfl⟩ := hinv
    simp only [LineClient.work]
    cases hnext : c.next in₀ with
    | none => exact absurd (AllFull.of_none hnext) hnot
    | some cut =>
      cases hfull : c.full cut.1 with
      | false => exact .inr ⟨rfl, hwhole _ _ _ _ hrounds hnext, hfull⟩
      | true => exact .inl fun hall => hnot (hall.cons hnext hfull)
  · -- everything is sent
    rcases h with hnot | ⟨hunread, hpiece⟩
    · exact .inl hnot
    · obtain rfl : unread = [] := hunread
      right
      simpa [LineClient.work] using hpiece
  · -- the reader takes a byte
    obtain ⟨ch, unread, rfl⟩ := List.exists_cons_of_ne_nil hunread
    simp only [LineClient.work]
    rcases h with hnot | ⟨hpiece, hopen⟩
    · split <;> exact .inl hnot
    · have hshift : line ++ (ch :: unread ++ queue) = line ++ [ch] ++ (unread ++ queue) := by simp
      simp only [hshift] at hpiece hopen
      have hline : c.full (line ++ [ch]) = false := by
        by_contra hfull
        rw [Bool.not_eq_false] at hfull
        rw [← hpiece.eq_of_full _ (List.prefix_append _ _) hfull, hfull] at hopen
        cases hopen
      rw [hline]
      exact .inr ⟨hpiece, hopen⟩
  · -- the line is printed
    have hnot : ¬ AllFull c in₀ := h.resolve_right id
    simp only [LineClient.work]
    split <;> exact .inl hnot

theorem unfinished_step {errors : List Errno} (hwhole : c.AllWhole input)
    (herrors : ∀ e ∈ errors, c.onError e ≠ .endOfStream) {l l' : Lib.Loop c.program}
    (hinv : c.Inv input l.prog l.queue) (hstep : Lib.Loop.Step errors l l') (h : Unfinished c l.prog l.queue) :
    Unfinished c l'.prog l'.queue := by
  obtain ⟨⟨in₀, stdout, unread, recvline, ended, pc⟩, queue⟩ := l
  rcases LineClient.step_cases herrors hstep with ⟨ptr, k, rfl, rfl⟩ | ⟨line, k, rfl, rfl, rfl⟩ |
      ⟨ec, -, rfl⟩ | rfl | ⟨hreq, rfl⟩
  · -- bytes are sent
    refine h.imp_right fun hpiece => ?_
    simpa using hpiece
  · -- bytes are received
    refine h.imp_right fun hpiece => ?_
    simpa using hpiece
  · exact .inr trivial
  · exact h
  · exact unfinished_work hwhole hinv hreq h

theorem Through.not_unfinished {queue : Bytes} (h : Through input s) : ¬ Unfinished c s.left queue := by
  rintro (hnot | hpc)
  · exact hnot (AllFull.of_none h.next)
  · rw [h.client] at hpc
    exact hpc

theorem Smooth.unfinished (h : Smooth c v link input) (hnot : ¬ AllFull c input) (moves : List (Move Errno)) :
    let s := run (step link) (start c v input) moves
    Unfinished c s.left (queue s) := by
  have herrors : ∀ e ∈ link.errors, c.onError e ≠ .endOfStream := h.not_endOfStream
  have hinit : c.Inv input (LineClient.start input) [] ∧ Unfinished c (LineClient.start input) [] :=
    ⟨⟨rfl, .start, rfl, rfl⟩, .inl hnot⟩
  exact (@Lib.Duplex.run_loop _ _ _ c.program link (server h)
    (fun l => c.Inv input l.prog l.queue ∧ Unfinished c l.prog l.queue)
    (fun _ _ hI hstep => ⟨LineClient.inv_step h.whole herrors hI.1 hstep,
      unfinished_step h.whole herrors hI.1 hstep hI.2⟩) _ hinit moves).2

/-- If the reader stops at the end of each piece, every run gets through. -/
theorem Smooth.completes (h : Smooth c v link input) (hfull : AllFull c input) {moves : ℕ → Move Errno}
    (hfair : Fair moves) : ∃ N, ∀ n ≥ N, Through input (stateAt (step link) (start c v input) moves n) := by
  obtain ⟨N, hN⟩ := h.ends hfair
  refine ⟨N, fun n hn => (hN n hn).resolve_right fun hhanging => ?_⟩
  obtain ⟨line, i, -, hline, hrounds, hnext⟩ := hhanging.client
  rw [hfull _ _ _ _ hrounds hnext] at hline
  cases hline

/-- If not, none does. -/
theorem Smooth.hangs (h : Smooth c v link input) (hnot : ¬ AllFull c input) {moves : ℕ → Move Errno}
    (hfair : Fair moves) : ∃ N, ∀ n ≥ N, Hanging input (stateAt (step link) (start c v input) moves n) := by
  obtain ⟨N, hN⟩ := h.ends hfair
  refine ⟨N, fun n hn => (hN n hn).resolve_left fun hthrough => ?_⟩
  exact hthrough.not_unfinished (h.unfinished hnot _)

/-- What a session comes to in every run that neglects neither side: the client has printed `output` and has returned,
nothing is under way, and `str_echo` has sent back what it received on the socket of the server and has returned. -/
def Completes (c : LineClient) (v : Language) (roomRight roomLeft : ℕ) (errors : List Errno)
    (input output : Bytes) : Prop :=
  ∀ moves, Fair moves → ∃ N, ∀ n ≥ N,
    let s := stateAt (step (tcp roomRight roomLeft errors)) (start c v input) moves n
    let socket := rightSocket (tcp roomRight roomLeft errors) (start c v input) ((List.range n).map moves)
    LineClient.State.pc s.left = .returned ∧ LineClient.State.stdout s.left = output ∧
      s.toRight = [] ∧ s.toLeft = [] ∧ EchoedBack socket (strEchoRun v socket)

/-- What else it may come to: the client has printed all but its last piece and waits in its reader for more than it
sent of it, nothing is under way, and the server waits for the client. -/
def Hangs (c : LineClient) (v : Language) (roomRight roomLeft : ℕ) (errors : List Errno) (input : Bytes) : Prop :=
  ∀ moves, Fair moves → ∃ N, ∀ n ≥ N,
    let s := stateAt (step (tcp roomRight roomLeft errors)) (start c v input) moves n
    let client : LineClient.State := s.left
    (∃ line, line ≠ [] ∧ client.pc = .readline line ∧ client.stdout ++ line = input) ∧
      client.input = [] ∧ client.unread = [] ∧ s.right = .serving [] ∧ s.toRight = [] ∧ s.toLeft = []

section

variable {roomRight roomLeft : ℕ} {errors : List Errno}

theorem Smooth.session {output : Bytes} (h : Smooth c v (tcp roomRight roomLeft errors) input)
    (hfull : AllFull c input)
    (hprinted : ∀ stdout rest, c.Rounds input stdout rest → c.next rest = none → stdout = output) :
    Completes c v roomRight roomLeft errors input output := by
  intro moves hfair
  obtain ⟨N, hN⟩ := h.completes hfull hfair
  refine ⟨N, fun n hn => ?_⟩
  have hthrough := hN n hn
  exact ⟨hthrough.client, hprinted _ _ hthrough.rounds hthrough.next, hthrough.toRight, hthrough.toLeft,
    strEchoRun_returns v hthrough.server⟩

theorem Smooth.hanging (h : Smooth c v (tcp roomRight roomLeft errors) input) (hnot : ¬ AllFull c input)
    (hlast : ∀ stdout i line rest, c.Rounds input stdout i → c.next i = some (line, rest) → c.full line = false →
      line ≠ [] ∧ stdout ++ line = input ∧ rest = []) :
    Hangs c v roomRight roomLeft errors input := by
  intro moves hfair
  obtain ⟨N, hN⟩ := h.hangs hnot hfair
  refine ⟨N, fun n hn => ?_⟩
  have hhanging := hN n hn
  obtain ⟨line, i, hpc, hline, hrounds, hnext⟩ := hhanging.client
  obtain ⟨hne, hstdout, hinput⟩ := hlast _ _ _ _ hrounds hnext hline
  exact ⟨⟨line, hne, hpc, hstdout⟩, hinput, hhanging.unread, hhanging.server, hhanging.toRight, hhanging.toLeft⟩

end

end EchoSession

end NetProg
