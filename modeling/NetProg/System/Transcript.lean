import NetProg.Lib.Dialogue
import NetProg.System.Calls
import NetProg.System.Echo

/-!
# The sockets of a run

Two programs that run against each other over TCP get answers from the kernel. `leftSocket` and `rightSocket`
collect them as the scripts of two sockets, and on these a function of the libraries can be run that makes
the same calls. `path_left` says that the program goes the same way there as in the run, so a function that
follows the program has returned exactly if the program has come to its value (`Follows.left_iff`).
-/

namespace NetProg
open Lib (Answer Request Program Link Move Choice Duplex run run_append)
open Lib.Duplex (step stepLeft stepRight)

/-- The answer to a request comes before the answers in the scripts. -/
def Conn.before (r : Request UInt8) (a : Answer UInt8 Errno) (c : Conn) : Conn :=
  match r, a with
  | .send _, .sent n => { c with tx.script := .accept n :: c.tx.script }
  | .send _, .failed errno => { c with tx.script := .fail errno :: c.tx.script }
  | .recv _, .received bytes => { c with rx := ⟨bytes ++ c.rx.input, .deliver bytes.length :: c.rx.script⟩ }
  | .recv _, .failed errno => { c with rx.script := .fail errno :: c.rx.script }
  | _, _ => c

/-- The other program makes the move. -/
def swapMove : Move Errno → Move Errno
  | .left c => .right c
  | .right c => .left c

section

variable {P Q : Program UInt8 Errno} (link : Link Errno)

/-- What the left program is told in a run. -/
def leftSocket (s : Duplex P Q) : List (Move Errno) → Conn
  | [] => ⟨⟨[], []⟩, ⟨[], []⟩⟩
  | .left c :: moves =>
    match Lib.call link (link.roomRight - s.toRight.length) (Q.halted s.right) s.toLeft (P.request s.left) c with
    | none => leftSocket s moves
    | some x => (leftSocket (stepLeft link s c) moves).before (P.request s.left) x.answer
  | .right c :: moves => leftSocket (stepRight link s c) moves

/-- What the right program is told in a run. -/
def rightSocket (s : Duplex P Q) (moves : List (Move Errno)) : Conn :=
  leftSocket link.swap s.swap (moves.map swapMove)

end

section

variable {P Q : Program UInt8 Errno} {link : Link Errno} {s : Duplex P Q} {moves : List (Move Errno)}

theorem step_swap (s : Duplex P Q) (m : Move Errno) : (step link s m).swap = step link.swap s.swap (swapMove m) := by
  cases m with
  | left c =>
    have h := Lib.Duplex.stepRight_eq_swap link.swap s.swap c
    exact h.symm
  | right c => exact congrArg Duplex.swap (Lib.Duplex.stepRight_eq_swap link s c)

theorem run_swap (s : Duplex P Q) (moves : List (Move Errno)) :
    (run (step link) s moves).swap = run (step link.swap) s.swap (moves.map swapMove) := by
  induction moves generalizing s with
  | nil => rfl
  | cons m moves ih =>
    have hrest := ih (step link s m)
    rw [step_swap] at hrest
    exact hrest

theorem moved_count (hlimit : link.limit = INT_MAX) {n len len' : ℕ} (hpos : 0 < len)
    (hle : link.count n len ≤ len') : moved (link.count n len) len' = link.count n len := by
  have hcount := link.count_pos (n := n) hpos
  have hlim : link.count n len ≤ max 1 (min n link.limit) := min_le_right _ _
  rw [hlimit] at hlim
  unfold moved INT_MAX at *
  omega

theorem answer_before (hlimit : link.limit = INT_MAX) {s : P.State} {free : ℕ} {closed : Bool} {inbox : Bytes}
    {c : Choice Errno} {x : Lib.Call UInt8 Errno}
    (hcall : Lib.call link free closed inbox (P.request s) c = some x) {conn : Conn}
    (hend : ∀ bytes, x.answer = .received bytes → inbox = [] → conn.rx.input = []) :
    (conn.before (P.request s) x.answer).answer (P.request s) =
      some (x.answer, { conn with tx.wire := conn.tx.wire ++ x.sent }) := by
  have hsend := P.send_ne_nil s
  have hrecv := P.recv_pos s
  generalize P.request s = r at *
  obtain ⟨⟨input, recvs⟩, ⟨wire, sends⟩⟩ := conn
  unfold Lib.call at hcall
  split at hcall
  · rename_i bytes n
    split at hcall
    · cases hcall
    · cases hcall
      have hlen : 0 < bytes.length := List.length_pos_iff.2 (hsend bytes rfl)
      have hle := link.count_le n (min bytes.length free)
      have hmoved := @moved_count link hlimit n (min bytes.length free) bytes.length (by omega) (by omega)
      rw [Conn.before, Conn.answer_send_accept, hmoved]
  · rename_i size n
    split at hcall
    · cases hcall
    · cases hcall
      have hsize := hrecv size rfl
      rw [Conn.before, Conn.answer_recv_deliver]
      by_cases hinbox : inbox = []
      · obtain rfl : input = [] := hend _ rfl hinbox
        simp [hinbox]
      · have hlen := List.length_pos_iff.2 hinbox
        have hcount := link.count_le n (min size inbox.length)
        have htake : (inbox.take (link.count n (min size inbox.length))).length =
            link.count n (min size inbox.length) := List.length_take_of_le (by omega)
        have hmoved := @moved_count link hlimit n (min size inbox.length)
          (min size (inbox.take (link.count n (min size inbox.length)) ++ input).length) (by omega)
          (by rw [List.length_append, htake]; omega)
        rw [htake, hmoved, List.take_left' htake, List.drop_left' htake, List.append_nil]
  · cases hcall
    simp [Conn.before, Conn.answer]
  · split at hcall
    · cases hcall
      simp [Conn.before, Conn.answer_send_fail]
    · cases hcall
  · split at hcall
    · cases hcall
      simp [Conn.before, Conn.answer_recv_fail]
    · cases hcall
  · cases hcall
  · cases hcall

theorem stepLeft_of_call {c : Choice Errno} {x : Lib.Call UInt8 Errno}
    (hcall : Lib.call link (link.roomRight - s.toRight.length) (Q.halted s.right) s.toLeft (P.request s.left) c =
      some x) : stepLeft link s c = ⟨P.resume s.left x.answer, s.right, s.toRight ++ x.sent, x.inbox⟩ := by
  rw [stepLeft, hcall]

theorem input_leftSocket (hhalt : Q.request s.right = .halt) (hnil : s.toLeft = []) :
    (leftSocket link s moves).rx.input = [] := by
  induction moves generalizing s with
  | nil => rfl
  | cons m moves ih =>
    cases m with
    | left c =>
      rw [leftSocket]
      cases hcall : Lib.call link (link.roomRight - s.toRight.length) (Q.halted s.right) s.toLeft
        (P.request s.left) c with
      | none => exact ih hhalt hnil
      | some x =>
        have hstep := stepLeft_of_call hcall
        rw [hnil] at hcall
        rcases Lib.call_cases hcall with ⟨bytes, k, hreq, -, -, rfl⟩ | ⟨size, k, hreq, -, -, -, rfl, -⟩ |
          ⟨e, -, hne, hwork, rfl⟩ | ⟨hreq, rfl⟩
        · have hrest := @ih (stepLeft link s c) (by rw [hstep]; exact hhalt) (by rw [hstep])
          simpa [Conn.before, hreq] using hrest
        · have hrest := @ih (stepLeft link s c) (by rw [hstep]; exact hhalt) (by rw [hstep]; exact List.drop_nil)
          simpa [Conn.before, hreq] using hrest
        · have hrest := @ih (stepLeft link s c) (by rw [hstep]; exact hhalt) (by rw [hstep])
          cases hreq : P.request s.left <;> simp_all [Conn.before]
        · have hrest := @ih (stepLeft link s c) (by rw [hstep]; exact hhalt) (by rw [hstep])
          simpa [Conn.before, hreq] using hrest
    | right c =>
      have hstep : stepRight link s c = s := by
        unfold stepRight
        rw [hhalt]
        cases c <;> simp [Lib.call]
      rw [leftSocket, hstep]
      exact ih hhalt hnil

theorem before_wire (r : Request UInt8) (a : Answer UInt8 Errno) (c : Conn) (wire : Bytes) :
    { c.before r a with tx.wire := wire } = Conn.before r a { c with tx.wire := wire } := by
  cases r <;> cases a <;> rfl

theorem wire_leftSocket (s : Duplex P Q) (moves : List (Move Errno)) : (leftSocket link s moves).tx.wire = [] := by
  induction moves generalizing s with
  | nil => rfl
  | cons m moves ih =>
    cases m with
    | left c =>
      rw [leftSocket]
      split
      · exact ih s
      · rename_i x _
        have hrest := ih (stepLeft link s c)
        cases P.request s.left <;> cases x.answer <;> exact hrest
    | right c => exact ih (stepRight link s c)

theorem takesSome_leftSocket (s : Duplex P Q) (moves : List (Move Errno)) :
    (leftSocket link s moves).TakesSome := by
  induction moves generalizing s with
  | nil => exact List.not_mem_nil
  | cons m moves ih =>
    cases m with
    | left c =>
      rw [leftSocket]
      split
      · exact ih s
      · rename_i x _
        have hrest := ih (stepLeft link s c)
        cases P.request s.left <;> cases x.answer <;> simpa [Conn.TakesSome, Conn.before] using hrest
    | right c => exact ih (stepRight link s c)

/-- The program goes the same way on its socket as in the run. -/
theorem path_left (hlimit : link.limit = INT_MAX) (wire : Bytes) :
    ∃ wire', Conn.Path P s.left { leftSocket link s moves with tx.wire := wire }
      (run (step link) s moves).left ⟨⟨[], []⟩, ⟨wire', []⟩⟩ := by
  induction moves generalizing s wire with
  | nil => exact ⟨wire, .refl⟩
  | cons m moves ih =>
    cases m with
    | left c =>
      have hrun : run (step link) s (.left c :: moves) = run (step link) (stepLeft link s c) moves := rfl
      rw [hrun, leftSocket]
      cases hcall : Lib.call link (link.roomRight - s.toRight.length) (Q.halted s.right) s.toLeft
        (P.request s.left) c with
      | none =>
        have hstep : stepLeft link s c = s := by rw [stepLeft, hcall]
        rw [hstep]
        exact ih wire
      | some x =>
        have hstep := stepLeft_of_call hcall
        have hend : ∀ bytes, x.answer = .received bytes → s.toLeft = [] →
            (leftSocket link (stepLeft link s c) moves).rx.input = [] := by
          intro bytes hanswer hnil
          rcases Lib.call_cases hcall with ⟨_, k, -, -, -, rfl⟩ | ⟨size, k, -, -, -, -, rfl, hclosed⟩ |
            ⟨e, -, -, -, rfl⟩ | ⟨-, rfl⟩
          · cases hanswer
          · apply input_leftSocket
            · rw [hstep]
              exact (Q.halted_iff s.right).1 (hclosed hnil)
            · rw [hstep, hnil]
              exact List.drop_nil
          · cases hanswer
          · cases hanswer
        obtain ⟨wire', hrest⟩ := @ih (stepLeft link s c) (wire ++ x.sent)
        have hanswer := @answer_before P link hlimit s.left _ _ _ c x hcall
          { leftSocket link (stepLeft link s c) moves with tx.wire := wire } hend
        rw [← before_wire] at hanswer
        refine ⟨wire', .call hanswer ?_⟩
        rw [hstep] at hrest ⊢
        exact hrest
    | right c =>
      obtain ⟨wire', hrest⟩ := @ih (stepRight link s c) wire
      have hleft : (stepRight link s c).left = s.left := by
        unfold stepRight
        split <;> rfl
      rw [hleft] at hrest
      exact ⟨wire', hrest⟩

end

theorem path_right {P Q : Program UInt8 Errno} {link : Link Errno} {s : Duplex P Q} {moves : List (Move Errno)}
    (hlimit : link.limit = INT_MAX) :
    ∃ wire', Conn.Path Q s.right (rightSocket link s moves) (run (step link) s moves).right
      ⟨⟨[], []⟩, ⟨wire', []⟩⟩ := by
  obtain ⟨wire', hpath⟩ := @path_left Q P link.swap s.swap (moves.map swapMove) hlimit []
  have hsocket : { leftSocket link.swap s.swap (moves.map swapMove) with tx.wire := [] } =
      rightSocket link s moves := by
    rw [← @wire_leftSocket Q P link.swap s.swap (moves.map swapMove), rightSocket]
  rw [hsocket, ← run_swap] at hpath
  exact ⟨wire', hpath⟩

/-! ### Functions at both ends -/

open Lib (Speaker Dialogue)
open Lib.Dialogue (meeting)
open Lib.Duplex (Fair)

/-- What the functions `f` and `g` do at the two ends of a connection, when their programs meet: what they
return is as it is to be, and in a run that never neglects one of the two both return. -/
structure Exchange {ε ε' α β : Type} (link : Link Errno) (P Q : Speaker UInt8 Errno link.errors)
    (f : EStateM ε Conn α) (g : EStateM ε' Conn β) (Left : α → Prop) (Right : β → Prop) : Prop where
  left : ∀ moves a c, f (leftSocket link (meeting P Q) moves) = .ok a c → Left a
  right : ∀ moves b c, g (rightSocket link (meeting P Q) moves) = .ok b c → Right b
  returns : 0 < link.roomRight → 0 < link.roomLeft → ∀ moves, Fair moves → ∃ N, ∀ n ≥ N,
    (∃ a c, f (leftSocket link (meeting P Q) ((List.range n).map moves)) = .ok a c) ∧
      ∃ b c, g (rightSocket link (meeting P Q) ((List.range n).map moves)) = .ok b c

section

variable {ε ε' α β γ : Type} {link : Link Errno} {P Q : Speaker UInt8 Errno link.errors} {x y : Bytes}
  {f : EStateM ε Conn α} {g : EStateM ε' Conn β} {Fits Fits' : Conn → Prop} {value : P.State → Option γ}
  {Got : α → γ → Prop}

theorem Conn.Follows.left (h : Conn.Follows Fits P.toProgram P.start value Got f) (hlimit : link.limit = INT_MAX)
    (moves : List (Move Errno)) (hfits : Fits (leftSocket link (meeting P Q) moves)) :
    ((P.request (run (step link) (meeting P Q) moves).left = .halt ∧
        ∃ b, value (run (step link) (meeting P Q) moves).left = some b) →
      ∃ a c, f (leftSocket link (meeting P Q) moves) = .ok a c) ∧
    ∀ a c, f (leftSocket link (meeting P Q) moves) = .ok a c →
      P.request (run (step link) (meeting P Q) moves).left = .halt ∧
        ∃ b, value (run (step link) (meeting P Q) moves).left = some b ∧ Got a b := by
  obtain ⟨wire, hpath⟩ := @path_left P.toProgram Q.toProgram link (meeting P Q) moves hlimit []
  have hsocket : { leftSocket link (meeting P Q) moves with tx.wire := [] } =
      leftSocket link (meeting P Q) moves := by
    rw [← wire_leftSocket (@meeting _ _ link P Q) moves]
  rw [hsocket] at hpath
  constructor
  · rintro ⟨hhalt, b, hvalue⟩
    obtain ⟨a, hrun, -⟩ := h.returns hfits hpath hhalt hvalue
    exact ⟨a, _, hrun⟩
  · intro a c hrun
    apply h.returned hfits hpath _ hrun
    have hwork := P.request_ne_work (run (step link) (meeting P Q) moves).left
    cases hreq : P.request (run (step link) (meeting P Q) moves).left with
    | work => exact absurd hreq hwork
    | send | recv | halt => rfl

theorem Conn.Follows.right {value : Q.State → Option γ} {Got : β → γ → Prop}
    (h : Conn.Follows Fits Q.toProgram Q.start value Got g) (hlimit : link.limit = INT_MAX)
    (moves : List (Move Errno)) (hfits : Fits (rightSocket link (meeting P Q) moves)) :
    ((Q.request (run (step link) (meeting P Q) moves).right = .halt ∧
        ∃ b, value (run (step link) (meeting P Q) moves).right = some b) →
      ∃ b c, g (rightSocket link (meeting P Q) moves) = .ok b c) ∧
    ∀ b c, g (rightSocket link (meeting P Q) moves) = .ok b c →
      Q.request (run (step link) (meeting P Q) moves).right = .halt ∧
        ∃ v, value (run (step link) (meeting P Q) moves).right = some v ∧ Got b v := by
  have hswap : (run (step link) (meeting P Q) moves).right =
      (run (step link.swap) (@meeting _ _ link.swap Q P) (moves.map swapMove)).left :=
    congrArg Duplex.left (run_swap (@meeting _ _ link P Q) moves)
  rw [hswap]
  exact @Conn.Follows.left _ _ _ link.swap Q P _ _ _ _ h hlimit (moves.map swapMove) hfits

theorem Exchange.mono {Left Left' : α → Prop} {Right Right' : β → Prop} (h : Exchange link P Q f g Left Right)
    (hleft : ∀ a, Left a → Left' a) (hright : ∀ b, Right b → Right' b) : Exchange link P Q f g Left' Right' :=
  ⟨fun moves a c hrun => hleft a (h.left moves a c hrun), fun moves b c hrun => hright b (h.right moves b c hrun),
    h.returns⟩

/-- Functions that follow two speakers have the dialogue of the two. -/
theorem exchange_of_dialogue (h : Dialogue P Q x y) (hlimit : link.limit = INT_MAX)
    (hf : Conn.Follows Fits P.toProgram P.start value Got f) {γ' : Type} {value' : Q.State → Option γ'}
    {Got' : β → γ' → Prop} (hg : Conn.Follows Fits' Q.toProgram Q.start value' Got' g)
    (hfits : ∀ moves, Fits (leftSocket link (meeting P Q) moves))
    (hfits' : ∀ moves, Fits' (rightSocket link (meeting P Q) moves)) {v : γ} {v' : γ'}
    (hvalue : ∀ s, P.Finished y x s → value s = some v)
    (hvalue' : ∀ s, Q.Finished x y s → value' s = some v') :
    Exchange link P Q f g (Got · v) (Got' · v') where
  left moves a c hrun := by
    obtain ⟨l, r, hu⟩ := Lib.Dialogue.underway_run h moves
    obtain ⟨hhalt, b, hb, hgot⟩ := (hf.left hlimit moves (hfits moves)).2 a c hrun
    rw [hvalue _ (hu.finished_of_halt h hhalt)] at hb
    cases hb
    exact hgot
  right moves b c hrun := by
    obtain ⟨l, r, hu⟩ := Lib.Dialogue.underway_run h moves
    obtain ⟨hhalt, v₁, hv₁, hgot⟩ := (hg.right hlimit moves (hfits' moves)).2 b c hrun
    have hfinished : Q.Finished x y (run (step link) (meeting P Q) moves).right :=
      hu.swap.finished_of_halt h.symm hhalt
    rw [hvalue' _ hfinished] at hv₁
    cases hv₁
    exact hgot
  returns hroomRight hroomLeft moves hfair := by
    obtain ⟨N, hN⟩ := Lib.Dialogue.completes h hroomRight hroomLeft hfair
    refine ⟨N, fun n hn => ?_⟩
    have hcomplete := hN n hn
    constructor
    · exact (hf.left hlimit _ (hfits _)).1 ⟨hcomplete.left.halt, v, hvalue _ hcomplete.left⟩
    · exact (hg.right hlimit _ (hfits' _)).1 ⟨hcomplete.right.halt, v', hvalue' _ hcomplete.right⟩

end

theorem value_talk {errors : List Errno} {hagain : ∀ e ∈ errors, retries e = true} {acts : List (Lib.Act UInt8)}
    {heard said : Bytes} (hdone : Lib.Talk.wanted acts ≤ heard.length)
    (s : (Lib.talk retries hagain acts).State) (h : (Lib.talk retries hagain acts).Finished heard said s) :
    Lib.Talk.value s = some heard := by
  have hat := h.at_of_done hdone
  have hhalt := h.halt
  cases s with
  | ended => exact absurd hat not_false
  | talking acts got =>
    obtain ⟨rfl, -⟩ := hat
    rcases Lib.Talk.strip_cases acts with hnil | ⟨bytes, rest, hsay, -⟩ | ⟨n, rest, hhear, -⟩
    · simp [Lib.Talk.value, hnil]
    · simp [Lib.talk, Lib.Talk.program, Lib.Talk.request, hsay] at hhalt
    · simp [Lib.talk, Lib.Talk.program, Lib.Talk.request, hhear] at hhalt

theorem takesSome_rightSocket {P Q : Program UInt8 Errno} {link : Link Errno} (s : Duplex P Q)
    (moves : List (Move Errno)) : (rightSocket link s moves).TakesSome :=
  takesSome_leftSocket s.swap (moves.map swapMove)

/-- Two functions that do the acts of two talks. -/
theorem exchange_of_plays {α β : Type} {link : Link Errno} {hagain hagain' : ∀ e ∈ link.errors, retries e = true}
    {acts acts' : List (Lib.Act UInt8)} {x y : Bytes} {f : EStateM Stop Conn α} {g : EStateM Stop Conn β}
    {Got : α → Bytes → Prop} {Got' : β → Bytes → Prop}
    (h : Dialogue (Lib.talk retries hagain acts) (Lib.talk retries hagain' acts') x y)
    (hlimit : link.limit = INT_MAX) (hf : Conn.Plays acts Got f) (hg : Conn.Plays acts' Got' g)
    (hdone : Lib.Talk.wanted acts ≤ y.length) (hdone' : Lib.Talk.wanted acts' ≤ x.length) :
    Exchange link (Lib.talk retries hagain acts) (Lib.talk retries hagain' acts') f g (Got · y) (Got' · x) :=
  exchange_of_dialogue h hlimit hf.follows hg.follows (takesSome_leftSocket _) (takesSome_rightSocket _)
    (value_talk hdone) (value_talk hdone')

end NetProg
