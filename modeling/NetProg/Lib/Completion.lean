import NetProg.Lib.Duplex
import NetProg.Lib.Progress

/-!
# Two programs that get to an end

A run of two programs at the ends of a connection gets to the end if it never neglects one of them, every move that
is not in vain takes the two further, and both can only be blocked at the end (`Advances.completes`). A move is in
vain if its call fails or cannot be answered yet.
-/

namespace NetProg.Lib
open Filter

namespace Duplex

variable {β ε : Type} [DecidableEq ε] {P Q : Program β ε}

/-- What is answered to the left program. -/
def callLeft (link : Link ε) (s : Duplex P Q) (c : Choice ε) : Option (Call β ε) :=
  call link (link.roomRight - s.toRight.length) (Q.halted s.right) s.toLeft (P.request s.left) c

/-- What is answered to the right program. -/
def callRight (link : Link ε) (s : Duplex P Q) (c : Choice ε) : Option (Call β ε) :=
  call link (link.roomLeft - s.toLeft.length) (P.halted s.left) s.toRight (Q.request s.right) c

variable {link : Link ε} {s : Duplex P Q}

theorem stepLeft_none {c : Choice ε} (h : callLeft link s c = none) : stepLeft link s c = s := by
  unfold callLeft at h
  unfold stepLeft
  rw [h]

theorem stepLeft_some {c : Choice ε} {x : Call β ε} (h : callLeft link s c = some x) :
    stepLeft link s c = ⟨P.resume s.left x.answer, s.right, s.toRight ++ x.sent, x.inbox⟩ := by
  unfold callLeft at h
  unfold stepLeft
  rw [h]

theorem stepRight_none {c : Choice ε} (h : callRight link s c = none) : stepRight link s c = s := by
  unfold callRight at h
  unfold stepRight
  rw [h]

theorem stepRight_some {c : Choice ε} {x : Call β ε} (h : callRight link s c = some x) :
    stepRight link s c = ⟨s.left, Q.resume s.right x.answer, x.inbox, s.toLeft ++ x.sent⟩ := by
  unfold callRight at h
  unfold stepRight
  rw [h]

theorem call_go_eq_none {free n : ℕ} {closed : Bool} {inbox : List β} {req : Request β}
    (h : call link free closed inbox req (.go n) = none) :
    req = .halt ∨ (∃ bytes, req = .send bytes ∧ free = 0) ∨
      ∃ size, req = .recv size ∧ inbox = [] ∧ closed = false := by
  cases req with
  | send bytes =>
    simp only [call, ite_eq_left_iff, reduceCtorEq, imp_false, not_not] at h
    exact .inr (.inl ⟨bytes, rfl, h⟩)
  | recv size =>
    simp only [call, ite_eq_left_iff, reduceCtorEq, imp_false, not_not] at h
    exact .inr (.inr ⟨size, rfl, by simpa using h⟩)
  | work => simp [call] at h
  | halt => exact .inl rfl

theorem call_halt (free : ℕ) (closed : Bool) (inbox : List β) (c : Choice ε) :
    call link free closed inbox .halt c = none := by
  cases c <;> rfl

theorem call_fail_eq_some {free : ℕ} {closed : Bool} {inbox : List β} {req : Request β} {e : ε} {x : Call β ε}
    (h : call link free closed inbox req (.fail e) = some x) :
    e ∈ link.errors ∧ req ≠ .halt ∧ x = ⟨.failed e, [], inbox⟩ := by
  cases req with
  | send | recv =>
    simp only [call, Option.ite_none_right_eq_some, Option.some.injEq] at h
    exact ⟨h.1, by simp, h.2.symm⟩
  | work | halt => simp [call] at h

theorem call_go_cases {free n : ℕ} {closed : Bool} {inbox : List β} {req : Request β} {x : Call β ε}
    (h : call link free closed inbox req (.go n) = some x) :
    (∃ bytes k, req = .send bytes ∧ k ≤ bytes.length ∧ (bytes ≠ [] → 0 < k) ∧
      x = ⟨.sent k, bytes.take k, inbox⟩) ∨
    (∃ size k, req = .recv size ∧ k ≤ size ∧ k ≤ inbox.length ∧ (0 < size → inbox ≠ [] → 0 < k) ∧
      x = ⟨.received (inbox.take k), [], inbox.drop k⟩ ∧ (inbox = [] → closed = true)) ∨
    (req = .work ∧ x = ⟨.done, [], inbox⟩) := by
  rcases call_cases h with hsend | hrecv | ⟨e, -, -, -, rfl⟩ | hwork
  · exact .inl hsend
  · exact .inr (.inl hrecv)
  · cases req with
    | send | recv =>
      simp only [call] at h
      split at h <;> simp at h
    | work | halt => simp [call] at h
  · exact .inr (.inr hwork)

theorem stepLeft_of_halt (halt : P.request s.left = .halt) (c : Choice ε) : stepLeft link s c = s := by
  apply stepLeft_none
  rw [callLeft, halt, call_halt]

theorem stepRight_of_halt (halt : Q.request s.right = .halt) (c : Choice ε) : stepRight link s c = s := by
  apply stepRight_none
  rw [callRight, halt, call_halt]

theorem stepLeft_waits {size : ℕ} (hreq : P.request s.left = .recv size) (hopen : Q.halted s.right = false)
    (toLeft : s.toLeft = []) (n : ℕ) : stepLeft link s (.go n) = s := by
  apply stepLeft_none
  rw [callLeft, hreq, hopen, toLeft]
  rfl

theorem stepRight_waits {size : ℕ} (hreq : Q.request s.right = .recv size) (hopen : P.halted s.left = false)
    (toRight : s.toRight = []) (n : ℕ) : stepRight link s (.go n) = s := by
  apply stepRight_none
  rw [callRight, hreq, hopen, toRight]
  rfl

theorem stepLeft_fail {e : ε}
    (h : e ∈ link.errors → P.request s.left ≠ .halt → P.resume s.left (.failed e) = s.left) :
    stepLeft link s (.fail e) = s := by
  cases hcall : callLeft link s (.fail e) with
  | none => exact stepLeft_none hcall
  | some x =>
    obtain ⟨he, hreq, rfl⟩ := call_fail_eq_some hcall
    simp only [stepLeft_some hcall, h he hreq, List.append_nil]

theorem stepRight_fail {e : ε}
    (h : e ∈ link.errors → Q.request s.right ≠ .halt → Q.resume s.right (.failed e) = s.right) :
    stepRight link s (.fail e) = s := by
  cases hcall : callRight link s (.fail e) with
  | none => exact stepRight_none hcall
  | some x =>
    obtain ⟨he, hreq, rfl⟩ := call_fail_eq_some hcall
    simp only [stepRight_some hcall, h he hreq, List.append_nil]

/-- A run that never ceases to let either of the two go on. -/
def Fair (moves : ℕ → Move ε) : Prop :=
  (∃ᶠ k in atTop, ∃ n, moves k = .left (.go n)) ∧ ∃ᶠ k in atTop, ∃ n, moves k = .right (.go n)

/-- Every move is in vain or takes the two further on their way to the end. -/
structure Advances (link : Link ε) (Measured : ℕ → Duplex P Q → Prop) (Done : Duplex P Q → Prop) : Prop where
  left : ∀ m s c, Measured m s →
    (stepLeft link s c = s ∧ ((∃ e, c = .fail e) ∨ callLeft link s c = none)) ∨
      ∃ m' < m, Measured m' (stepLeft link s c)
  right : ∀ m s c, Measured m s →
    (stepRight link s c = s ∧ ((∃ e, c = .fail e) ∨ callRight link s c = none)) ∨
      ∃ m' < m, Measured m' (stepRight link s c)
  blocked : ∀ m s n k, Measured m s → callLeft link s (.go n) = none → callRight link s (.go k) = none → Done s
  stays : ∀ s move, Done s → step link s move = s

variable {Measured : ℕ → Duplex P Q → Prop} {Done : Duplex P Q → Prop}

theorem Advances.step (h : Advances link Measured Done) {m : ℕ} (hm : Measured m s) (move : Move ε) :
    Duplex.step link s move = s ∨ ∃ m' < m, Measured m' (Duplex.step link s move) := by
  cases move with
  | left c => exact (h.left m s c hm).imp_left And.left
  | right c => exact (h.right m s c hm).imp_left And.left

theorem Advances.helps (h : Advances link Measured Done) {m : ℕ} (hm : Measured m s) (hopen : ¬ Done s) :
    (∀ n, ∃ m' < m, Measured m' (stepLeft link s (.go n))) ∨
      ∀ n, ∃ m' < m, Measured m' (stepRight link s (.go n)) := by
  by_cases hleft : ∃ n, callLeft link s (.go n) = none
  · obtain ⟨n, hblocked⟩ := hleft
    right
    intro k
    rcases h.right m s (.go k) hm with ⟨-, ⟨e, he⟩ | hblocked'⟩ | hless
    · cases he
    · exact absurd (h.blocked m s n k hm hblocked hblocked') hopen
    · exact hless
  · left
    intro n
    rcases h.left m s (.go n) hm with ⟨-, ⟨e, he⟩ | hblocked⟩ | hless
    · cases he
    · exact absurd ⟨n, hblocked⟩ hleft
    · exact hless

/-- Every run that never neglects one of the two gets to the end. -/
theorem Advances.completes (h : Advances link Measured Done) {start : Duplex P Q} (hstart : ∃ m, Measured m start)
    {moves : ℕ → Move ε} (hfair : Fair moves) : ∃ N, ∀ n ≥ N, Done (stateAt (Duplex.step link) start moves n) := by
  have hleads : LeadsTo (stateAt (Duplex.step link) start moves) (fun s => ∃ m, Measured m s) Done := by
    apply @leadsTo_of_just _ _ Done Bool fun i k => ∃ n, moves k = if i then .left (.go n) else .right (.go n)
    · intro n m hm _
      rw [stateAt_succ]
      exact (h.step hm (moves n)).imp_right .inr
    · intro n m hm hopen
      rcases h.helps hm hopen with hless | hless
      · refine ⟨true, ?_⟩
        rintro k hk ⟨j, hj⟩
        rw [stateAt_succ, hk, hj]
        exact .inr (hless j)
      · refine ⟨false, ?_⟩
        rintro k hk ⟨j, hj⟩
        rw [stateAt_succ, hk, hj]
        exact .inr (hless j)
    · rintro ⟨⟩
      · exact hfair.2
      · exact hfair.1
  obtain ⟨N, -, hN⟩ := hleads 0 hstart
  refine ⟨N, fun n hn => stateAt_stable (I := Done) ?_ hn hN⟩
  intro k hk
  rw [stateAt_succ, h.stays _ _ hk]
  exact hk

end Duplex

end NetProg.Lib
