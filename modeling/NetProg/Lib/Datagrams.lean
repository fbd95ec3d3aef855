import NetProg.Lib.Runs
import Mathlib.Data.Multiset.Filter

/-!
# A server on a network of datagrams

Processes send datagrams to each other, and one of the addresses is that of a server, which answers every datagram
that it receives by one to its sender, or ends. The network may lose a datagram, deliver it twice, and deliver the
datagrams in any order. `Net` remembers what was sent, received, lost and doubled.

What comes from the address of the server is an answer to something that was sent from where it is received
(`answered_run`), and no datagram disappears or comes up otherwise than by a loss or a doubling (`account_run`), so
on a network that does neither every datagram that the server has received is answered once (`answers_eq`).
-/

namespace NetProg.Lib

/-- A payload with the addresses it goes between. -/
structure Datagram (A P : Type) where
  src : A
  dst : A
  payload : P
  deriving DecidableEq, Repr

namespace Datagrams

/-- The network, and what has happened on it. -/
structure Net (A P : Type) where
  flying : Multiset (Datagram A P)
  /-- By the processes other than the server. -/
  sent : Multiset (Datagram A P)
  /-- By the server. -/
  served : Multiset (Datagram A P)
  /-- By the other processes. -/
  heard : Multiset (Datagram A P)
  lost : Multiset (Datagram A P)
  doubled : Multiset (Datagram A P)
  /-- The server has not ended. -/
  alive : Bool

/-- What can happen next. -/
inductive Move (A P : Type)
  | send (d : Datagram A P)
  | lose (d : Datagram A P)
  | double (d : Datagram A P)
  | deliver (d : Datagram A P)

/-- Nothing has been sent. -/
def Net.start {A P : Type} : Net A P := ⟨0, 0, 0, 0, 0, 0, true⟩

section

variable {A P : Type} (server : A) (respond : P → Option P)

/-- The answer to a datagram, if the server lives through it. -/
def answer (d : Datagram A P) : Option (Datagram A P) := (respond d.payload).map fun r => ⟨server, d.src, r⟩

/-- What the server has answered. -/
def answers (served : Multiset (Datagram A P)) : Multiset (Datagram A P) :=
  served.filterMap (answer server respond)

/-- A datagram from the server that answers one sent to it. -/
def IsAnswer (sent : Multiset (Datagram A P)) (d : Datagram A P) : Prop :=
  d.src = server ∧ ∃ t, ⟨d.dst, server, t⟩ ∈ sent ∧ respond t = some d.payload

/-- Every datagram was sent or is an answer. -/
structure Answered (net : Net A P) : Prop where
  sent : ∀ d ∈ net.sent, d.src ≠ server
  flying : ∀ d ∈ net.flying, d ∈ net.sent ∨ IsAnswer server respond net.sent d
  served : ∀ d ∈ net.served, d ∈ net.sent
  heard : ∀ d ∈ net.heard, d ∈ net.sent ∨ IsAnswer server respond net.sent d

/-- What was sent, answered and doubled is flying, or was received or lost. -/
def Account (net : Net A P) : Prop :=
  net.flying + (net.served + net.heard + net.lost) = net.sent + net.doubled + answers server respond net.served

variable {server respond} {sent sent' : Multiset (Datagram A P)} {d : Datagram A P}

theorem IsAnswer.mono (h : IsAnswer server respond sent d) (hsub : sent ⊆ sent') :
    IsAnswer server respond sent' d := by
  obtain ⟨hsrc, t, hmem, hrespond⟩ := h
  exact ⟨hsrc, t, hsub hmem, hrespond⟩

theorem IsAnswer.dst_ne (h : IsAnswer server respond sent d) (hsent : ∀ d ∈ sent, d.src ≠ server) :
    d.dst ≠ server := by
  obtain ⟨-, t, hmem, -⟩ := h
  exact hsent _ hmem

theorem src_of_answer {a : Datagram A P} (h : answer server respond d = some a) : a.src = server := by
  rw [answer, Option.map_eq_some_iff] at h
  obtain ⟨r, -, rfl⟩ := h
  rfl

theorem isAnswer_answer {a : Datagram A P} (hmem : d ∈ sent) (hdst : d.dst = server)
    (h : answer server respond d = some a) : IsAnswer server respond sent a := by
  rw [answer, Option.map_eq_some_iff] at h
  obtain ⟨r, hr, rfl⟩ := h
  refine ⟨rfl, d.payload, ?_, hr⟩
  rw [← hdst]
  exact hmem

end

variable {A P : Type} [DecidableEq A] [DecidableEq P] (server : A) (respond : P → Option P)

/-- A datagram arrives. A process that is not there any more gets nothing. -/
def arrive (net : Net A P) (d : Datagram A P) : Net A P :=
  if d.dst = server then
    if net.alive then
      match answer server respond d with
      | some a => { net with flying := a ::ₘ net.flying.erase d, served := d ::ₘ net.served }
      | none => { net with flying := net.flying.erase d, served := d ::ₘ net.served, alive := false }
    else { net with flying := net.flying.erase d, lost := d ::ₘ net.lost }
  else { net with flying := net.flying.erase d, heard := d ::ₘ net.heard }

/-- Nobody but the server sends from its address, and only what is flying can be lost, doubled or delivered. -/
def step (net : Net A P) : Move A P → Net A P
  | .send d =>
    if d.src = server then net else { net with flying := d ::ₘ net.flying, sent := d ::ₘ net.sent }
  | .lose d =>
    if d ∈ net.flying then { net with flying := net.flying.erase d, lost := d ::ₘ net.lost } else net
  | .double d =>
    if d ∈ net.flying then { net with flying := d ::ₘ net.flying, doubled := d ::ₘ net.doubled } else net
  | .deliver d => if d ∈ net.flying then arrive server respond net d else net

variable {server respond} {net : Net A P} {d : Datagram A P}

/-- What an arrival does. -/
inductive Arrived (server : A) (respond : P → Option P) (net : Net A P) (d : Datagram A P) : Net A P → Prop
  | answered {a : Datagram A P} (hdst : d.dst = server) (hanswer : answer server respond d = some a) :
      Arrived server respond net d { net with flying := a ::ₘ net.flying.erase d, served := d ::ₘ net.served }
  | ended (hdst : d.dst = server) (hanswer : answer server respond d = none) :
      Arrived server respond net d
        { net with flying := net.flying.erase d, served := d ::ₘ net.served, alive := false }
  | late (hdead : net.alive = false) :
      Arrived server respond net d { net with flying := net.flying.erase d, lost := d ::ₘ net.lost }
  | heard (hdst : d.dst ≠ server) :
      Arrived server respond net d { net with flying := net.flying.erase d, heard := d ::ₘ net.heard }

theorem arrive_cases (net : Net A P) (d : Datagram A P) :
    Arrived server respond net d (arrive server respond net d) := by
  unfold arrive
  split_ifs with hdst halive
  · cases hanswer : answer server respond d with
    | some a => exact .answered hdst hanswer
    | none => exact .ended hdst hanswer
  · exact .late (by simpa using halive)
  · exact .heard hdst

/-! ### Where a datagram comes from -/

theorem Answered.arrive (h : Answered server respond net) (hd : d ∈ net.flying) :
    Answered server respond (arrive server respond net d) := by
  have harrived : Arrived server respond net d _ := arrive_cases net d
  generalize Datagrams.arrive server respond net d = net' at harrived
  have hland : ∀ d' ∈ net.flying.erase d, d' ∈ net.sent ∨ IsAnswer server respond net.sent d' :=
    fun d' hd' => h.flying d' (Multiset.mem_of_mem_erase hd')
  -- what the server gets was sent to it
  have hsent : d.dst = server → d ∈ net.sent := fun hdst =>
    (h.flying d hd).resolve_right fun hanswer => hanswer.dst_ne h.sent hdst
  cases harrived with
  | @answered a hdst hanswer =>
    refine ⟨h.sent, ?_, Multiset.forall_mem_cons.2 ⟨hsent hdst, h.served⟩, h.heard⟩
    exact Multiset.forall_mem_cons.2 ⟨.inr (isAnswer_answer (hsent hdst) hdst hanswer), hland⟩
  | ended hdst hanswer =>
    exact ⟨h.sent, hland, Multiset.forall_mem_cons.2 ⟨hsent hdst, h.served⟩, h.heard⟩
  | late hdead => exact ⟨h.sent, hland, h.served, h.heard⟩
  | heard hdst => exact ⟨h.sent, hland, h.served, Multiset.forall_mem_cons.2 ⟨h.flying d hd, h.heard⟩⟩

theorem Answered.step (h : Answered server respond net) (move : Move A P) :
    Answered server respond (step server respond net move) := by
  cases move with
  | send d =>
    simp only [Datagrams.step]
    split_ifs with hsrc
    · exact h
    · have hsub : net.sent ⊆ d ::ₘ net.sent := Multiset.subset_cons _ _
      have hmono : ∀ d', d' ∈ net.sent ∨ IsAnswer server respond net.sent d' →
          d' ∈ d ::ₘ net.sent ∨ IsAnswer server respond (d ::ₘ net.sent) d' :=
        fun d' => Or.imp (hsub ·) (·.mono hsub)
      refine ⟨Multiset.forall_mem_cons.2 ⟨hsrc, h.sent⟩, ?_, fun d' hd' => hsub (h.served d' hd'),
        fun d' hd' => hmono d' (h.heard d' hd')⟩
      exact Multiset.forall_mem_cons.2 ⟨.inl (Multiset.mem_cons_self d _), fun d' hd' => hmono d' (h.flying d' hd')⟩
  | lose d =>
    simp only [Datagrams.step]
    split_ifs with hmem
    · exact ⟨h.sent, fun d' hd' => h.flying d' (Multiset.mem_of_mem_erase hd'), h.served, h.heard⟩
    · exact h
  | double d =>
    simp only [Datagrams.step]
    split_ifs with hmem
    · exact ⟨h.sent, Multiset.forall_mem_cons.2 ⟨h.flying d hmem, h.flying⟩, h.served, h.heard⟩
    · exact h
  | deliver d =>
    simp only [Datagrams.step]
    split_ifs with hmem
    · exact h.arrive hmem
    · exact h

theorem answered_run (moves : List (Move A P)) :
    Answered server respond (run (step server respond) Net.start moves) := by
  refine run_stable (I := Answered server respond) (fun _ move h => h.step move) ?_ moves
  constructor <;> simp [Net.start]

/-! ### Nothing disappears -/

theorem Account.arrive (h : Account server respond net) (hd : d ∈ net.flying) :
    Account server respond (arrive server respond net d) := by
  have harrived : Arrived server respond net d _ := arrive_cases net d
  generalize Datagrams.arrive server respond net d = net' at harrived
  -- the datagram leaves those that fly
  rw [Account, ← Multiset.cons_erase hd, Multiset.cons_add] at h
  cases harrived with
  | answered hdst hanswer =>
    simp only [Account, answers, Multiset.filterMap_cons_some _ _ _ hanswer, Multiset.cons_add, Multiset.add_cons]
    rw [Multiset.cons_swap, h, answers]
  | ended hdst hanswer =>
    simp only [Account, answers, Multiset.filterMap_cons_none _ _ hanswer, Multiset.cons_add, Multiset.add_cons]
    exact h
  | late hdead =>
    simp only [Account, Multiset.add_cons]
    exact h
  | heard hdst =>
    simp only [Account, Multiset.cons_add, Multiset.add_cons]
    exact h

theorem Account.step (h : Account server respond net) (move : Move A P) :
    Account server respond (step server respond net move) := by
  cases move with
  | send d =>
    simp only [Datagrams.step]
    split_ifs with hsrc
    · exact h
    · simp only [Account, Multiset.cons_add]
      exact congrArg _ h
  | lose d =>
    simp only [Datagrams.step]
    split_ifs with hmem
    · rw [Account, ← Multiset.cons_erase hmem, Multiset.cons_add] at h
      simp only [Account, Multiset.add_cons]
      exact h
    · exact h
  | double d =>
    simp only [Datagrams.step]
    split_ifs with hmem
    · simp only [Account, Multiset.cons_add, Multiset.add_cons]
      exact congrArg _ h
    · exact h
  | deliver d =>
    simp only [Datagrams.step]
    split_ifs with hmem
    · exact h.arrive hmem
    · exact h

theorem account_run (moves : List (Move A P)) :
    Account server respond (run (step server respond) Net.start moves) :=
  run_stable (fun _ _ h => h.step _) (by simp [Account, answers, Net.start]) moves

omit [DecidableEq P] in
/-- On a network that loses nothing and doubles nothing the answers to what the server has received are flying, or were
received, each once. -/
theorem answers_eq (hanswered : Answered server respond net) (h : Account server respond net) (hlost : net.lost = 0)
    (hdoubled : net.doubled = 0) :
    answers server respond net.served = (net.flying + net.heard).filter (·.src = server) := by
  have hsent : net.sent.filter (·.src = server) = 0 := Multiset.filter_eq_nil.2 hanswered.sent
  have hserved : net.served.filter (·.src = server) = 0 :=
    Multiset.filter_eq_nil.2 fun d hd => hanswered.sent d (hanswered.served d hd)
  have hanswers : (answers server respond net.served).filter (·.src = server) = answers server respond net.served := by
    refine Multiset.filter_eq_self.2 fun a ha => ?_
    obtain ⟨d, -, hd⟩ := (Multiset.mem_filterMap _ _).1 ha
    exact src_of_answer hd
  have hfilter := congrArg (Multiset.filter (·.src = server)) h
  simp only [Multiset.filter_add, hlost, hdoubled, hsent, hserved, hanswers, Multiset.zero_add,
    Multiset.add_zero] at hfilter
  rw [← hfilter, Multiset.filter_add]

/-! ### How long the server lives -/

theorem alive_step (h : net.alive = true ↔ ∀ d ∈ net.served, (respond d.payload).isSome) (move : Move A P) :
    (step server respond net move).alive = true ↔
      ∀ d ∈ (step server respond net move).served, (respond d.payload).isSome := by
  cases move with
  | send d | lose d | double d =>
    simp only [step]
    split_ifs <;> exact h
  | deliver d =>
    simp only [step]
    split_ifs with hmem
    · unfold arrive
      split_ifs with hdst halive
      · have hall := h.1 halive
        cases hrespond : respond d.payload with
        | some r =>
          simp only [answer, hrespond, Option.map_some, Multiset.forall_mem_cons, Option.isSome_some, true_and]
          exact h
        | none => simp [answer, hrespond]
      · exact h
      · exact h
    · exact h

theorem alive_run (moves : List (Move A P)) :
    (run (step server respond) Net.start moves).alive = true ↔
      ∀ d ∈ (run (step server respond) Net.start moves).served, (respond d.payload).isSome :=
  run_stable (I := fun net : Net A P => net.alive = true ↔ ∀ d ∈ net.served, (respond d.payload).isSome)
    (fun _ move h => alive_step h move) (by simp [Net.start]) moves

end Datagrams

end NetProg.Lib
