import NetProg.Lib.Talk
import NetProg.System.Conn
import NetProg.System.Peer
import NetProg.System.Receive
import NetProg.System.Send

/-!
# Programs on one end of a connection

A function of the libraries runs on the scripts of its connection, and a `Lib.Program` runs against a peer.
`Conn.Path` lets the kernel that answers the calls of the functions answer the requests of a program.
`Follows` says that on every connection the program does what the function does: where the function returns,
the program comes to the same value with the connection in the same state, and where it does not, the program
fails or is left without an answer.

The loops of `SendAll` and `RecvAll` follow the two acts of a talk (`SendsAll.plays`, `ReceiveTurns.plays`),
so a function that is made of them follows the talk with these acts.
-/

namespace NetProg
open Lib (Request Answer Program Act Talk.strip whileLoop whileLoop_again run_pure run_bind_ok run_bind_error)
open Lib.Talk (State strip strip_cases)

/-- The loops of all three languages make a call again that was interrupted. -/
def retries (e : Errno) : Bool := decide (e = .EINTR)

theorem retries_nil : ∀ e ∈ ([] : List Errno), retries e = true := by simp

theorem retries_EINTR : ∀ e ∈ [Errno.EINTR], retries e = true := by decide

namespace Conn

/-- The kernel's answer to a request. -/
def answer (c : Conn) : Request UInt8 → Option (Answer UInt8 Errno × Conn)
  | .send bytes =>
    match send bytes bytes.length c.tx with
    | .ok (n, none) tx => some (.sent n.toNat, { c with tx })
    | .ok (_, some errno) tx => some (.failed errno, { c with tx })
    | .error _ _ => none
  | .recv size =>
    match recv size c.rx with
    | .ok (_, none, bytes) rx => some (.received bytes, { c with rx })
    | .ok (_, some errno, _) rx => some (.failed errno, { c with rx })
    | .error _ _ => none
  | .work => some (.done, c)
  | .halt => none

/-- The program goes from one state to another when the kernel answers its requests. -/
inductive Path (P : Program UInt8 Errno) : P.State → Conn → P.State → Conn → Prop
  | refl {s : P.State} {c : Conn} : Path P s c s c
  | call {s s' : P.State} {a : Answer UInt8 Errno} {c c₁ c' : Conn}
      (h : c.answer (P.request s) = some (a, c₁)) (rest : Path P (P.resume s a) c₁ s' c') : Path P s c s' c'

variable {P : Program UInt8 Errno} {s s₁ s' : P.State} {c c₁ c' : Conn}

theorem Path.trans (h : Path P s c s₁ c₁) (h' : Path P s₁ c₁ s' c') : Path P s c s' c' := by
  induction h with
  | refl => exact h'
  | call hanswer _ ih => exact .call hanswer (ih h')

/-- A run is over when the program has halted or there is no answer for it. It is the only one. -/
theorem Path.unique {s₂ : P.State} {c₂ : Conn} (h : Path P s c s₁ c₁) (hend : c₁.answer (P.request s₁) = none)
    (h' : Path P s c s₂ c₂) (hend' : c₂.answer (P.request s₂) = none) : s₁ = s₂ ∧ c₁ = c₂ := by
  induction h with
  | refl =>
    cases h' with
    | refl => exact ⟨rfl, rfl⟩
    | call hanswer => simp [hend] at hanswer
  | call hanswer _ ih =>
    cases h' with
    | refl => simp [hend'] at hanswer
    | call hanswer' rest' =>
      obtain ⟨rfl, rfl⟩ := Prod.mk.injEq .. ▸ Option.some.inj (hanswer.symm.trans hanswer')
      exact ih hend rest'

section

variable {rx : Rx} {tx : Tx} {bytes wire input : Bytes} {n size : ℕ}

theorem answer_send_nil : (Conn.mk rx ⟨wire, []⟩).answer (.send bytes) = none := rfl

theorem answer_send_accept {script : List SendAnswer} :
    (Conn.mk rx ⟨wire, .accept n :: script⟩).answer (.send bytes) = some (.sent (moved n bytes.length),
      ⟨rx, ⟨wire ++ bytes.take (moved n bytes.length), script⟩⟩) := rfl

theorem answer_send_zero {script : List SendAnswer} :
    (Conn.mk rx ⟨wire, .zero :: script⟩).answer (.send bytes) = some (.sent 0, ⟨rx, ⟨wire, script⟩⟩) := rfl

theorem answer_send_fail {errno : Errno} {script : List SendAnswer} :
    (Conn.mk rx ⟨wire, .fail errno :: script⟩).answer (.send bytes) =
      some (.failed errno, ⟨rx, ⟨wire, script⟩⟩) := rfl

theorem answer_recv_nil : (Conn.mk ⟨input, []⟩ tx).answer (.recv size) = none := rfl

theorem answer_recv_deliver {script : List RecvAnswer} :
    (Conn.mk ⟨input, .deliver n :: script⟩ tx).answer (.recv size) =
      some (.received (input.take (moved n (min size input.length))),
        ⟨⟨input.drop (moved n (min size input.length)), script⟩, tx⟩) := rfl

theorem answer_recv_fail {errno : Errno} {script : List RecvAnswer} :
    (Conn.mk ⟨input, .fail errno :: script⟩ tx).answer (.recv size) =
      some (.failed errno, ⟨⟨input, script⟩, tx⟩) := rfl

end

/-- The run of the program from here comes to no value. -/
def Fails {α : Type} (P : Program UInt8 Errno) (value : P.State → Option α) (s : P.State) (c : Conn) : Prop :=
  ∃ s' c', Path P s c s' c' ∧ c'.answer (P.request s') = none ∧ value s' = none

theorem Path.fails {α : Type} {value : P.State → Option α} (h : Path P s c s₁ c₁)
    (h' : Fails P value s₁ c₁) : Fails P value s c := by
  obtain ⟨s', c', hpath, hend⟩ := h'
  exact ⟨s', c', h.trans hpath, hend⟩

/-- From here the program goes where a function has gone that ended so: it comes to a state and a connection
as `Then` says, or to no value if the function has failed. -/
def Reaches {ε α σ : Type} (P : Program UInt8 Errno) {β : Type} (value : P.State → Option β) (s : P.State)
    (c : Conn) (Then : α → σ → P.State → Conn → Prop) : EStateM.Result ε σ α → Prop
  | .ok a t => ∃ s' c', Path P s c s' c' ∧ Then a t s' c'
  | .error _ _ => Fails P value s c

section

variable {α β σ : Type} {value : P.State → Option β} {Then : α → σ → P.State → Conn → Prop}
  {ε : Type} {result : EStateM.Result ε σ α}

theorem Path.reaches (h : Path P s c s₁ c₁) (h' : Reaches P value s₁ c₁ Then result) :
    Reaches P value s c Then result := by
  cases result with
  | ok a t =>
    obtain ⟨s', c', hpath, hthen⟩ := h'
    exact ⟨s', c', h.trans hpath, hthen⟩
  | error stop t => exact h.fails h'

theorem reaches_call {a : Answer UInt8 Errno} (h : c.answer (P.request s) = some (a, c₁))
    (h' : Reaches P value (P.resume s a) c₁ Then result) : Reaches P value s c Then result :=
  (Path.call h .refl).reaches h'

end

theorem Reaches.mono {ε α γ σ : Type} {value : P.State → Option γ} {Then Then' : α → σ → P.State → Conn → Prop}
    {result : EStateM.Result ε σ α} (h : Reaches P value s c Then result)
    (himp : ∀ a t s₁ c₁, Then a t s₁ c₁ → Then' a t s₁ c₁) : Reaches P value s c Then' result := by
  cases result with
  | ok a t =>
    obtain ⟨s₁, c₁, hpath, hthen⟩ := h
    exact ⟨s₁, c₁, hpath, himp a t s₁ c₁ hthen⟩
  | error stop t => exact h

theorem Reaches.transmit {α γ : Type} {value : P.State → Option γ} {Then : α → Conn → P.State → Conn → Prop}
    {x : EStateM Stop Tx α} {t : Conn} (h : Reaches P value s c (fun a tx => Then a { t with tx }) (x t.tx)) :
    Reaches P value s c Then (Conn.transmit x t) := by
  cases hrun : x t.tx with
  | ok a tx =>
    rw [hrun] at h
    rw [transmit_ok hrun]
    exact h
  | error stop tx =>
    rw [hrun] at h
    rw [transmit_error hrun]
    exact h

theorem Reaches.receive {α γ : Type} {value : P.State → Option γ} {Then : α → Conn → P.State → Conn → Prop}
    {x : EStateM Stop Rx α} {t : Conn} (h : Reaches P value s c (fun a rx => Then a { t with rx }) (x t.rx)) :
    Reaches P value s c Then (Conn.receive x t) := by
  cases hrun : x t.rx with
  | ok a rx =>
    rw [hrun] at h
    rw [receive_ok hrun]
    exact h
  | error stop rx =>
    rw [hrun] at h
    rw [receive_error hrun]
    exact h

theorem Reaches.bind {ε σ α β γ : Type} {value : P.State → Option γ} {x : EStateM ε σ α} {y : α → EStateM ε σ β}
    {Then : α → σ → P.State → Conn → Prop} {Then' : β → σ → P.State → Conn → Prop} {s : P.State} {c : Conn} {t : σ}
    (hx : Reaches P value s c Then (x t))
    (hy : ∀ a t₁ s₁ c₁, Path P s c s₁ c₁ → Then a t₁ s₁ c₁ → Reaches P value s₁ c₁ Then' (y a t₁)) :
    Reaches P value s c Then' ((x >>= y) t) := by
  cases hrun : x t with
  | ok a t₁ =>
    rw [hrun] at hx
    obtain ⟨s₁, c₁, hpath, hthen⟩ := hx
    rw [run_bind_ok hrun]
    exact hpath.reaches (hy a t₁ s₁ c₁ hpath hthen)
  | error stop t₁ =>
    rw [hrun] at hx
    rw [run_bind_error hrun]
    exact hx

/-- The kernel never takes nothing of what it is given without a failure. -/
def TakesSome (c : Conn) : Prop := .zero ∉ c.tx.script

theorem TakesSome.answer {r : Request UInt8} {a : Answer UInt8 Errno} (hc : c.TakesSome)
    (h : c.answer r = some (a, c₁)) : c₁.TakesSome := by
  obtain ⟨⟨input, recvs⟩, ⟨wire, sends⟩⟩ := c
  cases r with
  | send bytes =>
    rcases sends with _ | ⟨_ | _ | _, sends⟩
    · simp [answer_send_nil] at h
    all_goals
      cases h
      exact fun hmem => hc (List.mem_cons_of_mem _ hmem)
  | recv size =>
    rcases recvs with _ | ⟨_ | _, recvs⟩
    · simp [answer_recv_nil] at h
    all_goals
      cases h
      exact hc
  | work =>
    cases h
    exact hc
  | halt => simp [Conn.answer] at h

theorem Path.takesSome (h : Path P s c s' c') (hc : c.TakesSome) : c'.TakesSome := by
  induction h with
  | refl => exact hc
  | call hanswer _ ih => exact ih (hc.answer hanswer)

/-- On every connection that fits the program does what the function `x` does. -/
def Follows {ε α β : Type} (Fits : Conn → Prop) (P : Program UInt8 Errno) (start : P.State)
    (value : P.State → Option β) (Got : α → β → Prop) (x : EStateM ε Conn α) : Prop :=
  ∀ c, Fits c → Reaches P value start c
    (fun a c' s c'' => c'' = c' ∧ P.request s = .halt ∧ ∃ b, value s = some b ∧ Got a b) (x c)

section

variable {α β : Type} {Fits : Conn → Prop} {start : P.State} {value : P.State → Option β} {Got : α → β → Prop}
  {ε : Type} {x : EStateM ε Conn α}

theorem Follows.returns (h : Follows Fits P start value Got x) (hc : Fits c) (hpath : Path P start c s' c')
    (hhalt : P.request s' = .halt) {b : β} (hvalue : value s' = some b) : ∃ a, x c = .ok a c' ∧ Got a b := by
  have hend : c'.answer (P.request s') = none := by rw [hhalt, answer]
  have hreaches := h c hc
  rcases hrun : x c with ⟨a, t⟩ | ⟨stop, t⟩
  · rw [hrun] at hreaches
    obtain ⟨s₂, c₂, hpath₂, rfl, hhalt₂, b₂, hvalue₂, hgot⟩ := hreaches
    obtain ⟨rfl, rfl⟩ := hpath.unique hend hpath₂ (by rw [hhalt₂, answer])
    rw [hvalue] at hvalue₂
    cases hvalue₂
    exact ⟨a, rfl, hgot⟩
  · rw [hrun] at hreaches
    obtain ⟨s₂, c₂, hpath₂, hend₂, hnone⟩ := hreaches
    obtain ⟨rfl, rfl⟩ := hpath.unique hend hpath₂ hend₂
    rw [hvalue] at hnone
    cases hnone

theorem Follows.returned (h : Follows Fits P start value Got x) (hc : Fits c) (hpath : Path P start c s' c')
    (hend : c'.answer (P.request s') = none) {a : α} {c₂ : Conn} (hrun : x c = .ok a c₂) :
    P.request s' = .halt ∧ ∃ b, value s' = some b ∧ Got a b := by
  have hreaches := h c hc
  rw [hrun] at hreaches
  obtain ⟨s₂, c₂, hpath₂, rfl, hhalt₂, hgot⟩ := hreaches
  obtain ⟨rfl, rfl⟩ := hpath.unique hend hpath₂ (by rw [hhalt₂, answer])
  exact ⟨hhalt₂, hgot⟩

end

/-! ### The acts of a talk -/

/-- The program of the talks of this repository. -/
abbrev talking : Program UInt8 Errno := Lib.Talk.program retries

/-- What is left of a talk whose first act may be done. -/
def now (acts : List (Act UInt8)) (got : Bytes) : State UInt8 := .talking (strip acts) got

/-- The function does these acts, and what it has of the bytes that it has heard is as `Got` says. -/
def Plays {α : Type} (acts : List (Act UInt8)) (Got : α → Bytes → Prop) (x : EStateM Stop Conn α) : Prop :=
  ∀ (rest : List (Act UInt8)) (got : Bytes) (c : Conn), c.TakesSome →
    Reaches talking Lib.Talk.value (now (acts ++ rest) got) c
      (fun a c' s c'' => ∃ heard, Got a heard ∧ s = now rest (got ++ heard) ∧ c'' = c') (x c)

section

variable {acts : List (Act UInt8)} {got bytes : Bytes} {n : ℕ} {c : Conn}

theorem strip_say (hne : bytes ≠ []) : strip (.say bytes :: acts) = .say bytes :: acts := by
  obtain ⟨b, bytes, rfl⟩ := List.exists_cons_of_ne_nil hne
  rfl

theorem strip_hear (hpos : 0 < n) : strip (Act.hear n :: acts : List (Act UInt8)) = .hear n :: acts := by
  obtain ⟨n, rfl⟩ := Nat.exists_eq_succ_of_ne_zero hpos.ne'
  rfl

theorem request_say (hne : bytes ≠ []) : talking.request (now (.say bytes :: acts) got) = .send bytes := by
  simp only [talking, Lib.Talk.program, now, strip_say hne, Lib.Talk.request]

theorem request_hear (hpos : 0 < n) : talking.request (now (.hear n :: acts) got) = .recv n := by
  simp only [talking, Lib.Talk.program, now, strip_hear hpos, Lib.Talk.request]

theorem resume_sent (hne : bytes ≠ []) {k : ℕ} (hk : 0 < k) :
    talking.resume (now (.say bytes :: acts) got) (.sent k) = now (.say (bytes.drop k) :: acts) got := by
  simp only [talking, Lib.Talk.program, now, strip_say hne, Lib.Talk.resume, if_neg hk.ne']

theorem resume_received (hpos : 0 < n) {more : Bytes} (hmore : more ≠ []) :
    talking.resume (now (.hear n :: acts) got) (.received more) =
      now (.hear (n - more.length) :: acts) (got ++ more) := by
  simp only [talking, Lib.Talk.program, now, strip_hear hpos, Lib.Talk.resume, List.isEmpty_iff, if_neg hmore]

theorem fails_hear (hpos : 0 < n) (hend : c.answer (.recv n) = none) :
    Fails talking Lib.Talk.value (now (.hear n :: acts) got) c := by
  refine ⟨_, _, .refl, ?_, ?_⟩
  · rwa [request_hear hpos]
  · simp only [now, Lib.Talk.value, strip_hear hpos, List.isEmpty_cons, Bool.false_eq_true, if_false]

theorem fails_ended : Fails talking Lib.Talk.value (.ended got) c := ⟨_, _, .refl, rfl, rfl⟩

theorem fails_of_answer {s : State UInt8} {a : Answer UInt8 Errno} {c' : Conn}
    (h : c.answer (talking.request s) = some (a, c')) (hend : talking.resume s a = .ended got) :
    Fails talking Lib.Talk.value s c :=
  (Path.call h .refl).fails (hend ▸ fails_ended)

theorem resume_eintr (s : State UInt8) : talking.resume s (.failed .EINTR) = s := by
  cases s with
  | ended => rfl
  | talking acts got =>
    rcases strip_cases acts with hnil | ⟨bytes, rest, hsay, -⟩ | ⟨n, rest, hhear, -⟩
    · simp [talking, Lib.Talk.program, Lib.Talk.resume, hnil, retries]
    · simp [talking, Lib.Talk.program, Lib.Talk.resume, hsay, retries]
    · simp [talking, Lib.Talk.program, Lib.Talk.resume, hhear, retries]

theorem resume_say_fail (hne : bytes ≠ []) {errno : Errno} (herrno : errno ≠ .EINTR) :
    talking.resume (now (.say bytes :: acts) got) (.failed errno) = .ended got := by
  simp [talking, Lib.Talk.program, now, strip_say hne, Lib.Talk.resume, retries, herrno]

theorem resume_say_zero (hne : bytes ≠ []) :
    talking.resume (now (.say bytes :: acts) got) (.sent 0) = .ended got := by
  simp [talking, Lib.Talk.program, now, strip_say hne, Lib.Talk.resume]

theorem resume_hear_fail (hpos : 0 < n) {errno : Errno} (herrno : errno ≠ .EINTR) :
    talking.resume (now (.hear n :: acts) got) (.failed errno) = .ended got := by
  simp [talking, Lib.Talk.program, now, strip_hear hpos, Lib.Talk.resume, retries, herrno]

theorem resume_hear_nil (hpos : 0 < n) :
    talking.resume (now (.hear n :: acts) got) (.received []) = .ended got := by
  simp [talking, Lib.Talk.program, now, strip_hear hpos, Lib.Talk.resume]

end

end Conn

open Conn

/-- In `S ptr` the program has `ptr` to send, and goes on as a `SendAll` does: up to `S []`, or to where it stops
without a value. -/
structure Conn.Sends {β : Type} (P : Program UInt8 Errno) (value : P.State → Option β) (S : Bytes → P.State) :
    Prop where
  request : ∀ ptr, ptr ≠ [] → P.request (S ptr) = .send ptr
  waits : ∀ ptr, ptr ≠ [] → value (S ptr) = none
  sent : ∀ ptr k, ptr ≠ [] → 0 < k → P.resume (S ptr) (.sent k) = S (ptr.drop k)
  again : ∀ ptr, ptr ≠ [] → P.resume (S ptr) (.failed .EINTR) = S ptr
  zero : ∀ ptr c, ptr ≠ [] → Fails P value (P.resume (S ptr) (.sent 0)) c
  gives_up : ∀ ptr errno c, ptr ≠ [] → errno ≠ .EINTR → Fails P value (P.resume (S ptr) (.failed errno)) c

theorem Conn.sends_say (acts : List (Act UInt8)) (got : Bytes) :
    Sends talking Lib.Talk.value fun ptr => now (.say ptr :: acts) got where
  request _ hne := request_say hne
  waits ptr hne := by simp only [now, Lib.Talk.value, strip_say hne, List.isEmpty_cons, Bool.false_eq_true, if_false]
  sent _ _ hne hk := resume_sent hne hk
  again _ _ := resume_eintr _
  zero _ c hne := by
    rw [resume_say_zero hne]
    exact fails_ended
  gives_up _ errno c hne herrno := by
    rw [resume_say_fail hne herrno]
    exact fails_ended

section

variable {β : Type} {P : Program UInt8 Errno} {value : P.State → Option β} {S : Bytes → P.State}

theorem Conn.Sends.blocked (h : Sends P value S) {ptr wire : Bytes} (hne : ptr ≠ []) (rx : Rx) :
    Fails P value (S ptr) ⟨rx, ⟨wire, []⟩⟩ :=
  ⟨_, _, .refl, by rw [h.request ptr hne, answer_send_nil], h.waits ptr hne⟩

theorem SendTurns.reaches (hS : Sends P value S) {turn : Bytes × ℕ → EStateM Stop Tx (Bytes × ℕ)}
    (h : SendTurns turn) (rx : Rx) (script : List SendAnswer)
    {turns nleft : ℕ} {ptr wire : Bytes} (hturns : script.length < turns) (hle : nleft ≤ ptr.length)
    (hlt : nleft < 2 ^ 64) :
    Reaches P value (S (ptr.take nleft)) ⟨rx, ⟨wire, script⟩⟩ (fun _ tx' s c => s = S [] ∧ c = ⟨rx, tx'⟩)
      (whileLoop (fun v => v.2 > 0) turn (fun _ => ()) .blocked turns (ptr, nleft) ⟨wire, script⟩) := by
  induction script generalizing turns nleft ptr wire with
  | nil =>
    obtain ⟨turns, rfl⟩ := Nat.exists_eq_succ_of_ne_zero (by omega : turns ≠ 0)
    rcases Nat.eq_zero_or_pos nleft with rfl | hpos
    · rw [whileLoop, if_neg (Nat.lt_irrefl 0), run_pure]
      exact ⟨_, _, .refl, rfl, rfl⟩
    · rw [whileLoop, if_pos hpos, run_bind_error (h.blocked ptr nleft wire)]
      apply hS.blocked
      apply List.ne_nil_of_length_pos
      rwa [List.length_take_of_le hle]
  | cons a script ih =>
    obtain ⟨turns, rfl⟩ := Nat.exists_eq_succ_of_ne_zero (by omega : turns ≠ 0)
    rw [List.length_cons] at hturns
    rcases Nat.eq_zero_or_pos nleft with rfl | hpos
    · rw [whileLoop, if_neg (Nat.lt_irrefl 0), run_pure]
      exact ⟨_, _, .refl, rfl, rfl⟩
    have hlen : (ptr.take nleft).length = nleft := List.length_take_of_le hle
    have hne : ptr.take nleft ≠ [] := by
      apply List.ne_nil_of_length_pos
      rwa [hlen]
    have hrequest := hS.request (ptr.take nleft) hne
    by_cases ha : a.Benign
    · rcases ha.cases with ⟨m, rfl⟩ | rfl
      · -- the pointer moves past the bytes that were taken
        have hk : 0 < moved m nleft := moved_pos hpos
        have hkle := moved_le m nleft
        rw [whileLoop, if_pos hpos, run_bind_ok (h.accepts ptr nleft wire m script hpos hlt)]
        apply reaches_call
        · rw [hrequest, answer_send_accept, hlen, List.take_take, min_eq_left hkle]
        · rw [hS.sent _ _ hne hk, List.drop_take]
          apply ih
          · omega
          · rw [List.length_drop]
            omega
          · omega
      · rw [whileLoop, if_pos hpos, run_bind_ok (h.interrupted ptr nleft wire script hpos hlt)]
        apply reaches_call
        · rw [hrequest, answer_send_fail]
        · rw [hS.again _ hne]
          exact ih (by omega) hle hlt
    · obtain ⟨stop, hstop⟩ := h.fails ptr nleft wire a script ha
      rw [whileLoop, if_pos hpos, run_bind_error hstop]
      rcases SendAnswer.cases_of_not_benign ha with rfl | ⟨errno, rfl, herrno⟩
      · refine (Path.call ?_ .refl).fails (hS.zero _ ⟨rx, ⟨wire, script⟩⟩ hne)
        rw [hrequest, answer_send_zero]
      · refine (Path.call ?_ .refl).fails (hS.gives_up _ errno ⟨rx, ⟨wire, script⟩⟩ hne herrno)
        rw [hrequest, answer_send_fail]

end

theorem ReceiveTurns.reaches {γ : Type} {limit : ℕ} {asked : γ → ℕ} {Holds : γ → Bytes → Prop} {eof : γ → Stop}
    {turn : γ → EStateM Stop Rx γ} (h : ReceiveTurns limit asked Holds eof turn) (value : γ → Bytes)
    (acts : List (Act UInt8)) (got : Bytes) (tx : Tx) (script : List RecvAnswer) {turns : ℕ} {v : γ}
    {input taken : Bytes} (hturns : script.length < turns) (hlt : asked v < limit) (hholds : Holds v taken) :
    Reaches talking Lib.Talk.value (now (.hear (asked v) :: acts) (got ++ taken)) ⟨⟨input, script⟩, tx⟩
      (fun a rx' s c => ∃ v' bytes, a = value v' ∧ Holds v' bytes ∧ bytes.length = taken.length + asked v ∧
        s = now acts (got ++ bytes) ∧ c = ⟨rx', tx⟩)
      (whileLoop (fun v => asked v > 0) turn value .blocked turns v ⟨input, script⟩) := by
  induction script generalizing turns v input taken with
  | nil =>
    obtain ⟨turns, rfl⟩ := Nat.exists_eq_succ_of_ne_zero (by omega : turns ≠ 0)
    rcases Nat.eq_zero_or_pos (asked v) with hzero | hpos
    · rw [whileLoop, hzero, if_neg (Nat.lt_irrefl 0), run_pure]
      exact ⟨_, _, .refl, v, taken, rfl, hholds, rfl, rfl, rfl⟩
    · obtain ⟨stop, rx, hstop⟩ := h.blocked v input
      rw [whileLoop, if_pos hpos, run_bind_error hstop]
      exact fails_hear hpos answer_recv_nil
  | cons a script ih =>
    obtain ⟨turns, rfl⟩ := Nat.exists_eq_succ_of_ne_zero (by omega : turns ≠ 0)
    rw [List.length_cons] at hturns
    rcases Nat.eq_zero_or_pos (asked v) with hzero | hpos
    · rw [whileLoop, hzero, if_neg (Nat.lt_irrefl 0), run_pure]
      exact ⟨_, _, .refl, v, taken, rfl, hholds, rfl, rfl, rfl⟩
    have hrequest : talking.request (now (.hear (asked v) :: acts) (got ++ taken)) = .recv (asked v) :=
      request_hear hpos
    cases a with
    | deliver m =>
      by_cases hinput : input = []
      · rw [hinput, whileLoop, if_pos hpos, run_bind_error (h.ended v taken m script hholds hpos hlt)]
        apply fails_of_answer _ (resume_hear_nil hpos)
        · exact ⟨⟨[], script⟩, tx⟩
        · rw [hrequest, answer_recv_deliver, List.take_nil, List.drop_nil]
      · obtain ⟨v', hturn, hasked, hholds'⟩ := h.deliver v taken input m script hholds hpos hlt hinput
        have hlen : 0 < input.length := List.length_pos_iff.2 hinput
        have hk : 0 < moved m (min (asked v) input.length) := moved_pos (by omega)
        have hle := moved_le m (min (asked v) input.length)
        have htake : (input.take (moved m (min (asked v) input.length))).length =
            moved m (min (asked v) input.length) := List.length_take_of_le (by omega)
        have hmore : input.take (moved m (min (asked v) input.length)) ≠ [] := by
          apply List.ne_nil_of_length_pos
          rwa [htake]
        rw [whileLoop, if_pos hpos, run_bind_ok hturn]
        apply reaches_call
        · rw [hrequest, answer_recv_deliver]
        · have hrest := @ih turns v' (input.drop (moved m (min (asked v) input.length))) _ (by omega)
            (by omega) hholds'
          rw [resume_received hpos hmore, htake, List.append_assoc, ← hasked]
          have hcount : taken.length + asked v = (taken ++ input.take (moved m (min (asked v) input.length))).length
              + asked v' := by
            rw [List.length_append, htake, hasked]
            omega
          rw [hcount]
          exact hrest
    | fail errno =>
      by_cases herrno : errno = .EINTR
      · subst herrno
        have hrest : Reaches talking Lib.Talk.value (now (.hear (asked v) :: acts) (got ++ taken))
            ⟨⟨input, script⟩, tx⟩ (fun a rx' s c => ∃ v' bytes, a = value v' ∧ Holds v' bytes ∧
              bytes.length = taken.length + asked v ∧ s = now acts (got ++ bytes) ∧ c = ⟨rx', tx⟩)
            (whileLoop (fun v => asked v > 0) turn value .blocked (turns + 1) v ⟨input, .fail .EINTR :: script⟩) := by
          rcases h.eintr v taken input script hholds hpos hlt with hturn | hturn
          · rw [whileLoop, if_pos hpos, run_bind_ok hturn]
            exact ih (by omega) hlt hholds
          · -- the interruption is repeated inside the turn
            have hsame : whileLoop (fun v => asked v > 0) turn value Stop.blocked (turns + 1) v
                  ⟨input, .fail .EINTR :: script⟩ =
                whileLoop (fun v => asked v > 0) turn value .blocked (turns + 1) v ⟨input, script⟩ :=
              whileLoop_again hpos hturn
            rw [hsame]
            exact ih (by omega) hlt hholds
        apply reaches_call
        · rw [hrequest, answer_recv_fail]
        · rwa [resume_eintr]
      · obtain ⟨stop, rx, hstop⟩ := h.fails v taken input errno script hholds herrno
        rw [whileLoop, if_pos hpos, run_bind_error hstop]
        apply fails_of_answer _ (resume_hear_fail hpos herrno)
        · exact ⟨⟨input, script⟩, tx⟩
        · rw [hrequest, answer_recv_fail]

/-! ### Functions that do acts one after the other -/

namespace Conn

variable {α β : Type} {acts acts' : List (Act UInt8)} {Got : α → Bytes → Prop} {Got' : β → Bytes → Prop}
  {x : EStateM Stop Conn α}

theorem plays_pure (a : α) (h : Got a []) : Plays [] Got (pure a) := by
  intro rest got c _
  refine ⟨_, _, .refl, [], h, ?_, rfl⟩
  rw [List.append_nil, List.nil_append]

theorem Plays.mono (hx : Plays acts Got x) {Got' : α → Bytes → Prop}
    (h : ∀ a heard, Got a heard → Got' a heard) : Plays acts Got' x := by
  intro rest got c hc
  apply (hx rest got c hc).mono
  rintro a t s₁ c₁ ⟨heard, hgot, hrest⟩
  exact ⟨heard, h a heard hgot, hrest⟩

theorem Plays.bind (hx : Plays acts Got x) {y : α → EStateM Stop Conn β}
    (hy : ∀ a heard, Got a heard → Plays acts' (fun b heard' => Got' b (heard ++ heard')) (y a)) :
    Plays (acts ++ acts') Got' (x >>= y) := by
  intro rest got c hc
  rw [List.append_assoc]
  apply (hx (acts' ++ rest) got c hc).bind
  rintro a t s₁ c₁ hpath ⟨heard, hgot, rfl, rfl⟩
  apply (hy a heard hgot rest (got ++ heard) c₁ (hpath.takesSome hc)).mono
  rintro b t s₂ c₂ ⟨heard', hgot', rfl, rfl⟩
  exact ⟨heard ++ heard', hgot', by rw [List.append_assoc], rfl⟩

theorem plays_forM {γ : Type} {l : List γ} {say : γ → EStateM Stop Conn Unit} {acts : γ → List (Act UInt8)}
    (h : ∀ a ∈ l, Plays (acts a) (fun _ heard => heard = []) (say a)) :
    Plays (l.flatMap acts) (fun _ heard => heard = []) (l.forM say) := by
  induction l with
  | nil => exact plays_pure () rfl
  | cons a l ih =>
    rw [List.forall_mem_cons] at h
    show Plays (acts a ++ l.flatMap acts) _ (say a >>= fun _ => l.forM say)
    apply h.1.bind
    rintro - heard rfl
    exact ih h.2

/-- A function that does these acts and no more does what the talk does. -/
theorem Plays.follows (hx : Plays acts Got x) :
    Follows TakesSome talking (.talking (strip acts) []) Lib.Talk.value Got x := by
  intro c hc
  have hreaches := hx [] [] c hc
  rw [List.append_nil] at hreaches
  apply hreaches.mono
  rintro a t s₁ c₁ ⟨heard, hgot, rfl, rfl⟩
  refine ⟨rfl, ?_, heard, ?_, hgot⟩
  · simp [talking, Lib.Talk.program, now, Lib.Talk.request, strip]
  · simp [now, Lib.Talk.value, strip]

end Conn

/-- A function that sends all of `data`. -/
def SendsAll (data : Bytes) (x : EStateM Stop Tx Unit) : Prop :=
  ∀ ⦃β : Type⦄ ⦃P : Program UInt8 Errno⦄ ⦃value : P.State → Option β⦄ ⦃S : Bytes → P.State⦄, Sends P value S →
    ∀ c : Conn, c.TakesSome →
      Reaches P value (S data) c (fun _ c' s c'' => s = S [] ∧ c'' = c' ∧ c'.rx = c.rx) (transmit x c)

theorem SendTurns.sendsAll {turn : Bytes × ℕ → EStateM Stop Tx (Bytes × ℕ)} (h : SendTurns turn)
    {ptr : Bytes} {n : ℕ} {x : EStateM Stop Tx Unit}
    (hx : ∀ tx, x tx = whileLoop (fun v => v.2 > 0) turn (fun _ => ()) .blocked (tx.script.length + 1) (ptr, n) tx)
    (hle : n ≤ ptr.length) (hlt : n < 2 ^ 64) : SendsAll (ptr.take n) x := by
  intro β P value S hS ⟨rx, ⟨wire, script⟩⟩ _
  apply Reaches.transmit
  rw [hx]
  apply (SendTurns.reaches hS h rx script (Nat.lt_succ_self _) hle hlt).mono
  rintro u tx s₁ c₁ ⟨rfl, rfl⟩
  exact ⟨rfl, rfl, rfl⟩

theorem SendsAll.plays {data : Bytes} {x : EStateM Stop Tx Unit} (h : SendsAll data x) :
    Plays [.say data] (fun _ heard => heard = []) (transmit x) := by
  intro rest got c hc
  apply (h (sends_say rest got) c hc).mono
  rintro u c₁ s₁ c₂ ⟨rfl, rfl, -⟩
  exact ⟨[], rfl, by rw [List.append_nil]; rfl, rfl⟩

theorem ReceiveTurns.plays {γ : Type} {limit : ℕ} {asked : γ → ℕ} {Holds : γ → Bytes → Prop} {eof : γ → Stop}
    {turn : γ → EStateM Stop Rx γ} (h : ReceiveTurns limit asked Holds eof turn) {value : γ → Bytes} {v : γ}
    {x : EStateM Stop Rx Bytes}
    (hx : ∀ rx, x rx = whileLoop (fun v => asked v > 0) turn value .blocked (rx.script.length + 1) v rx)
    (hlt : asked v < limit) (hholds : Holds v []) :
    Plays [.hear (asked v)] (fun a heard => heard.length = asked v ∧ ∃ v', a = value v' ∧ Holds v' heard)
      (receive x) := by
  intro rest got ⟨⟨input, script⟩, tx⟩ _
  apply Reaches.receive
  rw [hx]
  have hreaches := @h.reaches _ _ _ _ _ _ value rest got tx script (script.length + 1) v input [] (by omega)
    hlt hholds
  rw [List.append_nil] at hreaches
  apply hreaches.mono
  rintro a rx s₁ c₁ ⟨v', heard, hvalue, hholds', hlen, rfl, rfl⟩
  rw [List.length_nil, Nat.zero_add] at hlen
  exact ⟨heard, ⟨hlen, v', hvalue, hholds'⟩, rfl, rfl⟩

/-! ### Sessions -/

/-- The part of a session that is on the connection: the client is accepted at once, and nothing but its
connection can fail. -/
def Peer.serving {σ : Type} (session : EStateM Stop Peer σ) : EStateM Stop Conn σ := fun c =>
  match session ⟨[], none, none, c.rx, c.tx, none⟩ with
  | .ok s p => .ok s ⟨p.rx, p.tx⟩
  | .error stop p => .error stop ⟨p.rx, p.tx⟩

theorem Peer.serving_turn {σ : Type} {recvAll : EStateM Stop Rx σ} {print : σ → EStateM Stop Peer Unit}
    {sendAll : EStateM Stop Tx Unit} (c : Conn)
    (hprint : ∀ s rx, recvAll c.rx = .ok s rx → ∀ q, print s q = .ok () q) :
    serving (turn recvAll print sendAll) c =
      (do let s ← Conn.receive recvAll; Conn.transmit sendAll; return s : EStateM Stop Conn σ) c := by
  obtain ⟨rx, tx⟩ := c
  simp only at hprint
  cases hrecv : recvAll rx with
  | ok s rx' =>
    have hretried : Retried [] := List.forall_mem_nil _
    have hreceive : Conn.receive recvAll ⟨rx, tx⟩ = .ok s ⟨rx', tx⟩ := Conn.receive_ok hrecv
    rw [run_bind_ok hreceive, serving, Peer.run_turn ⟨hretried, rfl, rfl⟩ hrecv,
      run_bind_ok (hprint s rx' hrecv _)]
    cases hsend : sendAll tx with
    | ok u tx' =>
      have hpeer : transmit sendAll ⟨[], none, none, rx', tx, none⟩ = .ok u ⟨[], none, none, rx', tx', none⟩ :=
        txLens.lift_ok hsend
      have hconn : Conn.transmit sendAll ⟨rx', tx⟩ = .ok u ⟨rx', tx'⟩ := Conn.transmit_ok hsend
      rw [run_bind_ok hpeer, run_bind_ok hconn]
      rfl
    | error stop tx' =>
      have hpeer : transmit sendAll ⟨[], none, none, rx', tx, none⟩ = .error stop ⟨[], none, none, rx', tx', none⟩ :=
        txLens.lift_error hsend
      have hconn : Conn.transmit sendAll ⟨rx', tx⟩ = .error stop ⟨rx', tx'⟩ := Conn.transmit_error hsend
      rw [run_bind_error hpeer, run_bind_error hconn]
  | error stop rx' =>
    have hreceive : Conn.receive recvAll ⟨rx, tx⟩ = .error stop ⟨rx', tx⟩ := Conn.receive_error hrecv
    have hpeer : receive recvAll ⟨[], none, none, rx, tx, none⟩ = .error stop ⟨[], none, none, rx', tx, none⟩ :=
      rxLens.lift_error hrecv
    have hturn : turn recvAll print sendAll ⟨[], none, none, rx, tx, none⟩ =
        .error stop ⟨[], none, none, rx', tx, none⟩ := by
      rw [turn, Lib.run_get_bind, accept, pure_bind, check, pure_bind, pure_bind, run_bind_error hpeer]
    rw [run_bind_error hreceive, serving, hturn]

theorem Peer.serving_plays {σ : Type} {recvAll : EStateM Stop Rx σ} {print : σ → EStateM Stop Peer Unit}
    {sendAll : EStateM Stop Tx Unit} {n : ℕ} {reply : Bytes} {Got : σ → Bytes → Prop}
    (hrecv : Plays [.hear n] Got (Conn.receive recvAll))
    (hsend : Plays [.say reply] (fun _ heard => heard = []) (Conn.transmit sendAll))
    (hprint : ∀ s heard, Got s heard → ∀ q, print s q = .ok () q) :
    Plays [.hear n, .say reply] Got (serving (turn recvAll print sendAll)) := by
  have hplays : Plays ([.hear n] ++ ([.say reply] ++ [])) Got
      (do let s ← Conn.receive recvAll; Conn.transmit sendAll; return s : EStateM Stop Conn σ) := by
    apply hrecv.bind
    intro s heard hgot
    apply hsend.bind
    rintro - heard' rfl
    apply plays_pure
    simpa using hgot
  intro rest got c hc
  rw [serving_turn c]
  · exact hplays rest got c hc
  · intro s rx hrun
    have hreaches := hrecv rest got c hc
    rw [Conn.receive_ok hrun] at hreaches
    obtain ⟨-, -, -, heard, hgot, -⟩ := hreaches
    exact hprint s heard hgot

end NetProg
