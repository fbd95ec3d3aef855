import NetProg.Lib.LineReader
import NetProg.Lib.Runs
import NetProg.Lib.Simulation

/-!
# Line readers whose source fails

A source may fail after it has given some elements. A reader that is in a line then has taken these elements
from the source, and the line it was reading is not returned. `takeLine_failed_iff` says when that is.

A caller that calls again after a failed call is a `Session`. What the calls have handed over and what the
source still has make up the stream as long as no call fails after it has taken an element, and not any more
behind one that does (`FailingReader.handed_iff`).
-/

namespace NetProg.Lib

section

variable {α ε σ : Type}

/-- `before s` is what the source gives until it fails, if it does so before it ends. -/
structure FailingSource (next : EStateM ε σ (ℤ × α)) (Inv : σ → Prop) (before : σ → Option (List α)) :
    Prop where
  gives : ∀ s a s', Inv s → next s = .ok (1, a) s' → before s = (before s').map (a :: ·)
  ends : ∀ s a s', Inv s → next s = .ok (0, a) s' → before s = none
  fails : ∀ s rc a s', Inv s → rc ≠ 1 → rc ≠ 0 → next s = .ok (rc, a) s' → before s = some []
  returns : ∀ s l, Inv s → before s = some l → ∃ r s', next s = .ok r s'

/-- A line with such room is open when the source fails, and has these elements. -/
structure FailsIn (stop : α → Bool) (room : ℕ) (before : Option (List α)) (l : List α) : Prop where
  before_eq : before = some l
  length_lt : l.length < room
  goesOn : ∀ a ∈ l, stop a = false

variable {next : EStateM ε σ (ℤ × α)} {stream : σ → List α} {Inv Benign : σ → Prop} {budget : σ → ℕ}
  {before : σ → Option (List α)} {stop : α → Bool} {room : ℕ} {line out : List α} {s s' : σ} {e : LineEnd}

theorem failsIn_zero {b : Option (List α)} {l : List α} : ¬ FailsIn stop 0 b l :=
  fun h => Nat.not_lt_zero _ h.length_lt

theorem failsIn_map_cons {b : Option (List α)} {a : α} :
    (∃ l, FailsIn stop (room + 1) (b.map (a :: ·)) l ∧ out = line ++ l) ↔
      stop a = false ∧ ∃ l, FailsIn stop room b l ∧ out = line ++ [a] ++ l := by
  constructor
  · rintro ⟨l, ⟨hbefore, hlen, hstop⟩, rfl⟩
    obtain ⟨l, hl, rfl⟩ := Option.map_eq_some_iff.1 hbefore
    obtain ⟨ha, hrest⟩ := List.forall_mem_cons.1 hstop
    exact ⟨ha, l, ⟨hl, Nat.lt_of_succ_lt_succ hlen, hrest⟩, by simp⟩
  · rintro ⟨ha, l, ⟨rfl, hlen, hstop⟩, rfl⟩
    exact ⟨a :: l, ⟨rfl, Nat.succ_lt_succ hlen, List.forall_mem_cons.2 ⟨ha, hstop⟩⟩, by simp⟩

theorem takeLine_failed_iff (line : List α) (h : Source next stream Inv Benign budget)
    (hf : FailingSource next Inv before) (hinv : Inv s) :
    (∃ s', takeLine next stop room line s = .ok (.failed, out) s') ↔
      ∃ l, FailsIn stop room (before s) l ∧ out = line ++ l := by
  induction room generalizing line s with
  | zero => simp [takeLine, failsIn_zero]
  | succ room ih =>
    rw [takeLine]
    rcases hnext : next s with ⟨⟨rc, a⟩, s₁⟩ | ⟨err, s₁⟩
    · rw [run_bind_ok hnext]
      have hinv₁ := h.inv s rc a s₁ hinv hnext
      simp only
      split_ifs with hone hstop hzero
      · subst hone
        rw [hf.gives s a s₁ hinv hnext, failsIn_map_cons]
        simp [hstop]
      · subst hone
        rw [hf.gives s a s₁ hinv hnext, failsIn_map_cons, ih _ hinv₁]
        simp [hstop]
      · subst hzero
        have hnone := hf.ends s a s₁ hinv hnext
        refine iff_of_false (by simp) ?_
        rintro ⟨l, hfails, -⟩
        exact absurd (hnone.symm.trans hfails.before_eq) (Option.some_ne_none l).symm
      · have hnil := hf.fails s rc a s₁ hinv hone hzero hnext
        constructor
        · rintro ⟨s', hrun⟩
          obtain ⟨rfl, -⟩ : line = out ∧ s₁ = s' := by simpa using hrun
          exact ⟨[], ⟨hnil, Nat.succ_pos room, List.forall_mem_nil _⟩, (List.append_nil line).symm⟩
        · rintro ⟨l, hfails, rfl⟩
          obtain rfl : [] = l := Option.some.inj (hnil.symm.trans hfails.before_eq)
          exact ⟨s₁, by rw [List.append_nil]; rfl⟩
    · rw [run_bind_error hnext]
      refine iff_of_false (by simp) ?_
      rintro ⟨l, hfails, -⟩
      obtain ⟨r, s', hret⟩ := hf.returns s l hinv hfails.before_eq
      rw [hnext] at hret
      cases hret

theorem takeLine_conserves (h : Source next stream Inv Benign budget) (hinv : Inv s)
    (hrun : takeLine next stop room line s = .ok (e, out) s') :
    ∃ taken, out = line ++ taken ∧ stream s = taken ++ stream s' := by
  induction room generalizing line s with
  | zero =>
    obtain ⟨⟨-, rfl⟩, rfl⟩ : (LineEnd.full = e ∧ line = out) ∧ s = s' := by simpa [takeLine] using hrun
    exact ⟨[], (List.append_nil line).symm, rfl⟩
  | succ room ih =>
    obtain ⟨rc, a, s₁, hnext, hcases⟩ := Source.takeLine_cases hrun
    have hinv₁ := h.inv s rc a s₁ hinv hnext
    have htakes := h.takes s rc a s₁ hinv hnext
    rcases hcases with ⟨rfl, -, -, rfl, rfl⟩ | ⟨rfl, -, hrest⟩ | ⟨rfl, -, rfl, rfl⟩ | ⟨hone, hzero, -, rfl, rfl⟩
    · have hstream : stream s = a :: stream s' := by simpa using htakes
      exact ⟨[a], rfl, hstream⟩
    · have hstream : stream s = a :: stream s₁ := by simpa using htakes
      obtain ⟨taken, rfl, htaken⟩ := ih hinv₁ hrest
      exact ⟨a :: taken, by simp, by rw [hstream, htaken]; rfl⟩
    · obtain ⟨hstream, hstream'⟩ : stream s = [] ∧ stream s' = [] := by simpa using htakes
      exact ⟨[], (List.append_nil out).symm, by rw [hstream, hstream']; rfl⟩
    · have hstream : stream s' = stream s := by simpa [hone, hzero] using htakes
      exact ⟨[], (List.append_nil out).symm, hstream.symm⟩

theorem takeLine_throws (h : Source next stream Inv Benign budget) {err thrown : ε}
    (hnext : ∀ s err s', Inv s → next s = .error err s' → err = thrown) (hinv : Inv s)
    (hrun : takeLine next stop room line s = .error err s') : err = thrown := by
  induction room generalizing line s with
  | zero => cases hrun
  | succ room ih =>
    rw [takeLine] at hrun
    rcases hcall : next s with ⟨⟨rc, a⟩, s₁⟩ | ⟨err', s₁⟩
    · rw [run_bind_ok hcall] at hrun
      simp only at hrun
      split_ifs at hrun
      · cases hrun
      · exact ih (h.inv s rc a s₁ hinv hcall) hrun
      · cases hrun
      · cases hrun
    · rw [run_bind_error hcall] at hrun
      cases hrun
      exact hnext s err s' hinv hcall

end

/-! ### Callers that call again -/

/-- What a caller gets from a call: a line, the report of a failure, or nothing as long as the call has not
returned. -/
inductive CallEnd (α : Type)
  | line (l : List α)
  | failure
  | waiting
  deriving DecidableEq, Repr

/-- What a caller sees of a call, by what it returns and what it throws. -/
def CallEnd.of {α β ε σ : Type} (returned : β → CallEnd α) (thrown : ε → CallEnd α) :
    EStateM.Result ε σ β → CallEnd α × σ
  | .ok r s => (returned r, s)
  | .error e s => (thrown e, s)

/-- The reader, what it has handed over so far, and whether the last call has not returned. -/
structure Session (σ α : Type) where
  state : σ
  handed : List α
  waiting : Bool

section

variable {κ α ε σ : Type}

/-- A session before its first call. -/
def Session.start (s : σ) : Session σ α := ⟨s, [], false⟩

/-- The next call, whatever the ones before have come to. A call that does not return is the last. -/
def Session.step (call : κ → σ → CallEnd α × σ) (s : Session σ α) (c : κ) : Session σ α :=
  if s.waiting then s
  else
    match call c s.state with
    | (.line l, state) => ⟨state, s.handed ++ l, false⟩
    | (.failure, state) => ⟨state, s.handed, false⟩
    | (.waiting, _) => { s with waiting := true }

/-- The call to come is not a call that does this. -/
def Session.Spares (Does : σ → κ → Prop) (s : Session σ α) (c : κ) : Prop := s.waiting = false → ¬ Does s.state c

theorem Session.not_spares_start {Does : σ → κ → Prop} {s : σ} {c : κ} (h : Does s c) :
    ¬ (Session.start s : Session σ α).Spares Does c :=
  fun hspares => hspares rfl h

/-- What a call can do to the stream. Only a failed call takes elements that it does not hand over, and it
does so if it `Loses` some. -/
structure FailingReader (call : κ → σ → CallEnd α × σ) (stream : σ → List α) (Inv : σ → Prop)
    (Loses : σ → κ → Prop) : Prop where
  line : ∀ c s l s', Inv s → call c s = (.line l, s') →
    Inv s' ∧ stream s = l ++ stream s' ∧ ¬ Loses s c
  failure : ∀ c s s', Inv s → call c s = (.failure, s') →
    Inv s' ∧ ∃ lost, stream s = lost ++ stream s' ∧ (Loses s c ↔ lost ≠ [])
  waiting : ∀ c s s', Inv s → call c s = (.waiting, s') → ¬ Loses s c

namespace FailingReader

variable {call : κ → σ → CallEnd α × σ} {stream : σ → List α} {Inv : σ → Prop} {Loses : σ → κ → Prop}
  {s : Session σ α} {c : κ}

/-- What a call takes from the stream is handed over, or lost if the call is one that loses something. -/
theorem step_cases (h : FailingReader call stream Inv Loses) (hinv : Inv s.state) :
    Inv (s.step call c).state ∧ ∃ got lost, (s.step call c).handed = s.handed ++ got ∧
      stream s.state = got ++ lost ++ stream (s.step call c).state ∧ (s.Spares Loses c ↔ lost = []) := by
  unfold Session.step
  by_cases hwaiting : s.waiting = true
  · rw [if_pos hwaiting]
    have hspares : s.Spares Loses c := fun hfalse => absurd hwaiting (by simp [hfalse])
    exact ⟨hinv, [], [], by simp, by simp, by simp [hspares]⟩
  · rw [if_neg hwaiting]
    have hspares : s.Spares Loses c ↔ ¬ Loses s.state c := by simp [Session.Spares, hwaiting]
    rw [hspares]
    rcases hcall : call c s.state with ⟨l | _ | _, s'⟩
    · obtain ⟨hinv', hstream, hkeeps⟩ := h.line c s.state l s' hinv hcall
      exact ⟨hinv', l, [], rfl, by simp [hstream], by simp [hkeeps]⟩
    · obtain ⟨hinv', lost, hstream, hloses⟩ := h.failure c s.state s' hinv hcall
      exact ⟨hinv', [], lost, by simp, by simp [hstream], by simp [hloses]⟩
    · exact ⟨hinv, [], [], by simp, by simp, by simp [h.waiting c s.state s' hinv hcall]⟩

/-- The elements that are not lost. -/
def left (stream : σ → List α) (s : Session σ α) : ℕ := s.handed.length + (stream s.state).length

theorem left_step (h : FailingReader call stream Inv Loses) (hinv : Inv s.state) :
    left stream (s.step call c) ≤ left stream s ∧
      (¬ s.Spares Loses c → left stream (s.step call c) < left stream s) := by
  obtain ⟨-, got, lost, hhanded, hstream, hlost⟩ := h.step_cases (c := c) hinv
  have hlen := congrArg List.length hstream
  have hlen' := congrArg List.length hhanded
  simp only [List.length_append] at hlen hlen'
  refine ⟨by unfold left; omega, fun hloses => ?_⟩
  have hpos := List.length_pos_iff.2 fun hnil => hloses (hlost.2 hnil)
  unfold left
  omega

/-- What the calls of a session have handed over and what the source still has are the stream, exactly if no
call has lost anything. -/
theorem handed_iff (h : FailingReader call stream Inv Loses) {r : σ} (hinv : Inv r) (cs : List κ) :
    (run (Session.step call) (.start r) cs).handed ++ stream (run (Session.step call) (.start r) cs).state =
        stream r ↔
      Along (Session.step call) (Session.Spares Loses) (.start r) cs := by
  constructor
  · intro heq
    by_contra hloses
    have hless : Inv (run (Session.step call) (.start r) cs).state ∧
        left stream (run (Session.step call) (.start r) cs) < (stream r).length := by
      apply run_spoiled (I := fun s : Session σ α => Inv s.state ∧ left stream s ≤ (stream r).length)
        (J := fun s : Session σ α => Inv s.state ∧ left stream s < (stream r).length) _ _ _ _ hloses
      · exact fun s c hs => ⟨(h.step_cases hs.1).1, (h.left_step hs.1).1.trans hs.2⟩
      · exact fun s c hs hc => ⟨(h.step_cases hs.1).1, ((h.left_step hs.1).2 hc).trans_le hs.2⟩
      · exact fun s c hs => ⟨(h.step_cases hs.1).1, (h.left_step hs.1).1.trans_lt hs.2⟩
      · exact ⟨hinv, by simp [left, Session.start]⟩
    have hlen := congrArg List.length heq
    rw [List.length_append] at hlen
    exact absurd hlen hless.2.ne
  · intro hspares
    have hkept : Inv (run (Session.step call) (.start r) cs).state ∧
        (run (Session.step call) (.start r) cs).handed ++
          stream (run (Session.step call) (.start r) cs).state = stream r := by
      refine run_invariant (I := fun s : Session σ α => Inv s.state ∧ s.handed ++ stream s.state = stream r)
        ?_ ⟨hinv, rfl⟩ hspares
      rintro s c ⟨hs, heq⟩ hc
      obtain ⟨hs', got, lost, hhanded, hstream, hlost⟩ := h.step_cases (c := c) hs
      refine ⟨hs', ?_⟩
      rw [hhanded, ← heq, hstream, hlost.1 hc, List.append_nil, List.append_assoc]
    exact hkept.2

/-- What a caller sees of a reader that takes a line. -/
def callEnd : EStateM.Result ε σ (LineEnd × List α) → CallEnd α × σ
  | .ok (.failed, _) s => (.failure, s)
  | .ok (_, l) s => (.line l, s)
  | .error _ s => (.waiting, s)

theorem callEnd_eq_line {x : EStateM.Result ε σ (LineEnd × List α)} {l : List α} {s' : σ}
    (h : callEnd x = (.line l, s')) : ∃ e, e ≠ .failed ∧ x = .ok (e, l) s' := by
  rcases x with ⟨⟨_ | _ | _ | _, out⟩, s₁⟩ | ⟨err, s₁⟩ <;> cases h
  · exact ⟨.stopped, by decide, rfl⟩
  · exact ⟨.full, by decide, rfl⟩
  · exact ⟨.ended, by decide, rfl⟩

theorem callEnd_eq_failure {x : EStateM.Result ε σ (LineEnd × List α)} {s' : σ}
    (h : callEnd x = (.failure, s')) : ∃ out, x = .ok (.failed, out) s' := by
  rcases x with ⟨⟨_ | _ | _ | _, out⟩, s₁⟩ | ⟨err, s₁⟩ <;> cases h
  exact ⟨out, rfl⟩

theorem callEnd_eq_waiting {x : EStateM.Result ε σ (LineEnd × List α)} {s' : σ}
    (h : callEnd x = (.waiting, s')) : ∃ err, x = .error err s' := by
  rcases x with ⟨⟨_ | _ | _ | _, out⟩, s₁⟩ | ⟨err, s₁⟩ <;> cases h
  exact ⟨err, rfl⟩

/-- A call that takes lines from a source loses what it has taken when the source fails in its line. -/
theorem of_source {next : EStateM ε σ (ℤ × α)} {Benign : σ → Prop} {budget : σ → ℕ}
    {before : σ → Option (List α)} {stop : κ → α → Bool} {room : κ → ℕ}
    (h : Source next stream Inv Benign budget) (hf : FailingSource next Inv before)
    (hcall : ∀ c s, Inv s → call c s = callEnd (takeLine next (stop c) (room c) [] s)) :
    FailingReader call stream Inv fun s c => ∃ l, FailsIn (stop c) (room c) (before s) l ∧ l ≠ [] where
  line c s l s' hinv hrun := by
    obtain ⟨e, he, htake⟩ := callEnd_eq_line ((hcall c s hinv).symm.trans hrun)
    obtain ⟨taken, hl, hstream⟩ := takeLine_conserves h hinv htake
    rw [List.nil_append] at hl
    refine ⟨(h.takeLine_eq_cut hinv htake).1, hl ▸ hstream, ?_⟩
    rintro ⟨lost, hfails, -⟩
    obtain ⟨s₁, hfailed⟩ := (takeLine_failed_iff [] h hf hinv).2 ⟨lost, hfails, rfl⟩
    rw [htake] at hfailed
    cases hfailed
    exact he rfl
  failure c s s' hinv hrun := by
    obtain ⟨out, htake⟩ := callEnd_eq_failure ((hcall c s hinv).symm.trans hrun)
    obtain ⟨taken, hout, hstream⟩ := takeLine_conserves h hinv htake
    rw [List.nil_append] at hout
    obtain ⟨l, hfails, hl⟩ := (takeLine_failed_iff [] h hf hinv).1 ⟨s', htake⟩
    rw [List.nil_append] at hl
    refine ⟨(h.takeLine_eq_cut hinv htake).1, taken, hstream, ?_⟩
    rw [← hout, hl]
    constructor
    · rintro ⟨l', hfails', hne⟩
      obtain rfl : l = l' := Option.some.inj (hfails.before_eq.symm.trans hfails'.before_eq)
      exact hne
    · exact fun hne => ⟨l, hfails, hne⟩
  waiting c s s' hinv hrun := by
    obtain ⟨err, htake⟩ := callEnd_eq_waiting ((hcall c s hinv).symm.trans hrun)
    rintro ⟨lost, hfails, -⟩
    obtain ⟨s₁, hfailed⟩ := (takeLine_failed_iff [] h hf hinv).2 ⟨lost, hfails, rfl⟩
    rw [htake] at hfailed
    cases hfailed

theorem of_simulates {τ : Type} {abs : τ → σ} {I : τ → Prop} {call' : κ → τ → CallEnd α × τ}
    (h : FailingReader call stream Inv Loses)
    (hcall : ∀ c t, I t → I (call' c t).2 ∧ call c (abs t) = ((call' c t).1, abs (call' c t).2)) :
    FailingReader call' (fun t => stream (abs t)) (fun t => I t ∧ Inv (abs t)) fun t c => Loses (abs t) c where
  line c t l t' ht hrun := by
    obtain ⟨hI, hsame⟩ := hcall c t ht.1
    rw [hrun] at hI hsame
    obtain ⟨hinv, hline⟩ := h.line c (abs t) l (abs t') ht.2 hsame
    exact ⟨⟨hI, hinv⟩, hline⟩
  failure c t t' ht hrun := by
    obtain ⟨hI, hsame⟩ := hcall c t ht.1
    rw [hrun] at hI hsame
    obtain ⟨hinv, hfailure⟩ := h.failure c (abs t) (abs t') ht.2 hsame
    exact ⟨⟨hI, hinv⟩, hfailure⟩
  waiting c t t' ht hrun := by
    have hsame := (hcall c t ht.1).2
    rw [hrun] at hsame
    exact h.waiting c (abs t) (abs t') ht.2 hsame

end FailingReader

theorem Session.run_handed_eq {τ : Type} {abs : τ → σ} {I : τ → Prop} {call : κ → σ → CallEnd α × σ}
    {call' : κ → τ → CallEnd α × τ}
    (hcall : ∀ c t, I t → I (call' c t).2 ∧ call c (abs t) = ((call' c t).1, abs (call' c t).2)) {t : τ}
    (ht : I t) (cs : List κ) :
    (run (step call') (start t) cs).handed = (run (step call) (start (abs t)) cs).handed := by
  suffices hsame : ∀ s : Session τ α, I s.state →
      (run (step call') s cs).handed = (run (step call) ⟨abs s.state, s.handed, s.waiting⟩ cs).handed from
    hsame (start t) ht
  induction cs with
  | nil => exact fun s _ => rfl
  | cons c cs ih =>
    intro s hs
    have hstep : step call ⟨abs s.state, s.handed, s.waiting⟩ c =
        ⟨abs (s.step call' c).state, (s.step call' c).handed, (s.step call' c).waiting⟩ ∧
          I (s.step call' c).state := by
      obtain ⟨hinv, hsame⟩ := hcall c s.state hs
      unfold step
      by_cases hwaiting : s.waiting = true
      · rw [if_pos hwaiting, if_pos hwaiting]
        exact ⟨rfl, hs⟩
      · rw [if_neg hwaiting, if_neg hwaiting, hsame]
        rcases hrun : call' c s.state with ⟨l | _ | _, t'⟩
        · exact ⟨rfl, by rw [hrun] at hinv; exact hinv⟩
        · exact ⟨rfl, by rw [hrun] at hinv; exact hinv⟩
        · exact ⟨rfl, hs⟩
    have hrest := ih (s.step call' c) hstep.2
    rw [← hstep.1] at hrest
    exact hrest

theorem CallEnd.of_simulates {β τ : Type} {I : τ → Prop} {abs : τ → σ} {returned : β → CallEnd α}
    {thrown : ε → CallEnd α} {x : EStateM ε τ β} {y : EStateM ε σ β} (h : Simulates I abs x y) {t : τ} (ht : I t) :
    I (CallEnd.of returned thrown (x t)).2 ∧ CallEnd.of returned thrown (y (abs t)) =
      ((CallEnd.of returned thrown (x t)).1, abs (CallEnd.of returned thrown (x t)).2) := by
  cases hrun : x t with
  | ok b t' =>
    obtain ⟨ht', hy⟩ := h.ok t b t' ht hrun
    rw [hy]
    exact ⟨ht', rfl⟩
  | error e t' =>
    obtain ⟨ht', hy⟩ := h.error t e t' ht hrun
    rw [hy]
    exact ⟨ht', rfl⟩

end

end NetProg.Lib
