import NetProg.System.Transcript

/-!
# Loops that take in a whole stream

The servers of a stream and the clients that print what they get receive what is there, with room for `size`
bytes, until the peer has closed the connection. `ChunkTurns` lists what one turn of such a loop does with
each answer of the kernel. From that alone the loop follows a `Lib.sink` (`ChunkTurns.follows`), so next to a
talk that says something and leaves it takes in all of it (`ChunkTurns.exchange`).
-/

namespace NetProg
open Lib (whileLoop whileLoop_again run run_pure run_bind_ok run_bind_error)
open Lib.Duplex (step)
open Lib.Sink (State)

/-- The receiver that calls again after an interruption, or does not. -/
def insists (again : Bool) (e : Errno) : Bool := again && decide (e = .EINTR)

theorem insists_nil (again : Bool) : ∀ e ∈ ([] : List Errno), insists again e = true := by simp

theorem insists_EINTR : ∀ e ∈ [Errno.EINTR], insists true e = true := by decide

/-- What one turn does. `Holds v got` when `got` has been taken in, and `Fits s` when the loop can take in the
stream `s`. -/
structure ChunkTurns {ε γ : Type} (size : ℕ) (again : Bool) (Fits : Bytes → Prop) (eof : γ → Bool)
    (Holds : γ → Bytes → Prop) (turn : γ → EStateM ε Rx γ) : Prop where
  deliver : ∀ v got input m script, Holds v got → eof v = false → Fits (got ++ input) → input ≠ [] →
    ∃ v', turn v ⟨input, .deliver m :: script⟩ = .ok v' ⟨input.drop (moved m (min size input.length)), script⟩ ∧
      eof v' = false ∧ Holds v' (got ++ input.take (moved m (min size input.length)))
  ended : ∀ v got m script, Holds v got → eof v = false → Fits got →
    ∃ v', turn v ⟨[], .deliver m :: script⟩ = .ok v' ⟨[], script⟩ ∧ eof v' = true ∧ Holds v' got
  repeats : again = true → ∀ v got input script, Holds v got →
    turn v ⟨input, .fail .EINTR :: script⟩ = turn v ⟨input, script⟩
  fails : ∀ v got input errno script, Holds v got → insists again errno = false →
    ∃ e rx, turn v ⟨input, .fail errno :: script⟩ = .error e rx
  blocked : ∀ v got input, Holds v got → ∃ e rx, turn v ⟨input, []⟩ = .error e rx

section

variable {ε α γ : Type} {size : ℕ} {again : Bool} {Fits : Bytes → Prop} {eof : γ → Bool}
  {Holds : γ → Bytes → Prop} {turn : γ → EStateM ε Rx γ} {value : γ → α} {spent : ε}

theorem ChunkTurns.reaches (h : ChunkTurns size again Fits eof Holds turn) (hsize : 0 < size) (tx : Tx)
    (script : List RecvAnswer) {turns : ℕ} {v : γ} {input got : Bytes} (hturns : script.length < turns)
    (heof : eof v = false) (hholds : Holds v got) (hfits : Fits (got ++ input)) :
    Conn.Reaches (Lib.Sink.program size hsize (insists again)) Lib.Sink.value (.reading got)
      ⟨⟨input, script⟩, tx⟩
      (fun a rx' s c => ∃ v', a = value v' ∧ Holds v' (got ++ input) ∧ s = .ended (got ++ input) ∧
        c = ⟨rx', tx⟩)
      (whileLoop (fun v => eof v = false) turn value spent turns v ⟨input, script⟩) := by
  induction script generalizing turns v input got with
  | nil =>
    obtain ⟨turns, rfl⟩ := Nat.exists_eq_succ_of_ne_zero (by omega : turns ≠ 0)
    obtain ⟨e, rx, hstop⟩ := h.blocked v got input hholds
    rw [whileLoop, if_pos heof, run_bind_error hstop]
    exact ⟨_, _, .refl, Conn.answer_recv_nil, rfl⟩
  | cons a script ih =>
    obtain ⟨turns, rfl⟩ := Nat.exists_eq_succ_of_ne_zero (by omega : turns ≠ 0)
    rw [List.length_cons] at hturns
    cases a with
    | deliver m =>
      by_cases hinput : input = []
      · subst hinput
        rw [List.append_nil] at hfits ⊢
        obtain ⟨turns, rfl⟩ := Nat.exists_eq_succ_of_ne_zero (by omega : turns ≠ 0)
        obtain ⟨v', hturn, heof', hholds'⟩ := h.ended v got m script hholds heof hfits
        rw [whileLoop, if_pos heof, run_bind_ok hturn, whileLoop, if_neg (by rw [heof']; exact Bool.noConfusion),
          run_pure]
        refine ⟨.ended got, ⟨⟨[], script⟩, tx⟩, .call Conn.answer_recv_deliver ?_, v', rfl, hholds', rfl, rfl⟩
        rw [List.take_nil, List.drop_nil]
        exact .refl
      · obtain ⟨v', hturn, heof', hholds'⟩ := h.deliver v got input m script hholds heof hfits hinput
        have hlen := List.length_pos_iff.2 hinput
        have hcount : 0 < moved m (min size input.length) := moved_pos (by omega)
        have htake : input.take (moved m (min size input.length)) ≠ [] := by
          apply List.ne_nil_of_length_pos
          rw [List.length_take]
          omega
        have hall : got ++ input.take (moved m (min size input.length)) ++
            input.drop (moved m (min size input.length)) = got ++ input := by
          rw [List.append_assoc, List.take_append_drop]
        have hrest := @ih turns v' (input.drop (moved m (min size input.length))) _ (by omega) heof' hholds'
          (by rwa [hall])
        rw [hall] at hrest
        rw [whileLoop, if_pos heof, run_bind_ok hturn]
        apply Conn.reaches_call Conn.answer_recv_deliver
        simp only [Lib.Sink.program, Lib.Sink.resume, List.isEmpty_iff, if_neg htake]
        exact hrest
    | fail errno =>
      cases hinsists : insists again errno with
      | true =>
        obtain ⟨hagain, rfl⟩ : again = true ∧ errno = .EINTR := by simpa [insists] using hinsists
        have hsame : whileLoop (fun v => eof v = false) turn value spent (turns + 1) v
              ⟨input, .fail .EINTR :: script⟩ =
            whileLoop (fun v => eof v = false) turn value spent (turns + 1) v ⟨input, script⟩ :=
          whileLoop_again heof (h.repeats hagain v got input script hholds)
        rw [hsame]
        apply Conn.reaches_call Conn.answer_recv_fail
        simp only [Lib.Sink.program, Lib.Sink.resume, hinsists, if_true]
        exact ih (by omega) heof hholds hfits
      | false =>
        obtain ⟨e, rx, hstop⟩ := h.fails v got input errno script hholds hinsists
        rw [whileLoop, if_pos heof, run_bind_error hstop]
        refine ⟨.failed got, ⟨⟨input, script⟩, tx⟩, .call Conn.answer_recv_fail ?_, rfl, rfl⟩
        simp only [Lib.Sink.program, Lib.Sink.resume, hinsists]
        exact .refl

/-- The function that runs the loop does what a sink does, on a stream that it can take in. -/
theorem ChunkTurns.follows (h : ChunkTurns size again Fits eof Holds turn) (hsize : 0 < size) {v : γ}
    {x : EStateM ε Rx α}
    (hx : ∀ rx, x rx = whileLoop (fun v => eof v = false) turn value spent (rx.script.length + 1) v rx)
    (heof : eof v = false) (hholds : Holds v []) :
    Conn.Follows (fun c => Fits c.rx.input) (Lib.Sink.program size hsize (insists again)) (.reading [])
      Lib.Sink.value (fun a got => ∃ v', a = value v' ∧ Holds v' got) (Conn.receive x) := by
  rintro ⟨⟨input, script⟩, tx⟩ hfits
  have hreaches := @h.reaches _ _ _ _ _ _ _ _ _ value spent hsize tx script _ v input [] (Nat.lt_succ_self _) heof
    hholds hfits
  rw [← hx ⟨input, script⟩, List.nil_append] at hreaches
  cases hrun : x ⟨input, script⟩ with
  | ok a rx =>
    rw [hrun] at hreaches
    obtain ⟨s', c', hpath, v', hvalue, hholds', rfl, rfl⟩ := hreaches
    rw [Conn.receive_ok hrun]
    exact ⟨_, _, hpath, rfl, rfl, input, rfl, v', hvalue, hholds'⟩
  | error e rx =>
    rw [hrun] at hreaches
    rw [Conn.receive_error hrun]
    exact hreaches

end

/-! ### The socket of a sink -/

/-- What a sink has taken in. -/
def taken : State UInt8 → Bytes
  | .reading got => got
  | .ended got => got
  | .failed got => got

section

variable {size : ℕ} {hsize : 0 < size} {again : Errno → Bool}

theorem taken_path {s s' : (Lib.Sink.program size hsize again).State} {c c' : Conn}
    (h : Conn.Path (Lib.Sink.program size hsize again) s c s' c') :
    taken s ++ c.rx.input = taken s' ++ c'.rx.input := by
  induction h with
  | refl => rfl
  | @call s s' a c c₁ c' hanswer _ ih =>
    rw [← ih]
    obtain ⟨⟨input, script⟩, tx⟩ := c
    cases s with
    | reading got =>
      rcases script with _ | ⟨m | errno, script⟩
      · cases hanswer
      · cases hanswer
        simp only [Lib.Sink.program, Lib.Sink.resume]
        split
        · rename_i hnil
          have hsplit := List.take_append_drop (moved m (min size input.length)) input
          rw [List.isEmpty_iff.1 hnil, List.nil_append] at hsplit
          exact congrArg (got ++ ·) hsplit.symm
        · simp [taken]
      · cases hanswer
        simp only [Lib.Sink.program, Lib.Sink.resume]
        split <;> rfl
    | ended got => cases hanswer
    | failed got => cases hanswer

end

/-! ### A talk that is taken in -/

open Lib (Link Dialogue)
open Lib.Dialogue (meeting Underway)

/-- One that says something in pieces and leaves. -/
abbrev saying {errors : List Errno} (hretries : ∀ e ∈ errors, retries e = true) (pieces : List Bytes) :
    Lib.Speaker UInt8 Errno errors :=
  Lib.talk retries hretries (pieces.map .say)

/-- One that takes in a stream. -/
abbrev taking {errors : List Errno} {size : ℕ} (hsize : 0 < size) {again : Bool}
    (hagain : ∀ e ∈ errors, insists again e = true) : Lib.Speaker UInt8 Errno errors :=
  Lib.sink size hsize (insists again) hagain

section

variable {link : Link Errno} {pieces : List Bytes} {size : ℕ} {hsize : 0 < size} {again : Bool}
  {hagain : ∀ e ∈ link.errors, insists again e = true} {hretries : ∀ e ∈ link.errors, retries e = true}

variable (pieces hsize hagain hretries) in
theorem dialogue_sink : Dialogue (saying hretries pieces) (taking hsize hagain) pieces.flatten [] :=
  Lib.dialogue_listen pieces _ (fun _ => rfl) fun _ _ hdone => hdone.elim

theorem taken_prefix {s : Lib.Duplex (saying hretries pieces).toProgram (taking hsize hagain).toProgram}
    {l r : Bytes} (hu : Underway pieces.flatten [] s l r) : taken s.right <+: pieces.flatten := by
  have hprefix : r <+: pieces.flatten := (List.prefix_append r s.toRight).trans hu.left_le
  rcases hu.heard with ⟨-, -, hright⟩ | ⟨-, -, -, ⟨-, hright⟩, -, -⟩ | ⟨hright, -, -, -, -, -⟩
  · rwa [hright]
  · rwa [hright]
  · rwa [hright]

variable (hsize) in
theorem input_le (hlimit : link.limit = INT_MAX) (moves : List (Lib.Move Errno)) :
    (rightSocket link (meeting (saying hretries pieces) (taking hsize hagain)) moves).rx.input <+:
      pieces.flatten := by
  obtain ⟨l, r, hu⟩ := Lib.Dialogue.underway_run (dialogue_sink pieces hsize hagain hretries) moves
  obtain ⟨wire, hpath⟩ := @path_right _ _ _ (meeting (saying hretries pieces) (taking hsize hagain)) moves hlimit
  have htaken := @taken_path size hsize (insists again) _ _ _ _ hpath
  rw [List.append_nil] at htaken
  have hinput : taken (run (step link) (meeting (saying hretries pieces) (taking hsize hagain)) moves).right =
      (rightSocket link (meeting (saying hretries pieces) (taking hsize hagain)) moves).rx.input := htaken.symm
  rw [← hinput]
  exact taken_prefix hu

theorem value_sink {errors : List Errno} {hagain : ∀ e ∈ errors, insists again e = true} {heard said : Bytes}
    (s : (taking hsize hagain).State) (h : (taking hsize hagain).Finished heard said s) :
    Lib.Sink.value s = some heard := by
  rcases h with ⟨hat, hhalt⟩ | ⟨hend, -, -⟩
  · obtain ⟨-, rfl⟩ := hat
    cases hhalt
  · rw [show s = .ended heard from hend]
    rfl

/-- Next to a function that says something and leaves, the loop takes in all of it. -/
theorem ChunkTurns.exchange {ε α β γ : Type} {Fits : Bytes → Prop} {eof : γ → Bool} {Holds : γ → Bytes → Prop}
    {turn : γ → EStateM ε Rx γ} {value : γ → α} {spent : ε} (h : ChunkTurns size again Fits eof Holds turn) {v : γ}
    {x : EStateM ε Rx α}
    (hx : ∀ rx, x rx = whileLoop (fun v => eof v = false) turn value spent (rx.script.length + 1) v rx)
    (heof : eof v = false) (hholds : Holds v []) (hlimit : link.limit = INT_MAX) {f : EStateM Stop Conn β}
    (hf : Conn.Plays (pieces.map .say) (fun _ heard => heard = []) f)
    (hfits : ∀ s, s <+: pieces.flatten → Fits s) :
    Exchange link (saying hretries pieces) (taking hsize hagain) f (Conn.receive x) (fun _ => True)
      (fun a => ∃ v', a = value v' ∧ Holds v' pieces.flatten) := by
  have hwanted : Lib.Talk.wanted (pieces.map .say) ≤ ([] : Bytes).length := by
    have hwhole := Lib.Talk.wanted_says pieces []
    rw [List.append_nil] at hwhole
    rw [hwhole]
    exact le_rfl
  have hexchange := exchange_of_dialogue (dialogue_sink pieces hsize hagain hretries) hlimit hf.follows
    (h.follows hsize hx heof hholds) (takesSome_leftSocket _)
    (fun moves => hfits _ (input_le hsize hlimit moves)) (value_talk hwanted) value_sink
  exact hexchange.mono (fun _ _ => trivial) fun _ hright => hright

end

theorem Exchange.bind_right {ε ε' α β δ : Type} {link : Link Errno} {P Q : Lib.Speaker UInt8 Errno link.errors}
    {f : EStateM ε Conn α} {g : EStateM ε' Conn β} {Left : α → Prop} {Right : β → Prop} {Right' : δ → Prop}
    (h : Exchange link P Q f g Left Right) {post : β → EStateM ε' Conn δ}
    (hpost : ∀ b c, Right b → ∃ d, post b c = .ok d c ∧ Right' d) :
    Exchange link P Q f (g >>= post) Left Right' where
  left := h.left
  right moves d c hrun := by
    obtain ⟨b, c₁, hg, hd⟩ := Lib.bind_eq_ok_iff.1 hrun
    obtain ⟨d', hpost', hright⟩ := hpost b c₁ (h.right moves b c₁ hg)
    rw [hpost'] at hd
    cases hd
    exact hright
  returns hroomRight hroomLeft moves hfair := by
    obtain ⟨N, hN⟩ := h.returns hroomRight hroomLeft moves hfair
    refine ⟨N, fun n hn => ?_⟩
    obtain ⟨hf, b, c, hg⟩ := hN n hn
    obtain ⟨d, hpost', -⟩ := hpost b c (h.right _ b c hg)
    exact ⟨hf, d, c, by rw [Lib.run_bind_ok hg, hpost']⟩

end NetProg
