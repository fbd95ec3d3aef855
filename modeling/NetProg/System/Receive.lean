import NetProg.Lib.Transfer
import NetProg.System.Stream

/-!
# Loops that receive an exact number of bytes

The `RecvAll` of the two libraries and the Python `recvall` keep different state between their calls of `recv`: a
pointer and a remaining count, an object that the caller gives, or a list of pieces. `ReceiveTurns` lists what one
turn of such a loop does, for variables that hold the bytes `got`. `Receiving` holds whenever such a loop tests
what is missing. `ReceiveTurns.readsExactly` is the total correctness of every such loop, and
`ReceiveTurns.exactReceive` sums up what it does with every stream, with the number it asks for in each call.
-/

namespace NetProg
open Lib (AtHead whileLoop whileLoop_cases)

variable {γ β : Type}

/-- What one turn does when `asked v` bytes are missing and the variables hold the bytes `got`. An
interruption is over with the turn, or the call is repeated in it. -/
structure ReceiveTurns (limit : ℕ) (asked : γ → ℕ) (Holds : γ → Bytes → Prop) (eof : γ → Stop)
    (turn : γ → EStateM Stop Rx γ) : Prop where
  deliver : ∀ v got input m script, Holds v got → 0 < asked v → asked v < limit → input ≠ [] →
    ∃ v', turn v ⟨input, .deliver m :: script⟩ =
        .ok v' ⟨input.drop (moved m (min (asked v) input.length)), script⟩ ∧
      asked v' = asked v - moved m (min (asked v) input.length) ∧
      Holds v' (got ++ input.take (moved m (min (asked v) input.length)))
  ended : ∀ v got m script, Holds v got → 0 < asked v → asked v < limit →
    turn v ⟨[], .deliver m :: script⟩ = .error (eof v) ⟨[], script⟩
  eintr : ∀ v got input script, Holds v got → 0 < asked v → asked v < limit →
    turn v ⟨input, .fail .EINTR :: script⟩ = .ok v ⟨input, script⟩ ∨
      turn v ⟨input, .fail .EINTR :: script⟩ = turn v ⟨input, script⟩
  fails : ∀ v got input errno script, Holds v got → errno ≠ .EINTR →
    ∃ stop rx, turn v ⟨input, .fail errno :: script⟩ = .error stop rx
  blocked : ∀ v input, ∃ stop rx, turn v ⟨input, []⟩ = .error stop rx

/-- What has been received when the loop tests what is missing. -/
structure Receiving (asked : γ → ℕ) (Holds : γ → Bytes → Prop) (n : ℕ) (input got : Bytes) (v : γ)
    (rx : Rx) : Prop where
  input_eq : input = got ++ rx.input
  length_eq : got.length + asked v = n
  holds : Holds v got

theorem Receiving.asked_lt {asked : γ → ℕ} {Holds : γ → Bytes → Prop} {n limit : ℕ} {input got : Bytes} {v : γ}
    {rx : Rx} (h : Receiving asked Holds n input got v rx) (hn : n < limit) : asked v < limit := by
  have hlen := h.length_eq
  omega

/-- Enough answers for what is missing, or for what there is and the end of the stream. -/
def Enough (asked : γ → ℕ) (v : γ) (rx : Rx) : Prop :=
  rx.Benign ∧ min (asked v) (rx.input.length + 1) ≤ rx.budget

theorem Enough.eintr {asked : γ → ℕ} {v : γ} {input : Bytes} {script : List RecvAnswer}
    (h : Enough asked v ⟨input, .fail .EINTR :: script⟩) : Enough asked v ⟨input, script⟩ :=
  ⟨h.1.cons.2, by simpa using h.2⟩

/-- What is to hold of a loop that is asked for `n` bytes, of its runs on a stream, and of every call in
them. `buffer` is what it returns when it has received its argument. -/
structure ExactReceive (call : ℕ → EStateM Stop Rx β) (asked : γ → ℕ) (turn : γ → EStateM Stop Rx γ)
    (start : γ) (buffer : Bytes → Bytes) (n : ℕ) (run : Rx → EStateM.Result Stop Rx Bytes) (input : Bytes)
    (recvs : RecvSchedule) : Prop where
  enough : n ≤ input.length → ∃ N, ∀ k ≥ N, ∃ rx,
    run ⟨input, recvs.upTo k⟩ = .ok (buffer (input.take n)) rx ∧ rx.input = input.drop n
  short : input.length < n → ∃ N, ∀ k ≥ N, ∃ stop rx,
    run ⟨input, recvs.upTo k⟩ = .error stop rx ∧ stop.Reports n input.length ∧ rx.input = []
  /-- A turn begins with a call for the bytes that are missing then. -/
  calls : ∀ v, ∃ rest, turn v = (call (asked v) >>= rest)
  asks : ∀ k v rx, AtHead (fun v => asked v > 0) turn start ⟨input, recvs.upTo k⟩ v rx →
    ∃ got, input = got ++ rx.input ∧ got.length + asked v = n
  /-- The run takes these turns. -/
  loops : ∃ value : γ → Bytes,
    ∀ rx, run rx = whileLoop (fun v => asked v > 0) turn value .blocked (rx.script.length + 1) start rx

namespace ReceiveTurns

variable {limit n : ℕ} {asked : γ → ℕ} {Holds : γ → Bytes → Prop} {eof : γ → Stop}
  {turn : γ → EStateM Stop Rx γ} {v v' start : γ} {rx rx' : Rx} {input got : Bytes}

theorem returned (h : ReceiveTurns limit asked Holds eof turn) (hn : n < limit)
    (hI : Receiving asked Holds n input got v rx) (hpos : 0 < asked v) (hrun : turn v rx = .ok v' rx') :
    (∃ got', Receiving asked Holds n input got' v' rx') ∧ rx'.script.length < rx.script.length ∧
      (rx.Benign → rx'.Benign ∧ rx.budget + asked v' ≤ rx'.budget + asked v) := by
  obtain ⟨rest, script⟩ := rx
  have hlt : asked v < limit := hI.asked_lt hn
  induction script with
  | nil =>
    obtain ⟨stop, rx, hstop⟩ := h.blocked v rest
    rw [hstop] at hrun
    cases hrun
  | cons a script ih =>
    cases a with
    | deliver m =>
      by_cases hrest : rest = []
      · rw [hrest, h.ended v got m script hI.holds hpos hlt] at hrun
        cases hrun
      obtain ⟨v₁, hturn, hasked, hholds⟩ := h.deliver v got rest m script hI.holds hpos hlt hrest
      have hlen : 0 < rest.length := List.length_pos_iff.mpr hrest
      have hk : 0 < moved m (min (asked v) rest.length) := moved_pos (by omega)
      have hle := moved_le m (min (asked v) rest.length)
      rw [hturn] at hrun
      cases hrun
      refine ⟨⟨_, ?_, ?_, hholds⟩, Nat.lt_succ_self _, ?_⟩
      · rw [List.append_assoc, List.take_append_drop]
        exact hI.input_eq
      · have hcount := hI.length_eq
        rw [List.length_append, List.length_take_of_le (by omega), hasked]
        omega
      · intro hbenign
        refine ⟨hbenign.cons.2, ?_⟩
        rw [Rx.budget_deliver, hasked, Rx.budget_input rest (rest.drop _)]
        omega
    | fail errno =>
      by_cases herrno : errno = .EINTR
      · subst herrno
        have hI' : Receiving asked Holds n input got v ⟨rest, script⟩ := ⟨hI.input_eq, hI.length_eq, hI.holds⟩
        rcases h.eintr v got rest script hI.holds hpos hlt with hturn | hturn
        · rw [hturn] at hrun
          cases hrun
          exact ⟨⟨got, hI'⟩, Nat.lt_succ_self _, fun hbenign => ⟨hbenign.cons.2, by rw [Rx.budget_fail]⟩⟩
        · rw [hturn] at hrun
          obtain ⟨hrest, hless, hspent⟩ := ih hI' hrun
          exact ⟨hrest, hless.trans (Nat.lt_succ_self _), fun hbenign => hspent hbenign.cons.2⟩
      · obtain ⟨stop, rx, hstop⟩ := h.fails v got rest errno script hI.holds herrno
        rw [hstop] at hrun
        cases hrun

theorem failed (h : ReceiveTurns limit asked Holds eof turn) (hn : n < limit)
    (hI : Receiving asked Holds n input got v rx) (hpos : 0 < asked v) (henough : Enough asked v rx)
    {stop : Stop} (hrun : turn v rx = .error stop rx') : stop = eof v ∧ rx.input = [] ∧ rx'.input = [] := by
  obtain ⟨rest, script⟩ := rx
  have hlt : asked v < limit := hI.asked_lt hn
  induction script with
  | nil =>
    have hbudget : min (asked v) (rest.length + 1) ≤ 0 := henough.2
    omega
  | cons a script ih =>
    rcases henough.1.cons.1.cases with ⟨m, rfl⟩ | rfl
    · by_cases hrest : rest = []
      · rw [hrest, h.ended v got m script hI.holds hpos hlt] at hrun
        cases hrun
        exact ⟨rfl, hrest, rfl⟩
      · obtain ⟨v₁, hturn, -⟩ := h.deliver v got rest m script hI.holds hpos hlt hrest
        rw [hturn] at hrun
        cases hrun
    · rcases h.eintr v got rest script hI.holds hpos hlt with hturn | hturn
      · rw [hturn] at hrun
        cases hrun
      · rw [hturn] at hrun
        exact ih ⟨hI.input_eq, hI.length_eq, hI.holds⟩ henough.eintr hrun

theorem receiving (h : ReceiveTurns limit asked Holds eof turn) (hn : n < limit) (hstart : Holds start [])
    (hasked : asked start = n) (hhead : AtHead (fun v => asked v > 0) turn start rx v rx') :
    ∃ got, Receiving asked Holds n rx.input got v rx' := by
  apply hhead.invariant (I := fun v rx' => ∃ got, Receiving asked Holds n rx.input got v rx')
  · exact ⟨[], rfl, by rw [hasked, List.length_nil, Nat.zero_add], hstart⟩
  · rintro v₁ rx₁ v₂ rx₂ ⟨got, hI⟩ hpos hrun
    exact (h.returned hn hI hpos hrun).1

variable {value : γ → Bytes}

variable (value) in
/-- A run leaves when nothing is missing, or fails with a turn before. For every chance to read that it has
spent it has received a byte. -/
theorem run_received (h : ReceiveTurns limit asked Holds eof turn) (hn : n < limit) (hstart : Holds start [])
    (hasked : asked start = n) (rx : Rx) :
    (∃ v rx', whileLoop (fun v => asked v > 0) turn value .blocked (rx.script.length + 1) start rx =
          .ok (value v) rx' ∧
        n ≤ rx.input.length ∧ Holds v (rx.input.take n) ∧ rx'.input = rx.input.drop n ∧
        (rx.Benign → rx'.Benign ∧ rx.budget ≤ rx'.budget + n)) ∨
      ∃ v got rx' stop rx'',
        whileLoop (fun v => asked v > 0) turn value .blocked (rx.script.length + 1) start rx = .error stop rx'' ∧
        Receiving asked Holds n rx.input got v rx' ∧ 0 < asked v ∧ turn v rx' = .error stop rx'' ∧
        (rx.Benign → rx'.Benign ∧ rx.budget + asked v ≤ rx'.budget + n) := by
  have hturn : ∀ v₁ (rx₁ : Rx) v₂ (rx₂ : Rx),
      ((∃ got, Receiving asked Holds n rx.input got v₁ rx₁) ∧
          (rx.Benign → rx₁.Benign ∧ rx.budget + asked v₁ ≤ rx₁.budget + n)) → asked v₁ > 0 →
        turn v₁ rx₁ = .ok v₂ rx₂ →
      ((∃ got, Receiving asked Holds n rx.input got v₂ rx₂) ∧
          (rx.Benign → rx₂.Benign ∧ rx.budget + asked v₂ ≤ rx₂.budget + n)) ∧
        rx₂.script.length < rx₁.script.length := by
    rintro v₁ rx₁ v₂ rx₂ ⟨⟨got, hI⟩, hspent⟩ hpos hrun
    obtain ⟨hI', hless, hturned⟩ := h.returned hn hI hpos hrun
    refine ⟨⟨hI', fun hbenign => ?_⟩, hless⟩
    obtain ⟨hbenign₁, hbudget₁⟩ := hspent hbenign
    obtain ⟨hbenign₂, hbudget₂⟩ := hturned hbenign₁
    exact ⟨hbenign₂, by omega⟩
  rcases whileLoop_cases hturn ⟨h.receiving hn hstart hasked .start, fun hbenign => ⟨hbenign, by rw [hasked]⟩⟩
    (Nat.lt_succ_self rx.script.length) with
    ⟨v, rx', ⟨⟨got, hI⟩, hspent⟩, hdone, hrun⟩ | ⟨v, rx', stop, rx'', ⟨⟨got, hI⟩, hspent⟩, hpos, hstop, hrun⟩
  · obtain ⟨hinput, hlen, hholds⟩ := hI
    have hn : got.length = n := by omega
    refine .inl ⟨v, rx', hrun, ?_, ?_, ?_, fun hbenign => ?_⟩
    · rw [hinput, List.length_append]
      omega
    · rwa [hinput, ← hn, List.take_left]
    · rw [hinput, ← hn, List.drop_left]
    · obtain ⟨hbenign', hbudget⟩ := hspent hbenign
      exact ⟨hbenign', by omega⟩
  · exact .inr ⟨v, got, rx', stop, rx'', hrun, hI, hpos, hstop, hspent⟩

variable (value) in
/-- A run with enough answers leaves when nothing is missing, or meets the end of the stream before. -/
theorem run_cases (h : ReceiveTurns limit asked Holds eof turn) (hn : n < limit) (hstart : Holds start [])
    (hasked : asked start = n) (henough : Enough asked start rx) :
    (n ≤ rx.input.length ∧ ∃ v rx',
        whileLoop (fun v => asked v > 0) turn value .blocked (rx.script.length + 1) start rx = .ok (value v) rx' ∧
        Holds v (rx.input.take n) ∧ rx'.input = rx.input.drop n ∧ rx'.Benign ∧
        rx.budget ≤ rx'.budget + n) ∨
      (rx.input.length < n ∧ ∃ v rx',
        whileLoop (fun v => asked v > 0) turn value .blocked (rx.script.length + 1) start rx = .error (eof v) rx' ∧
        Holds v rx.input ∧ rx.input.length + asked v = n ∧ rx'.input = []) := by
  rcases h.run_received value hn hstart hasked rx with
    ⟨v, rx', hrun, hle, hholds, hrest, hspent⟩ | ⟨v, got, rx', stop, rx'', hrun, hI, hpos, hstop, hspent⟩
  · exact .inl ⟨hle, v, rx', hrun, hholds, hrest, hspent henough.1⟩
  · obtain ⟨hbenign, hbudget⟩ := hspent henough.1
    have henough' : Enough asked v rx' := by
      have hlen := congrArg List.length hI.input_eq
      rw [List.length_append] at hlen
      have hmissing := hI.length_eq
      have hanswers := henough.2
      rw [hasked] at hanswers
      exact ⟨hbenign, by omega⟩
    obtain ⟨rfl, hnil, hnil'⟩ := h.failed hn hI hpos henough' hstop
    obtain ⟨hinput, hlen, hholds⟩ := hI
    rw [hnil, List.append_nil] at hinput
    rw [hinput]
    exact .inr ⟨by omega, v, rx'', hrun, hholds, hlen, hnil'⟩

theorem transferTurns (h : ReceiveTurns limit asked Holds eof turn) :
    Lib.TransferTurns RecvAnswer.Benign RecvAnswer.offer Rx.script asked
      (fun v rx => asked v < limit ∧ asked v ≤ rx.input.length ∧ ∃ got, Holds v got) turn where
  moves v rx a as hI hpos hscript ha := by
    obtain ⟨input, script⟩ := rx
    obtain ⟨hlt, hinput, got, hholds⟩ := hI
    cases hscript
    simp only at hinput
    rcases ha.cases with ⟨m, rfl⟩ | rfl
    · have hne : input ≠ [] := List.length_pos_iff.1 (by omega)
      obtain ⟨v', hturn, hasked, hholds'⟩ := h.deliver v got input m as hholds hpos hlt hne
      rw [min_eq_left hinput] at hturn hasked hholds'
      refine .inl ⟨v', _, hturn, rfl, ?_, ?_, ?_, _, hholds'⟩
      · rw [hasked, RecvAnswer.offer, sub_moved]
      · omega
      · rw [List.length_drop]
        omega
    · rcases h.eintr v got input as hholds hpos hlt with hturn | hturn
      · exact .inl ⟨v, _, hturn, rfl, rfl, hlt, hinput, got, hholds⟩
      · exact .inr ⟨_, hturn, rfl, rfl, hlt, hinput, got, hholds⟩
  fails v rx a as hI hpos hscript ha := by
    obtain ⟨input, script⟩ := rx
    obtain ⟨-, -, got, hholds⟩ := hI
    cases hscript
    obtain ⟨errno, rfl, herrno⟩ := RecvAnswer.exists_fail_of_not_benign ha
    exact h.fails v got input errno as hholds herrno
  blocked v rx hpos hscript := by
    obtain ⟨input, script⟩ := rx
    cases hscript
    exact h.blocked v input

variable (value) in
/-- The loop returns exactly if the peer sends enough and the kernel moves enough before it reports a failure. -/
theorem returns_iff (h : ReceiveTurns limit asked Holds eof turn) (hn : n < limit) (hstart : Holds start [])
    (hasked : asked start = n) (rx : Rx) :
    (∃ bytes rx', whileLoop (fun v => asked v > 0) turn value .blocked (rx.script.length + 1) start rx =
        .ok bytes rx') ↔
      n ≤ rx.input.length ∧ Lib.Offers RecvAnswer.Benign RecvAnswer.offer n rx.script := by
  by_cases hinput : n ≤ rx.input.length
  · have hI : asked start < limit ∧ asked start ≤ rx.input.length ∧ ∃ got, Holds start got := by
      rw [hasked]
      exact ⟨hn, hinput, [], hstart⟩
    rcases h.transferTurns.run_cases value .blocked hI (Nat.lt_succ_self rx.script.length) with
      ⟨hoffers, hrun⟩ | ⟨hoffers, e, rx', hrun⟩
    · exact iff_of_true hrun ⟨hinput, hasked ▸ hoffers⟩
    · refine iff_of_false ?_ fun hboth => hoffers (hasked ▸ hboth.2)
      rintro ⟨bytes, rx'', hok⟩
      rw [hrun] at hok
      cases hok
  · refine iff_of_false ?_ fun hboth => hinput hboth.1
    rintro ⟨bytes, rx', hok⟩
    rcases h.run_received value hn hstart hasked rx with ⟨v, rx₁, -, hle, -⟩ | ⟨v, got, rx₁, stop, rx₂, hrun, -⟩
    · exact hinput hle
    · rw [hrun] at hok
      cases hok

/-- The loop receives exactly what it is asked for. Its turns may depend on the length asked for. -/
theorem readsExactly {turn : ℕ → γ → EStateM Stop Rx γ} {start : ℕ → γ} {eof : ℕ → γ → Stop}
    (h : ∀ n, ReceiveTurns limit asked Holds (eof n) (turn n)) (hvalue : ∀ v got, Holds v got → value v = got)
    (heof : ∀ n v, (eof n v).IsEof) (hstart : ∀ n, Holds (start n) []) (hasked : ∀ n, asked (start n) = n) :
    Lib.ReadsExactly limit Rx.Benign Rx.input Rx.budget Stop.IsEof fun n rx =>
      whileLoop (fun v => asked v > 0) (turn n) value .blocked (rx.script.length + 1) (start n) rx where
  enough rx n hlt hbenign hinput hbudget := by
    have henough : Enough asked (start n) rx := by
      refine ⟨hbenign, ?_⟩
      rw [hasked]
      exact (min_le_left _ _).trans hbudget
    rcases (h n).run_cases value hlt (hstart n) (hasked n) henough with ⟨-, v, rx', hrun, hholds, hrest⟩ | ⟨hshort, -⟩
    · rw [hvalue v _ hholds] at hrun
      exact ⟨rx', hrun, hrest.2.1, hrest.1, hrest.2.2⟩
    · exact absurd hshort (Nat.not_lt_of_le hinput)
  ended rx n hlt hbenign hinput hbudget := by
    have henough : Enough asked (start n) rx := ⟨hbenign, (min_le_right _ _).trans hbudget⟩
    rcases (h n).run_cases value hlt (hstart n) (hasked n) henough with ⟨hle, -⟩ | ⟨-, v, rx', hrun, -, -, hrest⟩
    · exact absurd hinput (Nat.not_lt_of_le hle)
    · exact ⟨_, rx', hrun, heof n v, hrest⟩

/-- On every stream and schedule, if the error at the end of the stream reports what has come. -/
theorem exactReceive (h : ReceiveTurns limit asked Holds eof turn) {call : ℕ → EStateM Stop Rx β}
    (hcalls : ∀ v, ∃ rest, turn v = (call (asked v) >>= rest)) {buffer : Bytes → Bytes}
    (hvalue : ∀ v got, Holds v got → value v = buffer got) (hn : n < limit) (hstart : Holds start [])
    (hasked : asked start = n) (input : Bytes) (recvs : RecvSchedule)
    (hreports : ∀ v, Holds v input → input.length + asked v = n → input.length < n →
      (eof v).Reports n input.length) :
    ExactReceive call asked turn start buffer n
      (fun rx => whileLoop (fun v => asked v > 0) turn value .blocked (rx.script.length + 1) start rx) input
      recvs := by
  obtain ⟨N, hN⟩ := recvs.exists_budget (min n (input.length + 1))
  have henough : ∀ k ≥ N, Enough asked start ⟨input, recvs.upTo k⟩ := by
    intro k hk
    refine ⟨recvs.benign input k, ?_⟩
    rw [hasked]
    exact hN k hk input
  refine ⟨?_, ?_, hcalls, ?_, value, fun _ => rfl⟩
  · intro hle
    refine ⟨N, ?_⟩
    intro k hk
    rcases h.run_cases value hn hstart hasked (henough k hk) with
      ⟨-, v, rx, hrun, hholds, hrest, -⟩ | ⟨hlt, -⟩
    · rw [hvalue v _ hholds] at hrun
      exact ⟨rx, hrun, hrest⟩
    · exact absurd hlt (Nat.not_lt_of_le hle)
  · intro hlt
    refine ⟨N, ?_⟩
    intro k hk
    rcases h.run_cases value hn hstart hasked (henough k hk) with
      ⟨hle, -⟩ | ⟨-, v, rx, hrun, hholds, hlen, hrest⟩
    · exact absurd hlt (Nat.not_lt_of_le hle)
    · exact ⟨eof v, rx, hrun, hreports v hholds hlen hlt, hrest⟩
  · intro k v rx hhead
    obtain ⟨got, hI⟩ := h.receiving hn hstart hasked hhead
    exact ⟨got, hI.input_eq, hI.length_eq⟩

end ReceiveTurns

end NetProg
