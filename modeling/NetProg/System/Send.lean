import NetProg.Lib.Loop
import NetProg.Lib.Transfer
import NetProg.System.Stream

/-!
# Loops that send a whole buffer

`SendAll` of the C library and of the C++ library keep the same two variables, a pointer and a remaining
count, and differ in the layers between them and the system call. `SendTurns` lists what one turn of such a
loop does with each answer of the kernel. From that alone, `Sending` holds whenever the loop tests its count,
and `SendTurns.completeSend` says what has become of the buffer when the loop ends, whatever the answers are.
-/

namespace NetProg
open Lib (AtHead whileLoop whileLoop_cases)

/-- The run has put `bytes` on the wire if it returned, and a part of them from the beginning otherwise. -/
def Puts (bytes : Bytes) (tx : Tx) : EStateM.Result Stop Tx Unit → Prop
  | .ok _ tx' => tx'.wire = tx.wire ++ bytes
  | .error _ tx' => ∃ sent, sent <+: bytes ∧ tx'.wire = tx.wire ++ sent

theorem Puts.bind {x y : EStateM Stop Tx Unit} {first second : Bytes} {tx : Tx} (hx : Puts first tx (x tx))
    (hy : ∀ tx', Puts second tx' (y tx')) : Puts (first ++ second) tx ((x >>= fun _ => y) tx) := by
  rcases hrun : x tx with ⟨u, tx₁⟩ | ⟨stop, tx₁⟩
  · rw [hrun] at hx
    have hfirst : tx₁.wire = tx.wire ++ first := hx
    have hsecond := hy tx₁
    rw [Lib.run_bind_ok hrun]
    rcases hrun' : y tx₁ with ⟨u', tx₂⟩ | ⟨stop, tx₂⟩
    · rw [hrun'] at hsecond
      have hwire : tx₂.wire = tx₁.wire ++ second := hsecond
      change tx₂.wire = tx.wire ++ (first ++ second)
      rw [hwire, hfirst, List.append_assoc]
    · rw [hrun'] at hsecond
      obtain ⟨sent, hinitial, hwire⟩ := hsecond
      refine ⟨first ++ sent, (List.prefix_append_right_inj first).2 hinitial, ?_⟩
      rw [hwire, hfirst, List.append_assoc]
  · rw [hrun] at hx
    obtain ⟨sent, hinitial, hwire⟩ := hx
    rw [Lib.run_bind_error hrun]
    exact ⟨sent, hinitial.trans (List.prefix_append first second), hwire⟩

/-- What one turn does: `v.1` is what `ptr` points to, and `v.2` is `nleft`. -/
structure SendTurns (turn : Bytes × ℕ → EStateM Stop Tx (Bytes × ℕ)) : Prop where
  accepts : ∀ ptr nleft wire m script, 0 < nleft → nleft < 2 ^ 64 →
    turn (ptr, nleft) ⟨wire, .accept m :: script⟩ =
      .ok (ptr.drop (moved m nleft), nleft - moved m nleft) ⟨wire ++ ptr.take (moved m nleft), script⟩
  interrupted : ∀ ptr nleft wire script, 0 < nleft → nleft < 2 ^ 64 →
    turn (ptr, nleft) ⟨wire, .fail .EINTR :: script⟩ = .ok (ptr, nleft) ⟨wire, script⟩
  fails : ∀ ptr nleft wire a script, ¬ a.Benign →
    ∃ stop, turn (ptr, nleft) ⟨wire, a :: script⟩ = .error stop ⟨wire, script⟩
  blocked : ∀ ptr nleft wire, turn (ptr, nleft) ⟨wire, []⟩ = .error .blocked ⟨wire, []⟩

/-- The loop has sent `sent` when it tests its count. -/
structure Sending (buf : Bytes) (n : ℕ) (wire sent : Bytes) (v : Bytes × ℕ) (tx : Tx) : Prop where
  take_eq : buf.take n = sent ++ v.1.take v.2
  length_eq : sent.length + v.2 = n
  left_le : v.2 ≤ v.1.length
  wire_eq : tx.wire = wire ++ sent

/-- What is to hold of a loop that is to send the first `n` bytes of `buf`, and of the run of it. -/
structure CompleteSend (turn : Bytes × ℕ → EStateM Stop Tx (Bytes × ℕ)) (buf : Bytes) (n : ℕ) (tx : Tx)
    (run : EStateM.Result Stop Tx Unit) : Prop where
  /-- Each byte of the buffer was accepted once and in order. -/
  returned : ∀ u tx', run = .ok u tx' → tx'.wire = tx.wire ++ buf.take n
  failed : ∀ stop tx', run = .error stop tx' → ∃ sent, sent <+: buf.take n ∧ tx'.wire = tx.wire ++ sent
  /-- Interruptions are no failures. A run that has not returned then waits for the kernel. -/
  uninterrupted : tx.Benign → ∀ stop tx', run = .error stop tx' → stop = .blocked
  /-- The remaining count is what has not been sent, whenever it is tested. -/
  counts : ∀ v tx', AtHead (fun v => v.2 > 0) turn (buf, n) tx v tx' →
    ∃ sent, Sending buf n tx.wire sent v tx'
  /-- The run takes these turns. -/
  loops : run = whileLoop (fun v => v.2 > 0) turn (fun _ => ()) .blocked (tx.script.length + 1) (buf, n) tx

theorem CompleteSend.puts {turn : Bytes × ℕ → EStateM Stop Tx (Bytes × ℕ)} {buf : Bytes} {n : ℕ} {tx : Tx}
    {run : EStateM.Result Stop Tx Unit} (h : CompleteSend turn buf n tx run) : Puts (buf.take n) tx run := by
  cases run with
  | ok u tx' => exact h.returned u tx' rfl
  | error stop tx' => exact h.failed stop tx' rfl

theorem Sending.start {buf : Bytes} {n : ℕ} (hle : n ≤ buf.length) (tx : Tx) :
    Sending buf n tx.wire [] (buf, n) tx :=
  ⟨rfl, Nat.zero_add n, hle, (List.append_nil _).symm⟩

theorem Sending.left_lt {buf wire sent : Bytes} {n limit : ℕ} {v : Bytes × ℕ} {tx : Tx}
    (h : Sending buf n wire sent v tx) (hn : n < limit) : v.2 < limit := by
  have hcount := h.length_eq
  omega

theorem Sending.accept {buf wire sent ptr wire' : Bytes} {n nleft k : ℕ} {script script' : List SendAnswer}
    (h : Sending buf n wire sent (ptr, nleft) ⟨wire', script⟩) (hk : k ≤ nleft) :
    Sending buf n wire (sent ++ ptr.take k) (ptr.drop k, nleft - k) ⟨wire' ++ ptr.take k, script'⟩ := by
  obtain ⟨htake, hlength, hleft, hwire⟩ := h
  simp only at htake hlength hleft hwire
  refine ⟨?_, ?_, ?_, ?_⟩
  · rw [htake, List.append_assoc, ← List.take_add, Nat.add_sub_cancel' hk]
  · rw [List.length_append, List.length_take_of_le (hk.trans hleft)]
    simp only
    omega
  · rw [List.length_drop]
    simp only
    omega
  · rw [hwire, List.append_assoc]

namespace SendTurns

variable {turn : Bytes × ℕ → EStateM Stop Tx (Bytes × ℕ)} {buf wire sent : Bytes} {n : ℕ}
  {v v' : Bytes × ℕ} {tx tx' : Tx}

theorem returned (h : SendTurns turn) (hn : n < 2 ^ 64) (hI : Sending buf n wire sent v tx)
    (hpos : v.2 > 0) (hrun : turn v tx = .ok v' tx') :
    (∃ sent', Sending buf n wire sent' v' tx') ∧ (∃ a, tx.script = a :: tx'.script) ∧
      tx.budget + v'.2 ≤ tx'.budget + v.2 := by
  obtain ⟨ptr, nleft⟩ := v
  obtain ⟨wire', _ | ⟨a, script⟩⟩ := tx
  · rw [h.blocked] at hrun
    cases hrun
  have hlt : nleft < 2 ^ 64 := hI.left_lt hn
  by_cases ha : a.Benign
  · rcases ha.cases with ⟨m, rfl⟩ | rfl
    · rw [h.accepts ptr nleft wire' m script hpos hlt] at hrun
      cases hrun
      have hk : 0 < moved m nleft := moved_pos hpos
      have hle := moved_le m nleft
      refine ⟨⟨_, hI.accept hle⟩, ⟨_, rfl⟩, ?_⟩
      rw [Tx.budget_accept, Tx.budget_wire wire' (wire' ++ ptr.take (moved m nleft))]
      simp only
      omega
    · rw [h.interrupted ptr nleft wire' script hpos hlt] at hrun
      cases hrun
      refine ⟨⟨sent, hI.take_eq, hI.length_eq, hI.left_le, hI.wire_eq⟩, ⟨_, rfl⟩, ?_⟩
      rw [Tx.budget_fail]
  · obtain ⟨stop, hstop⟩ := h.fails ptr nleft wire' a script ha
    rw [hstop] at hrun
    cases hrun

theorem failed (h : SendTurns turn) (hn : n < 2 ^ 64) (hI : Sending buf n wire sent v tx) (hpos : v.2 > 0)
    {stop : Stop} (hrun : turn v tx = .error stop tx') :
    tx'.wire = tx.wire ∧ (stop = .blocked ∧ tx.script = [] ∨ ∃ a ∈ tx.script, ¬ a.Benign) := by
  obtain ⟨ptr, nleft⟩ := v
  obtain ⟨wire', _ | ⟨a, script⟩⟩ := tx
  · rw [h.blocked] at hrun
    cases hrun
    exact ⟨rfl, .inl ⟨rfl, rfl⟩⟩
  have hlt : nleft < 2 ^ 64 := hI.left_lt hn
  by_cases ha : a.Benign
  · rcases ha.cases with ⟨m, rfl⟩ | rfl
    · rw [h.accepts ptr nleft wire' m script hpos hlt] at hrun
      cases hrun
    · rw [h.interrupted ptr nleft wire' script hpos hlt] at hrun
      cases hrun
  · obtain ⟨stop', hstop⟩ := h.fails ptr nleft wire' a script ha
    rw [hstop] at hrun
    cases hrun
    exact ⟨rfl, .inr ⟨a, List.mem_cons_self, ha⟩⟩

theorem sending (h : SendTurns turn) (hle : n ≤ buf.length) (hn : n < 2 ^ 64)
    (hhead : AtHead (fun v => v.2 > 0) turn (buf, n) tx v tx') :
    (∃ sent, Sending buf n tx.wire sent v tx') ∧ tx'.script <:+ tx.script := by
  apply hhead.invariant (I := fun v tx' => (∃ sent, Sending buf n tx.wire sent v tx') ∧
    tx'.script <:+ tx.script)
  · exact ⟨⟨[], .start hle tx⟩, List.suffix_rfl⟩
  · rintro v₁ tx₁ v₂ tx₂ ⟨⟨sent, hI⟩, hsuffix⟩ hpos hrun
    obtain ⟨hI', ⟨a, hscript⟩, -⟩ := h.returned hn hI hpos hrun
    exact ⟨hI', (hscript ▸ List.suffix_cons a tx₂.script).trans hsuffix⟩

theorem completeSend (h : SendTurns turn) (hle : n ≤ buf.length) (hn : n < 2 ^ 64) (tx : Tx) :
    CompleteSend turn buf n tx
      (whileLoop (fun v => v.2 > 0) turn (fun _ => ()) .blocked (tx.script.length + 1) (buf, n) tx) := by
  have hcounts : ∀ v tx', AtHead (fun v => v.2 > 0) turn (buf, n) tx v tx' →
      ∃ sent, Sending buf n tx.wire sent v tx' := fun v tx' hhead => (h.sending hle hn hhead).1
  have hturn : ∀ v₁ (tx₁ : Tx) v₂ (tx₂ : Tx), AtHead (fun v => v.2 > 0) turn (buf, n) tx v₁ tx₁ → v₁.2 > 0 →
      turn v₁ tx₁ = .ok v₂ tx₂ →
      AtHead (fun v => v.2 > 0) turn (buf, n) tx v₂ tx₂ ∧ tx₂.script.length < tx₁.script.length := by
    intro v₁ tx₁ v₂ tx₂ hhead hpos hrun
    obtain ⟨sent, hI⟩ := hcounts v₁ tx₁ hhead
    obtain ⟨-, ⟨a, hscript⟩, -⟩ := h.returned hn hI hpos hrun
    refine ⟨hhead.turned hpos hrun, ?_⟩
    rw [hscript, List.length_cons]
    exact Nat.lt_succ_self _
  rcases whileLoop_cases hturn .start (Nat.lt_succ_self tx.script.length) with
    ⟨v, tx', hhead, hdone, hrun⟩ | ⟨v, tx', stop, tx'', hhead, hpos, hstop, hrun⟩
  · obtain ⟨sent, hI⟩ := hcounts v tx' hhead
    have hsent : sent = buf.take n := by
      rw [hI.take_eq, Nat.eq_zero_of_not_pos hdone, List.take_zero, List.append_nil]
    rw [hrun]
    refine ⟨?_, nofun, fun _ => nofun, hcounts, hrun.symm⟩
    rintro u tx' ⟨⟩
    rw [hI.wire_eq, hsent]
  · obtain ⟨⟨sent, hI⟩, hsuffix⟩ := h.sending hle hn hhead
    obtain ⟨hwire, hwhy⟩ := h.failed hn hI hpos hstop
    rw [hrun]
    refine ⟨nofun, ?_, ?_, hcounts, hrun.symm⟩
    · rintro stop tx'' ⟨⟩
      exact ⟨sent, ⟨v.1.take v.2, hI.take_eq.symm⟩, hwire.trans hI.wire_eq⟩
    · rintro hbenign stop tx'' ⟨⟩
      rcases hwhy with ⟨hblocked, -⟩ | ⟨a, ha, hfails⟩
      · exact hblocked
      · exact absurd (hbenign a (hsuffix.subset ha)) hfails

/-- Nothing fails, and there is a call that moves bytes for each byte. The calls left over are at most as many
fewer. -/
theorem returns (h : SendTurns turn) (hle : n ≤ buf.length) (hn : n < 2 ^ 64) (hbenign : tx.Benign)
    (hbudget : n ≤ tx.budget) :
    ∃ tx', whileLoop (fun v => v.2 > 0) turn (fun _ => ()) .blocked (tx.script.length + 1) (buf, n) tx = .ok () tx' ∧
      tx'.wire = tx.wire ++ buf.take n ∧ tx'.Benign ∧ tx.budget ≤ tx'.budget + n := by
  have hturn : ∀ v₁ (tx₁ : Tx) v₂ (tx₂ : Tx),
      AtHead (fun v => v.2 > 0) turn (buf, n) tx v₁ tx₁ ∧ tx.budget + v₁.2 ≤ tx₁.budget + n → v₁.2 > 0 →
        turn v₁ tx₁ = .ok v₂ tx₂ →
      (AtHead (fun v => v.2 > 0) turn (buf, n) tx v₂ tx₂ ∧ tx.budget + v₂.2 ≤ tx₂.budget + n) ∧
        tx₂.script.length < tx₁.script.length := by
    rintro v₁ tx₁ v₂ tx₂ ⟨hhead, hspent⟩ hpos hrun
    obtain ⟨⟨sent, hI⟩, -⟩ := h.sending hle hn hhead
    obtain ⟨-, ⟨a, hscript⟩, hspent'⟩ := h.returned hn hI hpos hrun
    refine ⟨⟨hhead.turned hpos hrun, by omega⟩, ?_⟩
    rw [hscript, List.length_cons]
    exact Nat.lt_succ_self _
  rcases whileLoop_cases hturn ⟨.start, le_rfl⟩ (Nat.lt_succ_self tx.script.length) with
    ⟨v, tx', ⟨hhead, hspent⟩, hdone, hrun⟩ | ⟨v, tx', stop, tx'', ⟨hhead, hspent⟩, hpos, hstop, hrun⟩
  · obtain ⟨-, hsuffix⟩ := h.sending hle hn hhead
    exact ⟨tx', hrun, (h.completeSend hle hn tx).returned () tx' hrun,
      fun a ha => hbenign a (hsuffix.subset ha), by omega⟩
  · obtain ⟨⟨sent, hI⟩, hsuffix⟩ := h.sending hle hn hhead
    obtain ⟨-, hwhy⟩ := h.failed hn hI hpos hstop
    rcases hwhy with ⟨-, hnil⟩ | ⟨a, ha, hfails⟩
    · have hnone : tx'.budget = 0 := by rw [Tx.budget, hnil, List.countP_nil]
      omega
    · exact absurd (hbenign a (hsuffix.subset ha)) hfails

theorem transferTurns (h : SendTurns turn) (hn : n < 2 ^ 64) (wire : Bytes) :
    Lib.TransferTurns SendAnswer.Benign SendAnswer.offer Tx.script Prod.snd
      (fun v tx => ∃ sent, Sending buf n wire sent v tx) turn where
  moves v tx a as hI hpos hscript ha := by
    obtain ⟨sent, hI⟩ := hI
    obtain ⟨ptr, nleft⟩ := v
    obtain ⟨wire', script⟩ := tx
    cases hscript
    have hlt : nleft < 2 ^ 64 := hI.left_lt hn
    refine .inl ?_
    rcases ha.cases with ⟨m, rfl⟩ | rfl
    · rw [SendAnswer.offer, ← sub_moved]
      exact ⟨_, _, h.accepts ptr nleft wire' m as hpos hlt, rfl, rfl, _, hI.accept (moved_le m nleft)⟩
    · exact ⟨_, _, h.interrupted ptr nleft wire' as hpos hlt, rfl, rfl, sent, hI.take_eq, hI.length_eq, hI.left_le,
        hI.wire_eq⟩
  fails v tx a as hI hpos hscript ha := by
    obtain ⟨wire', script⟩ := tx
    cases hscript
    obtain ⟨stop, hstop⟩ := h.fails v.1 v.2 wire' a as ha
    exact ⟨stop, _, hstop⟩
  blocked v tx hpos hscript := by
    obtain ⟨wire', script⟩ := tx
    cases hscript
    exact ⟨_, _, h.blocked v.1 v.2 wire'⟩

/-- The loop returns exactly if the kernel takes all of the buffer before it reports a failure, and then the
buffer is on the wire. -/
theorem run_cases (h : SendTurns turn) (hle : n ≤ buf.length) (hn : n < 2 ^ 64) (tx : Tx) :
    (Lib.Offers SendAnswer.Benign SendAnswer.offer n tx.script ∧ ∃ tx',
        whileLoop (fun v => v.2 > 0) turn (fun _ => ()) .blocked (tx.script.length + 1) (buf, n) tx = .ok () tx' ∧
          tx'.wire = tx.wire ++ buf.take n) ∨
      (¬ Lib.Offers SendAnswer.Benign SendAnswer.offer n tx.script ∧ ∃ e tx',
        whileLoop (fun v => v.2 > 0) turn (fun _ => ()) .blocked (tx.script.length + 1) (buf, n) tx =
          .error e tx') := by
  have hstart : ∃ sent, Sending buf n tx.wire sent (buf, n) tx := ⟨[], .start hle tx⟩
  rcases (h.transferTurns hn tx.wire).run_cases (fun _ => ()) .blocked hstart (Nat.lt_succ_self tx.script.length) with
    ⟨hoffers, ⟨⟩, tx', hrun⟩ | hfails
  · exact .inl ⟨hoffers, tx', hrun, (h.completeSend hle hn tx).returned () tx' hrun⟩
  · exact .inr hfails

end SendTurns

end NetProg
