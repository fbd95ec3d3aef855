import NetProg.Lib.Loop
import NetProg.Lib.Schedule

/-!
# Loops that transfer a number of elements

A loop that calls its environment until nothing is left to transfer, and hears one answer of a script for
each call. An allowed answer takes what it offers off what is left; any other answer ends the loop, and at
the end of the script the call does not return. `TransferTurns.run_cases`: such a loop returns exactly if the
script offers enough before its first answer that is not allowed.
-/

namespace NetProg.Lib

variable {ε σ α γ β : Type}

/-- What one turn does with `left acc` elements still to transfer. `I` is what the turns keep. An answer that
offers nothing may be heard inside a turn that goes on. -/
structure TransferTurns (allowed : β → Prop) (offer : β → ℕ) (script : σ → List β) (left : γ → ℕ)
    (I : γ → σ → Prop) (turn : γ → EStateM ε σ γ) : Prop where
  moves : ∀ acc s a as, I acc s → 0 < left acc → script s = a :: as → allowed a →
    (∃ acc' s', turn acc s = .ok acc' s' ∧ script s' = as ∧ left acc' = left acc - offer a ∧ I acc' s') ∨
      ∃ s', turn acc s = turn acc s' ∧ script s' = as ∧ offer a = 0 ∧ I acc s'
  fails : ∀ acc s a as, I acc s → 0 < left acc → script s = a :: as → ¬ allowed a → ∃ e s', turn acc s = .error e s'
  blocked : ∀ acc s, 0 < left acc → script s = [] → ∃ e s', turn acc s = .error e s'

/-- The loop returns if enough is offered, and otherwise fails. -/
theorem TransferTurns.run_cases {allowed : β → Prop} {offer : β → ℕ} {script : σ → List β} {left : γ → ℕ}
    {I : γ → σ → Prop} {turn : γ → EStateM ε σ γ} (h : TransferTurns allowed offer script left I turn)
    (value : γ → α) (spent : ε) {turns : ℕ} {acc : γ} {s : σ} (hI : I acc s) (hturns : (script s).length < turns) :
    (Offers allowed offer (left acc) (script s) ∧
        ∃ a s', whileLoop (fun v => left v > 0) turn value spent turns acc s = .ok a s') ∨
      (¬ Offers allowed offer (left acc) (script s) ∧
        ∃ e s', whileLoop (fun v => left v > 0) turn value spent turns acc s = .error e s') := by
  obtain ⟨turns, rfl⟩ := Nat.exists_eq_succ_of_ne_zero (by omega : turns ≠ 0)
  generalize hscript : script s = answers at hturns ⊢
  induction answers generalizing turns acc s with
  | nil =>
    rcases Nat.eq_zero_or_pos (left acc) with hzero | hpos
    · exact .inl ⟨hzero ▸ offers_zero, _, s, whileLoop_leaves (by omega)⟩
    · obtain ⟨e, s', hturn⟩ := h.blocked acc s hpos hscript
      exact .inr ⟨not_offers_nil hpos, e, s', whileLoop_stopped hpos hturn⟩
  | cons a as ih =>
    rcases Nat.eq_zero_or_pos (left acc) with hzero | hpos
    · exact .inl ⟨hzero ▸ offers_zero, _, s, whileLoop_leaves (by omega)⟩
    rw [List.length_cons] at hturns
    obtain ⟨turns, rfl⟩ := Nat.exists_eq_succ_of_ne_zero (by omega : turns ≠ 0)
    rw [offers_cons hpos]
    by_cases ha : allowed a
    · simp only [ha, true_and]
      rcases h.moves acc s a as hI hpos hscript ha with
        ⟨acc', s', hturn, hrest, hleft, hI'⟩ | ⟨s', hturn, hrest, hnothing, hI'⟩
      · rw [← hleft, whileLoop, if_pos hpos, run_bind_ok hturn]
        exact ih hI' turns hrest (by omega)
      · have hsame : whileLoop (fun v => left v > 0) turn value spent (turns + 1 + 1) acc s =
            whileLoop (fun v => left v > 0) turn value spent (turns + 1 + 1) acc s' := whileLoop_again hpos hturn
        rw [hnothing, Nat.sub_zero, hsame]
        exact ih hI' (turns + 1) hrest (by omega)
    · obtain ⟨e, s', hturn⟩ := h.fails acc s a as hI hpos hscript ha
      exact .inr ⟨fun hboth => ha hboth.1, e, s', whileLoop_stopped hpos hturn⟩

end NetProg.Lib
