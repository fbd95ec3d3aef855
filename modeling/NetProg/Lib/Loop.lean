import NetProg.Lib.Run
import Mathlib.Data.Nat.Notation

/-!
# Loops and what holds at their heads

A `while` loop over variables `γ`, as a function of the number of turns it may still take. What one turn does
is a program of its own, `turn`, so that a fact about every turn is stated and proved of it alone. `AtHead`
is the relation between the start of the loop and the places where its test is evaluated: an invariant holds
at all of them (`AtHead.invariant`), and a loop whose turns use something up ends at one of them, either
because the test fails there or in the turn behind it (`whileLoop_cases`). Where it is known which turns
return, so is how the loop ends (`Turns.run_cases`).
-/

namespace NetProg.Lib

/-- `while (test) turn`, and then `value` of the variables. It comes to its test so many times at most, and fails
with `spent` behind the last of them. -/
def whileLoop {ε σ α γ : Type} (test : γ → Prop) [DecidablePred test] (turn : γ → EStateM ε σ γ) (value : γ → α)
    (spent : ε) : ℕ → γ → EStateM ε σ α
  | 0, _ => throw spent
  | turns + 1, acc =>
    if test acc then do
      let acc ← turn acc
      whileLoop test turn value spent turns acc
    else return value acc

variable {ε σ α γ : Type} {test : γ → Prop} {turn : γ → EStateM ε σ γ} {value : γ → α} {spent : ε}
  {turns : ℕ} {acc acc' : γ} {s s' : σ}

/-- The variables and the state with which a loop that starts with `acc` in `s` comes to its test. -/
inductive AtHead (test : γ → Prop) (turn : γ → EStateM ε σ γ) (acc : γ) (s : σ) : γ → σ → Prop
  | start : AtHead test turn acc s acc s
  | turned {acc₁ acc₂ : γ} {s₁ s₂ : σ} : AtHead test turn acc s acc₁ s₁ → test acc₁ →
      turn acc₁ s₁ = .ok acc₂ s₂ → AtHead test turn acc s acc₂ s₂

/-- What holds at the start and is kept by the turns holds whenever the test is evaluated. -/
theorem AtHead.invariant {I : γ → σ → Prop} (h : AtHead test turn acc s acc' s') (hinit : I acc s)
    (hturn : ∀ acc s acc' s', I acc s → test acc → turn acc s = .ok acc' s' → I acc' s') : I acc' s' := by
  induction h with
  | start => exact hinit
  | turned _ htest hrun ih => exact hturn _ _ _ _ ih htest hrun

section

variable [DecidablePred test]

theorem whileLoop_leaves (htest : ¬ test acc) :
    whileLoop test turn value spent (turns + 1) acc s = .ok (value acc) s := by
  rw [whileLoop, if_neg htest, run_pure]

theorem whileLoop_goesOn (htest : test acc) : whileLoop test turn value spent (turns + 1) acc s =
    (turn acc >>= whileLoop test turn value spent turns) s := by
  rw [whileLoop, if_pos htest]

theorem whileLoop_turned (htest : test acc) (hturn : turn acc s = .ok acc' s') :
    whileLoop test turn value spent (turns + 1) acc s = whileLoop test turn value spent turns acc' s' := by
  rw [whileLoop_goesOn htest, run_bind_ok hturn]

theorem whileLoop_stopped {e : ε} (htest : test acc) (hturn : turn acc s = .error e s') :
    whileLoop test turn value spent (turns + 1) acc s = .error e s' := by
  rw [whileLoop_goesOn htest, run_bind_error hturn]

theorem whileLoop_again (htest : test acc) (hturn : turn acc s = turn acc s') :
    whileLoop test turn value spent (turns + 1) acc s = whileLoop test turn value spent (turns + 1) acc s' := by
  rw [whileLoop_goesOn htest, whileLoop_goesOn htest]
  simp only [bind, EStateM.bind, hturn]

theorem whileLoop_congr {test' : γ → Prop} [DecidablePred test'] (h : ∀ acc, test acc ↔ test' acc) :
    whileLoop test turn value spent = whileLoop test' turn value spent := by
  funext turns
  induction turns with
  | zero => rfl
  | succ turns ih =>
    funext acc
    rw [whileLoop, whileLoop, ih]
    by_cases htest : test acc
    · rw [if_pos htest, if_pos ((h acc).1 htest)]
    · rw [if_neg htest, if_neg (mt (h acc).2 htest)]

/-- A loop whose turns keep `I` and use up `left`, with more turns than that, leaves where the test fails or
fails with a turn that it takes. -/
theorem whileLoop_cases {I : γ → σ → Prop} {left : σ → ℕ}
    (hturn : ∀ acc s acc' s', I acc s → test acc → turn acc s = .ok acc' s' → I acc' s' ∧ left s' < left s)
    (hinit : I acc s) (hturns : left s < turns) :
    (∃ acc' s', I acc' s' ∧ ¬ test acc' ∧ whileLoop test turn value spent turns acc s = .ok (value acc') s') ∨
      ∃ acc' s' e s'', I acc' s' ∧ test acc' ∧ turn acc' s' = .error e s'' ∧
        whileLoop test turn value spent turns acc s = .error e s'' := by
  induction turns generalizing acc s with
  | zero => exact absurd hturns (Nat.not_lt_zero _)
  | succ turns ih =>
    by_cases htest : test acc
    · rcases hrun : turn acc s with ⟨acc₁, s₁⟩ | ⟨e, s₁⟩
      · obtain ⟨hI, hlt⟩ := hturn acc s acc₁ s₁ hinit htest hrun
        rw [whileLoop_turned htest hrun]
        exact ih hI (by omega)
      · exact .inr ⟨acc, s, e, s₁, hinit, htest, hrun, whileLoop_stopped htest hrun⟩
    · exact .inl ⟨acc, s, hinit, htest, whileLoop_leaves htest⟩

end

/-! ### Turns that are known to return -/

/-- A turn from where `I` holds keeps it and uses something up, or fails as `Q` says. -/
def Turns (test : γ → Prop) (turn : γ → EStateM ε σ γ) (I : γ → σ → Prop) (left : σ → ℕ) (Q : ε → Prop) : Prop :=
  ∀ acc s, I acc s → test acc →
    (∃ acc' s', turn acc s = .ok acc' s' ∧ I acc' s' ∧ left s' < left s) ∨ ∃ e s', turn acc s = .error e s' ∧ Q e

namespace Turns

variable {I : γ → σ → Prop} {left : σ → ℕ} {Q : ε → Prop}

theorem kept (h : Turns test turn I left Q) (hinit : I acc s) (htest : test acc)
    (hturn : turn acc s = .ok acc' s') : I acc' s' ∧ left s' < left s := by
  rcases h acc s hinit htest with ⟨acc₁, s₁, hrun, hkept⟩ | ⟨e, s₁, hrun, -⟩
  · rw [hturn] at hrun
    cases hrun
    exact hkept
  · rw [hturn] at hrun
    cases hrun

theorem failed (h : Turns test turn I left Q) (hinit : I acc s) (htest : test acc) {e : ε}
    (hturn : turn acc s = .error e s') : Q e := by
  rcases h acc s hinit htest with ⟨acc₁, s₁, hrun, -⟩ | ⟨e', s₁, hrun, hfails⟩
  · rw [hturn] at hrun
    cases hrun
  · rw [hturn] at hrun
    cases hrun
    exact hfails

theorem atHead (h : Turns test turn I left Q) (hhead : AtHead test turn acc s acc' s') (hinit : I acc s) :
    I acc' s' :=
  hhead.invariant hinit fun _ _ _ _ hI htest hturn => (h.kept hI htest hturn).1

variable (value spent) in
theorem run_cases [DecidablePred test] (h : Turns test turn I left Q) (hinit : I acc s) (hturns : left s < turns) :
    (∃ acc' s', I acc' s' ∧ ¬ test acc' ∧ whileLoop test turn value spent turns acc s = .ok (value acc') s') ∨
      ∃ e s', Q e ∧ whileLoop test turn value spent turns acc s = .error e s' := by
  rcases whileLoop_cases (fun _ _ _ _ => h.kept) hinit hturns with
    hleaves | ⟨acc₁, s₁, e, s₂, hI, htest, hfails, hrun⟩
  · exact .inl hleaves
  · exact .inr ⟨e, s₂, h.failed hI htest hfails, hrun⟩

end Turns

end NetProg.Lib
