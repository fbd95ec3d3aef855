import NetProg.Lib.Run

/-!
# Programs over two representations of a state

`abs` is what a state stands for. A program simulates one over the states that are stood for when the two do
the same and end in states of which one stands for the other. Programs that are put together from such
programs in the same way simulate each other.
-/

namespace NetProg.Lib

variable {ε σ τ α β : Type} {I : σ → Prop} {abs : σ → τ}

/-- In every state where `I` holds, `x` does what `y` does in the state it stands for, and keeps `I`. -/
structure Simulates (I : σ → Prop) (abs : σ → τ) (x : EStateM ε σ α) (y : EStateM ε τ α) : Prop where
  ok : ∀ s a s', I s → x s = .ok a s' → I s' ∧ y (abs s) = .ok a (abs s')
  error : ∀ s e s', I s → x s = .error e s' → I s' ∧ y (abs s) = .error e (abs s')

namespace Simulates

theorem pure (a : α) : Simulates I abs (Pure.pure a : EStateM ε σ α) (Pure.pure a) where
  ok s a' s' hs hrun := by
    cases hrun
    exact ⟨hs, rfl⟩
  error s e s' _ hrun := by cases hrun

theorem bind {x : EStateM ε σ α} {y : EStateM ε τ α} {f : α → EStateM ε σ β} {g : α → EStateM ε τ β}
    (h : Simulates I abs x y) (hrest : ∀ a, Simulates I abs (f a) (g a)) :
    Simulates I abs (x >>= f) (y >>= g) where
  ok s b s'' hs hrun := by
    obtain ⟨a, s', hx, hf⟩ := bind_eq_ok_iff.1 hrun
    obtain ⟨hs', hy⟩ := h.ok s a s' hs hx
    rw [run_bind_ok hy]
    exact (hrest a).ok s' b s'' hs' hf
  error s e s'' hs hrun := by
    cases hx : x s with
    | ok a s' =>
      obtain ⟨hs', hy⟩ := h.ok s a s' hs hx
      rw [run_bind_ok hx] at hrun
      rw [run_bind_ok hy]
      exact (hrest a).error s' e s'' hs' hrun
    | error e' s' =>
      rw [run_bind_error hx] at hrun
      cases hrun
      obtain ⟨hs', hy⟩ := h.error s e s'' hs hx
      exact ⟨hs', run_bind_error hy⟩

end Simulates

end NetProg.Lib
