import NetProg.Lib.Runs
import Mathlib.Order.Filter.AtTopBot.Basic

/-!
# What a run without end comes to

`stateAt n` is the state of an infinite run after its first `n` actions, and `LeadsTo state P Q` says that
whenever `P` holds, `Q` holds then or later. Such statements are put together by transitivity. What starts them is a
variant: as long as `Q` does not hold, no action makes it larger, and some actions, which never cease, make it
smaller (`leadsTo_of_variant`). Which actions these are may depend on the state, if the others leave it as it is
(`leadsTo_of_just`).
-/

namespace NetProg.Lib
open Filter

variable {σ α : Type} {step : σ → α → σ} {s : σ} {acts : ℕ → α}

/-- The state of an infinite run after its first `n` actions. -/
def stateAt (step : σ → α → σ) (s : σ) (acts : ℕ → α) (n : ℕ) : σ := run step s ((List.range n).map acts)

theorem stateAt_succ (n : ℕ) : stateAt step s acts (n + 1) = step (stateAt step s acts n) (acts n) := by
  simp only [stateAt, List.range_succ, List.map_append, run_append, List.map_cons, List.map_nil, run_singleton]

theorem stateAt_stable {I : σ → Prop} (hstep : ∀ n, I (stateAt step s acts n) → I (stateAt step s acts (n + 1)))
    {n m : ℕ} (h : n ≤ m) (hI : I (stateAt step s acts n)) : I (stateAt step s acts m) := by
  induction h with
  | refl => exact hI
  | step _ ih => exact hstep _ ih

/-- Whenever `P` holds, `Q` holds then or later. -/
def LeadsTo (state : ℕ → σ) (P Q : σ → Prop) : Prop := ∀ n, P (state n) → ∃ m ≥ n, Q (state m)

variable {state : ℕ → σ} {P Q R : σ → Prop}

theorem LeadsTo.trans (h : LeadsTo state P Q) (h' : LeadsTo state Q R) : LeadsTo state P R := by
  intro n hn
  obtain ⟨m, hm, hQ⟩ := h n hn
  obtain ⟨k, hk, hR⟩ := h' m hQ
  exact ⟨k, le_trans hm hk, hR⟩

section variant

variable (V : σ → ℕ) {helps : ℕ → Prop}
  (hkeep : ∀ n, ¬ helps n → P (state n) → ¬ Q (state n) →
    Q (state (n + 1)) ∨ P (state (n + 1)) ∧ V (state (n + 1)) ≤ V (state n))
  (hhelp : ∀ n, helps n → P (state n) → ¬ Q (state n) →
    Q (state (n + 1)) ∨ P (state (n + 1)) ∧ V (state (n + 1)) < V (state n))

include hkeep hhelp

theorem exists_or_variant_le {n : ℕ} (hP : P (state n)) (d : ℕ) :
    (∃ m ≥ n, Q (state m)) ∨ P (state (n + d)) ∧ V (state (n + d)) ≤ V (state n) := by
  induction d with
  | zero => exact .inr ⟨hP, le_rfl⟩
  | succ d ih =>
    rcases ih with ih | ⟨hPd, hVd⟩
    · exact .inl ih
    · by_cases hQ : Q (state (n + d))
      · exact .inl ⟨n + d, Nat.le_add_right n d, hQ⟩
      · have hstep : Q (state (n + d + 1)) ∨
            P (state (n + d + 1)) ∧ V (state (n + d + 1)) ≤ V (state (n + d)) := by
          by_cases hhelps : helps (n + d)
          · exact (hhelp (n + d) hhelps hPd hQ).imp_right fun h => ⟨h.1, h.2.le⟩
          · exact hkeep (n + d) hhelps hPd hQ
        rcases hstep with hQ' | ⟨hP', hV'⟩
        · exact .inl ⟨n + d + 1, by omega, hQ'⟩
        · exact .inr ⟨hP', hV'.trans hVd⟩

theorem leadsTo_of_variant (hfair : ∃ᶠ n in atTop, helps n) : LeadsTo state P Q := by
  intro n hP
  induction hV : V (state n) using Nat.strongRecOn generalizing n with
  | ind v ih =>
    obtain ⟨k, hk, hhelps⟩ := frequently_atTop.1 hfair n
    obtain ⟨d, rfl⟩ := Nat.exists_eq_add_of_le hk
    rcases exists_or_variant_le V hkeep hhelp hP d with hQ | ⟨hPd, hVd⟩
    · exact hQ
    · by_cases hQ : Q (state (n + d))
      · exact ⟨n + d, hk, hQ⟩
      · rcases hhelp (n + d) hhelps hPd hQ with hQ' | ⟨hP', hV'⟩
        · exact ⟨n + d + 1, by omega, hQ'⟩
        · obtain ⟨m, hm, hQ'⟩ := ih _ (by omega) (n + d + 1) hP' rfl
          exact ⟨m, by omega, hQ'⟩

end variant

section just

variable {ι : Type} {helps : ι → ℕ → Prop} {Measured : ℕ → σ → Prop}
  (hstep : ∀ n m, Measured m (state n) → ¬ Q (state n) →
    state (n + 1) = state n ∨ Q (state (n + 1)) ∨ ∃ m' < m, Measured m' (state (n + 1)))

include hstep

theorem same_or_less {n m : ℕ} (hm : Measured m (state n)) (hQ : ¬ Q (state n)) (d : ℕ) :
    state (n + d) = state n ∨ ∃ k ≥ n, Q (state k) ∨ ∃ m' < m, Measured m' (state k) := by
  induction d with
  | zero => exact .inl rfl
  | succ d ih =>
    rcases ih with hsame | hless
    · rcases hstep (n + d) m (hsame ▸ hm) (hsame ▸ hQ) with hnext | hnext
      · exact .inl (hnext.trans hsame)
      · exact .inr ⟨n + d + 1, by omega, hnext⟩
    · exact .inr hless

/-- In every state that has a measure some class of actions makes it fall, and no class ceases. -/
theorem leadsTo_of_just (hhelp : ∀ n m, Measured m (state n) → ¬ Q (state n) → ∃ i, ∀ k,
      state k = state n → helps i k → Q (state (k + 1)) ∨ ∃ m' < m, Measured m' (state (k + 1)))
    (hfair : ∀ i, ∃ᶠ k in atTop, helps i k) : LeadsTo state (fun s => ∃ m, Measured m s) Q := by
  rintro n ⟨m, hm⟩
  induction m using Nat.strongRecOn generalizing n with
  | ind m ih =>
    by_cases hQ : Q (state n)
    · exact ⟨n, le_rfl, hQ⟩
    · obtain ⟨i, hi⟩ := hhelp n m hm hQ
      obtain ⟨k, hk, hhelps⟩ := frequently_atTop.1 (hfair i) n
      have hless : ∃ k ≥ n, Q (state k) ∨ ∃ m' < m, Measured m' (state k) := by
        obtain ⟨d, rfl⟩ := Nat.exists_eq_add_of_le hk
        rcases same_or_less hstep hm hQ d with hsame | hless
        · exact ⟨n + d + 1, by omega, hi _ hsame hhelps⟩
        · exact hless
      obtain ⟨k', hk', hQ' | ⟨m', hlt, hm'⟩⟩ := hless
      · exact ⟨k', hk', hQ'⟩
      · obtain ⟨j, hj, hQj⟩ := ih m' hlt k' hm'
        exact ⟨j, le_trans hk' hj, hQj⟩

end just

end NetProg.Lib
