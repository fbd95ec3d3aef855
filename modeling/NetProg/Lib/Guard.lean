import NetProg.Lib.Run

/-!
# Guards

A guard takes something when it is made and gives it back when its block is left, by a return or by an
exception. If it cannot be made there is nothing to give back, and an error that is no exception does not
leave the block. What giving back restores holds whenever the block has been left (`guarded_leaves`).
-/

namespace NetProg.Lib

variable {ε σ α γ : Type} {unwinds : ε → Prop} [DecidablePred unwinds] {acquire : EStateM ε σ γ}
  {release : γ → σ → σ} {body : γ → EStateM ε σ α} {g : γ} {a : α} {e : ε} {s s₁ s₂ : σ}

/-- A block at whose end something is done. `unwinds` tells the exceptions from the other errors. -/
def leaving (unwinds : ε → Prop) [DecidablePred unwinds] (done : σ → σ) (block : EStateM ε σ α) :
    EStateM ε σ α := fun s =>
  match block s with
  | .ok a s' => .ok a (done s')
  | .error e s' => .error e (if unwinds e then done s' else s')

/-- `body` with a guard, which gives back without failing. -/
def guarded (unwinds : ε → Prop) [DecidablePred unwinds] (acquire : EStateM ε σ γ) (release : γ → σ → σ)
    (body : γ → EStateM ε σ α) : EStateM ε σ α := do
  let g ← acquire
  leaving unwinds (release g) (body g)

theorem guarded_not_made (h : acquire s = .error e s₁) :
    guarded unwinds acquire release body s = .error e s₁ := by
  rw [guarded, run_bind_error h]

theorem guarded_returns (h : acquire s = .ok g s₁) (hbody : body g s₁ = .ok a s₂) :
    guarded unwinds acquire release body s = .ok a (release g s₂) := by
  rw [guarded, run_bind_ok h, leaving, hbody]

theorem guarded_fails (h : acquire s = .ok g s₁) (hbody : body g s₁ = .error e s₂) :
    guarded unwinds acquire release body s = .error e (if unwinds e then release g s₂ else s₂) := by
  rw [guarded, run_bind_ok h, leaving, hbody]

/-- The run has left its block. -/
def Leaves (unwinds : ε → Prop) : EStateM.Result ε σ α → Prop
  | .ok _ _ => True
  | .error e _ => unwinds e

/-- What holds if the guard cannot be made, and holds again once it has given back, holds after every run that
has left the block. Inside the block `I` is kept. -/
theorem guarded_leaves {P : σ → Prop} {I : γ → σ → Prop}
    (hnot : ∀ e s', acquire s = .error e s' → P s') (hmade : ∀ g s', acquire s = .ok g s' → I g s')
    (hbody : ∀ g, Keeps (I g) (body g)) (hrelease : ∀ g s', I g s' → P (release g s'))
    (hleaves : Leaves unwinds (guarded unwinds acquire release body s)) :
    P (after (guarded unwinds acquire release body) s) := by
  rcases hacquire : acquire s with ⟨g, s₁⟩ | ⟨e, s₁⟩
  · have hinside := hbody g s₁ (hmade g s₁ hacquire)
    rcases hrun : body g s₁ with ⟨a, s₂⟩ | ⟨e, s₂⟩
    · rw [after_ok hrun] at hinside
      rw [after_ok (guarded_returns hacquire hrun)]
      exact hrelease g s₂ hinside
    · rw [after_error hrun] at hinside
      rw [guarded_fails hacquire hrun] at hleaves
      have hunwinds : unwinds e := hleaves
      rw [after_error (guarded_fails hacquire hrun), if_pos hunwinds]
      exact hrelease g s₂ hinside
  · rw [after_error (guarded_not_made hacquire)]
    exact hnot e s₁ hacquire

end NetProg.Lib
