import Mathlib.Init

/-!
# Running stateful programs that can fail

Equations for `EStateM`, whose state survives a failure: what a run of a sequence is once the run of its
first part is known. `Keeps` is for what a program preserves, however it ends. A program on a part of the state
is one on the state (`Lens.lift`), which leaves the rest of it as it is.
-/

namespace NetProg.Lib

variable {ε σ α β : Type}

@[simp] theorem run_pure (a : α) (s : σ) : (pure a : EStateM ε σ α) s = .ok a s := rfl

@[simp] theorem run_throw (e : ε) (s : σ) : (throw e : EStateM ε σ α) s = .error e s := rfl

theorem run_bind_ok {x : EStateM ε σ α} {f : α → EStateM ε σ β} {a : α} {s s' : σ} (h : x s = .ok a s') :
    (x >>= f) s = f a s' := by
  simp only [bind, EStateM.bind, h]

theorem run_bind_error {x : EStateM ε σ α} {f : α → EStateM ε σ β} {e : ε} {s s' : σ}
    (h : x s = .error e s') : (x >>= f) s = .error e s' := by
  simp only [bind, EStateM.bind, h]

theorem bind_eq_ok_iff {x : EStateM ε σ α} {f : α → EStateM ε σ β} {b : β} {s s'' : σ} :
    (x >>= f) s = .ok b s'' ↔ ∃ a s', x s = .ok a s' ∧ f a s' = .ok b s'' := by
  cases hrun : x s with
  | ok a s' =>
    rw [run_bind_ok hrun]
    constructor
    · intro h
      exact ⟨a, s', rfl, h⟩
    · rintro ⟨a', s₁, heq, h⟩
      cases heq
      exact h
  | error e s' =>
    rw [run_bind_error hrun]
    refine iff_of_false nofun ?_
    rintro ⟨a, s₁, heq, -⟩
    cases heq

theorem run_get_bind (f : σ → EStateM ε σ β) (s : σ) : ((get : EStateM ε σ σ) >>= f) s = f s s := rfl

theorem run_modify_bind (g : σ → σ) (f : PUnit → EStateM ε σ β) (s : σ) :
    ((modify g : EStateM ε σ PUnit) >>= f) s = f ⟨⟩ (g s) := rfl

theorem run_forM_cons_ok {f : α → EStateM ε σ PUnit} {a : α} {as : List α} {s s' : σ}
    (h : f a s = .ok ⟨⟩ s') : (a :: as).forM f s = as.forM f s' :=
  run_bind_ok h

theorem run_forM_cons_error {f : α → EStateM ε σ PUnit} {a : α} {as : List α} {e : ε} {s s' : σ}
    (h : f a s = .error e s') : (a :: as).forM f s = .error e s' :=
  run_bind_error h

/-! ### Failures of another kind -/

section

variable {ε' : Type} (f : ε → ε') {x : EStateM ε σ α} {a : α} {e : ε} {s s' : σ}

theorem adapt_ok (h : x s = .ok a s') : EStateM.adaptExcept f x s = .ok a s' := by
  rw [EStateM.adaptExcept, h]

theorem adapt_error (h : x s = .error e s') : EStateM.adaptExcept f x s = .error (f e) s' := by
  rw [EStateM.adaptExcept, h]

end

/-! ### Invariants -/

/-- The state in which a run ends. -/
def after (x : EStateM ε σ α) (s : σ) : σ :=
  match x s with
  | .ok _ s' => s'
  | .error _ s' => s'

theorem after_ok {x : EStateM ε σ α} {a : α} {s s' : σ} (h : x s = .ok a s') : after x s = s' := by
  rw [after, h]

theorem after_error {x : EStateM ε σ α} {e : ε} {s s' : σ} (h : x s = .error e s') : after x s = s' := by
  rw [after, h]

/-- What holds before a run holds after it, whether the program returns or fails. -/
def Keeps (I : σ → Prop) (x : EStateM ε σ α) : Prop := ∀ s, I s → I (after x s)

variable {I : σ → Prop}

theorem Keeps.ok {x : EStateM ε σ α} (h : Keeps I x) {a : α} {s s' : σ} (hs : I s) (hrun : x s = .ok a s') :
    I s' :=
  after_ok hrun ▸ h s hs

theorem keeps_pure (a : α) : Keeps I (pure a : EStateM ε σ α) := fun _ hs => hs

theorem keeps_throw (e : ε) : Keeps I (throw e : EStateM ε σ α) := fun _ hs => hs

theorem keeps_get : Keeps I (get : EStateM ε σ σ) := fun _ hs => hs

theorem Keeps.bind {x : EStateM ε σ α} {f : α → EStateM ε σ β} (hx : Keeps I x) (hf : ∀ a, Keeps I (f a)) :
    Keeps I (x >>= f) := by
  intro s hs
  have hmid := hx s hs
  cases hrun : x s with
  | ok a s' =>
    rw [after_ok hrun] at hmid
    have hsame : after (x >>= f) s = after (f a) s' := by
      rw [after, run_bind_ok hrun, after]
    rw [hsame]
    exact hf a s' hmid
  | error e s' =>
    rw [after_error hrun] at hmid
    rwa [after_error (run_bind_error hrun)]

theorem Keeps.adapt {ε' : Type} {x : EStateM ε σ α} (h : Keeps I x) (f : ε → ε') :
    Keeps I (EStateM.adaptExcept f x) := by
  intro s hs
  have hafter := h s hs
  rcases hrun : x s with ⟨a, s'⟩ | ⟨e, s'⟩
  · rw [after_ok hrun] at hafter
    rwa [after_ok (adapt_ok f hrun)]
  · rw [after_error hrun] at hafter
    rwa [after_error (adapt_error f hrun)]

/-! ### A part of the state -/

/-- How to read a part of the state and how to replace it. -/
structure Lens (σ τ : Type) where
  get : σ → τ
  put : τ → σ → σ
  get_put : ∀ t s, get (put t s) = t
  put_put : ∀ t t' s, put t' (put t s) = put t' s

namespace Lens

variable {τ : Type} (l : Lens σ τ) {x : EStateM ε τ α} {a : α} {e : ε} {s s' : σ} {t : τ}

/-- Run a program on the part. -/
def lift (x : EStateM ε τ α) : EStateM ε σ α := fun s =>
  match x (l.get s) with
  | .ok a t => .ok a (l.put t s)
  | .error e t => .error e (l.put t s)

theorem lift_ok (h : x (l.get s) = .ok a t) : l.lift x s = .ok a (l.put t s) := by
  rw [lift, h]

theorem lift_error (h : x (l.get s) = .error e t) : l.lift x s = .error e (l.put t s) := by
  rw [lift, h]

theorem lift_congr {y : EStateM ε τ α} (h : x (l.get s) = y (l.get s)) : l.lift x s = l.lift y s := by
  rw [lift, lift, h]

theorem lift_cases (x : EStateM ε τ α) (s : σ) :
    (∃ a t, l.lift x s = .ok a (l.put t s)) ∨ ∃ e t, l.lift x s = .error e (l.put t s) := by
  rcases hrun : x (l.get s) with ⟨a, t⟩ | ⟨e, t⟩
  · exact .inl ⟨a, t, l.lift_ok hrun⟩
  · exact .inr ⟨e, t, l.lift_error hrun⟩

theorem lift_eq_ok_iff : l.lift x s = .ok a s' ↔ ∃ t, x (l.get s) = .ok a t ∧ s' = l.put t s := by
  constructor
  · intro h
    rcases hrun : x (l.get s) with ⟨a', t⟩ | ⟨e, t⟩
    · rw [l.lift_ok hrun] at h
      cases h
      exact ⟨t, rfl, rfl⟩
    · rw [l.lift_error hrun] at h
      cases h
  · rintro ⟨t, hrun, rfl⟩
    exact l.lift_ok hrun

theorem lift_bind (x : EStateM ε τ α) (f : α → EStateM ε τ β) :
    l.lift (x >>= f) = l.lift x >>= fun a => l.lift (f a) := by
  funext s
  rcases hrun : x (l.get s) with ⟨a, t⟩ | ⟨e, t⟩
  · rw [run_bind_ok (l.lift_ok hrun)]
    simp only [lift, run_bind_ok hrun, l.get_put, l.put_put]
  · rw [run_bind_error (l.lift_error hrun), l.lift_error (run_bind_error hrun)]

theorem keeps_lift (h : ∀ t s, I s → I (l.put t s)) (x : EStateM ε τ α) : Keeps I (l.lift x) := by
  intro s hs
  rcases l.lift_cases x s with ⟨a, t, hrun⟩ | ⟨e, t, hrun⟩
  · rw [after_ok hrun]
    exact h t s hs
  · rw [after_error hrun]
    exact h t s hs

end Lens

end NetProg.Lib
