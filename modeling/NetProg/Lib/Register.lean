import NetProg.Lib.Run
import Mathlib.Data.List.Basic

/-!
# Registers whose setters can refuse

A program with setters, each of which either sets what the program holds or refuses and leaves it alone, and
says which. After any sequence of calls the program holds the value of the last one that was not refused
(`Setters.mapM_calls`).
-/

namespace NetProg.Lib

variable {κ β ε σ : Type} {call : κ → EStateM ε σ Bool} {value : κ → Option β} {held : σ → β}

/-- `value c` is what the call `c` sets, or `none` if it is refused. -/
structure Setters (call : κ → EStateM ε σ Bool) (value : κ → Option β) (held : σ → β) : Prop where
  sets : ∀ c s, ∃ s', call c s = .ok (value c).isSome s' ∧ held s' = (value c).getD (held s)

/-- The value of the last call that is not refused. -/
def lastSet (value : κ → Option β) (cs : List κ) : Option β := (cs.filterMap value).getLast?

theorem lastSet_append_cons {before after : List κ} {c : κ} {b : β} (hc : value c = some b)
    (hafter : ∀ d ∈ after, value d = none) : lastSet value (before ++ c :: after) = some b := by
  rw [lastSet, List.filterMap_append, List.filterMap_cons_some hc, List.filterMap_eq_nil_iff.2 hafter,
    List.getLast?_concat]

theorem lastSet_eq_none {cs : List κ} (h : ∀ c ∈ cs, value c = none) : lastSet value cs = none := by
  rw [lastSet, List.filterMap_eq_nil_iff.2 h, List.getLast?_nil]

theorem lastSet_cons (c : κ) (cs : List κ) (b : β) :
    (lastSet value (c :: cs)).getD b = (lastSet value cs).getD ((value c).getD b) := by
  cases hc : value c with
  | none => rw [lastSet, List.filterMap_cons_none hc, Option.getD_none, lastSet]
  | some b' =>
    rw [lastSet, List.filterMap_cons_some hc, Option.getD_some, lastSet, List.getLast?_cons, Option.getD_some]

/-- A sequence of calls says of each whether it was refused, and leaves what the last of the others has set.
-/
theorem Setters.mapM_calls (h : Setters call value held) (cs : List κ) (s : σ) :
    ∃ s', cs.mapM call s = .ok (cs.map fun c => (value c).isSome) s' ∧
      held s' = (lastSet value cs).getD (held s) := by
  induction cs generalizing s with
  | nil => exact ⟨s, rfl, rfl⟩
  | cons c cs ih =>
    obtain ⟨s₁, hcall, hheld⟩ := h.sets c s
    obtain ⟨s', hrest, hlast⟩ := ih s₁
    refine ⟨s', ?_, ?_⟩
    · rw [List.mapM_cons, run_bind_ok hcall, run_bind_ok hrest]
      rfl
    · rw [hlast, hheld, lastSet_cons]

end NetProg.Lib
