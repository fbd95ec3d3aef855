import Mathlib.Init

/-!
# Runs of a system that takes steps

A system is a function `step` from a state and an action to the next state, and a run is a list of actions.
`Along ok` says that every action of a run is one that `ok` permits in the state it is taken in. An
invariant that permitted steps keep holds after such a run, and one that a forbidden step establishes and
all steps keep holds after the others.
-/

namespace NetProg.Lib

variable {σ τ α : Type} {step : σ → α → σ} {ok : σ → α → Prop}

/-- The state in which a list of actions ends. -/
def run (step : σ → α → σ) (s : σ) (as : List α) : σ := as.foldl step s

theorem run_singleton (s : σ) (a : α) : run step s [a] = step s a := rfl

theorem run_append (s : σ) (as bs : List α) : run step s (as ++ bs) = run step (run step s as) bs :=
  List.foldl_append

/-- Every action of the run is permitted where it is taken. -/
def Along (step : σ → α → σ) (ok : σ → α → Prop) : σ → List α → Prop
  | _, [] => True
  | s, a :: as => ok s a ∧ Along step ok (step s a) as

/-- What the permitted steps keep holds at the end of a run of them. -/
theorem run_invariant {I : σ → Prop} (hstep : ∀ s a, I s → ok s a → I (step s a)) {s : σ} (hinit : I s)
    {as : List α} (h : Along step ok s as) : I (run step s as) := by
  induction as generalizing s with
  | nil => exact hinit
  | cons a as ih => exact ih (hstep s a hinit h.1) h.2

theorem run_stable {I : σ → Prop} (hstep : ∀ s a, I s → I (step s a)) {s : σ} (hinit : I s) (as : List α) :
    I (run step s as) := by
  induction as generalizing s with
  | nil => exact hinit
  | cons a as ih => exact ih (hstep s a hinit)

/-- What a forbidden step establishes and every step keeps holds at the end of a run with such a step. -/
theorem run_spoiled {I J : σ → Prop} (hstep : ∀ s a, I s → I (step s a))
    (hspoil : ∀ s a, I s → ¬ ok s a → J (step s a)) (hkeep : ∀ s a, J s → J (step s a)) {s : σ} (hinit : I s)
    {as : List α} (h : ¬ Along step ok s as) : J (run step s as) := by
  induction as generalizing s with
  | nil => exact absurd trivial h
  | cons a as ih =>
    by_cases hok : ok s a
    · exact ih (hstep s a hinit) fun hrest => h ⟨hok, hrest⟩
    · exact run_stable hkeep (hspoil s a hinit hok) as

/-- A run is permitted if each of its actions is where the ones before it have led. -/
theorem along_iff {s : σ} {as : List α} :
    Along step ok s as ↔ ∀ before a, before ++ [a] <+: as → ok (run step s before) a := by
  induction as generalizing s with
  | nil =>
    refine iff_of_true trivial fun before a h => ?_
    exact absurd (List.prefix_nil.1 h) (List.append_ne_nil_of_right_ne_nil before (List.cons_ne_nil a []))
  | cons a as ih =>
    rw [Along, ih]
    constructor
    · rintro ⟨hfirst, hrest⟩ before b h
      cases before with
      | nil =>
        obtain ⟨rfl, -⟩ := List.cons_prefix_cons.1 h
        exact hfirst
      | cons c before =>
        obtain ⟨rfl, htail⟩ := List.cons_prefix_cons.1 h
        exact hrest before b htail
    · intro hall
      refine ⟨hall [] a (List.cons_prefix_cons.2 ⟨rfl, List.nil_prefix⟩), fun before b h => ?_⟩
      exact hall (a :: before) b (List.cons_prefix_cons.2 ⟨rfl, h⟩)

theorem Along.of_prefix {s : σ} {as bs : List α} (h : Along step ok s bs) (hpre : as <+: bs) :
    Along step ok s as :=
  along_iff.2 fun before a hbefore => along_iff.1 h before a (hbefore.trans hpre)

theorem along_congr {ok' : σ → α → Prop} {I : σ → Prop} (hstep : ∀ s a, I s → I (step s a))
    (hiff : ∀ s a, I s → (ok s a ↔ ok' s a)) {s : σ} (hinit : I s) (as : List α) :
    Along step ok s as ↔ Along step ok' s as := by
  induction as generalizing s with
  | nil => exact Iff.rfl
  | cons a as ih => exact and_congr (hiff s a hinit) (ih (hstep s a hinit))

/-- A run beside the run of only some of its actions: what both keep on these, and the first alone on the
others, holds at their ends. -/
theorem run_filter {step' : τ → α → τ} {R : σ → τ → Prop} {mine : α → Bool}
    (hmine : ∀ s t a, R s t → ok s a → mine a = true → R (step s a) (step' t a))
    (hother : ∀ s t a, R s t → ok s a → mine a = false → R (step s a) t) {s : σ} {t : τ} (hinit : R s t)
    {as : List α} (h : Along step ok s as) : R (run step s as) (run step' t (as.filter mine)) := by
  induction as generalizing s t with
  | nil => exact hinit
  | cons a as ih =>
    cases hm : mine a with
    | true =>
      rw [List.filter_cons_of_pos hm]
      exact ih (hmine s t a hinit h.1 hm) h.2
    | false =>
      rw [List.filter_cons_of_neg (by rw [hm]; exact Bool.false_ne_true)]
      exact ih (hother s t a hinit h.1 hm) h.2

end NetProg.Lib
