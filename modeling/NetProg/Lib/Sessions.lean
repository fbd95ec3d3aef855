import NetProg.Lib.Run

/-!
# Serving one peer after the other

An iterative server deals with a peer until the session ends, keeps something for the next one, and is gone
after a session that fails. A peer that comes to its turn gets a session of its own whatever the peers
before it were (`getElem?_serveAll`), so all that they can do to it is to end the server, and they let it
live exactly if each of them is one whose sessions return (`served_iff`).
-/

namespace NetProg.Lib

variable {ε σ π : Type} (session : σ → EStateM ε π σ)

/-- What becomes of the peers. Nothing more happens to those behind the first session that fails. -/
def serveAll : σ → List π → List π
  | _, [] => []
  | s, p :: ps =>
    match session s p with
    | .ok s' p' => p' :: serveAll s' ps
    | .error _ p' => p' :: ps

/-- What the server keeps after such peers, if it is still there. -/
def through : σ → List π → Option σ
  | s, [] => some s
  | s, p :: ps =>
    match session s p with
    | .ok s' _ => through s' ps
    | .error _ _ => none

variable {session}

/-- The peer behind the peers `before`: untouched if the server is gone, and otherwise as its own session
leaves it. -/
theorem getElem?_serveAll (s : σ) (before : List π) (p : π) (rest : List π) :
    (serveAll session s (before ++ p :: rest))[before.length]? =
      some ((through session s before).elim p fun s' => after (session s') p) := by
  induction before generalizing s with
  | nil =>
    rw [List.nil_append, serveAll, through]
    cases hrun : session s p with
    | ok s' p' => simp [after, hrun]
    | error e p' => simp [after, hrun]
  | cons q before ih =>
    rw [List.cons_append, serveAll, through]
    cases hrun : session s q with
    | ok s' q' => simpa using ih s'
    | error e q' => simp

section

variable {I : σ → Prop} {ok : π → Prop} {s : σ}
  (hok : ∀ s p, I s → ((∃ s' p', session s p = .ok s' p') ↔ ok p))
  (hkeeps : ∀ s p s' p', I s → session s p = .ok s' p' → I s')

include hkeeps in
theorem through_keeps (hs : I s) {ps : List π} {s' : σ} (h : through session s ps = some s') : I s' := by
  induction ps generalizing s with
  | nil =>
    cases h
    exact hs
  | cons p ps ih =>
    rw [through] at h
    cases hrun : session s p with
    | ok s₁ p' =>
      rw [hrun] at h
      exact ih (hkeeps s p s₁ p' hs hrun) h
    | error e p' =>
      rw [hrun] at h
      cases h

include hok hkeeps in
theorem isSome_through_iff (hs : I s) (ps : List π) : (through session s ps).isSome ↔ ∀ p ∈ ps, ok p := by
  induction ps generalizing s with
  | nil => exact iff_of_true rfl (List.forall_mem_nil _)
  | cons p ps ih =>
    rw [List.forall_mem_cons, ← hok s p hs, through]
    cases hrun : session s p with
    | ok s' p' =>
      rw [← ih (hkeeps s p s' p' hs hrun)]
      exact ⟨fun h => ⟨⟨s', p', rfl⟩, h⟩, fun h => h.2⟩
    | error e p' =>
      refine iff_of_false (by simp) ?_
      rintro ⟨⟨s', p'', h⟩, -⟩
      cases h

include hok hkeeps in
/-- A peer gets what it is waiting for exactly if the server lives through the peers before it and gives it
in its session. -/
theorem served_iff (hs : I s) {got : π → Prop} {served : Prop} {p : π} (hfirst : ¬ got p)
    (hgot : ∀ s', I s' → (got (after (session s') p) ↔ served)) (before rest : List π) :
    (∃ q, (serveAll session s (before ++ p :: rest))[before.length]? = some q ∧ got q) ↔
      (∀ q ∈ before, ok q) ∧ served := by
  rw [getElem?_serveAll, ← isSome_through_iff hok hkeeps hs]
  simp only [Option.some.injEq, exists_eq_left']
  cases hlives : through session s before with
  | none => exact iff_of_false hfirst fun h => Bool.false_ne_true h.1
  | some s' =>
    rw [Option.elim_some, hgot s' (through_keeps hkeeps hs hlives)]
    exact (and_iff_right rfl).symm

end

end NetProg.Lib
