import NetProg.Lib.Fields
import Mathlib.Data.List.Basic

/-!
# Templates

A template is text with fields in it, each between an opening and a closing bracket. A doubled bracket stands
for the bracket itself, an opening bracket that nothing closes and a lone closing one for themselves
(`pieces`). The scan never has to look back: what `escape` makes of a text is read as that text whatever
follows it, so a template composed of escaped texts and fields comes apart into them (`pieces_compose`).

The fields are rendered from left to right by a function with a state and with failures (`render`).
-/

namespace NetProg.Lib

/-- What a template is made of. -/
inductive Piece (α : Type)
  | text (a : α)
  | field (item : List α)
  deriving DecidableEq, Repr

namespace Template

section

variable {α : Type} [DecidableEq α] (op cl : α)

/-- The pieces of a template. -/
def pieces : List α → List (Piece α)
  | [] => []
  | a :: rest =>
    if a = op then
      if rest.head? = some op then .text op :: pieces rest.tail
      else if cl ∈ rest then
        .field (rest.takeWhile (· ≠ cl)) :: pieces (rest.dropWhile (· ≠ cl)).tail
      else .text op :: pieces rest
    else if a = cl ∧ rest.head? = some cl then .text cl :: pieces rest.tail
    else .text a :: pieces rest
termination_by s => s.length
decreasing_by
  · simp only [List.length_tail, List.length_cons]
    omega
  · have hle := (List.dropWhile_sublist (l := rest) (· ≠ cl)).length_le
    simp only [List.length_tail, List.length_cons]
    omega
  · simp
  · simp only [List.length_tail, List.length_cons]
    omega
  · simp

/-- Every bracket doubled. -/
def escape (s : List α) : List α := s.flatMap fun a => if a = op ∨ a = cl then [a, a] else [a]

/-- The template of a text and of fields with a text after each. -/
def compose (s : List α) (fields : List (List α × List α)) : List α :=
  escape op cl s ++ fields.flatMap fun f => op :: (f.1 ++ cl :: escape op cl f.2)

/-- The items of the fields. -/
def items (ps : List (Piece α)) : List (List α) :=
  ps.filterMap fun
    | .text _ => none
    | .field item => some item

variable {op cl}

theorem pieces_nil : pieces op cl [] = [] := by
  rw [pieces]

theorem pieces_open_open (rest : List α) :
    pieces op cl (op :: op :: rest) = .text op :: pieces op cl rest := by
  rw [pieces, if_pos rfl, if_pos (by simp), List.tail_cons]

theorem pieces_close_close (rest : List α) :
    pieces op cl (cl :: cl :: rest) = .text cl :: pieces op cl rest := by
  by_cases hcl : cl = op
  · subst hcl
    exact pieces_open_open rest
  · rw [pieces, if_neg hcl, if_pos ⟨rfl, by simp⟩, List.tail_cons]

theorem pieces_plain {a : α} (hop : a ≠ op) (hcl : a ≠ cl) (rest : List α) :
    pieces op cl (a :: rest) = .text a :: pieces op cl rest := by
  rw [pieces, if_neg hop, if_neg (fun h => hcl h.1)]

theorem pieces_field {item : List α} (hcl : cl ∉ item) (hop : (item ++ [cl]).head? ≠ some op)
    (rest : List α) :
    pieces op cl (op :: (item ++ cl :: rest)) = .field item :: pieces op cl rest := by
  obtain ⟨htake, hdrop⟩ := takeWhile_ne_append hcl rest
  have hhead : (item ++ cl :: rest).head? ≠ some op := by
    cases item <;> simpa using hop
  rw [pieces, if_pos rfl, if_neg hhead, if_pos (by simp), htake, hdrop, List.tail_cons]

/-- An escaped text is read as that text, whatever follows. -/
theorem pieces_escape_append (s rest : List α) :
    pieces op cl (escape op cl s ++ rest) = s.map .text ++ pieces op cl rest := by
  induction s with
  | nil => rfl
  | cons a s ih =>
    have hsplit : escape op cl (a :: s) ++ rest =
        (if a = op ∨ a = cl then [a, a] else [a]) ++ (escape op cl s ++ rest) := by
      simp [escape]
    rw [hsplit, List.map_cons, List.cons_append, ← ih]
    split
    · rename_i hbracket
      rcases hbracket with rfl | rfl
      · exact pieces_open_open _
      · exact pieces_close_close _
    · rename_i hplain
      push Not at hplain
      exact pieces_plain hplain.1 hplain.2 _

/-- A composed template comes apart into what it is composed of. -/
theorem pieces_compose (s : List α) {fields : List (List α × List α)}
    (hfields : ∀ f ∈ fields, cl ∉ f.1 ∧ (f.1 ++ [cl]).head? ≠ some op) :
    pieces op cl (compose op cl s fields) =
      s.map .text ++ fields.flatMap fun f => .field f.1 :: f.2.map .text := by
  rw [compose, pieces_escape_append]
  congr 1
  induction fields with
  | nil => exact pieces_nil
  | cons f fields ih =>
    obtain ⟨hcl, hop⟩ := hfields f List.mem_cons_self
    rw [List.flatMap_cons, List.flatMap_cons, List.cons_append, List.append_assoc, List.cons_append,
      pieces_field hcl hop, pieces_escape_append, ih fun g hg => hfields g (List.mem_cons_of_mem f hg)]
    rfl

end

/-! ### Rendering -/

section

variable {α τ ε : Type} (shown : τ → List α → Except ε (List α × τ))

/-- The text of a template, with what `shown` makes of its fields from left to right. -/
def render : τ → List (Piece α) → Except ε (List α)
  | _, [] => .ok []
  | t, .text a :: ps => (render t ps).map (a :: ·)
  | t, .field item :: ps => do
    let (out, t) ← shown t item
    (render t ps).map (out ++ ·)

/-- None of the items fails. -/
def Accepts : τ → List (List α) → Prop
  | _, [] => True
  | t, item :: rest => ∃ out t', shown t item = .ok (out, t') ∧ Accepts t' rest

variable {shown} {t t' : τ} {ps : List (Piece α)} {item out : List α}

theorem render_field_ok (h : shown t item = .ok (out, t')) :
    render shown t (.field item :: ps) = (render shown t' ps).map (out ++ ·) := by
  rw [render, h]
  rfl

theorem render_field_error {e : ε} (h : shown t item = .error e) :
    render shown t (.field item :: ps) = .error e := by
  rw [render, h]
  rfl

theorem render_texts (s : List α) :
    render shown t (s.map .text ++ ps) = (render shown t ps).map (s ++ ·) := by
  induction s with
  | nil => cases h : render shown t ps <;> simp [h, Except.map]
  | cons a s ih =>
    rw [List.map_cons, List.cons_append, render, ih]
    cases render shown t ps <;> rfl

theorem render_ok_iff (t : τ) (ps : List (Piece α)) :
    (∃ out, render shown t ps = .ok out) ↔ Accepts shown t (items ps) := by
  induction ps generalizing t with
  | nil => exact ⟨fun _ => trivial, fun _ => ⟨[], rfl⟩⟩
  | cons p ps ih =>
    cases p with
    | text a =>
      show (∃ out, render shown t (.text a :: ps) = .ok out) ↔ Accepts shown t (items ps)
      rw [← ih t, render]
      cases render shown t ps <;> simp [Except.map]
    | field item =>
      show _ ↔ ∃ out t', shown t item = .ok (out, t') ∧ Accepts shown t' (items ps)
      rcases h : shown t item with e | ⟨out, t'⟩
      · simp [render_field_error h]
      · have hiff := ih t'
        rw [render_field_ok h]
        constructor
        · rintro ⟨whole, hwhole⟩
          refine ⟨out, t', rfl, hiff.1 ?_⟩
          cases hrest : render shown t' ps with
          | ok rest => exact ⟨rest, rfl⟩
          | error e => simp [hrest, Except.map] at hwhole
        · rintro ⟨out', t'', hsame, haccepts⟩
          obtain ⟨rfl, rfl⟩ : out = out' ∧ t' = t'' := by simpa using hsame
          obtain ⟨rest, hrest⟩ := hiff.2 haccepts
          exact ⟨out ++ rest, by rw [hrest]; rfl⟩

theorem exists_of_render_error {e : ε} (h : render shown t ps = .error e) :
    ∃ t item, shown t item = .error e := by
  induction ps generalizing t with
  | nil => simp [render] at h
  | cons p ps ih =>
    cases p with
    | text a =>
      rw [render] at h
      cases hrest : render shown t ps with
      | ok rest => simp [hrest, Except.map] at h
      | error e' =>
        obtain rfl : e' = e := by simpa [hrest, Except.map] using h
        exact ih hrest
    | field item =>
      rcases hitem : shown t item with e' | ⟨out, t'⟩
      · rw [render_field_error hitem] at h
        obtain rfl : e' = e := by simpa using h
        exact ⟨t, item, hitem⟩
      · rw [render_field_ok hitem] at h
        cases hrest : render shown t' ps with
        | ok rest => simp [hrest, Except.map] at h
        | error e' =>
          obtain rfl : e' = e := by simpa [hrest, Except.map] using h
          exact ih hrest

end

end Template

end NetProg.Lib
