import Mathlib.Order.Filter.Cofinite
import Mathlib.Data.List.Infix
import Mathlib.Data.Nat.Nth

/-!
# Fair schedules

A program that talks to its environment by calls consumes one answer of the environment per call. A
`Schedule` is an infinite sequence of such answers in which every answer is of an allowed kind and the
answers that make progress never cease. A run of a program sees only a finite prefix of it, `upTo n`.

`exists_le_countP` is what total correctness needs: a program that has returned once it met `m` answers
that make progress returns on every long enough prefix, however many answers without progress stand in
between.

Without a schedule a finite script of answers may contain any answer. `Offers` says that enough is offered
before the first one that is not allowed.
-/

namespace NetProg.Lib

open Filter

variable {α : Type} {allowed good : α → Prop}

/-- An infinite sequence of answers, all allowed, with good ones for ever. -/
structure Schedule (allowed good : α → Prop) where
  answer : ℕ → α
  allowed_answer : ∀ k, allowed (answer k)
  fair : ∃ᶠ k in atTop, good (answer k)

namespace Schedule

variable (s : Schedule allowed good)

/-- The answers a run of `n` calls sees. -/
def upTo (n : ℕ) : List α := (List.range n).map s.answer

theorem upTo_succ (n : ℕ) : s.upTo (n + 1) = s.answer 0 :: (List.range n).map fun k => s.answer (k + 1) := by
  rw [upTo, List.range_succ_eq_map, List.map_cons, List.map_map]
  rfl

theorem upTo_concat (n : ℕ) : s.upTo (n + 1) = s.upTo n ++ [s.answer n] := by
  rw [upTo, List.range_succ, List.map_append]
  rfl

@[simp] theorem length_upTo (n : ℕ) : (s.upTo n).length = n := by
  rw [upTo, List.length_map, List.length_range]

theorem take_upTo {k n : ℕ} (h : k ≤ n) : (s.upTo n).take k = s.upTo k := by
  rw [upTo, ← List.map_take, List.take_range, min_eq_left h, upTo]

theorem upTo_prefix {k n : ℕ} (h : k ≤ n) : s.upTo k <+: s.upTo n :=
  s.take_upTo h ▸ List.take_prefix k (s.upTo n)

theorem eq_upTo_of_prefix {heard : List α} {n : ℕ} (h : heard <+: s.upTo n) :
    heard = s.upTo heard.length := by
  have hle := h.length_le
  rw [length_upTo] at hle
  rw [← s.take_upTo hle]
  exact List.prefix_iff_eq_take.1 h

theorem allowed_of_mem_upTo {n : ℕ} {a : α} (ha : a ∈ s.upTo n) : allowed a := by
  obtain ⟨k, _, rfl⟩ := List.mem_map.mp ha
  exact s.allowed_answer k

theorem countP_upTo [DecidablePred good] (n : ℕ) :
    (s.upTo n).countP (good ·) = Nat.count (fun k => good (s.answer k)) n := by
  rw [upTo, List.countP_map, Nat.count]
  rfl

theorem exists_le_countP [DecidablePred good] (m : ℕ) :
    ∃ N, ∀ n ≥ N, m ≤ (s.upTo n).countP (good ·) := by
  have hinf : (Set.ofPred fun k => good (s.answer k)).Infinite :=
    Nat.frequently_atTop_iff_infinite.mp s.fair
  refine ⟨Nat.nth (fun k => good (s.answer k)) m, ?_⟩
  intro n hn
  rw [countP_upTo]
  calc m = Nat.count (fun k => good (s.answer k)) (Nat.nth (fun k => good (s.answer k)) m) :=
        (Nat.count_nth_of_infinite hinf m).symm
    _ ≤ Nat.count (fun k => good (s.answer k)) n := Nat.count_monotone _ hn

/-- The schedule that always gives one good answer. -/
def const (a : α) (hallowed : allowed a) (hgood : good a) : Schedule allowed good where
  answer _ := a
  allowed_answer _ := hallowed
  fair := Frequently.of_forall fun _ => hgood

/-- The schedule behind one more answer. -/
def cons (a : α) (ha : allowed a) : Schedule allowed good where
  answer
    | 0 => a
    | k + 1 => s.answer k
  allowed_answer
    | 0 => ha
    | k + 1 => s.allowed_answer k
  fair := by
    rw [frequently_atTop]
    intro k
    obtain ⟨i, hi, hgood⟩ := frequently_atTop.1 s.fair k
    exact ⟨i + 1, Nat.le_succ_of_le hi, hgood⟩

end Schedule

/-! ### What a script offers -/

variable {offer : α → ℕ} {a : α} {script : List α} {n : ℕ}

/-- What the elements of a list count together. -/
def total (offer : α → ℕ) : List α → ℕ
  | [] => 0
  | a :: as => offer a + total offer as

/-- The script offers `n` before its first answer that is not allowed. -/
def Offers (allowed : α → Prop) (offer : α → ℕ) (n : ℕ) (script : List α) : Prop :=
  ∃ heard, heard <+: script ∧ (∀ a ∈ heard, allowed a) ∧ n ≤ total offer heard

theorem offers_zero : Offers allowed offer 0 script :=
  ⟨[], List.nil_prefix, List.forall_mem_nil _, Nat.zero_le _⟩

theorem not_offers_nil (hpos : 0 < n) : ¬ Offers allowed offer n [] := by
  rintro ⟨heard, hinitial, -, hle⟩
  rw [List.prefix_nil.1 hinitial, total] at hle
  omega

theorem offers_cons (hpos : 0 < n) :
    Offers allowed offer n (a :: script) ↔ allowed a ∧ Offers allowed offer (n - offer a) script := by
  constructor
  · rintro ⟨heard, hinitial, hallowed, hle⟩
    rcases List.prefix_cons_iff.1 hinitial with rfl | ⟨rest, rfl, hrest⟩
    · rw [total] at hle
      omega
    · rw [total] at hle
      exact ⟨hallowed a List.mem_cons_self, rest, hrest,
        fun b hb => hallowed b (List.mem_cons_of_mem a hb), by omega⟩
  · rintro ⟨ha, rest, hinitial, hallowed, hle⟩
    refine ⟨a :: rest, (List.prefix_cons_inj a).2 hinitial, List.forall_mem_cons.2 ⟨ha, hallowed⟩, ?_⟩
    rw [total]
    omega

end NetProg.Lib
