import Mathlib.Data.List.Nodup
import Mathlib.Logic.Equiv.Basic
import Mathlib.Logic.Function.Basic

/-!
# Tokens and who holds them

An account of resources that are handed out one at a time and have to be given back once each. Tokens are
numbered in the order of issue, a holder has at most one, and `returned` lists the tokens given back, in
order. Holders exchange tokens (`swap`), and give them back with (`settle`) or without (`overdue`) letting
go of them.

As long as nobody keeps a token that was given back the ledger is `Balanced`: every token issued is in
exactly one hand or was given back exactly once. From the first time somebody does it is `Spoiled`: a token
was given back twice, or will have been by the time every hand is empty.
-/

namespace NetProg.Lib

/-- The tokens issued so far, who holds one, and those given back. -/
structure Ledger (κ : Type) where
  issued : ℕ
  hand : κ → Option ℕ
  returned : List ℕ

namespace Ledger

variable {κ : Type} [DecidableEq κ]

/-- What can happen to tokens. -/
inductive Act (κ : Type)
  | idle
  | issue (x : κ)
  | swap (x y : κ)
  | settle (x : κ)
  | overdue (x : κ)

/-- The ledger after it. -/
def act (l : Ledger κ) : Act κ → Ledger κ
  | .idle => l
  | .issue x => { l with issued := l.issued + 1, hand := Function.update l.hand x (some l.issued) }
  | .swap x y => { l with hand := l.hand ∘ Equiv.swap x y }
  | .settle x =>
    { l with hand := Function.update l.hand x none, returned := l.returned ++ (l.hand x).toList }
  | .overdue x => { l with returned := l.returned ++ (l.hand x).toList }

/-- Tokens are issued into empty hands only. -/
def Legal (l : Ledger κ) : Act κ → Prop
  | .issue x => l.hand x = none
  | _ => True

/-- Nobody keeps a token that was given back. -/
def Prompt (l : Ledger κ) : Act κ → Prop
  | .overdue x => l.hand x = none
  | _ => True

/-- Every token issued is in one hand, or was given back once. -/
structure Balanced (l : Ledger κ) : Prop where
  nodup : l.returned.Nodup
  returned_lt : ∀ t ∈ l.returned, t < l.issued
  held_lt : ∀ x t, l.hand x = some t → t < l.issued
  not_returned : ∀ x t, l.hand x = some t → t ∉ l.returned
  unique : ∀ x y t, l.hand x = some t → l.hand y = some t → x = y
  covered : ∀ t < l.issued, t ∈ l.returned ∨ ∃ x, l.hand x = some t

/-- A token was given back twice, or somebody still holds one that was given back. -/
def Spoiled (l : Ledger κ) : Prop := ¬ l.returned.Nodup ∨ ∃ x t, l.hand x = some t ∧ t ∈ l.returned

omit [DecidableEq κ] in
theorem balanced_empty : (⟨0, fun _ => none, []⟩ : Ledger κ).Balanced where
  nodup := .nil
  returned_lt _ ht := absurd ht List.not_mem_nil
  held_lt _ _ h := nomatch h
  not_returned _ _ h := nomatch h
  unique _ _ _ h := nomatch h
  covered _ ht := absurd ht (Nat.not_lt_zero _)

/-! ### One act -/

section

variable {l : Ledger κ} {x y : κ}

theorem hand_act_issue : (l.act (.issue x)).hand = Function.update l.hand x (some l.issued) := rfl

theorem hand_act_swap : (l.act (.swap x y)).hand = l.hand ∘ Equiv.swap x y := rfl

theorem hand_act_settle : (l.act (.settle x)).hand = Function.update l.hand x none := rfl

end

theorem hand_issue {l : Ledger κ} {x y : κ} {t : ℕ} (h : (l.act (.issue x)).hand y = some t) :
    (y = x ∧ t = l.issued) ∨ (y ≠ x ∧ l.hand y = some t) := by
  by_cases hy : y = x
  · subst hy
    rw [hand_act_issue, Function.update_self] at h
    exact .inl ⟨rfl, (Option.some.inj h).symm⟩
  · rw [hand_act_issue, Function.update_of_ne hy] at h
    exact .inr ⟨hy, h⟩

theorem hand_settle {l : Ledger κ} {x y : κ} {t : ℕ} (h : (l.act (.settle x)).hand y = some t) :
    y ≠ x ∧ l.hand y = some t := by
  by_cases hy : y = x
  · subst hy
    rw [hand_act_settle, Function.update_self] at h
    nomatch h
  · rw [hand_act_settle, Function.update_of_ne hy] at h
    exact ⟨hy, h⟩

theorem Balanced.issue {l : Ledger κ} (h : l.Balanced) {x : κ} (hlegal : l.hand x = none) :
    (l.act (.issue x)).Balanced where
  nodup := h.nodup
  returned_lt t ht := Nat.lt_succ_of_lt (h.returned_lt t ht)
  held_lt y t ht := by
    rcases hand_issue ht with ⟨-, rfl⟩ | ⟨-, ht⟩
    · exact Nat.lt_succ_self _
    · exact Nat.lt_succ_of_lt (h.held_lt y t ht)
  not_returned y t ht hmem := by
    rcases hand_issue ht with ⟨-, rfl⟩ | ⟨-, ht⟩
    · exact Nat.lt_irrefl _ (h.returned_lt _ hmem)
    · exact h.not_returned y t ht hmem
  unique y z t hy hz := by
    rcases hand_issue hy with ⟨hyx, rfl⟩ | ⟨-, hy'⟩ <;> rcases hand_issue hz with ⟨hzx, ht⟩ | ⟨-, hz'⟩
    · rw [hyx, hzx]
    · exact absurd (h.held_lt z _ hz') (Nat.lt_irrefl _)
    · exact absurd (h.held_lt y t hy') (ht ▸ Nat.lt_irrefl _)
    · exact h.unique y z t hy' hz'
  covered t ht := by
    rcases Nat.lt_succ_iff_lt_or_eq.mp ht with ht | rfl
    · refine (h.covered t ht).imp_right fun ⟨y, hy⟩ => ⟨y, ?_⟩
      have hne : y ≠ x := fun heq => by rw [heq, hlegal] at hy; nomatch hy
      rw [hand_act_issue, Function.update_of_ne hne]
      exact hy
    · exact .inr ⟨x, Function.update_self ..⟩

theorem Balanced.swap {l : Ledger κ} (h : l.Balanced) (x y : κ) : (l.act (.swap x y)).Balanced where
  nodup := h.nodup
  returned_lt := h.returned_lt
  held_lt _ := h.held_lt _
  not_returned _ := h.not_returned _
  unique _ _ t hz hw := (Equiv.swap x y).injective (h.unique _ _ t hz hw)
  covered t ht := (h.covered t ht).imp_right fun ⟨z, hz⟩ => ⟨Equiv.swap x y z, by
    rw [hand_act_swap, Function.comp_apply, Equiv.swap_apply_self, hz]⟩

theorem Balanced.settle {l : Ledger κ} (h : l.Balanced) (x : κ) : (l.act (.settle x)).Balanced where
  nodup := by
    rw [act]
    cases hx : l.hand x with
    | none => simpa using h.nodup
    | some t => exact List.nodup_append.mpr ⟨h.nodup, List.nodup_singleton t, fun a ha b hb hab =>
        h.not_returned x t hx (List.mem_singleton.mp hb ▸ hab ▸ ha)⟩
  returned_lt t ht := by
    rcases List.mem_append.mp ht with ht | ht
    · exact h.returned_lt t ht
    · exact h.held_lt x t (Option.mem_toList.mp ht)
  held_lt y t hy := h.held_lt y t (hand_settle hy).2
  not_returned y t hy hmem := by
    obtain ⟨hne, hy⟩ := hand_settle hy
    rcases List.mem_append.mp hmem with ht | ht
    · exact h.not_returned y t hy ht
    · exact hne (h.unique y x t hy (Option.mem_toList.mp ht))
  unique y z t hy hz := h.unique y z t (hand_settle hy).2 (hand_settle hz).2
  covered t ht := by
    rcases h.covered t ht with hmem | ⟨y, hy⟩
    · exact .inl (List.mem_append_left _ hmem)
    · by_cases heq : y = x
      · exact .inl (List.mem_append_right _ (Option.mem_toList.mpr (heq ▸ hy)))
      · exact .inr ⟨y, (Function.update_of_ne heq ..).trans hy⟩

theorem Balanced.act {l : Ledger κ} (h : l.Balanced) {a : Act κ} (hlegal : l.Legal a)
    (hprompt : l.Prompt a) : (l.act a).Balanced := by
  cases a with
  | idle => exact h
  | issue x => exact h.issue hlegal
  | swap x y => exact h.swap x y
  | settle x => exact h.settle x
  | overdue x =>
    have hx : l.hand x = none := hprompt
    rw [Ledger.act, hx, Option.toList_none, List.append_nil]
    exact h

theorem spoiled_overdue {l : Ledger κ} {x : κ} (h : l.hand x ≠ none) : (l.act (.overdue x)).Spoiled := by
  obtain ⟨t, ht⟩ := Option.ne_none_iff_exists'.mp h
  exact .inr ⟨x, t, ht, List.mem_append_right _ (Option.mem_toList.mpr ht)⟩

omit [DecidableEq κ] in
theorem not_nodup_return {l : Ledger κ} {x : κ} {t : ℕ} (hx : l.hand x = some t) (hmem : t ∈ l.returned) :
    ¬ (l.returned ++ (l.hand x).toList).Nodup := by
  rw [hx, Option.toList_some]
  exact fun h => (List.nodup_append.mp h).2.2 t hmem t (List.mem_singleton_self t) rfl

theorem Spoiled.act {l : Ledger κ} (h : l.Spoiled) {a : Act κ} (hlegal : l.Legal a) :
    (l.act a).Spoiled := by
  rcases h with h | ⟨y, t, hy, hmem⟩
  · apply Or.inl
    cases a with
    | idle | issue | swap => exact h
    | settle | overdue => exact fun hnodup => h (List.nodup_append.mp hnodup).1
  · cases a with
    | idle => exact .inr ⟨y, t, hy, hmem⟩
    | issue x =>
      have hx : l.hand x = none := hlegal
      have hne : y ≠ x := fun heq => by rw [heq, hx] at hy; nomatch hy
      exact .inr ⟨y, t, (Function.update_of_ne hne ..).trans hy, hmem⟩
    | swap x z =>
      refine .inr ⟨Equiv.swap x z y, t, ?_, hmem⟩
      rw [hand_act_swap, Function.comp_apply, Equiv.swap_apply_self, hy]
    | settle x =>
      by_cases heq : y = x
      · exact .inl (not_nodup_return (heq ▸ hy) hmem)
      · exact .inr ⟨y, t, (Function.update_of_ne heq ..).trans hy, List.mem_append_left _ hmem⟩
    | overdue x =>
      exact .inr ⟨y, t, hy, List.mem_append_left _ hmem⟩

/-! ### When every hand is empty -/

omit [DecidableEq κ] in
/-- Every token issued was given back, and only once. -/
theorem Balanced.count_returned {l : Ledger κ} (h : l.Balanced) (hempty : ∀ x, l.hand x = none) {t : ℕ}
    (ht : t < l.issued) : l.returned.count t = 1 := by
  rcases h.covered t ht with hmem | ⟨x, hx⟩
  · exact List.count_eq_one_of_mem h.nodup hmem
  · rw [hempty x] at hx
    nomatch hx

omit [DecidableEq κ] in
theorem Spoiled.not_nodup {l : Ledger κ} (h : l.Spoiled) (hempty : ∀ x, l.hand x = none) :
    ¬ l.returned.Nodup := by
  rcases h with h | ⟨x, t, hx, -⟩
  · exact h
  · rw [hempty x] at hx
    nomatch hx

end Ledger

end NetProg.Lib
