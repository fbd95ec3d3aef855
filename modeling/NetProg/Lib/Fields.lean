import Mathlib.Data.List.Basic
import Mathlib.Data.List.TakeWhile
import Mathlib.Data.List.Flatten

/-!
# Fields between separators

A list of symbols cut into fields at a separator `sep`, where a field counts as an entry if it contains the
symbol `eq` exactly once, which divides it into a key and a value. `entries_map` says that reading the
entries commutes with a map of the symbols that changes neither of the two, and `entries_encode_take` and
`notMem_entries_take` what can be read from an encoded list of entries that has been cut off.
-/

namespace NetProg.Lib

variable {α β : Type} [DecidableEq α] [DecidableEq β] {sep eq : α}

/-- The key and the value of a field with exactly one `eq`. -/
def keyValue (eq : α) (field : List α) : Option (List α × List α) :=
  if field.count eq = 1 then some (field.takeWhile (· ≠ eq), (field.dropWhile (· ≠ eq)).drop 1) else none

/-- The entries among the fields, in order. -/
def entries (sep eq : α) (message : List α) : List (List α × List α) :=
  (message.splitOn sep).filterMap (keyValue eq)

/-- The list of fields that spell the entries, each closed by `sep`. -/
def encode (sep eq : α) (env : List (List α × List α)) : List α :=
  env.flatMap fun p => p.1 ++ eq :: p.2 ++ [sep]

omit [DecidableEq α] in
theorem exists_first {P : α → Prop} [DecidablePred P] {l : List α} (h : ∃ a ∈ l, P a) :
    ∃ before a after, l = before ++ a :: after ∧ (∀ b ∈ before, ¬ P b) ∧ P a := by
  obtain ⟨a, hfind⟩ : ∃ a, l.find? (fun b => P b) = some a := by
    rw [← Option.isSome_iff_exists, List.find?_isSome]
    simpa using h
  obtain ⟨ha, before, after, rfl, hbefore⟩ := List.find?_eq_some_iff_append.1 hfind
  exact ⟨before, a, after, rfl, fun b hb => by simpa using hbefore b hb, by simpa using ha⟩

theorem takeWhile_ne_append {k : List α} (h : eq ∉ k) (v : List α) :
    (k ++ eq :: v).takeWhile (· ≠ eq) = k ∧ (k ++ eq :: v).dropWhile (· ≠ eq) = eq :: v := by
  have hpass : ∀ x ∈ k, decide (x ≠ eq) = true := by
    intro x hx
    simpa using ne_of_mem_of_not_mem hx h
  rw [List.takeWhile_append_of_pos hpass, List.dropWhile_append_of_pos hpass]
  simp

theorem keyValue_eq_some {field k v : List α} :
    keyValue eq field = some (k, v) ↔ field = k ++ eq :: v ∧ eq ∉ k ∧ eq ∉ v := by
  unfold keyValue
  constructor
  · intro h
    split at h
    · rename_i hcount
      have hmem : eq ∈ field := by
        rw [← List.count_pos_iff, hcount]
        exact Nat.one_pos
      obtain ⟨k', v', rfl, hk'⟩ := List.eq_append_cons_of_mem hmem
      obtain ⟨htake, hdrop⟩ := takeWhile_ne_append hk' v'
      rw [htake, hdrop] at h
      obtain ⟨rfl, rfl⟩ : k' = k ∧ v' = v := by simpa using h
      rw [List.count_append, List.count_cons_self, List.count_eq_zero.2 hk'] at hcount
      exact ⟨rfl, hk', List.count_eq_zero.1 (by omega)⟩
    · simp at h
  · rintro ⟨rfl, hk, hv⟩
    obtain ⟨htake, hdrop⟩ := takeWhile_ne_append hk v
    have hcount : (k ++ eq :: v).count eq = 1 := by
      rw [List.count_append, List.count_cons_self, List.count_eq_zero.2 hk, List.count_eq_zero.2 hv]
    rw [if_pos hcount, htake, hdrop, List.drop_one, List.tail_cons]

/-! ### Cutting into fields -/

theorem mem_splitOn {message field : List α} (h : field ∈ message.splitOn sep) :
    sep ∉ field ∧ ∀ x ∈ field, x ∈ message := by
  induction message generalizing field with
  | nil =>
    obtain rfl : field = [] := by simpa using h
    exact ⟨List.not_mem_nil, fun x hx => hx⟩
  | cons x message ih =>
    rw [List.splitOn_cons_eq_if_modifyHead] at h
    split at h
    · rcases List.mem_cons.1 h with rfl | h
      · exact ⟨List.not_mem_nil, fun y hy => absurd hy List.not_mem_nil⟩
      · exact ⟨(ih h).1, fun y hy => List.mem_cons_of_mem x ((ih h).2 y hy)⟩
    · rename_i hx
      obtain ⟨first, rest, hsplit⟩ := List.exists_cons_of_ne_nil (List.splitOn_ne_nil sep message)
      rw [hsplit, List.modifyHead_cons] at h
      rcases List.mem_cons.1 h with rfl | h
      · obtain ⟨hsep, hmem⟩ := ih (by rw [hsplit]; exact List.mem_cons_self)
        refine ⟨?_, ?_⟩
        · rw [List.mem_cons, not_or]
          exact ⟨fun heq => hx (by simp [heq]), hsep⟩
        · intro y hy
          rcases List.mem_cons.1 hy with rfl | hy
          · exact List.mem_cons_self
          · exact List.mem_cons_of_mem x (hmem y hy)
      · obtain ⟨hsep, hmem⟩ := ih (by rw [hsplit]; exact List.mem_cons_of_mem first h)
        exact ⟨hsep, fun y hy => List.mem_cons_of_mem x (hmem y hy)⟩

theorem splitOn_map {f : α → β} {sep' : β} (hsep : ∀ x, f x = sep' ↔ x = sep) (message : List α) :
    (message.map f).splitOn sep' = (message.splitOn sep).map (List.map f) := by
  induction message with
  | nil => rfl
  | cons x message ih =>
    rw [List.map_cons, List.splitOn_cons_eq_if_modifyHead, List.splitOn_cons_eq_if_modifyHead, ih]
    by_cases hx : x = sep
    · rw [if_pos (by simpa using (hsep x).2 hx), if_pos (by simpa using hx)]
      rfl
    · rw [if_neg (by simpa using fun h => hx ((hsep x).1 h)), if_neg (by simpa using hx)]
      obtain ⟨first, rest, hsplit⟩ := List.exists_cons_of_ne_nil (List.splitOn_ne_nil sep message)
      rw [hsplit]
      rfl

/-! ### Entries -/

theorem mem_entries {message k v : List α} (h : (k, v) ∈ entries sep eq message) :
    k ++ eq :: v ∈ message.splitOn sep ∧ eq ∉ k ∧ eq ∉ v := by
  obtain ⟨field, hfield, hkv⟩ := List.mem_filterMap.1 h
  obtain ⟨rfl, hk, hv⟩ := keyValue_eq_some.1 hkv
  exact ⟨hfield, hk, hv⟩

theorem entries_append_cons (message rest : List α) :
    entries sep eq (message ++ sep :: rest) = entries sep eq message ++ entries sep eq rest := by
  rw [entries, List.splitOn_append_cons_self, List.filterMap_append]
  rfl

theorem entries_of_sep_notMem {field : List α} (h : sep ∉ field) :
    entries sep eq field = (keyValue eq field).toList := by
  rw [entries, List.splitOn_eq_singleton h]
  cases hkv : keyValue eq field <;> simp [hkv]

theorem entries_of_eq_notMem {message : List α} (h : eq ∉ message) : entries sep eq message = [] := by
  rw [List.eq_nil_iff_forall_not_mem]
  rintro ⟨k, v⟩ hmem
  obtain ⟨hfield, -⟩ := mem_entries hmem
  exact h ((mem_splitOn hfield).2 eq (by simp))

theorem keyValue_map {f : α → β} {eq' : β} (heq : ∀ x, f x = eq' ↔ x = eq) (field : List α) :
    keyValue eq' (field.map f) = (keyValue eq field).map fun p => (p.1.map f, p.2.map f) := by
  have hmem : ∀ l : List α, eq' ∈ l.map f ↔ eq ∈ l := by
    intro l
    rw [List.mem_map]
    constructor
    · rintro ⟨x, hx, hfx⟩
      exact (heq x).1 hfx ▸ hx
    · intro h
      exact ⟨eq, h, (heq eq).2 rfl⟩
  have heq' : f eq = eq' := (heq eq).2 rfl
  cases hkv : keyValue eq field with
  | some p =>
    obtain ⟨k, v⟩ := p
    obtain ⟨rfl, hk, hv⟩ := keyValue_eq_some.1 hkv
    rw [Option.map_some, keyValue_eq_some, List.map_append, List.map_cons, heq']
    exact ⟨rfl, (hmem k).not.2 hk, (hmem v).not.2 hv⟩
  | none =>
    cases hkv' : keyValue eq' (field.map f) with
    | none => rfl
    | some p =>
      obtain ⟨k', v'⟩ := p
      obtain ⟨hfield, hk', hv'⟩ := keyValue_eq_some.1 hkv'
      obtain ⟨k, rest, rfl, rfl, hrest⟩ := List.map_eq_append_iff.1 hfield
      obtain ⟨x, v, rfl, hx, rfl⟩ := List.map_eq_cons_iff.1 hrest
      obtain rfl := (heq x).1 hx
      have hsome : keyValue x (k ++ x :: v) = some (k, v) :=
        keyValue_eq_some.2 ⟨rfl, (hmem k).not.1 hk', (hmem v).not.1 hv'⟩
      rw [hkv] at hsome
      simp at hsome

/-- Reading the entries commutes with a map of the symbols that keeps the two that matter apart. -/
theorem entries_map {f : α → β} {sep' eq' : β} (hsep : ∀ x, f x = sep' ↔ x = sep)
    (heq : ∀ x, f x = eq' ↔ x = eq) (message : List α) :
    entries sep' eq' (message.map f) = (entries sep eq message).map fun p => (p.1.map f, p.2.map f) := by
  rw [entries, entries, splitOn_map hsep, List.filterMap_map, List.map_filterMap]
  congr 1
  funext field
  exact keyValue_map heq field

/-! ### Encoded entries -/

/-- Keys and values that the separators do not occur in, except that a value may contain `eq`. -/
structure IsEntry (sep eq : α) (p : List α × List α) : Prop where
  sep_key : sep ∉ p.1
  eq_key : eq ∉ p.1
  sep_value : sep ∉ p.2

omit [DecidableEq α] in
theorem encode_cons (p : List α × List α) (env : List (List α × List α)) :
    encode sep eq (p :: env) = (p.1 ++ eq :: p.2) ++ sep :: encode sep eq env := by
  simp [encode]

omit [DecidableEq α] in
theorem IsEntry.sep_notMem {p : List α × List α} (h : IsEntry sep eq p) (hne : sep ≠ eq) :
    sep ∉ p.1 ++ eq :: p.2 := by
  rw [List.mem_append, List.mem_cons, not_or, not_or]
  exact ⟨h.sep_key, hne, h.sep_value⟩

theorem entries_take_cons (field rest : List α) (hsep : sep ∉ field) (n : ℕ) :
    entries sep eq ((field ++ sep :: rest).take n) =
      if n ≤ field.length then (keyValue eq (field.take n)).toList
      else (keyValue eq field).toList ++ entries sep eq (rest.take (n - field.length - 1)) := by
  split
  · rename_i hn
    rw [List.take_append_of_le_length hn]
    exact entries_of_sep_notMem fun h => hsep (List.mem_of_mem_take h)
  · rename_i hn
    obtain ⟨m, rfl⟩ : ∃ m, n = field.length + (m + 1) := ⟨n - field.length - 1, by omega⟩
    rw [List.take_length_add_append, List.take_succ_cons, entries_append_cons, entries_of_sep_notMem hsep]
    congr 3
    omega

/-- Of an encoded list of entries of which at most the last separator is cut off all can be read. -/
theorem entries_encode_take (hne : sep ≠ eq) {env : List (List α × List α)}
    (henv : ∀ p ∈ env, IsEntry sep eq p ∧ eq ∉ p.2) {n : ℕ} (hn : (encode sep eq env).length ≤ n + 1) :
    entries sep eq ((encode sep eq env).take n) = env := by
  induction env generalizing n with
  | nil =>
    rw [encode, List.flatMap_nil, List.take_nil]
    exact entries_of_eq_notMem List.not_mem_nil
  | cons p env ih =>
    obtain ⟨hp, heq⟩ := henv p List.mem_cons_self
    have hkv : keyValue eq (p.1 ++ eq :: p.2) = some p := keyValue_eq_some.2 ⟨rfl, hp.eq_key, heq⟩
    rw [encode_cons, List.length_append, List.length_cons] at hn
    rw [encode_cons, entries_take_cons _ _ (hp.sep_notMem hne)]
    split
    · -- the cut is right behind the field, which is then the last
      rename_i hle
      have hempty : (encode sep eq env).length = 0 := by omega
      have henvnil : env = [] := by
        cases env with
        | nil => rfl
        | cons q env =>
          rw [encode_cons, List.length_append, List.length_cons] at hempty
          omega
      rw [List.take_of_length_le (by omega), hkv, henvnil]
      rfl
    · rw [hkv, ih (fun q hq => henv q (List.mem_cons_of_mem p hq)) (by omega)]
      rfl

/-- If more is cut off, the last entry cannot be read. -/
theorem notMem_entries_take (hne : sep ≠ eq) {env : List (List α × List α)} {k v : List α}
    (henv : ∀ p ∈ env, IsEntry sep eq p ∧ p.1 ≠ k) (hlast : IsEntry sep eq (k, v)) {n : ℕ}
    (hn : n + 1 < (encode sep eq (env ++ [(k, v)])).length) :
    (k, v) ∉ entries sep eq ((encode sep eq (env ++ [(k, v)])).take n) := by
  -- a field of which the key is not `k`, cut off anywhere
  have hother : ∀ p, IsEntry sep eq p → p.1 ≠ k →
      ∀ m, (k, v) ∉ (keyValue eq ((p.1 ++ eq :: p.2).take m)).toList := by
    intro p hp hpk m hmem
    obtain ⟨hfield, hk, -⟩ := keyValue_eq_some.1 (Option.mem_toList.1 hmem)
    have hpre : k ++ eq :: v <+: p.1 ++ eq :: p.2 := hfield ▸ List.take_prefix _ _
    obtain ⟨rest, hrest⟩ := hpre
    have htake := (takeWhile_ne_append hk (v ++ rest)).1
    rw [show k ++ eq :: (v ++ rest) = p.1 ++ eq :: p.2 by simpa using hrest,
      (takeWhile_ne_append hp.eq_key p.2).1] at htake
    exact hpk htake
  induction env generalizing n with
  | nil =>
    rw [List.nil_append, encode_cons, List.length_append, List.length_cons] at hn
    rw [List.nil_append, encode_cons, entries_take_cons _ _ (hlast.sep_notMem hne)]
    have hnil : (encode sep eq ([] : List (List α × List α))).length = 0 := rfl
    rw [if_pos (by omega)]
    intro hmem
    obtain ⟨hfield, -, -⟩ := keyValue_eq_some.1 (Option.mem_toList.1 hmem)
    have hlen := congrArg List.length hfield
    simp only [List.length_take] at hlen hn
    omega
  | cons p env ih =>
    obtain ⟨hp, hpk⟩ := henv p List.mem_cons_self
    rw [List.cons_append, encode_cons, List.length_append, List.length_cons] at hn
    rw [List.cons_append, encode_cons, entries_take_cons _ _ (hp.sep_notMem hne)]
    split
    · exact hother p hp hpk n
    · rw [List.mem_append, not_or]
      refine ⟨?_, ih (fun q hq => henv q (List.mem_cons_of_mem p hq)) (by omega)⟩
      have hwhole := hother p hp hpk (p.1 ++ eq :: p.2).length
      rwa [List.take_length] at hwhole

end NetProg.Lib
