import NetProg.Lib.Fields

/-!
# Terminated strings in arrays

A string in an array ends before the first terminator behind its start, so a program that reads it depends
on a terminator being there, and one that writes it needs a place for it. `StringAt` says that a string lies
at a place of an array, and `put` writes to an array, but only inside it.
-/

namespace NetProg.Lib

variable {α : Type} {nul a : α} {array array' s t : List α} {start : ℕ}

/-- Elements written from a place of the array on, if they all lie inside it. -/
def put (array : List α) (start : ℕ) (as : List α) : Option (List α) :=
  if start + as.length ≤ array.length then
    some (array.take start ++ (as ++ array.drop (start + as.length)))
  else none

theorem exists_put (h : start + s.length ≤ array.length) : ∃ array', put array start s = some array' :=
  ⟨_, if_pos h⟩

theorem put_eq_some (h : put array start s = some array') :
    start + s.length ≤ array.length ∧
      array' = array.take start ++ (s ++ array.drop (start + s.length)) := by
  unfold put at h
  split at h
  · rename_i hle
    exact ⟨hle, (Option.some.inj h).symm⟩
  · cases h

theorem length_put (h : put array start s = some array') : array'.length = array.length := by
  obtain ⟨hle, rfl⟩ := put_eq_some h
  simp only [List.length_append, List.length_take, List.length_drop]
  omega

theorem take_put (h : put array start s = some array') :
    array'.take start = array.take start ∧ s <+: array'.drop start := by
  obtain ⟨hle, rfl⟩ := put_eq_some h
  have hlen : (array.take start).length = start := List.length_take_of_le (by omega)
  rw [List.take_append_of_le_length hlen.ge, List.drop_append_of_le_length hlen.ge,
    List.take_of_length_le hlen.le, List.drop_of_length_le hlen.le, List.nil_append]
  exact ⟨rfl, List.prefix_append _ _⟩

/-- A string and its terminator lie in the array. -/
structure StringAt (nul : α) (array : List α) (start : ℕ) (s : List α) : Prop where
  notMem : nul ∉ s
  lies : s ++ [nul] <+: array.drop start

namespace StringAt

theorem takeWhile_eq [DecidableEq α] (h : StringAt nul array start s) :
    (array.drop start).takeWhile (· ≠ nul) = s := by
  obtain ⟨rest, hrest⟩ := h.lies
  rw [← hrest, List.append_assoc, List.singleton_append]
  exact (takeWhile_ne_append h.notMem rest).1

theorem nul_mem (h : StringAt nul array start s) : nul ∈ array.drop start :=
  h.lies.subset (by simp)

theorem suffix (h : StringAt nul array start (s ++ t)) : StringAt nul array (start + s.length) t := by
  obtain ⟨rest, hrest⟩ := h.lies
  refine ⟨fun hmem => h.notMem (List.mem_append_right s hmem), rest, ?_⟩
  rw [← List.drop_drop, ← hrest]
  simp

/-- A terminated string behind the start of another one goes on with it, up to the first terminator. -/
theorem of_put [DecidableEq α] (hs : nul ∉ s) (hlies : s <+: array.drop start)
    (h : put array (start + s.length) (t ++ [nul]) = some array') :
    StringAt nul array' start (s ++ t.takeWhile (· ≠ nul)) := by
  obtain ⟨htake, hput⟩ := take_put h
  have hstart : array'.drop start = s ++ array'.drop (start + s.length) := by
    have hfirst : (array'.drop start).take s.length = s := by
      have hsame := congrArg (List.drop start) htake
      rw [List.drop_take, List.drop_take, Nat.add_sub_cancel_left] at hsame
      rw [hsame]
      exact (List.prefix_iff_eq_take.1 hlies).symm
    conv_lhs => rw [← List.take_append_drop s.length (array'.drop start), hfirst, List.drop_drop]
  obtain ⟨rest, hrest⟩ := hput
  have hsplit : t ++ [nul] = t.takeWhile (· ≠ nul) ++ (t ++ [nul]).dropWhile (· ≠ nul) ∧
      ∃ after, (t ++ [nul]).dropWhile (· ≠ nul) = nul :: after := by
    by_cases hmem : nul ∈ t
    · obtain ⟨before, after, rfl, hbefore⟩ := List.eq_append_cons_of_mem hmem
      have hcut := takeWhile_ne_append hbefore after
      have hcut' := takeWhile_ne_append hbefore (after ++ [nul])
      rw [List.append_assoc, List.cons_append, hcut.1, hcut'.2]
      exact ⟨rfl, _, rfl⟩
    · have hcut := takeWhile_ne_append hmem []
      rw [hcut.2, List.takeWhile_eq_self_iff.2 fun b hb => by simpa using ne_of_mem_of_not_mem hb hmem]
      exact ⟨rfl, _, rfl⟩
  obtain ⟨hsplit, after, hafter⟩ := hsplit
  refine ⟨?_, after ++ rest, ?_⟩
  · rw [List.mem_append, not_or]
    exact ⟨hs, fun hmem => by simpa using List.mem_takeWhile_imp hmem⟩
  · rw [hstart, ← hrest, hsplit, hafter]
    simp

end StringAt

end NetProg.Lib
