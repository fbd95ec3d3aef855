import NetProg.System.Stream

/-!
# A stream in chunks

What a receiver meets when the whole stream comes to it in chunks that are no longer than its buffer: every
`recv` returns the next chunk, and the last one reports the end of the stream.
-/

namespace NetProg

/-- The script consists of the chunks of the input, with their sizes, and of the end of the stream. -/
def Rx.Chunked (size : ℕ) (rx : Rx) : Prop :=
  ∃ sizes : List ℕ, (∀ n ∈ sizes, 1 ≤ n ∧ n ≤ size) ∧ sizes.sum = rx.input.length ∧
    rx.script = sizes.map .deliver ++ [.deliver 0]

/-- What a call with room for `size` bytes has got, and what it leaves. -/
structure Rx.NextChunk (size : ℕ) (rx : Rx) (got : Bytes) (rx' : Rx) : Prop where
  stream_eq : got ++ rx'.input = rx.input
  length_le : got.length ≤ size
  script_lt : rx'.script.length < rx.script.length
  cases : got = [] ∧ rx'.input = [] ∨ got ≠ [] ∧ rx'.Chunked size

theorem moved_eq_self {n len : ℕ} (hpos : 1 ≤ n) (hle : n ≤ len) (hmax : n ≤ INT_MAX) : moved n len = n := by
  unfold moved
  omega

theorem Rx.Chunked.recv_next {size : ℕ} {rx : Rx} (h : rx.Chunked size) (hsize : size ≤ INT_MAX) :
    ∃ got rx', recv size rx = .ok (got.length, none, got) rx' ∧ rx.NextChunk size got rx' := by
  obtain ⟨input, script⟩ := rx
  obtain ⟨sizes, hfits, hsum, hscript⟩ := h
  dsimp only at hsum hscript
  cases sizes with
  | nil =>
    have hinput : input = [] := List.length_eq_zero_iff.1 (by simpa using hsum.symm)
    subst hinput
    rw [hscript, List.map_nil, List.nil_append, recv_deliver]
    exact ⟨[], ⟨[], []⟩, by simp, rfl, Nat.zero_le _, by simp, .inl ⟨rfl, rfl⟩⟩
  | cons n sizes =>
    rw [List.forall_mem_cons] at hfits
    rw [List.sum_cons] at hsum
    have hlen : (input.take n).length = n := List.length_take_of_le (by omega)
    have hmoved : moved n (min size input.length) = n := moved_eq_self hfits.1.1 (by omega) (by omega)
    have hrest : (input.drop n).length = sizes.sum := by
      rw [List.length_drop]
      omega
    rw [hscript, List.map_cons, List.cons_append, recv_deliver, hmoved]
    refine ⟨input.take n, ⟨input.drop n, _⟩, by rw [hlen], List.take_append_drop n input, by omega, by simp,
      .inr ⟨fun hnil => ?_, sizes, hfits.2, hrest.symm, rfl⟩⟩
    rw [hnil, List.length_nil] at hlen
    omega

end NetProg
