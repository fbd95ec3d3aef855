import NetProg.Lib.Run
import NetProg.Lib.Schedule
import Mathlib.Data.List.Infix

/-!
# Reading lines from a source of elements

A reader takes elements from a source one at a time until one of them ends the line, the line is full, or the
source has ended (`takeLine`). `cut` says where that is: at the shortest prefix of what is left that ends with
an element at which the reader stops, of at most so many elements.

`Source` is what a source has to do, and then a call takes the cut of the stream (`takeLine_eq_cut`), whatever
the source does to have its next element at hand, and a sequence of calls takes the cuts of the stream one
after the other (`ReadsLines.mapM_eq_cuts`), none lost and none twice. A program that takes its elements from
a buffer and fills it when it is empty is a source (`Buffer.source`).
-/

namespace NetProg.Lib

section

variable {α : Type}

/-- The shortest prefix that ends with an element at which `stop` holds, but at most `n` elements, and what
follows it. -/
def cut (stop : α → Bool) : ℕ → List α → List α × List α
  | 0, s => ([], s)
  | _ + 1, [] => ([], [])
  | n + 1, a :: s => if stop a then ([a], s) else (a :: (cut stop n s).1, (cut stop n s).2)

theorem cut_append (stop : α → Bool) (n : ℕ) (s : List α) : (cut stop n s).1 ++ (cut stop n s).2 = s := by
  induction n generalizing s with
  | zero => rfl
  | succ n ih =>
    cases s with
    | nil => rfl
    | cons a s =>
      unfold cut
      split
      · rfl
      · exact congrArg (a :: ·) (ih s)

theorem length_cut_le (stop : α → Bool) (n : ℕ) (s : List α) : (cut stop n s).1.length ≤ n := by
  induction n generalizing s with
  | zero => exact le_refl 0
  | succ n ih =>
    cases s with
    | nil => exact Nat.zero_le _
    | cons a s =>
      unfold cut
      split
      · simp
      · simpa using ih s

/-- The pieces of a list, each of which ends at its first stopping element, the last one perhaps at the end.
-/
def segments (stop : α → Bool) : List α → List (List α)
  | [] => []
  | a :: s =>
    if stop a then [a] :: segments stop s
    else
      match segments stop s with
      | [] => [[a]]
      | l :: ls => (a :: l) :: ls

theorem segments_eq_nil {stop : α → Bool} {s : List α} : segments stop s = [] ↔ s = [] := by
  constructor
  · intro h
    cases s with
    | nil => rfl
    | cons a s =>
      unfold segments at h
      split_ifs at h
      split at h <;> exact absurd h (List.cons_ne_nil _ _)
  · rintro rfl
    rfl

theorem segments_cons_eq {stop : α → Bool} {a : α} {s l : List α} {ls : List (List α)}
    (h : segments stop (a :: s) = l :: ls) :
    stop a = true ∧ l = [a] ∧ ls = segments stop s ∨
      stop a = false ∧ s = [] ∧ l = [a] ∧ ls = [] ∨
        stop a = false ∧ ∃ l', segments stop s = l' :: ls ∧ l = a :: l' := by
  unfold segments at h
  split_ifs at h with hstop
  · obtain ⟨rfl, rfl⟩ := List.cons.inj h
    exact .inl ⟨hstop, rfl, rfl⟩
  · rw [Bool.not_eq_true] at hstop
    split at h
    · rename_i hnil
      obtain ⟨rfl, rfl⟩ := List.cons.inj h
      exact .inr (.inl ⟨hstop, segments_eq_nil.1 hnil, rfl, rfl⟩)
    · rename_i l' ls' hrest
      obtain ⟨rfl, rfl⟩ := List.cons.inj h
      exact .inr (.inr ⟨hstop, l', hrest, rfl⟩)

theorem flatten_segments (stop : α → Bool) (s : List α) : (segments stop s).flatten = s := by
  induction s with
  | nil => rfl
  | cons a s ih =>
    cases h : segments stop (a :: s) with
    | nil => exact absurd (segments_eq_nil.1 h) (List.cons_ne_nil a s)
    | cons l ls =>
      rcases segments_cons_eq h with ⟨-, rfl, rfl⟩ | ⟨-, rfl, rfl, rfl⟩ | ⟨-, l', hrest, rfl⟩
      · rw [List.flatten_cons, ih, List.singleton_append]
      · rfl
      · rw [hrest, List.flatten_cons] at ih
        rw [List.flatten_cons, List.cons_append, ih]

theorem ne_nil_of_mem_segments {stop : α → Bool} {s l : List α} (h : l ∈ segments stop s) : l ≠ [] := by
  induction s generalizing l with
  | nil => exact absurd h List.not_mem_nil
  | cons a s ih =>
    unfold segments at h
    split_ifs at h
    · rcases List.mem_cons.1 h with rfl | hrest
      · exact List.cons_ne_nil _ _
      · exact ih hrest
    · split at h
      · rw [List.mem_singleton.1 h]
        exact List.cons_ne_nil _ _
      · rename_i l' ls hrest
        rcases List.mem_cons.1 h with rfl | hmem
        · exact List.cons_ne_nil _ _
        · exact ih (by rw [hrest]; exact List.mem_cons_of_mem l' hmem)

theorem length_segments_le (stop : α → Bool) (s : List α) : (segments stop s).length ≤ s.length := by
  induction s with
  | nil => exact le_rfl
  | cons a s ih =>
    cases h : segments stop (a :: s) with
    | nil => exact Nat.zero_le _
    | cons l ls =>
      rcases segments_cons_eq h with ⟨-, -, rfl⟩ | ⟨-, rfl, -, rfl⟩ | ⟨-, l', hrest, -⟩
      · exact Nat.succ_le_succ ih
      · exact le_rfl
      · rw [hrest] at ih
        exact ih.trans (Nat.le_succ s.length)

theorem cut_of_segments {stop : α → Bool} {n : ℕ} {s l : List α} {ls : List (List α)}
    (h : segments stop s = l :: ls) (hle : l.length ≤ n) :
    cut stop n s = (l, ls.flatten) ∧ segments stop ls.flatten = ls := by
  induction s generalizing n l with
  | nil => exact absurd h.symm (List.cons_ne_nil l ls)
  | cons a s ih =>
    obtain ⟨n, rfl⟩ : ∃ m, n = m + 1 := by
      have hmem : l ∈ segments stop (a :: s) := h ▸ List.mem_cons_self
      have hpos := List.length_pos_iff.2 (ne_nil_of_mem_segments hmem)
      exact ⟨n - 1, by omega⟩
    rw [cut]
    rcases segments_cons_eq h with ⟨hstop, rfl, rfl⟩ | ⟨hstop, rfl, rfl, rfl⟩ | ⟨hstop, l', hrest, rfl⟩
    · rw [if_pos hstop, flatten_segments]
      exact ⟨rfl, rfl⟩
    · rw [if_neg (by rw [hstop]; exact Bool.false_ne_true)]
      cases n <;> exact ⟨rfl, rfl⟩
    · rw [List.length_cons] at hle
      obtain ⟨hcut, hsegments⟩ := ih hrest (by omega : l'.length ≤ n)
      rw [if_neg (by rw [hstop]; exact Bool.false_ne_true), hcut]
      exact ⟨rfl, hsegments⟩

/-- A stopping element among the first `n`, or fewer than `n` elements: the cut is where the reader stops of
itself. -/
def EndsWithin (stop : α → Bool) (n : ℕ) (s : List α) : Prop :=
  (∃ a ∈ s.take n, stop a = true) ∨ s.length < n

instance (stop : α → Bool) (n : ℕ) (s : List α) : Decidable (EndsWithin stop n s) :=
  inferInstanceAs (Decidable (_ ∨ _))

theorem endsWithin_of_segments {stop : α → Bool} {n : ℕ} {s l : List α} {ls : List (List α)}
    (h : segments stop s = l :: ls) (hlt : l.length < n) : EndsWithin stop n s := by
  induction s generalizing n l with
  | nil => exact .inr (Nat.zero_lt_of_lt hlt)
  | cons a s ih =>
    obtain ⟨n, rfl⟩ := Nat.exists_eq_succ_of_ne_zero (Nat.ne_zero_of_lt hlt)
    rcases segments_cons_eq h with ⟨hstop, -⟩ | ⟨-, rfl, rfl, -⟩ | ⟨-, l', hrest, rfl⟩
    · exact .inl ⟨a, by rw [List.take_succ_cons]; exact List.mem_cons_self, hstop⟩
    · exact .inr hlt
    · rw [List.length_cons] at hlt
      rcases ih hrest (Nat.lt_of_succ_lt_succ hlt) with ⟨b, hb, hstop⟩ | hshort
      · exact .inl ⟨b, by rw [List.take_succ_cons]; exact List.mem_cons_of_mem a hb, hstop⟩
      · exact .inr (Nat.succ_lt_succ hshort)

/-- The cuts of a stream, one for each call. -/
def cuts {κ : Type} (stop : κ → α → Bool) (room : κ → ℕ) : List κ → List α → List (List α)
  | [], _ => []
  | c :: cs, s => (cut (stop c) (room c) s).1 :: cuts stop room cs (cut (stop c) (room c) s).2

/-- Nothing is lost between the cuts and nothing is in two of them. -/
theorem flatten_cuts_prefix {κ : Type} (stop : κ → α → Bool) (room : κ → ℕ) (cs : List κ) (s : List α) :
    (cuts stop room cs s).flatten <+: s := by
  induction cs generalizing s with
  | nil => exact List.nil_prefix
  | cons c cs ih =>
    have hsplit := cut_append (stop c) (room c) s
    rw [cuts, List.flatten_cons]
    conv_rhs => rw [← hsplit]
    exact (List.prefix_append_right_inj _).2 (ih _)

end

/-! ### One line -/

/-- Why a reader has returned. -/
inductive LineEnd
  | stopped
  | full
  | ended
  | failed
  deriving DecidableEq, Repr

section

variable {α ε σ : Type}

/-- Takes elements until one stops it or it has `room` of them. `next` returns `1` and an element, `0` at the
end, and anything else when it has failed. -/
def takeLine (next : EStateM ε σ (ℤ × α)) (stop : α → Bool) : ℕ → List α → EStateM ε σ (LineEnd × List α)
  | 0, line => return (.full, line)
  | room + 1, line => do
    let (rc, a) ← next
    if rc = 1 then
      if stop a then return (.stopped, line ++ [a]) else takeLine next stop room (line ++ [a])
    else if rc = 0 then return (.ended, line)
    else return (.failed, line)

/-- In the states where `Inv` holds, `next` takes the elements of a stream, and it returns as long as it has
a budget. In benign states it does not fail. -/
structure Source (next : EStateM ε σ (ℤ × α)) (stream : σ → List α) (Inv Benign : σ → Prop)
    (budget : σ → ℕ) : Prop where
  inv : ∀ s rc a s', Inv s → next s = .ok (rc, a) s' → Inv s'
  takes : ∀ s rc a s', Inv s → next s = .ok (rc, a) s' →
    rc = 1 ∧ stream s = a :: stream s' ∨
      rc = 0 ∧ stream s = [] ∧ stream s' = [] ∨ rc ≠ 1 ∧ rc ≠ 0 ∧ stream s' = stream s
  benign : ∀ s rc a s', Inv s → Benign s → next s = .ok (rc, a) s' →
    (rc = 1 ∨ rc = 0) ∧ Benign s' ∧ budget s ≤ budget s' + 1
  returns : ∀ s, Inv s → Benign s → 0 < budget s → ∃ r s', next s = .ok r s'

namespace Source

variable {next : EStateM ε σ (ℤ × α)} {stream : σ → List α} {Inv Benign : σ → Prop} {budget : σ → ℕ}
  {stop : α → Bool} {room : ℕ} {line out : List α} {s s' : σ} {e : LineEnd}

theorem takeLine_cases (hrun : takeLine next stop (room + 1) line s = .ok (e, out) s') :
    ∃ rc a s₁, next s = .ok (rc, a) s₁ ∧
      (rc = 1 ∧ stop a = true ∧ e = .stopped ∧ out = line ++ [a] ∧ s' = s₁ ∨
        rc = 1 ∧ stop a = false ∧ takeLine next stop room (line ++ [a]) s₁ = .ok (e, out) s' ∨
        rc = 0 ∧ e = .ended ∧ out = line ∧ s' = s₁ ∨
        rc ≠ 1 ∧ rc ≠ 0 ∧ e = .failed ∧ out = line ∧ s' = s₁) := by
  rw [takeLine] at hrun
  rcases hnext : next s with ⟨⟨rc, a⟩, s₁⟩ | ⟨err, s₁⟩
  · rw [run_bind_ok hnext] at hrun
    refine ⟨rc, a, s₁, rfl, ?_⟩
    simp only at hrun
    split_ifs at hrun with hone hstop hzero
    · obtain ⟨⟨rfl, rfl⟩, rfl⟩ : (LineEnd.stopped = e ∧ line ++ [a] = out) ∧ s₁ = s' := by
        simpa using hrun
      exact .inl ⟨hone, hstop, rfl, rfl, rfl⟩
    · exact .inr (.inl ⟨hone, by simpa using hstop, hrun⟩)
    · obtain ⟨⟨rfl, rfl⟩, rfl⟩ : (LineEnd.ended = e ∧ line = out) ∧ s₁ = s' := by simpa using hrun
      exact .inr (.inr (.inl ⟨hzero, rfl, rfl, rfl⟩))
    · obtain ⟨⟨rfl, rfl⟩, rfl⟩ : (LineEnd.failed = e ∧ line = out) ∧ s₁ = s' := by simpa using hrun
      exact .inr (.inr (.inr ⟨hone, hzero, rfl, rfl, rfl⟩))
  · rw [run_bind_error hnext] at hrun
    simp at hrun

/-- A line that has not failed is the cut of the stream, and the rest of the stream is still to come. The
reader is full if nothing has stopped it before. -/
theorem takeLine_eq_cut (h : Source next stream Inv Benign budget) (hinv : Inv s)
    (hrun : takeLine next stop room line s = .ok (e, out) s') :
    Inv s' ∧ (e ≠ .failed → out = line ++ (cut stop room (stream s)).1 ∧
      stream s' = (cut stop room (stream s)).2 ∧ (e = .full ↔ ¬ EndsWithin stop room (stream s))) := by
  induction room generalizing line s with
  | zero =>
    obtain ⟨⟨rfl, rfl⟩, rfl⟩ : (LineEnd.full = e ∧ line = out) ∧ s = s' := by simpa [takeLine] using hrun
    refine ⟨hinv, fun _ => ⟨by simp [cut], rfl, ?_⟩⟩
    simp [EndsWithin]
  | succ room ih =>
    obtain ⟨rc, a, s₁, hnext, hcases⟩ := takeLine_cases hrun
    have hinv₁ := h.inv _ _ _ _ hinv hnext
    have htakes := h.takes _ _ _ _ hinv hnext
    rcases hcases with ⟨rfl, hstop, rfl, rfl, rfl⟩ | ⟨rfl, hstop, hrest⟩ | ⟨rfl, rfl, rfl, rfl⟩ |
        ⟨-, -, rfl, -, rfl⟩
    · have hstream : stream s = a :: stream s' := by simpa using htakes
      rw [hstream, cut, if_pos hstop]
      refine ⟨hinv₁, fun _ => ⟨rfl, rfl, ?_⟩⟩
      simp [EndsWithin, hstop]
    · have hstream : stream s = a :: stream s₁ := by simpa using htakes
      obtain ⟨hinv', hcut⟩ := ih hinv₁ hrest
      rw [hstream, cut, if_neg (by simp [hstop])]
      refine ⟨hinv', fun he => ?_⟩
      obtain ⟨hout, hleft, hfull⟩ := hcut he
      refine ⟨by simp [hout], hleft, ?_⟩
      rw [hfull]
      simp [EndsWithin, hstop]
    · obtain ⟨hstream, hstream'⟩ : stream s = [] ∧ stream s' = [] := by simpa using htakes
      rw [hstream, hstream', cut]
      refine ⟨hinv₁, fun _ => ⟨by simp, rfl, ?_⟩⟩
      simp [EndsWithin]
    · exact ⟨hinv₁, fun he => absurd rfl he⟩

theorem takeLine_benign (h : Source next stream Inv Benign budget) (hinv : Inv s) (hbenign : Benign s)
    (hrun : takeLine next stop room line s = .ok (e, out) s') :
    e ≠ .failed ∧ Benign s' ∧ budget s ≤ budget s' + room := by
  induction room generalizing line s with
  | zero =>
    obtain ⟨⟨rfl, rfl⟩, rfl⟩ : (LineEnd.full = e ∧ line = out) ∧ s = s' := by simpa [takeLine] using hrun
    exact ⟨by simp, hbenign, le_refl _⟩
  | succ room ih =>
    obtain ⟨rc, a, s₁, hnext, hcases⟩ := takeLine_cases hrun
    have hinv₁ := h.inv _ _ _ _ hinv hnext
    obtain ⟨hrc, hbenign₁, hbudget⟩ := h.benign _ _ _ _ hinv hbenign hnext
    rcases hcases with ⟨-, -, rfl, -, rfl⟩ | ⟨-, -, hrest⟩ | ⟨-, rfl, -, rfl⟩ | ⟨hone, hzero, -⟩
    · exact ⟨by simp, hbenign₁, by omega⟩
    · obtain ⟨he, hbenign', hbudget'⟩ := ih hinv₁ hbenign₁ hrest
      exact ⟨he, hbenign', by omega⟩
    · exact ⟨by simp, hbenign₁, by omega⟩
    · exact absurd hrc (not_or.2 ⟨hone, hzero⟩)

/-- In a benign state the reader returns if it has a budget for every element it can take: for all it has room
for, or for all of the stream and for its end. -/
theorem takeLine_returns (h : Source next stream Inv Benign budget) (hinv : Inv s) (hbenign : Benign s)
    (hbudget : min room ((stream s).length + 1) ≤ budget s) (line : List α) :
    ∃ e out s', takeLine next stop room line s = .ok (e, out) s' := by
  induction room generalizing line s with
  | zero => exact ⟨_, _, _, rfl⟩
  | succ room ih =>
    obtain ⟨⟨rc, a⟩, s₁, hnext⟩ := h.returns s hinv hbenign (by omega)
    obtain ⟨hrc, hbenign₁, hbudget₁⟩ := h.benign _ _ _ _ hinv hbenign hnext
    have hinv₁ := h.inv _ _ _ _ hinv hnext
    have htakes := h.takes _ _ _ _ hinv hnext
    rw [takeLine, run_bind_ok hnext]
    rcases hrc with rfl | rfl
    · have hstream : stream s = a :: stream s₁ := by simpa using htakes
      rw [hstream, List.length_cons] at hbudget
      simp only [if_true]
      split
      · exact ⟨_, _, _, rfl⟩
      · exact ih hinv₁ hbenign₁ (by omega) _
    · exact ⟨_, _, _, rfl⟩

theorem takeLine_end (h : Source next stream Inv Benign budget) (hinv : Inv s) (hbenign : Benign s)
    (hrun : takeLine next stop room line s = .ok (e, out) s') :
    (e = .stopped ∧ (∃ before a, out = before ++ [a] ∧ stop a = true) ∧
        budget s + line.length ≤ budget s' + out.length) ∨
      (e = .ended ∧ stream s' = [] ∧ ∃ taken, out = line ++ taken ∧ ∀ a ∈ taken, stop a = false) ∨
        e = .full := by
  induction room generalizing line s with
  | zero =>
    obtain ⟨⟨rfl, -⟩, -⟩ : (LineEnd.full = e ∧ line = out) ∧ s = s' := by simpa [takeLine] using hrun
    exact .inr (.inr rfl)
  | succ room ih =>
    obtain ⟨rc, a, s₁, hnext, hcases⟩ := takeLine_cases hrun
    have hinv₁ := h.inv _ _ _ _ hinv hnext
    obtain ⟨hrc, hbenign₁, hbudget⟩ := h.benign _ _ _ _ hinv hbenign hnext
    rcases hcases with ⟨-, hstop, rfl, rfl, rfl⟩ | ⟨-, hstop, hrest⟩ | ⟨rfl, rfl, rfl, rfl⟩ | ⟨hone, hzero, -⟩
    · refine .inl ⟨rfl, ⟨line, a, rfl, hstop⟩, ?_⟩
      rw [List.length_append, List.length_singleton]
      omega
    · rcases ih hinv₁ hbenign₁ hrest with ⟨he, hlast, hspent⟩ | ⟨he, hended, taken, rfl, htaken⟩ | he
      · rw [List.length_append, List.length_singleton] at hspent
        exact .inl ⟨he, hlast, by omega⟩
      · refine .inr (.inl ⟨he, hended, a :: taken, ?_, List.forall_mem_cons.2 ⟨hstop, htaken⟩⟩)
        rw [List.append_assoc, List.singleton_append]
      · exact .inr (.inr he)
    · have htakes := h.takes _ _ _ _ hinv hnext
      obtain ⟨-, hended⟩ : stream s = [] ∧ stream s' = [] := by simpa using htakes
      exact .inr (.inl ⟨rfl, hended, [], (List.append_nil out).symm, List.forall_mem_nil _⟩)
    · exact absurd hrc (not_or.2 ⟨hone, hzero⟩)

end Source

/-! ### Buffers -/

/-- A buffer in front of a source. `take` takes the first element of a buffer that is `Filled`, and `refill`
answers `1` when it has filled one that was not. -/
structure Buffer (take : EStateM ε σ (ℤ × α)) (refill : EStateM ε σ ℤ) (Filled : σ → Prop)
    (stream : σ → List α) (Inv Benign : σ → Prop) (budget : σ → ℕ) : Prop where
  takes : ∀ s, ∃ a s', take s = .ok (1, a) s' ∧ (Inv s → Filled s →
    Inv s' ∧ stream s = a :: stream s' ∧ (Benign s → Benign s') ∧ budget s = budget s')
  refills : ∀ s rc s', Inv s → ¬ Filled s → refill s = .ok rc s' → Inv s' ∧
    (rc = 1 ∧ Filled s' ∧ stream s = stream s' ∨ rc = 0 ∧ stream s = [] ∧ stream s' = [] ∨
      rc ≠ 1 ∧ rc ≠ 0 ∧ stream s' = stream s)
  benign : ∀ s rc s', Inv s → Benign s → refill s = .ok rc s' →
    (rc = 1 ∨ rc = 0) ∧ Benign s' ∧ budget s ≤ budget s' + 1
  returns : ∀ s, Inv s → Benign s → 0 < budget s → ∃ rc s', refill s = .ok rc s'

namespace Buffer

variable {take next : EStateM ε σ (ℤ × α)} {refill : EStateM ε σ ℤ} {Filled : σ → Prop} {stream : σ → List α}
  {Inv Benign : σ → Prop} {budget : σ → ℕ} {s s' : σ} {rc : ℤ} {a a₀ : α}

theorem next_cases (h : Buffer take refill Filled stream Inv Benign budget)
    (hfilled : ∀ s, Filled s → next s = take s)
    (hempty : ∀ s, ¬ Filled s →
      next s = (refill >>= fun rc => if rc = 1 then take else pure (rc, a₀)) s)
    (hinv : Inv s) (hrun : next s = .ok (rc, a) s') :
    (∃ s₁, Inv s₁ ∧ Filled s₁ ∧ stream s = stream s₁ ∧
        (Benign s → Benign s₁ ∧ budget s ≤ budget s₁ + 1) ∧ take s₁ = .ok (rc, a) s') ∨
      rc ≠ 1 ∧ ¬ Filled s ∧ refill s = .ok rc s' := by
  by_cases hfill : Filled s
  · rw [hfilled s hfill] at hrun
    exact .inl ⟨s, hinv, hfill, rfl, fun hbenign => ⟨hbenign, Nat.le_succ _⟩, hrun⟩
  · rw [hempty s hfill] at hrun
    obtain ⟨rc₁, s₁, hrefill, hrest⟩ := bind_eq_ok_iff.1 hrun
    split_ifs at hrest with hone
    · obtain ⟨hinv₁, hcases⟩ := h.refills s rc₁ s₁ hinv hfill hrefill
      obtain ⟨hfill₁, hstream⟩ : Filled s₁ ∧ stream s = stream s₁ := by simpa [hone] using hcases
      exact .inl ⟨s₁, hinv₁, hfill₁, hstream, fun hbenign => (h.benign s rc₁ s₁ hinv hbenign hrefill).2,
        hrest⟩
    · obtain ⟨⟨rfl, -⟩, rfl⟩ : (rc₁ = rc ∧ a₀ = a) ∧ s₁ = s' := by simpa using hrest
      exact .inr ⟨hone, hfill, hrefill⟩

/-- A program that takes the first element of a filled buffer, and fills it first if it must, is a source. -/
theorem source (h : Buffer take refill Filled stream Inv Benign budget)
    (hfilled : ∀ s, Filled s → next s = take s)
    (hempty : ∀ s, ¬ Filled s →
      next s = (refill >>= fun rc => if rc = 1 then take else pure (rc, a₀)) s) :
    Source next stream Inv Benign budget where
  inv s rc a s' hinv hrun := by
    rcases h.next_cases hfilled hempty hinv hrun with ⟨s₁, hinv₁, hfill, -, -, htake⟩ | ⟨-, hfill, hrefill⟩
    · obtain ⟨a', s'', htake', hspec⟩ := h.takes s₁
      obtain ⟨-, rfl⟩ := EStateM.Result.ok.inj (htake.symm.trans htake')
      exact (hspec hinv₁ hfill).1
    · exact (h.refills s rc s' hinv hfill hrefill).1
  takes s rc a s' hinv hrun := by
    rcases h.next_cases hfilled hempty hinv hrun with
      ⟨s₁, hinv₁, hfill, hstream, -, htake⟩ | ⟨hone, hfill, hrefill⟩
    · obtain ⟨a', s'', htake', hspec⟩ := h.takes s₁
      obtain ⟨⟨rfl, rfl⟩, rfl⟩ : (rc = 1 ∧ a = a') ∧ s' = s'' := by simpa using htake.symm.trans htake'
      exact .inl ⟨rfl, hstream.trans (hspec hinv₁ hfill).2.1⟩
    · rcases (h.refills s rc s' hinv hfill hrefill).2 with ⟨rfl, -⟩ | hended | hfailed
      · exact absurd rfl hone
      · exact .inr (.inl hended)
      · exact .inr (.inr hfailed)
  benign s rc a s' hinv hbenign hrun := by
    rcases h.next_cases hfilled hempty hinv hrun with ⟨s₁, hinv₁, hfill, -, hkept, htake⟩ | ⟨-, -, hrefill⟩
    · obtain ⟨a', s'', htake', hspec⟩ := h.takes s₁
      obtain ⟨⟨rfl, rfl⟩, rfl⟩ : (rc = 1 ∧ a = a') ∧ s' = s'' := by simpa using htake.symm.trans htake'
      obtain ⟨hbenign₁, hbudget⟩ := hkept hbenign
      obtain ⟨-, -, hbenign', hsame⟩ := hspec hinv₁ hfill
      exact ⟨.inl rfl, hbenign' hbenign₁, hsame ▸ hbudget⟩
    · exact h.benign s rc s' hinv hbenign hrefill
  returns s hinv hbenign hbudget := by
    by_cases hfill : Filled s
    · obtain ⟨a, s', htake, -⟩ := h.takes s
      exact ⟨_, s', (hfilled s hfill).trans htake⟩
    · obtain ⟨rc, s₁, hrefill⟩ := h.returns s hinv hbenign hbudget
      rw [hempty s hfill, run_bind_ok hrefill]
      split_ifs
      · obtain ⟨a, s', htake, -⟩ := h.takes s₁
        exact ⟨_, s', htake⟩
      · exact ⟨_, _, rfl⟩

end Buffer

end

/-! ### A sequence of calls -/

/-- Each call takes a line. -/
structure ReadsLines {κ α β ε σ : Type} (call : κ → EStateM ε σ β) (line : β → List α)
    (stop : κ → α → Bool) (room : κ → ℕ) (ok : κ → Prop) (stream : σ → List α) (Inv Benign : σ → Prop)
    (budget : σ → ℕ) : Prop where
  takes : ∀ c s r s', ok c → Inv s → Benign s → call c s = .ok r s' →
    line r = (cut (stop c) (room c) (stream s)).1 ∧ stream s' = (cut (stop c) (room c) (stream s)).2 ∧
      Inv s' ∧ Benign s' ∧ budget s ≤ budget s' + room c
  returns : ∀ c s, ok c → Inv s → Benign s → room c ≤ budget s → ∃ r s', call c s = .ok r s'

namespace ReadsLines

variable {κ α β ε σ : Type} {call : κ → EStateM ε σ β} {line : β → List α} {stop : κ → α → Bool}
  {room : κ → ℕ} {ok : κ → Prop} {stream : σ → List α} {Inv Benign : σ → Prop} {budget : σ → ℕ}

/-- The calls of a sequence that return take the cuts of the stream. -/
theorem mapM_eq_cuts (h : ReadsLines call line stop room ok stream Inv Benign budget) {cs : List κ}
    (hok : ∀ c ∈ cs, ok c) {s s' : σ} {rs : List β} (hinv : Inv s) (hbenign : Benign s)
    (hrun : cs.mapM call s = .ok rs s') : rs.map line = cuts stop room cs (stream s) := by
  induction cs generalizing s rs with
  | nil =>
    obtain ⟨rfl, -⟩ : [] = rs ∧ s = s' := by simpa using hrun
    rfl
  | cons c cs ih =>
    rw [List.mapM_cons] at hrun
    rcases hcall : call c s with ⟨r, s₁⟩ | ⟨err, s₁⟩
    · rw [run_bind_ok hcall] at hrun
      obtain ⟨hline, hstream, hinv₁, hbenign₁, -⟩ :=
        h.takes c s r s₁ (hok c List.mem_cons_self) hinv hbenign hcall
      rcases hrest : cs.mapM call s₁ with ⟨rs₁, s₂⟩ | ⟨err, s₂⟩
      · rw [run_bind_ok hrest] at hrun
        obtain ⟨rfl, rfl⟩ : r :: rs₁ = rs ∧ s₂ = s' := by simpa using hrun
        rw [List.map_cons, hline, cuts, ← hstream,
          ih (fun d hd => hok d (List.mem_cons_of_mem c hd)) hinv₁ hbenign₁ hrest]
      · rw [run_bind_error hrest] at hrun
        simp at hrun
    · rw [run_bind_error hcall] at hrun
      simp at hrun

theorem mapM_returns (h : ReadsLines call line stop room ok stream Inv Benign budget) {cs : List κ}
    (hok : ∀ c ∈ cs, ok c) {s : σ} (hinv : Inv s) (hbenign : Benign s)
    (hbudget : total room cs ≤ budget s) : ∃ rs s', cs.mapM call s = .ok rs s' := by
  induction cs generalizing s with
  | nil => exact ⟨[], s, rfl⟩
  | cons c cs ih =>
    rw [total] at hbudget
    obtain ⟨r, s₁, hcall⟩ := h.returns c s (hok c List.mem_cons_self) hinv hbenign (by omega)
    obtain ⟨-, -, hinv₁, hbenign₁, hbudget₁⟩ :=
      h.takes c s r s₁ (hok c List.mem_cons_self) hinv hbenign hcall
    obtain ⟨rs, s', hrest⟩ :=
      @ih (fun d hd => hok d (List.mem_cons_of_mem c hd)) s₁ hinv₁ hbenign₁ (by omega)
    refine ⟨r :: rs, s', ?_⟩
    rw [List.mapM_cons, run_bind_ok hcall, run_bind_ok hrest]
    rfl

theorem of_source {next : EStateM ε σ (ℤ × α)} (h : Source next stream Inv Benign budget)
    {finish : LineEnd × List α → EStateM ε σ β}
    (hcall : ∀ c s, ok c → call c s = (takeLine next (stop c) (room c) [] >>= finish) s)
    (hfinish : ∀ e out s, e ≠ .failed → ∃ r, finish (e, out) s = .ok r s ∧ line r = out) :
    ReadsLines call line stop room ok stream Inv Benign budget where
  takes c s r s' hc hinv hbenign hrun := by
    rw [hcall c s hc] at hrun
    rcases htake : takeLine next (stop c) (room c) [] s with ⟨⟨e, out⟩, s₁⟩ | ⟨err, s₁⟩
    · obtain ⟨hinv₁, hcut⟩ := h.takeLine_eq_cut hinv htake
      obtain ⟨he, hbenign₁, hbudget⟩ := h.takeLine_benign hinv hbenign htake
      obtain ⟨hout, hstream, -⟩ := hcut he
      obtain ⟨r', hr', hline⟩ := hfinish e out s₁ he
      rw [run_bind_ok htake, hr', EStateM.Result.ok.injEq] at hrun
      obtain ⟨rfl, rfl⟩ := hrun
      exact ⟨hline.trans hout, hstream, hinv₁, hbenign₁, hbudget⟩
    · rw [run_bind_error htake] at hrun
      simp at hrun
  returns c s hc hinv hbenign hbudget := by
    obtain ⟨e, out, s₁, htake⟩ : ∃ e out s₁, takeLine next (stop c) (room c) [] s = .ok (e, out) s₁ :=
      h.takeLine_returns hinv hbenign ((min_le_left _ _).trans hbudget) []
    obtain ⟨he, -, -⟩ := h.takeLine_benign hinv hbenign htake
    obtain ⟨r, hr, -⟩ := hfinish e out s₁ he
    exact ⟨r, s₁, by rw [hcall c s hc, run_bind_ok htake, hr]⟩

end ReadsLines

/-! ### Calls until one finds nothing -/

section

variable {α β ε σ : Type} {call : EStateM ε σ (Option β)}

/-- The results of a call that is repeated until it has none. -/
def collect (stuck : ε) (call : EStateM ε σ (Option β)) : ℕ → EStateM ε σ (List β)
  | 0 => throw stuck
  | turns + 1 => do
    match ← call with
    | none => return []
    | some b => do
      let bs ← collect stuck call turns
      return b :: bs

/-- `At ls` holds of the states in which the calls still have `ls` to find. -/
theorem collect_eq {At : List α → σ → Prop} {f : α → β}
    (hsome : ∀ l ls s, At (l :: ls) s → ∃ s', call s = .ok (some (f l)) s' ∧ At ls s')
    (hnone : ∀ s, At [] s → ∃ s', call s = .ok none s') (stuck : ε) {ls : List α} {s : σ} (h : At ls s)
    {turns : ℕ} (hturns : ls.length < turns) : ∃ s', collect stuck call turns s = .ok (ls.map f) s' := by
  induction turns generalizing ls s with
  | zero => exact absurd hturns (Nat.not_lt_zero _)
  | succ turns ih =>
    rw [collect]
    cases ls with
    | nil =>
      obtain ⟨s', hcall⟩ := hnone s h
      exact ⟨s', by rw [run_bind_ok hcall]; rfl⟩
    | cons l ls =>
      obtain ⟨s₁, hcall, hrest⟩ := hsome l ls s h
      obtain ⟨s', hloop⟩ := ih hrest (Nat.lt_of_succ_lt_succ hturns)
      refine ⟨s', ?_⟩
      rw [run_bind_ok hcall]
      exact run_bind_ok hloop

end

end NetProg.Lib
