import NetProg.Lib.Run
import NetProg.System.Stream
import Mathlib.Data.Finset.Card
import Mathlib.Data.Finset.Insert

/-!
# `select` and its sets of descriptors

An `fd_set` has one bit for each descriptor below `FD_SETSIZE`, and `FD_SET` and `FD_ISSET` do not look
whether a descriptor has one: with any other they touch memory beside the set, which ends a run with
`Stop.outOfBounds`.

The kernel answers a call with an error, which leaves the sets alone, or with the descriptors that are
ready. It keeps the bits of those below `nfds` and returns their number, which is zero after a timeout. Both
libraries ask again after an interruption (`selectAgain`), so a call of theirs comes to the first answer
that is none (`selectAgain_of_answer`), and the sets are then what they were at first.
-/

namespace NetProg
open Lib (run_bind_ok)

def ETIMEDOUT : Errno := .other 110

/-- The number of bits in an `fd_set`. -/
def FD_SETSIZE : ℕ := 1024

/-- The bits that are set. -/
abbrev FdSet := Finset (Fin FD_SETSIZE)

def FD_ZERO : FdSet := ∅

/-- The descriptor has a bit. -/
def HasBit (fd : ℤ) : Prop := fd.toNat < FD_SETSIZE ∧ 0 ≤ fd

/-- The bit of a descriptor. -/
def HasBit.bit {fd : ℤ} (h : HasBit fd) : Fin FD_SETSIZE := ⟨fd.toNat, h.1⟩

instance : DecidablePred HasBit := fun _ => inferInstanceAs (Decidable (_ ∧ _))

theorem hasBit_iff {fd : ℤ} (h : 0 ≤ fd) : HasBit fd ↔ fd < FD_SETSIZE := by
  unfold HasBit
  omega

section

variable {σ : Type}

def FD_SET (fd : ℤ) (fdset : FdSet) : EStateM Stop σ FdSet :=
  if h : HasBit fd then return insert h.bit fdset else throw (.outOfBounds fd.toNat FD_SETSIZE)

def FD_ISSET (fd : ℤ) (fdset : FdSet) : EStateM Stop σ Bool :=
  if h : HasBit fd then return decide (h.bit ∈ fdset) else throw (.outOfBounds fd.toNat FD_SETSIZE)

end

/-- The bit of the descriptor is set. -/
def FdSet.Holds (fdset : FdSet) (fd : ℤ) : Prop := ∃ h : HasBit fd, h.bit ∈ fdset

instance (fdset : FdSet) (fd : ℤ) : Decidable (fdset.Holds fd) := inferInstanceAs (Decidable (∃ _, _))

/-- `struct timeval` -/
structure Timeval where
  tv_sec : ℤ
  tv_usec : ℤ
  deriving DecidableEq, Repr

/-- The three sets of a call. -/
structure FdSets where
  rset : FdSet
  wset : FdSet
  eset : FdSet
  deriving DecidableEq

/-- The arguments of a call. A null pointer asks for no descriptor, or for no limit of time. -/
structure SelectCall where
  nfds : ℤ
  sets : FdSets
  timeout : Option Timeval
  deriving DecidableEq

/-- What the kernel answers: an error, or the descriptors that can be read, can be written, and have an
exceptional condition. -/
inductive SelectAnswer
  | fail (errno : Errno)
  | ready (readable writable exceptional : List ℤ)
  deriving DecidableEq, Repr

/-- The answers to come, and the calls made so far. -/
structure Selector where
  script : List SelectAnswer
  asked : List SelectCall
  deriving DecidableEq

/-- The bits that the kernel keeps. -/
def FdSet.keep (fdset : FdSet) (nfds : ℤ) (ready : List ℤ) : FdSet :=
  fdset.filter fun i => (i.val : ℤ) < nfds ∧ (i.val : ℤ) ∈ ready

/-- The sets after the call. -/
def SelectCall.keep (call : SelectCall) (readable writable exceptional : List ℤ) : FdSets :=
  ⟨call.sets.rset.keep call.nfds readable, call.sets.wset.keep call.nfds writable,
    call.sets.eset.keep call.nfds exceptional⟩

/-- The bits that are set. -/
def FdSets.count (sets : FdSets) : ℕ := sets.rset.card + sets.wset.card + sets.eset.card

/-- `select(nfds, &rset, &wset, &eset, timeout)`: the return value, `errno` and the sets. -/
def select (call : SelectCall) : EStateM Stop Selector (ℤ × Option Errno × FdSets) := fun s =>
  match s.script with
  | [] => .error .blocked { s with asked := s.asked ++ [call] }
  | .fail errno :: script => .ok (-1, some errno, call.sets) ⟨script, s.asked ++ [call]⟩
  | .ready readable writable exceptional :: script =>
    let sets := call.keep readable writable exceptional
    .ok (sets.count, none, sets) ⟨script, s.asked ++ [call]⟩

/-! ### Sets and lists -/

section

variable {σ : Type} {fdset : FdSet} {fdlist : List ℤ} {fd : ℤ} {s : σ}

theorem holds_empty : ¬ FD_ZERO.Holds fd := fun ⟨_, hmem⟩ => absurd hmem (Finset.notMem_empty _)

theorem FD_SET_of_hasBit (h : HasBit fd) :
    FD_SET fd fdset s = .ok (insert h.bit fdset) s := by
  rw [FD_SET, dif_pos h]
  rfl

theorem FD_SET_of_not_hasBit (h : ¬ HasBit fd) :
    FD_SET fd fdset s = .error (.outOfBounds fd.toNat FD_SETSIZE) s := by
  rw [FD_SET, dif_neg h]
  rfl

theorem holds_insert {fd' : ℤ} (h : HasBit fd) :
    FdSet.Holds (insert h.bit fdset) fd' ↔ fd' = fd ∨ fdset.Holds fd' := by
  constructor
  · rintro ⟨h', hmem⟩
    rcases Finset.mem_insert.1 hmem with heq | hold
    · have hnat : fd'.toNat = fd.toNat := congrArg Fin.val heq
      have hpos := h.2
      have hpos' := h'.2
      exact .inl (by omega)
    · exact .inr ⟨h', hold⟩
  · rintro (rfl | ⟨h', hold⟩)
    · exact ⟨h, Finset.mem_insert_self _ _⟩
    · exact ⟨h', Finset.mem_insert_of_mem hold⟩

theorem FD_ISSET_of_hasBit (h : HasBit fd) : FD_ISSET fd fdset s = .ok (decide (fdset.Holds fd)) s := by
  have hsame : fdset.Holds fd ↔ h.bit ∈ fdset := ⟨fun ⟨_, hmem⟩ => hmem, fun hmem => ⟨h, hmem⟩⟩
  rw [FD_ISSET, dif_pos h, decide_eq_decide.2 hsame]
  rfl

theorem holds_keep {nfds : ℤ} {ready : List ℤ} :
    (fdset.keep nfds ready).Holds fd ↔ fdset.Holds fd ∧ fd < nfds ∧ fd ∈ ready := by
  have hval : ∀ h : HasBit fd, (h.bit.val : ℤ) = fd :=
    fun h => Int.toNat_of_nonneg h.2
  constructor
  · rintro ⟨h, hmem⟩
    obtain ⟨hold, hkept⟩ := Finset.mem_filter.1 hmem
    rw [hval h] at hkept
    exact ⟨⟨h, hold⟩, hkept⟩
  · rintro ⟨⟨h, hold⟩, hkept⟩
    exact ⟨h, Finset.mem_filter.2 ⟨hold, by rwa [hval h]⟩⟩

/-- The set holds what the list does. -/
def Encodes (fdset : FdSet) (fdlist : List ℤ) : Prop := ∀ fd, fdset.Holds fd ↔ fd ∈ fdlist

theorem encodes_singleton (h : HasBit fd) : Encodes (insert h.bit FD_ZERO) [fd] := by
  intro fd'
  rw [holds_insert h, List.mem_singleton]
  exact or_iff_left holds_empty

theorem filter_keep {nfds : ℤ} (h : Encodes fdset fdlist) (hlt : ∀ fd ∈ fdlist, fd < nfds) (ready : List ℤ) :
    fdlist.filter ((fdset.keep nfds ready).Holds ·) = fdlist.filter (· ∈ ready) := by
  apply List.filter_congr
  intro fd hfd
  rw [decide_eq_decide, holds_keep]
  exact ⟨fun ⟨_, _, hready⟩ => hready, fun hready => ⟨(h fd).2 hfd, hlt fd hfd, hready⟩⟩

theorem card_keep_eq_zero {nfds : ℤ} (h : Encodes fdset fdlist) (hlt : ∀ fd ∈ fdlist, fd < nfds)
    (ready : List ℤ) : (fdset.keep nfds ready).card = 0 ↔ fdlist.filter (· ∈ ready) = [] := by
  rw [← filter_keep h hlt, Finset.card_eq_zero, List.filter_eq_nil_iff, Finset.eq_empty_iff_forall_notMem]
  constructor
  · intro hempty fd _ hset
    obtain ⟨hbit, hmem⟩ := of_decide_eq_true hset
    exact hempty _ hmem
  · intro hnone i hmem
    have hi : HasBit (i.val : ℤ) := ⟨i.isLt, Int.natCast_nonneg _⟩
    have hset : (fdset.keep nfds ready).Holds (i.val : ℤ) := ⟨hi, hmem⟩
    exact hnone i.val ((h _).1 (holds_keep.1 hset).1) (decide_eq_true hset)

end

/-! ### The answer to a call -/

/-- The loop from the label `again` on that the two libraries have in common. -/
def selectAgain : ℕ → SelectCall → EStateM Stop Selector (ℤ × Option Errno × FdSets)
  | 0, _ => throw .blocked
  | turns + 1, call => do
    let (n, errno, sets) ← select call
    if n < 0 ∧ errno = some .EINTR then selectAgain turns { call with sets } else return (n, errno, sets)

/-- The first answer that is not an interruption. -/
def answerOf (script : List SelectAnswer) : Option SelectAnswer := script.find? (· ≠ .fail .EINTR)

/-- What a call comes to. -/
def SelectCall.result (call : SelectCall) : SelectAnswer → ℤ × Option Errno × FdSets
  | .fail errno => (-1, some errno, call.sets)
  | .ready readable writable exceptional =>
    ((call.keep readable writable exceptional).count, none, call.keep readable writable exceptional)

section

variable {call : SelectCall} {turns : ℕ} {a : SelectAnswer} {script : List SelectAnswer}
  {asked : List SelectCall}

theorem select_cons : select call ⟨a :: script, asked⟩ = .ok (call.result a) ⟨script, asked ++ [call]⟩ := by
  cases a <;> rfl

theorem result_interrupted (h : (call.result a).1 < 0 ∧ (call.result a).2.1 = some .EINTR) :
    a = .fail .EINTR := by
  cases a with
  | fail errno =>
    obtain ⟨-, herrno⟩ := h
    rw [Option.some.inj herrno]
  | ready readable writable exceptional =>
    obtain ⟨-, herrno⟩ := h
    cases herrno

theorem selectAgain_interrupted :
    selectAgain (turns + 1) call ⟨.fail .EINTR :: script, asked⟩ =
      selectAgain turns call ⟨script, asked ++ [call]⟩ := by
  rw [selectAgain, run_bind_ok select_cons]
  rfl

theorem selectAgain_answered (h : a ≠ .fail .EINTR) :
    selectAgain (turns + 1) call ⟨a :: script, asked⟩ = .ok (call.result a) ⟨script, asked ++ [call]⟩ := by
  rw [selectAgain, run_bind_ok select_cons]
  simp only [if_neg fun hcond => h (result_interrupted hcond)]
  rfl

/-- However often a call is interrupted it comes to the first other answer, and was the same call all along.
-/
theorem selectAgain_of_answer (h : answerOf script = some a) (hturns : script.length < turns) :
    ∃ s', selectAgain turns call ⟨script, asked⟩ = .ok (call.result a) s' ∧
      ∀ c ∈ s'.asked, c ∈ asked ∨ c = call := by
  induction script generalizing turns asked with
  | nil => cases h
  | cons b script ih =>
    obtain ⟨turns, rfl⟩ := Nat.exists_eq_succ_of_ne_zero (Nat.ne_zero_of_lt hturns)
    have hasked : ∀ c ∈ asked ++ [call], c ∈ asked ∨ c = call := fun c hc => by simpa using hc
    by_cases hb : b = .fail .EINTR
    · subst hb
      rw [selectAgain_interrupted]
      obtain ⟨s', hrun, hcalls⟩ := ih h (Nat.lt_of_succ_lt_succ hturns)
      refine ⟨s', hrun, fun c hc => ?_⟩
      rcases hcalls c hc with hold | hnew
      · exact hasked c hold
      · exact .inr hnew
    · have hfirst : answerOf (b :: script) = some b := List.find?_cons_of_pos (decide_eq_true hb)
      obtain rfl : b = a := Option.some.inj (hfirst.symm.trans h)
      exact ⟨_, selectAgain_answered hb, hasked⟩

theorem selectAgain_blocked (h : answerOf script = none) :
    ∃ s', selectAgain turns call ⟨script, asked⟩ = .error .blocked s' := by
  induction script generalizing turns asked with
  | nil => cases turns <;> exact ⟨_, rfl⟩
  | cons b script ih =>
    cases turns with
    | zero => exact ⟨_, rfl⟩
    | succ turns =>
      have hb : b = .fail .EINTR := by
        have hall := List.find?_eq_none.1 h b List.mem_cons_self
        simpa using hall
      subst hb
      rw [selectAgain_interrupted]
      exact ih h

end

end NetProg
