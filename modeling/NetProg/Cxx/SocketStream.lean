import NetProg.Cxx.ReadBuffer
import NetProg.Cxx.Wrapsock
import NetProg.System.Text

/-!
# The socket stream of the C++ library

`SocketInputStreamBuffer` of `lib/cxx/socket_istream.cpp`, a get area of 1024 characters that `underflow`
refills with one call of `Recv`, under `std::getline` of the standard library. What is above the get area
follows the standard: the characters are taken one at a time, the end of the stream sets `eofbit`, a call
that extracts nothing or finds no more room in its string sets `failbit`, and an exception of `underflow`
sets `badbit`.

As long as no call of `recv` fails the buffer is a source of the characters of the stream
(`source_sbumpc`), and `std::getline` takes its lines one after the other (`getline_line`, `getline_ended`).
-/

namespace NetProg.Cxx
open Lib

/-- The get area, the connection of `sock`, and the state of the `std::istream`. -/
structure SocketInputStream where
  buffer : Bytes
  gptr : ℕ
  egptr : ℕ
  rx : Rx
  eofbit : Bool
  failbit : Bool
  badbit : Bool
  deriving DecidableEq, Repr

namespace SocketInputStream

/-- `SocketInputStream(sock)`, with indeterminate characters in the buffer. -/
def new (rx : Rx) : SocketInputStream := ⟨List.replicate 1024 0, 1024, 1024, rx, false, false, false⟩

/-- `underflow()`: `1` when there are characters, `0` for `Traits::eof()`, and `-1` when it throws. -/
def underflow : EStateM Stop SocketInputStream ℤ := fun s =>
  match Socket.recvOrThrow 1024 s.rx with
  | .error .blocked rx => .error .blocked { s with rx }
  | .error _ rx => .ok (-1) { s with rx }
  | .ok (len, got) rx =>
    let s := { s with rx, buffer := got ++ s.buffer.drop got.length }
    if len = 0 then .ok 0 s else .ok 1 { s with gptr := 0, egptr := len.toNat }

/-- The character at `gptr`, and the next one is behind it. -/
def takeChar : EStateM Stop SocketInputStream (ℤ × UInt8) := fun s =>
  .ok (1, s.buffer.getD s.gptr 0) { s with gptr := s.gptr + 1 }

/-- `sgetc()` and, when there is a character, `sbumpc()`. -/
def sbumpc : EStateM Stop SocketInputStream (ℤ × UInt8) := do
  let s ← get
  let rc ← if s.gptr < s.egptr then pure 1 else underflow
  if rc = 1 then takeChar else return (rc, 0)

/-- `max_size()` of a string. -/
def maxSize : ℕ := 2 ^ 63 - 1

/-- `std::getline(stream, line)`: the line, or `none` when the stream is in a failed state afterwards. -/
def getline : EStateM Stop SocketInputStream (Option Bytes) := do
  let s ← get
  if s.eofbit ∨ s.failbit ∨ s.badbit then do
    modify fun s => { s with failbit := true }
    return none
  else do
    match ← takeLine sbumpc (· = newline) maxSize [] with
    | (.stopped, line) => return some line.dropLast
    | (.ended, line) => do
      modify fun s => { s with eofbit := true }
      if line = [] then do
        modify fun s => { s with failbit := true }
        return none
      else return some line
    | (.full, _) => do
      modify fun s => { s with failbit := true }
      return none
    | (.failed, _) => do
      modify fun s => { s with badbit := true }
      return none

/-! ### The get area -/

/-- The get area is inside the buffer, and no bit of the stream is set. -/
structure Inv (s : SocketInputStream) : Prop where
  length_eq : s.buffer.length = 1024
  egptr_le : s.egptr ≤ 1024
  good : s.eofbit = false ∧ s.failbit = false ∧ s.badbit = false

theorem inv_new (rx : Rx) : (new rx).Inv := ⟨List.length_replicate, le_rfl, rfl, rfl, rfl⟩

/-- The characters that are still to come. -/
def stream (s : SocketInputStream) : Bytes := (s.buffer.take s.egptr).drop s.gptr ++ s.rx.input

theorem stream_of_le {s : SocketInputStream} (h : s.egptr ≤ s.gptr) : s.stream = s.rx.input := by
  rw [stream, List.drop_eq_nil_of_le ((List.length_take_le _ _).trans h), List.nil_append]

/-- No call of `recv` reports an error. -/
def Quiet (s : SocketInputStream) : Prop := ∀ a ∈ s.rx.script, a.Moves

section

variable {buffer input : Bytes} {gptr egptr n : ℕ} {eofbit failbit badbit : Bool} {script : List RecvAnswer}
  {s s' : SocketInputStream} {rc : ℤ} {c : UInt8}

theorem underflow_deliver {k : ℕ} (hk : moved n (min 1024 input.length) = k) :
    underflow ⟨buffer, gptr, egptr, ⟨input, .deliver n :: script⟩, eofbit, failbit, badbit⟩ =
      if k = 0 then
        .ok 0 ⟨buffer, gptr, egptr, ⟨input, script⟩, eofbit, failbit, badbit⟩
      else
        .ok 1 ⟨input.take k ++ buffer.drop k, 0, k, ⟨input.drop k, script⟩, eofbit, failbit, badbit⟩ := by
  have hle : k ≤ min 1024 input.length := hk ▸ moved_le _ _
  have hlen : (input.take k).length = k := List.length_take_of_le (by omega)
  rw [underflow]
  simp only [Socket.recvOrThrow_deliver, hk, hlen, Int.toNat_natCast, Int.natCast_eq_zero]
  by_cases hzero : k = 0
  · rw [if_pos hzero, if_pos hzero, hzero]
    rfl
  · rw [if_neg hzero, if_neg hzero]

theorem underflow_fail {errno : Errno} :
    underflow ⟨buffer, gptr, egptr, ⟨input, .fail errno :: script⟩, eofbit, failbit, badbit⟩ =
      .ok (-1) ⟨buffer, gptr, egptr, ⟨input, script⟩, eofbit, failbit, badbit⟩ := by
  rw [underflow]
  simp only [Socket.recvOrThrow_fail]

theorem underflow_cases (hinv : s.Inv) (h : underflow s = .ok rc s') :
    s'.Inv ∧ (rc = 1 ∧ s'.gptr = 0 ∧ 0 < s'.egptr ∧ s'.stream = s.rx.input ∨
      rc = 0 ∧ s.rx.input = [] ∧ s'.rx.input = [] ∧ s'.egptr = s.egptr ∧ s'.gptr = s.gptr ∨
        rc = -1 ∧ s'.rx.input = s.rx.input ∧ s'.egptr = s.egptr ∧ s'.gptr = s.gptr) ∧
      ∃ a, s.rx.script = a :: s'.rx.script ∧ (a.Moves → rc ≠ -1) := by
  obtain ⟨buffer, gptr, egptr, ⟨input, script⟩, eofbit, failbit, badbit⟩ := s
  obtain ⟨hlen, hegptr, hgood⟩ := hinv
  rcases script with _ | ⟨n | e, script⟩
  · cases h
  · obtain ⟨k, hk⟩ : ∃ k, moved n (min 1024 input.length) = k := ⟨_, rfl⟩
    have hkle : k ≤ min 1024 input.length := hk ▸ moved_le _ _
    have htake : (input.take k).length = k := List.length_take_of_le (by omega)
    rw [underflow_deliver hk] at h
    split_ifs at h with hzero
    · obtain ⟨rfl, rfl⟩ := EStateM.Result.ok.inj h
      have hinput : input = [] := by
        by_contra hne
        have hpos := @moved_pos n (min 1024 input.length)
          (Nat.lt_min.2 ⟨by decide, List.length_pos_iff.2 hne⟩)
        omega
      exact ⟨⟨hlen, hegptr, hgood⟩, .inr (.inl ⟨rfl, hinput, hinput, rfl, rfl⟩), _, rfl, fun _ => by decide⟩
    · obtain ⟨rfl, rfl⟩ := EStateM.Result.ok.inj h
      refine ⟨⟨?_, ?_, hgood⟩, .inl ⟨rfl, rfl, Nat.pos_of_ne_zero hzero, ?_⟩, _, rfl, fun _ => by decide⟩
      · simp only at hlen ⊢
        rw [List.length_append, htake, List.length_drop]
        omega
      · simp only
        omega
      · rw [stream]
        simp only
        rw [List.drop_zero, List.take_append_of_le_length htake.ge, List.take_of_length_le htake.le,
          List.take_append_drop]
  · rw [underflow_fail] at h
    obtain ⟨rfl, rfl⟩ := EStateM.Result.ok.inj h
    exact ⟨⟨hlen, hegptr, hgood⟩, .inr (.inr ⟨rfl, rfl, rfl, rfl⟩), _, rfl, fun ha => absurd ha not_false⟩

theorem underflow_returns (hquiet : s.Quiet) (hbudget : 0 < s.rx.budget) :
    ∃ rc s', underflow s = .ok rc s' := by
  obtain ⟨buffer, gptr, egptr, ⟨input, script⟩, eofbit, failbit, badbit⟩ := s
  rcases script with _ | ⟨a, script⟩
  · exact absurd hbudget (Nat.lt_irrefl 0)
  · obtain ⟨n, rfl⟩ := (hquiet a List.mem_cons_self).exists_deliver
    rw [underflow_deliver rfl]
    split_ifs
    · exact ⟨_, _, rfl⟩
    · exact ⟨_, _, rfl⟩

theorem stream_takeChar (hinv : s.Inv) (hlt : s.gptr < s.egptr) :
    s.stream = s.buffer.getD s.gptr 0 :: ({ s with gptr := s.gptr + 1 } : SocketInputStream).stream := by
  obtain ⟨hlen, hegptr, -⟩ := hinv
  have hptr : s.gptr < (s.buffer.take s.egptr).length := by
    rw [List.length_take]
    omega
  simp only [stream]
  rw [List.drop_eq_getElem_cons hptr, List.cons_append, List.getElem_take, List.getD_eq_getElem?_getD,
    List.getElem?_eq_getElem (by omega), Option.getD_some]

theorem buffer_getArea :
    Buffer takeChar underflow (fun s => s.gptr < s.egptr) stream Inv Quiet (fun s => s.rx.budget) where
  takes s := by
    refine ⟨_, _, rfl, fun hinv hlt => ⟨?_, stream_takeChar hinv hlt, id, rfl⟩⟩
    exact ⟨hinv.length_eq, hinv.egptr_le, hinv.good⟩
  refills s rc s' hinv hempty h := by
    obtain ⟨hinv', hcases, -⟩ := underflow_cases hinv h
    refine ⟨hinv', ?_⟩
    rw [stream_of_le (Nat.not_lt.1 hempty)]
    rcases hcases with ⟨rfl, hgptr, hegptr, hread⟩ | ⟨rfl, hended, hended', heg, hg⟩ | ⟨rfl, hsame, heg, hg⟩
    · exact .inl ⟨rfl, hgptr ▸ hegptr, hread.symm⟩
    · exact .inr (.inl ⟨rfl, hended, by rw [stream_of_le (by omega), hended']⟩)
    · exact .inr (.inr ⟨by decide, by decide, by rw [stream_of_le (by omega), hsame]⟩)
  benign s rc s' hinv hquiet h := by
    obtain ⟨-, hcases, a, hscript, hmoved⟩ := underflow_cases hinv h
    have hne := hmoved (hquiet a (by rw [hscript]; exact List.mem_cons_self))
    refine ⟨?_, fun b hb => hquiet b (by rw [hscript]; exact List.mem_cons_of_mem a hb), ?_⟩
    · rcases hcases with ⟨hrc, -⟩ | ⟨hrc, -⟩ | ⟨hrc, -⟩
      · exact .inl hrc
      · exact .inr hrc
      · exact absurd hrc hne
    · rw [Rx.budget, hscript, List.countP_cons, Rx.budget]
      split <;> omega
  returns s _ := underflow_returns

theorem sbumpc_of_lt (hlt : s.gptr < s.egptr) : sbumpc s = takeChar s := by
  rw [sbumpc, run_get_bind, if_pos hlt]
  rfl

theorem sbumpc_of_not_lt (hempty : ¬ s.gptr < s.egptr) :
    sbumpc s = (underflow >>= fun rc => if rc = 1 then takeChar else pure (rc, 0)) s := by
  rw [sbumpc, run_get_bind, if_neg hempty]

theorem source_sbumpc : Source sbumpc stream Inv Quiet (fun s => s.rx.budget) :=
  buffer_getArea.source (fun _ => sbumpc_of_lt) (fun _ => sbumpc_of_not_lt)

/-! ### `std::getline` -/

/-- The stream has the lines `ls` to come, and the calls of `recv` for them are answered. -/
def Ready (ls : List Bytes) (s : SocketInputStream) : Prop :=
  ls = [] ∧ s.eofbit = true ∨
    s.Inv ∧ s.Quiet ∧ segments (· = newline) s.stream = ls ∧ s.stream.length < s.rx.budget

theorem getline_of_inv (hinv : s.Inv) :
    getline s = (takeLine sbumpc (· = newline) maxSize [] >>= fun r =>
      match r with
      | (.stopped, line) => pure (some line.dropLast)
      | (.ended, line) => do
        modify fun s => { s with eofbit := true }
        if line = [] then do
          modify fun s => { s with failbit := true }
          return none
        else return some line
      | (.full, _) => do
        modify fun s => { s with failbit := true }
        return none
      | (.failed, _) => do
        modify fun s => { s with badbit := true }
        return none) s := by
  obtain ⟨-, -, heof, hfail, hbad⟩ := hinv
  rw [getline, run_get_bind, heof, hfail, hbad]
  rfl

theorem getline_line {l : Bytes} {ls : List Bytes} (h : Ready (l :: ls) s) (hlt : l.length < maxSize) :
    ∃ s', getline s = .ok (some (chomp l)) s' ∧ Ready ls s' := by
  rcases h with ⟨hnil, -⟩ | ⟨hinv, hquiet, hsegments, hbudget⟩
  · exact absurd hnil (List.cons_ne_nil l ls)
  have hne : l ≠ [] := ne_nil_of_mem_segments (hsegments ▸ List.mem_cons_self)
  obtain ⟨hcut, hrest⟩ := cut_of_segments hsegments hlt.le
  obtain ⟨e, out, s', htake⟩ : ∃ e out s', takeLine sbumpc (· = newline) maxSize [] s = .ok (e, out) s' :=
    source_sbumpc.takeLine_returns hinv hquiet ((min_le_right _ _).trans hbudget) []
  obtain ⟨hinv', htaken⟩ := source_sbumpc.takeLine_eq_cut hinv htake
  obtain ⟨he, hquiet', -⟩ := source_sbumpc.takeLine_benign hinv hquiet htake
  obtain ⟨hout, hleft, hfull⟩ := htaken he
  obtain rfl : out = l := by rw [hout, hcut, List.nil_append]
  have hstream : s'.stream = ls.flatten := by rw [hleft, hcut]
  rw [getline_of_inv hinv, run_bind_ok htake]
  rcases source_sbumpc.takeLine_end hinv hquiet htake with ⟨rfl, ⟨before, a, hlast, hstop⟩, hspent⟩ |
      ⟨rfl, hended, taken, hall, hopen⟩ | rfl
  · obtain rfl : a = newline := of_decide_eq_true hstop
    refine ⟨s', ?_, .inr ⟨hinv', hquiet', hstream.symm ▸ hrest, ?_⟩⟩
    · rw [hlast, chomp_concat]
      simp only [List.dropLast_concat]
      rfl
    · have hsplit : out.length + s'.stream.length = s.stream.length := by
        rw [← List.length_append, ← cut_append (fun b => decide (b = newline)) maxSize s.stream, hcut,
          hstream]
      rw [List.length_nil] at hspent
      omega
  · obtain rfl : ls = [] := by
      rw [← hrest, ← hstream, hended]
      rfl
    have hnewline : newline ∉ out := by
      intro hmem
      rw [hall] at hmem
      exact absurd (hopen newline hmem) (by decide)
    refine ⟨{ s' with eofbit := true }, ?_, .inl ⟨rfl, rfl⟩⟩
    rw [chomp_of_notMem hnewline]
    simp only [run_modify_bind, if_neg hne]
    rfl
  · exact absurd (endsWithin_of_segments hsegments hlt) (hfull.1 rfl)

theorem getline_ended (h : Ready [] s) : ∃ s', getline s = .ok none s' := by
  rcases h with ⟨-, heof⟩ | ⟨hinv, hquiet, hsegments, hbudget⟩
  · refine ⟨{ s with failbit := true }, ?_⟩
    rw [getline, run_get_bind, if_pos (.inl heof)]
    rfl
  · obtain ⟨e, out, s', htake⟩ : ∃ e out s', takeLine sbumpc (· = newline) maxSize [] s = .ok (e, out) s' :=
      source_sbumpc.takeLine_returns hinv hquiet ((min_le_right _ _).trans hbudget) []
    obtain ⟨-, htaken⟩ := source_sbumpc.takeLine_eq_cut hinv htake
    obtain ⟨he, -, -⟩ := source_sbumpc.takeLine_benign hinv hquiet htake
    obtain ⟨hout, -, -⟩ := htaken he
    rw [segments_eq_nil.1 hsegments, List.nil_append] at hout
    obtain rfl : out = [] := hout
    rw [getline_of_inv hinv, run_bind_ok htake]
    rcases source_sbumpc.takeLine_end hinv hquiet htake with ⟨-, ⟨before, a, hlast, -⟩, -⟩ | ⟨rfl, -⟩ | rfl
    · exact absurd hlast.symm (List.concat_ne_nil _ _)
    · exact ⟨_, rfl⟩
    · exact ⟨_, rfl⟩

theorem collect_getline {ls : List Bytes} (h : Ready ls s) (hlt : ∀ l ∈ ls, l.length < maxSize) {turns : ℕ}
    (hturns : ls.length < turns) : ∃ s', collect .blocked getline turns s = .ok (ls.map chomp) s' := by
  refine @collect_eq _ _ _ _ getline (fun ls s => Ready ls s ∧ ∀ l ∈ ls, l.length < maxSize) chomp ?_ ?_
    .blocked ls s ⟨h, hlt⟩ turns hturns
  · rintro l ls s ⟨hready, hshort⟩
    obtain ⟨s', hcall, hready'⟩ := getline_line hready (hshort l List.mem_cons_self)
    exact ⟨s', hcall, hready', fun l' hl' => hshort l' (List.mem_cons_of_mem l hl')⟩
  · rintro s ⟨hready, -⟩
    exact getline_ended hready

end

end SocketInputStream

end NetProg.Cxx
