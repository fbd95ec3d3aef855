import NetProg.System.Receive
import NetProg.System.Send
import NetProg.System.Text

/-!
# `SendAll` and `RecvAll` of the C library

`RecvAll` writes through a pointer, so the loop carries the object it writes to, as its bytes, and the
offset of `ptr` in it. `write` is the only way bytes get into an object; a write that is not inside the
object is undefined behaviour and ends the run as `Stop.outOfBounds`.

`recvAll_received`: a request that fits the object never faults, whatever the kernel answers and wherever
the stream ends, and when it returns the object holds the bytes. `recvAll_enough` says that it returns when
the peer sends them, and `recvAll_overflow` that a request past the end of the object faults then.
`recvAll_returns_iff` and `sendAll_cases` are about any answers: each call returns exactly if enough bytes are
moved before the first failure other than an interruption.
-/

namespace NetProg.C
open Lib (run_pure run_throw run_bind_ok run_bind_error)

/-- `object` with `bytes` in place of what stood at `offset`. -/
def splice (object : Bytes) (offset : ℕ) (bytes : Bytes) : Bytes :=
  object.take offset ++ bytes ++ object.drop (offset + bytes.length)

/-- Write `bytes` at `offset` of the object `object`. -/
def write (object : Bytes) (offset : ℕ) (bytes : Bytes) : EStateM Stop Rx Bytes := fun rx =>
  if offset + bytes.length ≤ object.length then .ok (splice object offset bytes) rx
  else .error (.outOfBounds (max offset object.length) object.length) rx

/-- The body of the loop, on the object, the offset of `ptr` in it and `nleft`, when `n` is the length asked for.
The message at the end of the stream prints `n` and `n-nleft`, which are a `size_t`, with `%d`, which prints an
`int`. -/
def recvAllTurn (n : ℕ) (v : Bytes × ℕ × ℕ) : EStateM Stop Rx (Bytes × ℕ × ℕ) := do
  let (nread, errno, got) ← recv v.2.2
  let object ← write v.1 v.2.1 got
  let nread ←
    if nread ≤ 0 then
      if nread = 0 then throw (.errQuit (toInt n) (toInt (toSize (n - v.2.2))))
      else if errno = some .EINTR then pure 0
      else throw (.systemError errno)
    else pure nread
  return (object, v.2.1 + nread.toNat, toSize (v.2.2 - nread))

/-- `void RecvAll(int sockfd, void *vptr, size_t n)`: the object that `vptr` points to on return. -/
def recvAll (object : Bytes) (n : ℕ) : EStateM Stop Rx Bytes := fun rx =>
  Lib.whileLoop (fun v => v.2.2 > 0) (recvAllTurn n) Prod.fst .blocked (rx.script.length + 1) (object, 0, n) rx

/-- The body of the loop, on `ptr` and `nleft`. -/
def sendAllTurn (v : Bytes × ℕ) : EStateM Stop Tx (Bytes × ℕ) := do
  let (nwritten, errno) ← NetProg.send v.1 v.2
  let nwritten ←
    if nwritten ≤ 0 then
      if nwritten < 0 ∧ errno = some .EINTR then pure 0 else throw (.systemError errno)
    else pure nwritten
  return (v.1.drop nwritten.toNat, toSize (v.2 - nwritten))

/-- `void SendAll(int sockfd, const void *vptr, size_t n)`. -/
def sendAll (vptr : Bytes) (n : ℕ) : EStateM Stop Tx Unit := fun tx =>
  Lib.whileLoop (fun v => v.2 > 0) sendAllTurn (fun _ => ()) .blocked (tx.script.length + 1) (vptr, n) tx

/-- `strlen`. -/
def strlen (object : Bytes) : ℕ := (cString object).length

/-- The object of a string literal. -/
def literal (string : Bytes) : Bytes := string ++ [0]

/-- `void SendMsg(int sockfd, const char *msg)`. -/
def sendMsg (msg : Bytes) : EStateM Stop Tx Unit := sendAll msg (strlen msg)

theorem strlen_literal {string : Bytes} (hnul : 0 ∉ string) : strlen (literal string) = string.length := by
  have hholds : Holds (literal string) string := List.prefix_rfl
  rw [strlen, hholds.cString_eq hnul]

@[simp] theorem splice_nil (object : Bytes) (offset : ℕ) : splice object offset [] = object := by
  simp [splice]

theorem length_splice {object bytes : Bytes} {offset : ℕ} (h : offset + bytes.length ≤ object.length) :
    (splice object offset bytes).length = object.length := by
  rw [splice, List.length_append, List.length_append, List.length_take, List.length_drop]
  omega

theorem splice_splice {object first second : Bytes} {offset : ℕ} (h : offset ≤ object.length) :
    splice (splice object offset first) (offset + first.length) second =
      splice object offset (first ++ second) := by
  have hfirst : (object.take offset ++ first).length = offset + first.length := by
    rw [List.length_append, List.length_take_of_le h]
  rw [splice, splice, splice, List.take_left' hfirst, ← List.drop_drop, List.drop_left' hfirst,
    List.drop_drop, List.length_append, List.append_assoc (object.take offset), Nat.add_assoc]

theorem write_ok {object bytes : Bytes} {offset : ℕ} {rx : Rx}
    (h : offset + bytes.length ≤ object.length) :
    write object offset bytes rx = .ok (splice object offset bytes) rx :=
  if_pos h

theorem write_fault {object bytes : Bytes} {offset : ℕ} {rx : Rx}
    (h : object.length < offset + bytes.length) : write object offset bytes rx =
      .error (.outOfBounds (max offset object.length) object.length) rx :=
  if_neg (by omega)

theorem write_nil {object : Bytes} {offset : ℕ} {rx : Rx} (h : offset ≤ object.length) :
    write object offset [] rx = .ok object rx := by
  rw [write_ok (by simpa using h), splice_nil]

/-! ### One turn -/

section turn

variable {n turns ptr nleft k : ℕ} {object input : Bytes} {script : List RecvAnswer}

theorem recvAllTurn_deliver (hpos : 0 < nleft) (hlt : nleft < 2 ^ 64) (hinput : input ≠ [])
    (hk : k = moved n (min nleft input.length)) (hfits : ptr + k ≤ object.length) (len : ℕ) :
    recvAllTurn len (object, ptr, nleft) ⟨input, .deliver n :: script⟩ =
      .ok (splice object ptr (input.take k), ptr + k, nleft - k) ⟨input.drop k, script⟩ := by
  have hlen : 0 < input.length := List.length_pos_iff.mpr hinput
  have hcount : 0 < k := hk ▸ moved_pos (by omega)
  have hle : k ≤ min nleft input.length := hk ▸ moved_le _ _
  have htake : (input.take k).length = k := List.length_take_of_le (by omega)
  have hne : ¬ (k : ℤ) ≤ 0 := by omega
  rw [recvAllTurn, run_bind_ok recv_deliver, ← hk]
  simp only [if_neg hne]
  rw [run_bind_ok (write_ok (by rw [htake]; exact hfits)), run_bind_ok (run_pure _ _),
    Int.toNat_natCast, toSize_sub (by omega) hlt, run_pure]

theorem recvAllTurn_fault (hk : k = moved n (min nleft input.length)) (hfits : object.length < ptr + k)
    (len : ℕ) :
    recvAllTurn len (object, ptr, nleft) ⟨input, .deliver n :: script⟩ =
      .error (.outOfBounds (max ptr object.length) object.length) ⟨input.drop k, script⟩ := by
  have hle : k ≤ min nleft input.length := hk ▸ moved_le _ _
  have htake : (input.take k).length = k := List.length_take_of_le (by omega)
  rw [recvAllTurn, run_bind_ok recv_deliver, ← hk]
  exact run_bind_error (write_fault (by rw [htake]; exact hfits))

theorem recvAllTurn_eof (hptr : ptr ≤ object.length) (len : ℕ) :
    recvAllTurn len (object, ptr, nleft) ⟨[], .deliver n :: script⟩ =
      .error (.errQuit (toInt len) (toInt (toSize (len - nleft)))) ⟨[], script⟩ := by
  rw [recvAllTurn, run_bind_ok recv_deliver]
  simp only [List.length_nil, Nat.min_zero, moved_zero, Nat.cast_zero, le_refl, if_true, List.take_nil,
    List.drop_nil]
  rw [run_bind_ok (write_nil hptr)]
  exact run_bind_error rfl

theorem recvAllTurn_eintr (hlt : nleft < 2 ^ 64) (hptr : ptr ≤ object.length) (len : ℕ) :
    recvAllTurn len (object, ptr, nleft) ⟨input, .fail .EINTR :: script⟩ =
      .ok (object, ptr, nleft) ⟨input, script⟩ := by
  have hsize : toSize ((nleft : ℤ) - 0) = nleft := by simpa using toSize_sub (Nat.zero_le nleft) hlt
  rw [recvAllTurn, run_bind_ok recv_fail]
  simp only [show (-1 : ℤ) ≤ 0 by decide, if_true, show ¬ (-1 : ℤ) = 0 by decide, if_false]
  rw [run_bind_ok (write_nil hptr), run_bind_ok (run_pure _ _), hsize, Int.toNat_zero, Nat.add_zero,
    run_pure]

theorem recvAllTurn_fail (hptr : ptr ≤ object.length) {errno : Errno} (herrno : errno ≠ .EINTR)
    (len : ℕ) :
    recvAllTurn len (object, ptr, nleft) ⟨input, .fail errno :: script⟩ =
      .error (.systemError (some errno)) ⟨input, script⟩ := by
  have hne : ¬ some errno = some Errno.EINTR := fun h => herrno (Option.some.inj h)
  rw [recvAllTurn, run_bind_ok recv_fail]
  simp only [show (-1 : ℤ) ≤ 0 by decide, if_true, show ¬ (-1 : ℤ) = 0 by decide, if_false, if_neg hne]
  rw [run_bind_ok (write_nil hptr)]
  exact run_bind_error rfl

/-! The turns of `SendAll`. -/

section send

variable {left : ℕ} {buf wire : Bytes} {answers : List SendAnswer}

theorem sendAllTurn_sendTurns : SendTurns sendAllTurn where
  accepts ptr nleft wire m script hpos hlt := by
    have hcount := moved_pos (n := m) hpos
    have hne : ¬ (moved m nleft : ℤ) ≤ 0 := by omega
    rw [sendAllTurn, run_bind_ok send_accept]
    simp only [if_neg hne]
    rw [run_bind_ok (run_pure _ _), Int.toNat_natCast, toSize_sub (moved_le m nleft) hlt, run_pure]
  interrupted ptr nleft wire script hpos hlt := by
    have hsize : toSize ((nleft : ℤ) - 0) = nleft := by simpa using toSize_sub (Nat.zero_le nleft) hlt
    rw [sendAllTurn, run_bind_ok send_fail]
    simp only [show (-1 : ℤ) ≤ 0 by decide, if_true, show (-1 : ℤ) < 0 by decide, and_self]
    rw [run_bind_ok (run_pure _ _), hsize, Int.toNat_zero, List.drop_zero, run_pure]
  fails ptr nleft wire a script ha := by
    rcases SendAnswer.cases_of_not_benign ha with rfl | ⟨errno, rfl, herrno⟩
    · refine ⟨.systemError none, ?_⟩
      rw [sendAllTurn, run_bind_ok send_zero]
      exact run_bind_error rfl
    · have hne : ¬ some errno = some Errno.EINTR := fun h => herrno (Option.some.inj h)
      refine ⟨.systemError (some errno), ?_⟩
      rw [sendAllTurn, run_bind_ok send_fail]
      simp only [show (-1 : ℤ) ≤ 0 by decide, if_true, hne, and_false, if_false]
      exact run_bind_error rfl
  blocked ptr nleft wire := run_bind_error rfl

end send

end turn

/-! ### What the object holds -/

/-- The object holds `got` in front of `ptr`, and there is room for the rest. -/
def Stands (object : Bytes) (v : Bytes × ℕ × ℕ) (got : Bytes) : Prop :=
  v.1 = splice object 0 got ∧ v.2.1 = got.length ∧ v.2.1 + v.2.2 ≤ object.length

theorem Stands.ptr_le {object got : Bytes} {v : Bytes × ℕ × ℕ} (h : Stands object v got) :
    v.2.1 ≤ v.1.length := by
  obtain ⟨hobject, hptr, hroom⟩ := h
  rw [hobject, length_splice (by omega)]
  omega

/-- What the end of the stream prints. -/
def recvAllEof (n : ℕ) (v : Bytes × ℕ × ℕ) : Stop := .errQuit (toInt n) (toInt (toSize (n - v.2.2)))

theorem recvAllTurn_receiveTurns (object : Bytes) (n : ℕ) :
    ReceiveTurns (2 ^ 64) (fun v => v.2.2) (Stands object) (recvAllEof n) (recvAllTurn n) where
  deliver v got input m script hholds hpos hlt hinput := by
    obtain ⟨object', ptr, nleft⟩ := v
    have hptr : ptr ≤ object'.length := hholds.ptr_le
    obtain ⟨hobject, hlen, hroom⟩ := hholds
    simp only at hobject hlen hroom hpos hlt ⊢
    have hsize : object'.length = object.length := by rw [hobject, length_splice (by omega)]
    have hle := moved_le m (min nleft input.length)
    have htake : (input.take (moved m (min nleft input.length))).length = moved m (min nleft input.length) :=
      List.length_take_of_le (by omega)
    refine ⟨_, recvAllTurn_deliver hpos hlt hinput rfl (by omega) n, rfl, ?_, ?_, ?_⟩
    · have hjoin :=
        @splice_splice object got (input.take (moved m (min nleft input.length))) 0 (Nat.zero_le _)
      rw [Nat.zero_add] at hjoin
      simp only
      rw [hobject, hlen, hjoin]
    · rw [List.length_append, htake, hlen]
    · simp only
      omega
  ended v got m script hholds _ _ := recvAllTurn_eof hholds.ptr_le n
  eintr v got input script hholds _ hlt := .inl (recvAllTurn_eintr hlt hholds.ptr_le n)
  fails v got input errno script hholds herrno :=
    ⟨_, _, recvAllTurn_fail hholds.ptr_le herrno n⟩
  blocked v input := ⟨.blocked, _, run_bind_error rfl⟩

theorem stands_start {object : Bytes} {n : ℕ} (hfits : n ≤ object.length) :
    Stands object (object, 0, n) [] :=
  ⟨(splice_nil object 0).symm, rfl, by simpa using hfits⟩

theorem recvAllTurn_not_fault {object got : Bytes} {v : Bytes × ℕ × ℕ} (hholds : Stands object v got)
    (hpos : 0 < v.2.2) (hlt : v.2.2 < 2 ^ 64) {n : ℕ} {rx rx' : Rx} {stop : Stop}
    (hrun : recvAllTurn n v rx = .error stop rx') : ¬ stop.IsFault := by
  have h := recvAllTurn_receiveTurns object n
  obtain ⟨input, script⟩ := rx
  rcases script with _ | ⟨m | errno, script⟩
  · obtain ⟨rfl, -⟩ : Stop.blocked = stop ∧ _ = rx' := EStateM.Result.error.inj hrun
    exact not_false
  · by_cases hinput : input = []
    · rw [hinput, h.ended v got m script hholds hpos hlt] at hrun
      obtain ⟨rfl, -⟩ := EStateM.Result.error.inj hrun
      exact not_false
    · obtain ⟨v', hturn, -⟩ := h.deliver v got input m script hholds hpos hlt hinput
      cases hturn.symm.trans hrun
  · by_cases herrno : errno = .EINTR
    · rw [herrno, show v = (v.1, v.2.1, v.2.2) from rfl, recvAllTurn_eintr hlt hholds.ptr_le n] at hrun
      cases hrun
    · rw [show v = (v.1, v.2.1, v.2.2) from rfl, recvAllTurn_fail hholds.ptr_le herrno n] at hrun
      obtain ⟨rfl, -⟩ := EStateM.Result.error.inj hrun
      exact not_false

/-! ### Whole loops -/

/-- What holds of a run that asked for `nleft` bytes of `input` at `ptr` of `object`: it did not fault, and
if it returned the bytes stand there and nothing else has changed. -/
def Received (object : Bytes) (ptr nleft : ℕ) (input : Bytes) : EStateM.Result Stop Rx Bytes → Prop
  | .ok object' rx =>
    nleft ≤ input.length ∧ object' = splice object ptr (input.take nleft) ∧ rx.input = input.drop nleft
  | .error stop _ => ¬ stop.IsFault

/-- Whatever the kernel answers and wherever the stream ends. -/
theorem recvAll_received {object : Bytes} {n : ℕ} (rx : Rx) (hfits : n ≤ object.length)
    (hlt : n < 2 ^ 64) : Received object 0 n rx.input (recvAll object n rx) := by
  rw [recvAll]
  rcases (recvAllTurn_receiveTurns object n).run_received Prod.fst hlt (stands_start hfits)
    rfl rx with
    ⟨v, rx', hrun, hle, hholds, hrest, -⟩ | ⟨v, got, rx', stop, rx'', hrun, hI, hpos, hstop, -⟩
  · rw [hrun]
    exact ⟨hle, hholds.1, hrest⟩
  · rw [hrun]
    have hlen := hI.length_eq
    exact recvAllTurn_not_fault hI.holds hpos (by omega) hstop

theorem recvAll_enough {object : Bytes} {n : ℕ} {rx : Rx} (hfits : n ≤ object.length) (hlt : n < 2 ^ 64)
    (hbenign : rx.Benign) (hinput : n ≤ rx.input.length) (hbudget : n ≤ rx.budget) :
    ∃ rx', recvAll object n rx = .ok (splice object 0 (rx.input.take n)) rx' ∧ rx'.Benign ∧
      rx'.input = rx.input.drop n ∧ rx.budget ≤ rx'.budget + n := by
  have henough : Enough (fun v : Bytes × ℕ × ℕ => v.2.2) (object, 0, n) rx :=
    ⟨hbenign, (min_le_left _ _).trans hbudget⟩
  rcases (recvAllTurn_receiveTurns object n).run_cases Prod.fst hlt (stands_start hfits) rfl
    henough with ⟨-, v, rx', hrun, hholds, hrest, hbenign', hbudget'⟩ | ⟨hshort, -⟩
  · rw [hholds.1] at hrun
    exact ⟨rx', hrun, hbenign', hrest, hbudget'⟩
  · exact absurd hinput (Nat.not_le_of_lt hshort)

theorem recvAllTurns_overflow (len : ℕ) (script : List RecvAnswer) {turns ptr nleft : ℕ}
    {object input : Bytes} (hptr : ptr ≤ object.length) (hover : object.length < ptr + nleft)
    (hlt : nleft < 2 ^ 64) (hbenign : (Rx.mk input script).Benign) (hinput : nleft ≤ input.length)
    (hbudget : nleft ≤ (Rx.mk input script).budget) (hturns : script.length < turns) :
    ∃ i rx, Lib.whileLoop (fun v => v.2.2 > 0) (recvAllTurn len) Prod.fst .blocked turns (object, ptr, nleft)
      ⟨input, script⟩ = .error (.outOfBounds i object.length) rx := by
  obtain ⟨turns, rfl⟩ := Nat.exists_eq_succ_of_ne_zero (by omega : turns ≠ 0)
  have hpos : 0 < nleft := by omega
  induction script generalizing turns ptr nleft object input with
  | nil => exact absurd hbudget (Nat.not_le_of_lt hpos)
  | cons a script ih =>
    obtain ⟨turns, rfl⟩ := Nat.exists_eq_succ_of_ne_zero (by simp at hturns; omega : turns ≠ 0)
    simp only [List.length_cons] at hturns
    obtain ⟨ha, hscript⟩ := hbenign.cons
    rcases ha.cases with ⟨n, rfl⟩ | rfl
    · have hne : input ≠ [] := List.length_pos_iff.mp (by omega)
      have hle := moved_le n nleft
      have hmin : moved n nleft = moved n (min nleft input.length) := by rw [min_eq_left hinput]
      generalize moved n nleft = k at hle hmin
      rw [Rx.budget_deliver] at hbudget
      by_cases hfault : object.length < ptr + k
      · exact ⟨_, _, Lib.whileLoop_stopped hpos (recvAllTurn_fault hmin hfault len)⟩
      -- this call still fits: a later one does not
      have htake : (input.take k).length = k := List.length_take_of_le (by omega)
      have hsize : (splice object ptr (input.take k)).length = object.length := length_splice (by omega)
      have hk : 0 < k := by
        rw [hmin, min_eq_left hinput]
        exact moved_pos hpos
      rw [Lib.whileLoop, if_pos hpos, run_bind_ok (recvAllTurn_deliver hpos hlt hne hmin (by omega) len), ← hsize]
      exact @ih (ptr + k) (nleft - k) _ (input.drop k) (by omega) (by omega)
        (by omega) hscript (by rw [List.length_drop]; omega)
        (by rw [Rx.budget_input input]; omega) turns (by omega) (by omega)
    · rw [Lib.whileLoop, if_pos hpos, run_bind_ok (recvAllTurn_eintr hlt hptr len)]
      exact ih hptr hover hlt hscript hinput (by simpa using hbudget) turns (by omega) hpos

/-- A request past the end of the object faults when the peer meets it. -/
theorem recvAll_overflow {object : Bytes} {n : ℕ} {rx : Rx} (hover : object.length < n) (hlt : n < 2 ^ 64)
    (hbenign : rx.Benign) (hinput : n ≤ rx.input.length) (hbudget : n ≤ rx.budget) :
    ∃ i rx', recvAll object n rx = .error (.outOfBounds i object.length) rx' :=
  recvAllTurns_overflow n rx.script (Nat.zero_le _) (by omega) hlt hbenign hinput hbudget
    (Nat.lt_succ_self _)

/-! ### Any answers -/

/-- `RecvAll` returns exactly if the peer sends enough and the kernel moves enough before it reports a
failure. -/
theorem recvAll_returns_iff {object : Bytes} {n : ℕ} (rx : Rx) (hfits : n ≤ object.length)
    (hlt : n < 2 ^ 64) :
    (∃ object' rx', recvAll object n rx = .ok object' rx') ↔
      n ≤ rx.input.length ∧ Lib.Offers RecvAnswer.Benign RecvAnswer.offer n rx.script :=
  (recvAllTurn_receiveTurns object n).returns_iff Prod.fst hlt (stands_start hfits) rfl rx

theorem sendAll_cases {vptr : Bytes} {n : ℕ} (tx : Tx) (hle : n ≤ vptr.length) (hlt : n < 2 ^ 64) :
    (Lib.Offers SendAnswer.Benign SendAnswer.offer n tx.script ∧
        ∃ tx', sendAll vptr n tx = .ok () tx' ∧ tx'.wire = tx.wire ++ vptr.take n) ∨
      (¬ Lib.Offers SendAnswer.Benign SendAnswer.offer n tx.script ∧
        ∃ e tx', sendAll vptr n tx = .error e tx') := by
  exact sendAllTurn_sendTurns.run_cases hle hlt tx

theorem sendAll_completeSend {vptr : Bytes} {n : ℕ} (hle : n ≤ vptr.length) (hlt : n < 2 ^ 64) (tx : Tx) :
    CompleteSend sendAllTurn vptr n tx (sendAll vptr n tx) :=
  sendAllTurn_sendTurns.completeSend hle hlt tx

theorem sendAll_spec {vptr : Bytes} {n : ℕ} {tx : Tx} (hle : n ≤ vptr.length) (hlt : n < 2 ^ 64)
    (hbenign : tx.Benign) (hbudget : n ≤ tx.budget) :
    ∃ tx', sendAll vptr n tx = .ok () tx' ∧ tx'.wire = tx.wire ++ vptr.take n ∧ tx'.Benign ∧
      tx.budget ≤ tx'.budget + n :=
  sendAllTurn_sendTurns.returns hle hlt hbenign hbudget

theorem exists_sendAll_returns {vptr : Bytes} {n : ℕ} (hle : n ≤ vptr.length) (hlt : n < 2 ^ 64)
    (wire : Bytes) (sends : SendSchedule) :
    ∃ N, ∀ k ≥ N, ∃ tx, sendAll vptr n ⟨wire, sends.upTo k⟩ = .ok () tx := by
  obtain ⟨N, hN⟩ := sends.exists_budget n
  refine ⟨N, ?_⟩
  intro k hk
  obtain ⟨tx, hrun, -⟩ := sendAllTurn_sendTurns.returns hle hlt (sends.benign wire k)
    (hN k hk wire)
  exact ⟨tx, hrun⟩

/-! ### On a stream -/

/-- A call for `n` bytes at the beginning of an object, on a stream. -/
def ReceivesExactly (object : Bytes) (n : ℕ) (input : Bytes) (recvs : RecvSchedule) : Prop :=
  ExactReceive NetProg.recv (fun v => v.2.2) (recvAllTurn n) (object, 0, n) (splice object 0) n
    (recvAll object n) input recvs

theorem toInt_eq_iff {n : ℕ} (hlt : n < 2 ^ 64) : toInt n = n ↔ n < 2 ^ 31 := by
  rw [toInt, Int.bmod_def]
  omega

/-- The call is exact unless it has to print a number that no `int` holds. -/
theorem receivesExactly_iff {object : Bytes} {n : ℕ} (hfits : n ≤ object.length) (hlt : n < 2 ^ 64)
    (input : Bytes) (recvs : RecvSchedule) :
    ReceivesExactly object n input recvs ↔ n ≤ input.length ∨ n < 2 ^ 31 := by
  have hstart := stands_start hfits
  have hreport : ∀ v, input.length + v.2.2 = n →
      recvAllEof n v = .errQuit (toInt n) (toInt input.length) := by
    intro v hlen
    have hsub : toSize ((n : ℤ) - v.2.2) = input.length := by
      rw [toSize_sub (by omega) hlt]
      omega
    rw [recvAllEof, hsub]
  constructor
  · intro h
    by_contra hnot
    rw [not_or, Nat.not_le, Nat.not_lt] at hnot
    obtain ⟨N, hN⟩ := h.short hnot.1
    obtain ⟨N', hN'⟩ := recvs.exists_budget (min n (input.length + 1))
    obtain ⟨stop, rx, hrun, hreports, -⟩ := hN (max N N') (le_max_left N N')
    have henough : Enough (fun v : Bytes × ℕ × ℕ => v.2.2) (object, 0, n) ⟨input, recvs.upTo (max N N')⟩ :=
      ⟨recvs.benign input _, hN' _ (le_max_right N N') input⟩
    rcases (recvAllTurn_receiveTurns object n).run_cases Prod.fst hlt hstart rfl henough with
      ⟨hle, -⟩ | ⟨-, v, rx', hrun', -, hlen, -⟩
    · exact absurd hle (Nat.not_le_of_lt hnot.1)
    · have hsame := hrun.symm.trans hrun'
      simp only [EStateM.Result.error.injEq] at hsame
      rw [hsame.1, hreport v hlen] at hreports
      exact absurd ((toInt_eq_iff hlt).1 hreports.1) (Nat.not_lt_of_le hnot.2)
  · intro hcond
    apply (recvAllTurn_receiveTurns object n).exactReceive
    · exact fun v => ⟨_, rfl⟩
    · exact fun v got hholds => hholds.1
    · exact hlt
    · exact hstart
    · rfl
    · intro v _ hlen hshort
      have hsmall : n < 2 ^ 31 := hcond.resolve_left (Nat.not_le_of_lt hshort)
      rw [hreport v hlen]
      exact ⟨(toInt_eq_iff hlt).2 hsmall, (toInt_eq_iff (hshort.trans hlt)).2 (hshort.trans hsmall)⟩

end NetProg.C
