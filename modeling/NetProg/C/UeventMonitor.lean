import NetProg.Lib.Run
import NetProg.System.Sockaddr
import NetProg.System.Stream

/-!
# The uevent monitor in C

The loop of `netlink/uevent_monitor/c/uevent_monitor.c`: a message of the kernel is received into an array
of zeros, every byte of it that cannot be printed is replaced, and the array is printed as a string. The
terminator of the string is a zero behind the message, and a message that fills the array leaves none
(`printsExactly_iff`).
-/

namespace NetProg.C.UeventMonitor
open Lib Sockaddr

def MAX_BYTES : ℕ := 4096

/-- `isprint` in the locale that a program starts in. A byte from 128 on is a negative `char`, and not
printed. -/
def isprint (c : UInt8) : Bool := 32 ≤ c.toNat ∧ c.toNat ≤ 126

/-- The variables of the loop, and what has been written to `stdout`. -/
structure Monitor where
  buf : Bytes
  count : ℤ
  stdout : Bytes
  deriving DecidableEq, Repr

/-- Before the first message. -/
def start : Monitor := ⟨List.replicate MAX_BYTES 0, 0, []⟩

/-- `Recv(sockfd, buf, len, 0)` of a message, of which the end is cut off when it is longer: the return
value. An error ends the program. -/
def recv (len : ℕ) : Except Errno Bytes → EStateM Stop Monitor ℤ
  | .error errno => throw (.systemError (some errno))
  | .ok message => fun m =>
    let got := message.take len
    if m.buf.length < got.length then .error (.outOfBounds m.buf.length m.buf.length) m
    else .ok got.length { m with buf := got ++ m.buf.drop got.length }

/-- The body of the loop over the bytes: `if(*(buf+i)=='\0') … else if(!isprint(*(buf+i))) …`. -/
def sanitiseByte (i : ℕ) : EStateM Stop Monitor Unit := fun m =>
  match m.buf[i]? with
  | none => .error (.outOfBounds i m.buf.length) m
  | some c =>
    if c = 0 then .ok () { m with buf := m.buf.set i newline }
    else if ¬ isprint c then .ok () { m with buf := m.buf.set i 46 }
    else .ok () m

/-- `for(i=0;i<len;i++)`, from `i` on with so many turns left. -/
def sanitise : ℕ → ℕ → EStateM Stop Monitor Unit
  | 0, _ => return ()
  | turns + 1, i => do
    sanitiseByte i
    sanitise turns (i + 1)

/-- `printf("%s", buf)`, which fails when it would read beyond the array. -/
def readBuf : EStateM Stop Monitor Bytes := do
  let m ← get
  match string m.buf 0 with
  | some text => return text
  | none => throw (.outOfBounds m.buf.length m.buf.length)

/-- `printf` -/
def print (text : Bytes) : EStateM Stop Monitor Unit := modify fun m => { m with stdout := m.stdout ++ text }

/-- What is printed of a message. -/
def report (count len : ℤ) (text : Bytes) : Bytes :=
  ascii "***********************msg " ++ intText count ++ ascii " start***********************\n" ++
    (ascii "received " ++ intText len ++ ascii " bytes\n" ++ text ++ ascii "\n") ++
    (ascii "***********************msg " ++ intText count ++ ascii " ends************************\n")

/-- The body of the loop, with the answer to its `recv`. -/
def turn (answer : Except Errno Bytes) : EStateM Stop Monitor Unit := do
  modify fun m => { m with buf := List.replicate MAX_BYTES 0 }
  let len ← recv MAX_BYTES answer
  let len := toInt len
  if len < 32 then print (ascii "invalid message")
  else do
    sanitise len.toNat 0
    modify fun m => { m with count := toInt (m.count + 1) }
    let m ← get
    let text ← readBuf
    print (report m.count len text)

/-! ### Sanitised bytes -/

/-- What a byte is replaced by. -/
def sanitised (c : UInt8) : UInt8 := if c = 0 then newline else if isprint c then c else 46

theorem sanitised_ne_zero (c : UInt8) : sanitised c ≠ 0 := by
  unfold sanitised
  split_ifs with hzero
  · decide
  · exact hzero
  · decide

theorem zero_notMem_map_sanitised (message : Bytes) : 0 ∉ message.map sanitised := by
  rw [List.mem_map]
  rintro ⟨c, -, hc⟩
  exact sanitised_ne_zero c hc

theorem sanitiseByte_eq (before behind : Bytes) (c : UInt8) (count : ℤ) (stdout : Bytes) :
    sanitiseByte before.length ⟨before ++ c :: behind, count, stdout⟩ =
      .ok () ⟨before ++ sanitised c :: behind, count, stdout⟩ := by
  have hget : (before ++ c :: behind)[before.length]? = some c := by simp
  have hset : ∀ d, (before ++ c :: behind).set before.length d = before ++ d :: behind := by
    intro d
    rw [List.set_append_right _ _ le_rfl, Nat.sub_self, List.set_cons_zero]
  simp only [sanitiseByte, hget, hset, sanitised]
  split_ifs <;> rfl

theorem sanitise_eq (before todo behind : Bytes) (count : ℤ) (stdout : Bytes) :
    sanitise todo.length before.length ⟨before ++ (todo ++ behind), count, stdout⟩ =
      .ok () ⟨before ++ (todo.map sanitised ++ behind), count, stdout⟩ := by
  induction todo generalizing before with
  | nil => rfl
  | cons c todo ih =>
    have hrest := ih (before ++ [sanitised c])
    simp only [List.length_append, List.length_singleton, List.append_assoc, List.singleton_append] at hrest
    rw [List.length_cons, sanitise, List.cons_append, run_bind_ok (sanitiseByte_eq before (todo ++ behind) c _ _),
      hrest, List.map_cons, List.cons_append]

/-! ### A message -/

section

variable {m : Monitor} {message : Bytes}

/-- The array when the message has been sanitised. -/
def sanitisedBuf (message : Bytes) : Bytes := message.map sanitised ++ List.replicate (MAX_BYTES - message.length) 0

/-- What a turn comes to is decided by whether there is a terminator behind the message. -/
theorem turn_eq (hmin : 32 ≤ message.length) (hmax : message.length ≤ MAX_BYTES) :
    turn (.ok message) m = (readBuf >>= fun text => print (report (toInt (m.count + 1)) message.length text))
      ⟨sanitisedBuf message, toInt (m.count + 1), m.stdout⟩ := by
  have htake : message.take MAX_BYTES = message := List.take_of_length_le hmax
  have hrecv : recv MAX_BYTES (.ok message) ⟨List.replicate MAX_BYTES 0, m.count, m.stdout⟩ =
      .ok (message.length : ℤ) ⟨message ++ List.replicate (MAX_BYTES - message.length) 0, m.count, m.stdout⟩ := by
    simp only [recv, htake, List.length_replicate, List.drop_replicate]
    rw [if_neg (by omega)]
  have hint : toInt message.length = message.length := toInt_of_le (hmax.trans (by decide))
  have hloop := sanitise_eq [] message (List.replicate (MAX_BYTES - message.length) 0) m.count m.stdout
  rw [List.nil_append, List.nil_append, List.length_nil] at hloop
  rw [turn, run_modify_bind, run_bind_ok hrecv]
  simp only [hint, if_neg (show ¬ (message.length : ℤ) < 32 by omega), Int.toNat_natCast]
  rw [run_bind_ok hloop, run_modify_bind, run_get_bind]
  rfl

theorem string_sanitisedBuf (hlt : message.length < MAX_BYTES) :
    string (sanitisedBuf message) 0 = some (message.map sanitised) := by
  obtain ⟨n, hn⟩ : ∃ n, MAX_BYTES - message.length = n + 1 := Nat.exists_eq_succ_of_ne_zero (by omega)
  rw [sanitisedBuf, hn, List.replicate_succ]
  exact @string_between _ [] _ _ rfl (zero_notMem_map_sanitised message)

theorem string_sanitisedBuf_full (hfull : message.length = MAX_BYTES) :
    string (sanitisedBuf message) 0 = none := by
  rw [sanitisedBuf, hfull, Nat.sub_self, List.replicate_zero, List.append_nil, string, List.drop_zero,
    if_neg (zero_notMem_map_sanitised message)]

theorem turn_of_lt (hmin : 32 ≤ message.length) (hlt : message.length < MAX_BYTES) :
    turn (.ok message) m = .ok () ⟨sanitisedBuf message, toInt (m.count + 1),
      m.stdout ++ report (toInt (m.count + 1)) message.length (message.map sanitised)⟩ := by
  have hread : readBuf ⟨sanitisedBuf message, toInt (m.count + 1), m.stdout⟩ =
      .ok (message.map sanitised) ⟨sanitisedBuf message, toInt (m.count + 1), m.stdout⟩ := by
    rw [readBuf, run_get_bind]
    simp only [string_sanitisedBuf hlt]
    rfl
  rw [turn_eq hmin hlt.le, run_bind_ok hread]
  rfl

theorem turn_of_full (hfull : message.length = MAX_BYTES) :
    turn (.ok message) m =
      .error (.outOfBounds MAX_BYTES MAX_BYTES) ⟨sanitisedBuf message, toInt (m.count + 1), m.stdout⟩ := by
  have hlen : (sanitisedBuf message).length = MAX_BYTES := by
    rw [sanitisedBuf, List.length_append, List.length_map, List.length_replicate, hfull, Nat.sub_self,
      Nat.add_zero]
  have hread : readBuf ⟨sanitisedBuf message, toInt (m.count + 1), m.stdout⟩ =
      .error (.outOfBounds MAX_BYTES MAX_BYTES) ⟨sanitisedBuf message, toInt (m.count + 1), m.stdout⟩ := by
    rw [readBuf, run_get_bind]
    simp only [string_sanitisedBuf_full hfull, hlen]
    rfl
  rw [turn_eq (hfull ▸ by decide) hfull.le, run_bind_error hread]

/-- The turn for a message reads nothing outside of the array, prints what the message is sanitised to, and
has its terminator in the array. -/
def PrintsExactly (m : Monitor) (message : Bytes) : Prop :=
  ∃ m', turn (.ok message) m = .ok () m' ∧ m'.buf[message.length]? = some 0 ∧
    m'.stdout = m.stdout ++ report (toInt (m.count + 1)) message.length (message.map sanitised)

theorem not_printsExactly_of_full (m : Monitor) (hfull : message.length = MAX_BYTES) : ¬ PrintsExactly m message := by
  rintro ⟨m', hturn, -⟩
  rw [turn_of_full hfull] at hturn
  cases hturn

/-- In any state of the monitor, a message is printed like that exactly if it does not fill the array. -/
theorem printsExactly_iff (m : Monitor) (hmin : 32 ≤ message.length) (hmax : message.length ≤ MAX_BYTES) :
    PrintsExactly m message ↔ message.length < MAX_BYTES := by
  constructor
  · intro hprints
    exact lt_of_le_of_ne hmax fun hfull => not_printsExactly_of_full m hfull hprints
  · intro hlt
    refine ⟨_, turn_of_lt hmin hlt, ?_, rfl⟩
    have hlen : (message.map sanitised).length = message.length := List.length_map _
    rw [sanitisedBuf, List.getElem?_append_right hlen.le, hlen, Nat.sub_self]
    exact List.getElem?_replicate_of_lt (by omega)

/-- A message of 4096 letters. -/
theorem overruns_full_message : ¬ PrintsExactly start (List.replicate 4096 97) :=
  not_printsExactly_of_full _ List.length_replicate

theorem printsExactly_iff_shortest :
    32 ≤ (List.replicate 32 (97 : UInt8)).length ∧ (List.replicate 32 (97 : UInt8)).length ≤ MAX_BYTES ∧
      (PrintsExactly start (List.replicate 32 97) ↔ (List.replicate 32 (97 : UInt8)).length < MAX_BYTES) :=
  ⟨by decide, by decide, printsExactly_iff _ (by decide) (by decide)⟩

end

end NetProg.C.UeventMonitor
