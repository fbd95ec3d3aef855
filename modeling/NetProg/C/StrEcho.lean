import NetProg.C.Readline
import NetProg.System.LineClient

/-!
# The C echo client and server

`str_cli` and `str_echo` of `tcp/str_echo/c`, at the two ends of a connection whose calls may be interrupted
at any time.

`Fgets` cuts the input where `Readline` cuts the reply, after a newline or at 1023 bytes, so whatever the
network does in between the client prints exactly what it has taken from its input (`lockstep`). The
exception is a last piece that ends in neither way: it comes back, and `Readline` waits for more of it while
the server waits for the client (`not_deadlock_iff`).
-/

namespace NetProg.C
open Lib

/-- `str_cli(fp, sockfd)`, with the buffer of 4096 bytes of `my_read`. -/
def strCli : LineClient where
  next input := (fgets 1024 input).map fun cut => (cString cut.1, cut.2)
  size := 4096
  full line := decide (EndsLine 1024 line)
  stored := id
  suffix := []
  printed := cString
  endsOnce := false
  onError e := if e = .EINTR then .again else .giveUp
  size_pos := by decide
  full_nil := not_full_nil

/-- `str_echo(sockfd)`, interrupted or not. -/
def strEcho : EchoServer UInt8 Errno [.EINTR] :=
  echoServer 1024 echoSize_pos (fun e => e = .EINTR) [.EINTR] (by decide)

/-- The client and the server over a connection with such buffers, after such moves. -/
def session (roomRight roomLeft : ℕ) (input : Bytes) (moves : List (Move Errno)) :
    Duplex strCli.program strEcho.toProgram :=
  strCli.reached (tcp roomRight roomLeft [.EINTR]) strEcho input moves

/-- The client is blocked in `Readline` and the server in `read`, with no byte under way. -/
def Deadlock (s : Duplex strCli.program strEcho.toProgram) : Prop :=
  strCli.request s.left = .recv 4096 ∧ s.right = .serving [] ∧ s.toRight = [] ∧ s.toLeft = []

/-! ### The rounds of the client -/

theorem next_strCli {input sendline rest : Bytes} (hinput : 0 ∉ input)
    (h : strCli.next input = some (sendline, rest)) :
    input ≠ [] ∧ sendline = (cutLine 1023 input).1 ∧ rest = (cutLine 1023 input).2 := by
  by_cases hnil : input = []
  · simp [strCli, fgets, hnil] at h
  · simp only [strCli, fgets, if_neg hnil, Option.map_some, Option.some.injEq, Prod.mk.injEq] at h
    obtain ⟨hsend, hrest⟩ := h
    refine ⟨hnil, ?_, hrest.symm⟩
    rw [← hsend]
    exact cString_eq_self (notMem_cutLine hinput 1023).1

theorem next_strCli_of_ne_nil {input : Bytes} (hinput : 0 ∉ input) (hne : input ≠ []) :
    strCli.next input = some (cutLine 1023 input) := by
  have hline : cString (cutLine 1023 input).1 = (cutLine 1023 input).1 :=
    cString_eq_self (notMem_cutLine hinput 1023).1
  simp [strCli, fgets, if_neg hne, hline]

theorem rounds_append {input stdout i : Bytes} (hinput : 0 ∉ input) (h : strCli.Rounds input stdout i) :
    stdout ++ i = input := by
  induction h with
  | start => rfl
  | @next stdout i sendline rest h hnext ih =>
    have hi : 0 ∉ i := fun hmem => hinput (ih ▸ List.mem_append_right _ hmem)
    obtain ⟨-, hsend, hrest⟩ := next_strCli hi hnext
    have hcut : sendline ++ rest = i := by
      rw [hsend, hrest]
      exact cutLine_append 1023 i
    have hechoed : strCli.echoed sendline = sendline := by
      have hline : 0 ∉ sendline := fun hmem => hi (hcut ▸ List.mem_append_left _ hmem)
      simpa [LineClient.echoed, strCli] using cString_eq_self hline
    rw [hechoed, List.append_assoc, hcut, ih]

theorem nul_notMem_rounds {input stdout i : Bytes} (hinput : 0 ∉ input) (h : strCli.Rounds input stdout i) :
    0 ∉ i :=
  fun hmem => hinput (rounds_append hinput h ▸ List.mem_append_right _ hmem)

theorem allWhole_strCli {input : Bytes} (hinput : 0 ∉ input) : strCli.AllWhole input := by
  intro stdout i sendline rest h hnext
  have hi := nul_notMem_rounds hinput h
  obtain ⟨hne, rfl, rfl⟩ := next_strCli hi hnext
  refine ⟨?_, cutLine_ne_nil (by decide) hne⟩
  intro q hq hfull
  by_contra hneq
  exact not_endsLine_of_prefix hq hneq (of_decide_eq_true hfull)

theorem errors_strCli (roomRight roomLeft : ℕ) :
    ∀ e ∈ (tcp roomRight roomLeft [.EINTR]).errors, strCli.onError e ≠ .endOfStream := by
  intro e he
  obtain rfl : e = .EINTR := by simpa [tcp] using he
  decide

/-! ### Lock-step -/

/-- In every reachable state, whatever the moves: the output is a prefix of the input, and at the top of the
loop it is exactly what the client has taken of it. -/
theorem lockstep (roomRight roomLeft : ℕ) {input : Bytes} (hinput : 0 ∉ input) (moves : List (Move Errno)) :
    let client : LineClient.State := (session roomRight roomLeft input moves).left
    client.stdout <+: input ∧ (client.pc = .top → client.stdout ++ client.input = input) := by
  intro client
  have hinv := LineClient.inv_reached (allWhole_strCli hinput) (errors_strCli roomRight roomLeft) strEcho
    moves
  obtain ⟨i, hrounds, htop⟩ := hinv.rounds
  have happend : client.stdout ++ i = input := rounds_append hinput hrounds
  refine ⟨⟨i, happend⟩, ?_⟩
  intro hpc
  have heq : i = client.input := htop hpc
  rw [← heq]
  exact happend

/-- The line goes out in two pieces and back in two, and is printed. -/
theorem lockstep_hi : 0 ∉ ([104, 105, 10] : Bytes) ∧
    let moves : List (Move Errno) := [.left (.go 1), .left (.go 2), .left (.go 1), .right (.go 3), .right (.go 2),
      .right (.go 1)] ++ List.replicate 6 (.left (.go 3))
    let client : LineClient.State := (session 1024 1024 [104, 105, 10] moves).left
    client.stdout = [104, 105, 10] ∧ client.stdout <+: [104, 105, 10] ∧
      (client.pc = .top → client.stdout ++ client.input = [104, 105, 10]) :=
  ⟨by decide, by decide, lockstep 1024 1024 (by decide) _⟩

/-! ### Deadlock -/

/-- The last piece of the input ends like a line. -/
def EndsWhole (input : Bytes) : Prop := 1023 ∣ (input.rtakeWhile (· ≠ newline)).length

theorem length_rtakeWhile_append (p r : Bytes) :
    ((p ++ r).rtakeWhile (· ≠ newline)).length =
      if newline ∈ r then (r.rtakeWhile (· ≠ newline)).length
      else r.length + (p.rtakeWhile (· ≠ newline)).length := by
  simp only [List.rtakeWhile, List.reverse_append, List.length_reverse, List.takeWhile_append]
  have hall : (r.reverse.takeWhile (· ≠ newline)).length = r.length ↔ newline ∉ r := by
    constructor
    · intro hlen hmem
      have heq := (List.takeWhile_prefix (· ≠ newline)).eq_of_length (hlen.trans List.length_reverse.symm)
      have := List.takeWhile_eq_self_iff.1 heq newline (List.mem_reverse.2 hmem)
      simp at this
    · intro hmem
      rw [List.takeWhile_eq_self_iff.2, List.length_reverse]
      intro b hb
      simpa using ne_of_mem_of_not_mem (List.mem_reverse.1 hb) hmem
  by_cases hmem : newline ∈ r
  · rw [if_pos hmem, if_neg (fun h => hall.1 h hmem)]
  · rw [if_neg hmem, if_pos (hall.2 hmem), List.length_append, List.length_reverse]

theorem endsWhole_cutLine {input : Bytes} (h : EndsLine 1024 (cutLine 1023 input).1) :
    EndsWhole input ↔ EndsWhole (cutLine 1023 input).2 := by
  have htail : 1023 ∣ ((cutLine 1023 input).1.rtakeWhile (· ≠ newline)).length := by
    by_cases hmem : newline ∈ (cutLine 1023 input).1
    · obtain ⟨q, hq⟩ := List.getLast?_eq_some_iff.1 (getLast?_of_newline_mem hmem)
      rw [hq, List.rtakeWhile_concat_neg _ _ _ (by simp)]
      exact dvd_zero 1023
    · have hself : (cutLine 1023 input).1.rtakeWhile (· ≠ newline) = (cutLine 1023 input).1 :=
        List.rtakeWhile_eq_self_iff.2 fun b hb => by simpa using ne_of_mem_of_not_mem hb hmem
      have hle := length_cutLine_le 1023 input
      rcases h with hlast | hlen
      · exact absurd (List.mem_of_getLast? hlast) hmem
      · rw [hself, show (cutLine 1023 input).1.length = 1023 by omega]
  unfold EndsWhole
  conv_lhs => rw [← cutLine_append 1023 input, length_rtakeWhile_append]
  by_cases hmem : newline ∈ (cutLine 1023 input).2
  · rw [if_pos hmem]
  · have hself : (cutLine 1023 input).2.rtakeWhile (· ≠ newline) = (cutLine 1023 input).2 :=
      List.rtakeWhile_eq_self_iff.2 fun b hb => by simpa using ne_of_mem_of_not_mem hb hmem
    rw [if_neg hmem, hself]
    exact Nat.dvd_add_left htail

theorem not_endsWhole {input : Bytes} (hne : input ≠ []) (h : ¬ EndsLine 1024 (cutLine 1023 input).1) :
    (cutLine 1023 input).1 = input ∧ ¬ EndsWhole input := by
  obtain ⟨hrest, hmem⟩ := (endsLine_cutLine 1023 input).resolve_left h
  have happend := cutLine_append 1023 input
  rw [hrest, List.append_nil] at happend
  have hself : input.rtakeWhile (· ≠ newline) = input :=
    List.rtakeWhile_eq_self_iff.2 fun b hb => by simpa using ne_of_mem_of_not_mem hb hmem
  have hlen : ¬ 1024 ≤ input.length + 1 := by
    intro hlen
    rw [happend] at h
    exact h (.inr hlen)
  have hpos := List.length_pos_iff.2 hne
  refine ⟨happend, ?_⟩
  unfold EndsWhole
  rw [hself]
  intro hdvd
  have := Nat.le_of_dvd hpos hdvd
  omega

theorem rounds_endsWhole {input stdout i : Bytes} (hinput : 0 ∉ input) (hends : EndsWhole input)
    (h : strCli.Rounds input stdout i) : EndsWhole i := by
  induction h with
  | start => exact hends
  | @next stdout i sendline rest h hnext ih =>
    have hi := nul_notMem_rounds hinput h
    obtain ⟨hne, -, rfl⟩ := next_strCli hi hnext
    have hline : EndsLine 1024 (cutLine 1023 i).1 := by
      by_contra hline
      exact (not_endsWhole hne hline).2 ih
    exact (endsWhole_cutLine hline).1 ih

/-- With an input that ends whole the reader never waits for bytes that are not under way. -/
theorem not_deadlock {roomRight roomLeft : ℕ} {input : Bytes} (hinput : 0 ∉ input)
    (hends : EndsWhole input) (moves : List (Move Errno)) :
    ¬ Deadlock (session roomRight roomLeft input moves) := by
  rintro ⟨hrecv, hserver, htoRight, htoLeft⟩
  have hinv := LineClient.inv_reached (allWhole_strCli hinput) (errors_strCli roomRight roomLeft) strEcho
    moves
  have hqueue : (session roomRight roomLeft input moves).toLeft ++
      (strEcho.pending (session roomRight roomLeft input moves).right ++
        (session roomRight roomLeft input moves).toRight) = [] := by
    rw [hserver, htoRight, htoLeft]
    rfl
  have hinv' : strCli.Inv input (session roomRight roomLeft input moves).left [] := hqueue ▸ hinv
  obtain ⟨line, hline, i, hrounds, hnext⟩ := hinv'.waiting hrecv
  obtain ⟨hne, rfl, -⟩ := next_strCli (nul_notMem_rounds hinput hrounds) hnext
  exact (not_endsWhole hne (of_decide_eq_false hline)).2 (rounds_endsWhole hinput hends hrounds)

/-- Otherwise the client can be brought to wait for more of its last piece. -/
theorem plays_deadlock {cap : ℕ} (hcap : 1023 ≤ cap) {input stdout recvline : Bytes} (hinput : 0 ∉ input)
    (hends : ¬ EndsWhole input) :
    ∃ client : LineClient.State, strCli.request client = .recv 4096 ∧
      strCli.Plays cap ⟨⟨input, stdout, [], recvline, false, .top⟩, []⟩ ⟨client, []⟩ := by
  induction hn : input.length using Nat.strong_induction_on generalizing input stdout recvline with
  | _ n ih =>
    have hne : input ≠ [] := by
      rintro rfl
      exact hends (dvd_zero 1023)
    have happend := cutLine_append 1023 input
    have hnext := next_strCli_of_ne_nil hinput hne
    have hlen : (cutLine 1023 input).1.length ≤ cap := (length_cutLine_le 1023 input).trans hcap
    by_cases hline : EndsLine 1024 (cutLine 1023 input).1
    · -- this piece comes back whole
      have hrest := (notMem_cutLine hinput 1023).2
      have hshorter : (cutLine 1023 input).2.length < n := by
        have hpos := List.length_pos_iff.2 (cutLine_ne_nil (n := 1023) (by decide) hne)
        have hsum := congrArg List.length happend
        rw [List.length_append] at hsum
        omega
      have hwhole := allWhole_strCli hinput _ _ _ _ .start hnext
      have hround : strCli.Plays cap ⟨⟨input, stdout, [], recvline, false, .top⟩, []⟩
          ⟨⟨(cutLine 1023 input).2, stdout ++ strCli.echoed (cutLine 1023 input).1, [],
            strCli.stored (cutLine 1023 input).1 ++ strCli.suffix, false, .top⟩, []⟩ :=
        LineClient.plays_round hnext hlen hwhole (decide_eq_true hline)
      obtain ⟨client, hrecv, hplays⟩ :=
        ih _ hshorter hrest (fun h => hends ((endsWhole_cutLine hline).2 h)) rfl
      exact ⟨client, hrecv, hround.trans hplays⟩
    · -- this is the last piece
      refine ⟨⟨(cutLine 1023 input).2, stdout, [], recvline, false, .readline (cutLine 1023 input).1⟩, rfl,
        ?_⟩
      apply LineClient.plays_stuck hnext hlen
      intro p _ hp
      apply decide_eq_false
      by_cases heq : p = (cutLine 1023 input).1
      · exact heq ▸ hline
      · exact not_endsLine_of_prefix hp heq

theorem deadlock_of_loop {roomRight roomLeft : ℕ} {s : Duplex strCli.program strEcho.toProgram}
    {client : LineClient.State} (hrecv : strCli.request client = .recv 4096)
    (hserving : @Duplex.Serving _ _ _ (tcp roomRight roomLeft [.EINTR]) strEcho s)
    (hloop : @Duplex.loop _ _ _ (tcp roomRight roomLeft [.EINTR]) strEcho s = ⟨client, []⟩) :
    Deadlock s := by
  have hclient : s.left = client := congrArg Loop.prog hloop
  have hqueue : s.toLeft ++ (Echo.pending s.right ++ s.toRight) = [] := congrArg Loop.queue hloop
  obtain ⟨htoLeft, hrest⟩ := List.append_eq_nil_iff.1 hqueue
  obtain ⟨hpending, htoRight⟩ := List.append_eq_nil_iff.1 hrest
  refine ⟨hclient ▸ hrecv, ?_, htoRight, htoLeft⟩
  have hhalt : Echo.request 1024 s.right ≠ .halt := hserving
  generalize s.right = server at hpending hhalt ⊢
  cases server with
  | serving ptr => exact congrArg Echo.State.serving hpending
  | returned => exact absurd rfl hhalt
  | failed ec => exact absurd rfl hhalt

/-- Over a connection with buffers of at least 1024 bytes each way, no order of steps leads to a deadlock
exactly when the last piece of the input ends like a line: the bytes after its last newline are none, or
make up pieces of 1023 bytes. -/
theorem not_deadlock_iff {roomRight roomLeft : ℕ} (hright : 1024 ≤ roomRight) (hleft : 1024 ≤ roomLeft)
    {input : Bytes} (hinput : 0 ∉ input) :
    (∀ moves, ¬ Deadlock (session roomRight roomLeft input moves)) ↔
      1023 ∣ (input.rtakeWhile (· ≠ newline)).length := by
  constructor
  · intro hsafe
    by_contra hends
    obtain ⟨client, hrecv, hplays⟩ := @plays_deadlock 1023 (le_refl 1023) input [] [] hinput hends
    obtain ⟨moves, hserving, hloop⟩ := @LineClient.exists_reached strCli 1023 input
      (tcp roomRight roomLeft [.EINTR]) (show 1023 ≤ roomRight by omega) (show 0 < roomLeft by omega) strEcho
      _ hplays
    exact hsafe moves (deadlock_of_loop hrecv hserving hloop)
  · intro hends moves
    exact not_deadlock hinput hends moves

/-- The client on the input `a`, without a newline, waits for more than the server sends back. -/
theorem deadlock_a : 0 ∉ ([97] : Bytes) ∧ Deadlock (session 1024 1024 [97]
    [.left (.go 1), .left (.go 1), .left (.go 1), .right (.go 1), .right (.go 1), .left (.go 1),
      .left (.go 1)]) :=
  ⟨by decide, rfl, rfl, rfl, rfl⟩

/-- On an input that ends in a newline the two never deadlock. -/
theorem not_deadlock_hi :
    (1024 ≤ 1024 ∧ 0 ∉ ([104, 105, 10] : Bytes)) ∧
      ((∀ moves, ¬ Deadlock (session 1024 1024 [104, 105, 10] moves)) ↔
        1023 ∣ (([104, 105, 10] : Bytes).rtakeWhile (· ≠ newline)).length) :=
  ⟨by decide, not_deadlock_iff (by decide) (by decide) (by decide)⟩

end NetProg.C
