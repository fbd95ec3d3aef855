import NetProg.Cxx.ReadBuffer
import NetProg.System.LineClient
import NetProg.System.Text

/-!
# The C++ echo clients and server

The two `str_cli` of `tcp/str_echo/cxx`, one with the `ReadBuffer` of the library and one with its socket
stream, against `str_echo.cpp` and any other echo server. Both send what was typed line by line, the newline
included, and differ in the reader of the reply.

`ReadBuffer::Readline` stops after 1023 bytes whereas the client sends lines of any length, so what is
printed is what was typed exactly for lines of at most 1022 bytes and their newline (`prints_typed_iff`).
What `Readline` leaves of a longer line stays with the connection, and a line that finds no room for itself
beside that leaves both sides in `SendAll` for good (`never_blocks_iff`). The stream reader has no such limit,
but takes an empty line for the end of the stream (`never_terminates_iff`).
-/

namespace NetProg.Cxx
open Lib

/-- `while (std::getline(in, sendline)) { sendline += '\n'; …` -/
def nextLine (input : Bytes) : Option (Bytes × Bytes) :=
  (getline input).map fun cut => (cut.1 ++ [newline], cut.2)

/-- `str_cli(in, sock)` of `str_cli.cpp`. -/
def strCli : LineClient where
  next := nextLine
  size := sizeofVector
  full line := decide (EndsLine 1024 line)
  stored := id
  suffix := []
  printed := id
  endsOnce := false
  onError e := if e = .EINTR then .again else .giveUp
  size_pos := by decide
  full_nil := not_full_nil

/-- `str_cli(in, sock)` of `str_cli_istream.cpp`. A failed or empty read sets a bit of the stream, and from
then on `std::getline` leaves `recvline` as it is. -/
def strCliIstream : LineClient where
  next := nextLine
  size := 1024
  full line := decide (line.getLast? = some newline)
  stored line := line.dropLast
  suffix := [newline]
  printed := id
  endsOnce := true
  onError _ := .endOfStream
  size_pos := by decide
  full_nil := by decide

/-- `str_echo(sock)`, whose `Recv` throws on every failure. -/
def strEcho : EchoServer UInt8 Errno [] :=
  echoServer 1024 echoSize_pos (fun _ => false) [] (by decide)

/-- A client that is about to take the next line has printed those it took. -/
def Printed (lines : List Bytes) (client : LineClient.State) : Prop :=
  client.pc = .top →
    ∃ i ≤ lines.length, client.input = typed (lines.drop i) ∧ client.stdout = typed (lines.take i)

/-! ### Clients of typed lines -/

section

variable {c : LineClient} {lines : List Bytes}

theorem next_typed_cons (hnext : c.next = nextLine) {line : Bytes} (hline : newline ∉ line)
    (lines : List Bytes) : c.next (typed (line :: lines)) = some (line ++ [newline], typed lines) := by
  rw [hnext, nextLine, getline_typed_cons hline, Option.map_some]

theorem rounds_typed (hnext : c.next = nextLine)
    (hechoed : ∀ line, c.echoed (line ++ [newline]) = line ++ [newline])
    (hlines : ∀ line ∈ lines, newline ∉ line) {stdout input : Bytes}
    (h : c.Rounds (typed lines) stdout input) :
    ∃ i ≤ lines.length, input = typed (lines.drop i) ∧ stdout = typed (lines.take i) := by
  induction h with
  | start => exact ⟨0, Nat.zero_le _, rfl, rfl⟩
  | @next stdout input sendline rest _ hsend ih =>
    obtain ⟨i, hi, rfl, rfl⟩ := ih
    rcases Nat.lt_or_ge i lines.length with hlt | hge
    · have hdrop : lines.drop i = lines.get ⟨i, hlt⟩ :: lines.drop (i + 1) :=
        List.drop_eq_getElem_cons hlt
      have hline : newline ∉ lines.get ⟨i, hlt⟩ := hlines _ (List.get_mem lines _)
      rw [hdrop, next_typed_cons hnext hline] at hsend
      obtain ⟨rfl, rfl⟩ : lines.get ⟨i, hlt⟩ ++ [newline] = sendline ∧
          typed (lines.drop (i + 1)) = rest := by simpa using hsend
      refine ⟨i + 1, hlt, rfl, ?_⟩
      rw [hechoed, List.take_succ_eq_append_getElem hlt, typed_append, typed_cons]
      rfl
    · rw [List.drop_eq_nil_of_le hge, hnext] at hsend
      simp [nextLine, getline] at hsend

theorem printed_of_whole (hnext : c.next = nextLine)
    (hechoed : ∀ line, c.echoed (line ++ [newline]) = line ++ [newline])
    (hlines : ∀ line ∈ lines, newline ∉ line) (hwhole : ∀ line ∈ lines, c.Whole (line ++ [newline]))
    {link : Link Errno} (herrors : link.errors = []) (Q : EchoServer UInt8 Errno link.errors)
    (moves : List (Move Errno)) :
    let client : LineClient.State := (c.reached link Q (typed lines) moves).left
    client.pc ≠ .terminated ∧ Printed lines client := by
  intro client
  have hall : c.AllWhole (typed lines) := by
    intro stdout input sendline rest hrounds hsend
    obtain ⟨i, hi, rfl, -⟩ := rounds_typed hnext hechoed hlines hrounds
    cases hdrop : lines.drop i with
    | nil =>
      rw [hdrop, hnext] at hsend
      simp [nextLine, getline] at hsend
    | cons line todo =>
      have hmem : line ∈ lines := List.mem_of_mem_drop (by rw [hdrop]; exact List.mem_cons_self)
      rw [hdrop, next_typed_cons hnext (hlines line hmem)] at hsend
      obtain ⟨rfl, -⟩ : line ++ [newline] = sendline ∧ typed todo = rest := by simpa using hsend
      exact hwhole line hmem
  have hinv := LineClient.inv_reached hall (by simp [herrors]) Q moves
  refine ⟨hinv.ne_terminated, ?_⟩
  intro htop
  obtain ⟨input, hrounds, hinput⟩ := hinv.rounds
  obtain ⟨i, hi, hdrop, htake⟩ := rounds_typed hnext hechoed hlines hrounds
  exact ⟨i, hi, (hinput htop).symm.trans hdrop, htake⟩

theorem exists_left (Q : EchoServer UInt8 Errno []) {cap : ℕ} (hcap : 0 < cap) {input queue : Bytes}
    {client : LineClient.State} (h : c.Plays cap ⟨LineClient.start input, []⟩ ⟨client, queue⟩) :
    ∃ moves, (c.reached (tcp cap cap []) Q input moves).left = client := by
  obtain ⟨moves, -, hloop⟩ :=
    @LineClient.exists_reached c cap input (tcp cap cap []) (le_refl cap) hcap Q _ h
  exact ⟨moves, congrArg Loop.prog hloop⟩

theorem plays_typed (hnext : c.next = nextLine)
    (hechoed : ∀ line, c.echoed (line ++ [newline]) = line ++ [newline])
    (hfull : ∀ line, c.full (line ++ [newline]) = true) {cap : ℕ} (todo : List Bytes)
    (hcap : (typed (lines ++ todo)).length ≤ cap)
    (hlines : ∀ line ∈ lines, newline ∉ line) (hwhole : ∀ line ∈ lines, c.Whole (line ++ [newline]))
    (stdout recvline : Bytes) :
    ∃ recvline', c.Plays cap ⟨⟨typed (lines ++ todo), stdout, [], recvline, false, .top⟩, []⟩
      ⟨⟨typed todo, stdout ++ typed lines, [], recvline', false, .top⟩, []⟩ := by
  induction lines generalizing stdout recvline with
  | nil => exact ⟨recvline, by simpa using Relation.ReflTransGen.refl⟩
  | cons line lines ih =>
    have hsum : line.length + 1 + (typed (lines ++ todo)).length ≤ cap := by
      rw [List.cons_append, typed_cons, List.length_append, List.length_cons] at hcap
      omega
    have hround : c.Plays cap ⟨⟨typed (line :: (lines ++ todo)), stdout, [], recvline, false, .top⟩, []⟩
        ⟨⟨typed (lines ++ todo), stdout ++ c.echoed (line ++ [newline]), [],
          c.stored (line ++ [newline]) ++ c.suffix, false, .top⟩, []⟩ :=
      LineClient.plays_round (next_typed_cons hnext (hlines line List.mem_cons_self) _)
        (by rw [List.length_append, List.length_singleton]; omega) (hwhole line List.mem_cons_self)
        (hfull line)
    rw [hechoed] at hround
    obtain ⟨recvline', hrest⟩ := ih (by omega) (fun l hl => hlines l (List.mem_cons_of_mem _ hl))
      (fun l hl => hwhole l (List.mem_cons_of_mem _ hl)) (stdout ++ (line ++ [newline]))
      (c.stored (line ++ [newline]) ++ c.suffix)
    have hout : stdout ++ (line ++ [newline]) ++ typed lines = stdout ++ typed (line :: lines) := by
      simp
    rw [hout] at hrest
    exact ⟨recvline', hround.trans hrest⟩

end

/-! ### The client with the `ReadBuffer` -/

theorem echoed_strCli (line : Bytes) : strCli.echoed (line ++ [newline]) = line ++ [newline] := by
  simp [LineClient.echoed, strCli]

theorem full_strCli (line : Bytes) : strCli.full (line ++ [newline]) = true :=
  decide_eq_true (.inl (by simp))

theorem whole_strCli {line : Bytes} (hline : newline ∉ line) (hlen : line.length ≤ 1022) :
    strCli.Whole (line ++ [newline]) := by
  refine ⟨?_, by simp [strCli]⟩
  intro q hq hfull
  rcases List.prefix_concat_iff.1 hq with heq | hpre
  · exact heq
  · rcases of_decide_eq_true hfull with hlast | hmax
    · exact absurd (hpre.subset (List.mem_of_getLast? hlast)) hline
    · have := hpre.length_le
      omega

/-- A long line leaves the client at the top of the loop with less printed than taken. -/
theorem plays_long_line {cap : ℕ} {line : Bytes} {lines todo : List Bytes}
    (hlines : ∀ l ∈ lines, newline ∉ l ∧ l.length ≤ 1022) (hline : newline ∉ line)
    (hlen : 1022 < line.length) (hcap : (typed (lines ++ line :: todo)).length ≤ cap) :
    ∃ client : LineClient.State, ∃ queue, client.pc = .top ∧ client.input = typed todo ∧
      client.stdout.length = (typed lines).length + 1023 ∧
      strCli.Plays cap ⟨LineClient.start (typed (lines ++ line :: todo)), []⟩ ⟨client, queue⟩ := by
  obtain ⟨recvline, hbefore⟩ := plays_typed (c := strCli) rfl echoed_strCli full_strCli (line :: todo) hcap
    (fun l hl => (hlines l hl).1) (fun l hl => whole_strCli (hlines l hl).1 (hlines l hl).2) [] []
  have hdrop : line.drop 1022 ≠ [] := by
    rw [Ne, List.drop_eq_nil_iff]
    omega
  obtain ⟨b, t, hbt⟩ := List.exists_cons_of_ne_nil hdrop
  have hsplit : line ++ [newline] = line.take 1022 ++ b :: (t ++ [newline]) := by
    rw [← List.cons_append, ← hbt, ← List.append_assoc, List.take_append_drop]
  have hq : (line.take 1022).length = 1022 := by
    rw [List.length_take]
    omega
  have hnext : strCli.next (typed (line :: todo)) =
      some (line.take 1022 ++ b :: (t ++ [newline]), typed todo) := by
    rw [next_typed_cons rfl hline, hsplit]
  have hopen : ∀ p, p ≠ [] → p <+: line.take 1022 → strCli.full p = false := by
    intro p _ hp
    apply decide_eq_false
    rintro (hlast | hmax)
    · exact hline ((hp.trans (List.take_prefix _ _)).subset (List.mem_of_getLast? hlast))
    · have := hp.length_le
      omega
  have hfull : strCli.full (line.take 1022 ++ [b]) = true :=
    decide_eq_true (.inr (by rw [List.length_append, hq]; rfl))
  have hroom : (line.take 1022 ++ b :: (t ++ [newline])).length ≤ cap := by
    rw [← hsplit]
    simp only [typed_append, typed_cons, List.length_append, List.length_cons, List.length_nil] at hcap ⊢
    omega
  have hreply : strCli.Plays cap ⟨⟨typed (line :: todo), [] ++ typed lines, [], recvline, false, .top⟩, []⟩
      ⟨⟨typed todo, [] ++ typed lines, [], line.take 1022 ++ [b], false, .reply⟩, t ++ [newline]⟩ :=
    LineClient.plays_reply hnext rfl (by simpa using hroom) hopen hfull
  have hprint : strCli.Plays cap
      ⟨⟨typed todo, [] ++ typed lines, [], line.take 1022 ++ [b], false, .reply⟩, t ++ [newline]⟩
      ⟨⟨typed todo, [] ++ typed lines ++ (line.take 1022 ++ [b] ++ []), [],
        line.take 1022 ++ [b] ++ [], false, .top⟩, t ++ [newline]⟩ := LineClient.plays_print (by simp) _
  refine ⟨_, _, rfl, rfl, ?_, hbefore.trans (hreply.trans hprint)⟩
  simp [hq]

theorem exists_not_printed (Q : EchoServer UInt8 Errno []) {lines todo : List Bytes} {line : Bytes}
    (hlines : ∀ l ∈ lines, newline ∉ l ∧ l.length ≤ 1022) (hline : newline ∉ line)
    (hlen : 1022 < line.length) :
    ∃ room moves, ¬ Printed (lines ++ line :: todo)
      (strCli.reached (tcp room room []) Q (typed (lines ++ line :: todo)) moves).left := by
  obtain ⟨client, queue, hpc, hinput, hstdout, hplays⟩ :=
    @plays_long_line _ line lines todo hlines hline hlen (le_refl _)
  obtain ⟨moves, hclient⟩ := exists_left Q (show 0 < (typed (lines ++ line :: todo)).length by simp) hplays
  refine ⟨(typed (lines ++ line :: todo)).length, moves, ?_⟩
  rw [hclient]
  intro hprinted
  obtain ⟨i, -, hrest, hout⟩ := hprinted hpc
  -- together they should make up the input
  have hlength := congrArg List.length (typed_append ((lines ++ line :: todo).take i)
    ((lines ++ line :: todo).drop i))
  rw [List.take_append_drop, List.length_append, ← hout, ← hrest, hinput, hstdout, typed_append, typed_cons,
    List.length_append, List.length_append, List.length_cons] at hlength
  omega

/-- Against any echo server: however the traffic is cut, after every round the client has printed exactly the
lines it has taken, precisely when none of them is longer than 1022 bytes. -/
theorem prints_typed_iff (Q : EchoServer UInt8 Errno []) {lines : List Bytes}
    (hlines : ∀ line ∈ lines, newline ∉ line) :
    (∀ roomRight roomLeft moves,
      Printed lines (strCli.reached (tcp roomRight roomLeft []) Q (typed lines) moves).left) ↔
      ∀ line ∈ lines, line.length ≤ 1022 := by
  constructor
  · intro hprinted
    by_contra hlong
    push Not at hlong
    obtain ⟨lines, line, todo, rfl, hshort, hlong⟩ := exists_first hlong
    rw [List.forall_mem_append, List.forall_mem_cons] at hlines
    obtain ⟨room, moves, hnot⟩ := @exists_not_printed Q lines todo line
      (fun l hl => ⟨hlines.1 l hl, Nat.le_of_not_lt (hshort l hl)⟩) hlines.2.1 hlong
    exact hnot (hprinted room room moves)
  · intro hlen roomRight roomLeft moves
    have herrors : (tcp roomRight roomLeft []).errors = [] := rfl
    exact (printed_of_whole rfl echoed_strCli hlines
      (fun line hl => whole_strCli (hlines line hl) (hlen line hl)) herrors Q moves).2

/-- A line of 1023 bytes comes back in two rounds. -/
theorem not_printed_1023 :
    (∀ line ∈ [List.replicate 1023 (97 : UInt8)], newline ∉ line) ∧
      ∃ room moves, ¬ Printed [List.replicate 1023 97]
        (strCli.reached (tcp room room []) strEcho (typed [List.replicate 1023 97]) moves).left := by
  have hline : newline ∉ List.replicate 1023 (97 : UInt8) := by
    rw [List.mem_replicate]
    decide
  refine ⟨fun line hmem => List.mem_singleton.1 hmem ▸ hline, ?_⟩
  exact @exists_not_printed strEcho [] [] _ (by simp) hline (by rw [List.length_replicate]; decide)

theorem prints_typed_hi :
    (∀ line ∈ ([[104, 105], []] : List Bytes), newline ∉ line) ∧
      ((∀ roomRight roomLeft moves, Printed [[104, 105], []]
        (strCli.reached (tcp roomRight roomLeft []) strEcho (typed [[104, 105], []]) moves).left) ↔
        ∀ line ∈ ([[104, 105], []] : List Bytes), line.length ≤ 1022) :=
  ⟨by decide, prints_typed_iff strEcho (by decide)⟩

/-! ### Both in `SendAll` -/

/-- What a call of `Readline` leaves of what comes back of a line, after what was left before. -/
def leaves (left line : Bytes) : Bytes := (cut (· = newline) 1023 (left ++ (line ++ [newline]))).2

/-- What the client has sent and not read after the rounds of these lines. -/
def owed (lines : List Bytes) : Bytes := lines.foldl leaves []

theorem leaves_strCli {line stream : Bytes} (hline : line.length < 1023) :
    strCli.leaves line stream = (cut (· = newline) (1023 - line.length) stream).2 := by
  induction stream generalizing line with
  | nil => cases hn : 1023 - line.length <;> rfl
  | cons ch stream ih =>
    obtain ⟨n, hn⟩ := Nat.exists_eq_succ_of_ne_zero (show 1023 - line.length ≠ 0 by omega)
    have hfull : strCli.full (line ++ [ch]) = true ↔ ch = newline ∨ n = 0 := by
      have hroom : 1022 ≤ line.length ↔ n = 0 := by omega
      simp [strCli, EndsLine, hroom]
    rw [LineClient.leaves, hn, Nat.succ_eq_add_one, cut]
    by_cases hch : ch = newline
    · rw [if_pos (hfull.2 (.inl hch)), if_pos (decide_eq_true hch)]
    · rw [if_neg (fun h => hch (of_decide_eq_true h))]
      by_cases hzero : n = 0
      · rw [if_pos (hfull.2 (.inr hzero)), hzero, cut]
      · rw [if_neg (fun h => (hfull.1 h).elim hch hzero), ih (by simp; omega), List.length_append,
          List.length_singleton, show 1023 - (line.length + 1) = n by omega]

theorem owing_typed {lines : List Bytes} (hlines : ∀ line ∈ lines, newline ∉ line) {left input : Bytes}
    (h : strCli.Owing (typed lines) left input) :
    ∃ before after, lines = before ++ after ∧ input = typed after ∧ left = owed before := by
  induction h with
  | start => exact ⟨[], lines, rfl, rfl, rfl⟩
  | @next left input sendline rest _ hsend ih =>
    obtain ⟨before, after, hsplit, rfl, rfl⟩ := ih
    cases after with
    | nil => simp [strCli, nextLine, getline] at hsend
    | cons line after =>
      have hline : newline ∉ line := hlines line (by rw [hsplit]; simp)
      rw [next_typed_cons rfl hline] at hsend
      obtain ⟨rfl, rfl⟩ : line ++ [newline] = sendline ∧ typed after = rest := by simpa using hsend
      refine ⟨before ++ [line], after, by simp [hsplit], rfl, ?_⟩
      rw [leaves_strCli (by decide)]
      unfold owed
      rw [List.foldl_concat]
      rfl

/-- Lines for which the connection has room never leave both sides in `SendAll`. -/
theorem not_bothBlocked {link : Link Errno} (herrors : link.errors = [])
    (Q : EchoServer UInt8 Errno link.errors) {lines : List Bytes}
    (hlines : ∀ line ∈ lines, newline ∉ line)
    (hroom : ∀ before line after, lines = before ++ line :: after →
      (owed before).length + line.length ≤ link.roomRight + link.roomLeft) (moves : List (Move Errno)) :
    ¬ (strCli.reached link Q (typed lines) moves).BothBlocked link := by
  intro hblocked
  obtain ⟨bytes, hreq⟩ := hblocked.left_sends
  have howes : strCli.Owes (typed lines) (strCli.reached link Q (typed lines) moves).left
      (strCli.reached link Q (typed lines) moves).loop.queue :=
    LineClient.owes_reached (by simp [herrors]) Q moves
  obtain ⟨left, input, sendline, howing, hsend, hqueue⟩ := howes.queue_lt hreq
  obtain ⟨before, after, hsplit, rfl, rfl⟩ := owing_typed hlines howing
  have hlong := hblocked.lt_queue
  cases after with
  | nil => simp [strCli, nextLine, getline] at hsend
  | cons line after =>
    have hline : newline ∉ line := hlines line (by rw [hsplit]; simp)
    rw [next_typed_cons rfl hline] at hsend
    obtain ⟨rfl, -⟩ := Prod.mk.inj (Option.some.inj hsend)
    rw [List.length_append, List.length_singleton] at hqueue
    have := hroom before line after hsplit
    omega

theorem plays_full {cap : ℕ} {line left : Bytes} (hline : newline ∉ line) (after : List Bytes)
    (hleft : left.length < cap) (hlong : cap ≤ left.length + line.length) (stdout recvline : Bytes) :
    ∃ client : LineClient.State, ∃ queue bytes, strCli.request client = .send bytes ∧ queue.length = cap ∧
      strCli.Plays cap ⟨⟨typed (line :: after), stdout, [], recvline, false, .top⟩, left⟩
        ⟨client, queue⟩ := by
  have hsplit : line ++ [newline] =
      line.take (cap - left.length) ++ (line.drop (cap - left.length) ++ [newline]) := by
    rw [← List.append_assoc, List.take_append_drop]
  have htake : left.length + (line.take (cap - left.length)).length = cap := by
    rw [List.length_take]
    omega
  have htop : strCli.Plays cap ⟨⟨typed (line :: after), stdout, [], recvline, false, .top⟩, left⟩
      ⟨⟨typed after, stdout, [], recvline, false, .sendAll (line ++ [newline])⟩, left⟩ :=
    LineClient.plays_top (next_typed_cons rfl hline after) left
  rw [hsplit] at htop
  obtain ⟨b, bytes, hbytes⟩ := List.exists_cons_of_ne_nil
    (List.append_ne_nil_of_right_ne_nil (line.drop (cap - left.length)) (List.cons_ne_nil newline []))
  refine ⟨_, _, b :: bytes, ?_, ?_, htop.trans (LineClient.plays_sendAll _ (Nat.le_of_eq htake))⟩
  · rw [hbytes]
    rfl
  · rw [List.length_append, htake]

theorem plays_owed {cap : ℕ} {line : Bytes} (hline : newline ∉ line) (after : List Bytes)
    {before : List Bytes} (hbefore : ∀ l ∈ before, newline ∉ l) {left : Bytes} (hleft : left.length < cap)
    (hlong : cap ≤ (before.foldl leaves left).length + line.length) (stdout recvline : Bytes) :
    ∃ client : LineClient.State, ∃ queue bytes, strCli.request client = .send bytes ∧ queue.length = cap ∧
      strCli.Plays cap ⟨⟨typed (before ++ line :: after), stdout, [], recvline, false, .top⟩, left⟩
        ⟨client, queue⟩ := by
  induction before generalizing left stdout recvline with
  | nil => exact plays_full hline after hleft hlong stdout recvline
  | cons l before ih =>
    obtain ⟨hl, hbefore⟩ := List.forall_mem_cons.1 hbefore
    by_cases hfits : cap ≤ left.length + l.length
    · exact plays_full hl (before ++ line :: after) hleft hfits stdout recvline
    · have hfull : strCli.full (left ++ (l ++ [newline])) = true := decide_eq_true (.inl (by simp))
      have hcap : left.length + (l ++ [newline]).length ≤ cap := by
        rw [List.length_append, List.length_singleton]
        omega
      obtain ⟨hleft', stdout', recvline', hround⟩ := LineClient.plays_leaves
        (next_typed_cons rfl hl (before ++ line :: after)) hcap hfull (fun _ hne => hne) stdout recvline
      rw [leaves_strCli (by decide)] at hleft' hround
      obtain ⟨client, queue, bytes, hsend, hqueue, hplays⟩ :=
        ih hbefore hleft' hlong stdout' recvline'
      exact ⟨client, queue, bytes, hsend, hqueue, hround.trans hplays⟩

/-- Otherwise the two can be brought to where both are in `SendAll` and neither has room. -/
theorem exists_bothBlocked {link : Link Errno} (hright : 0 < link.roomRight) (hleft : 0 < link.roomLeft)
    (Q : EchoServer UInt8 Errno link.errors) {before after : List Bytes} {line : Bytes}
    (hbefore : ∀ l ∈ before, newline ∉ l) (hline : newline ∉ line)
    (hlong : link.roomRight + link.roomLeft < (owed before).length + line.length) :
    ∃ moves, (strCli.reached link Q (typed (before ++ line :: after)) moves).BothBlocked link := by
  obtain ⟨client, queue, bytes, hsend, hqueue, hplays⟩ :=
    @plays_owed (link.roomRight + link.roomLeft + 1) line hline after before hbefore [] (Nat.succ_pos _)
      hlong [] []
  obtain ⟨moves, hs, hloop⟩ := Duplex.exists_run_trickling (Q := Q) (le_refl _) (fun _ => hright) hleft hplays
  have hreq : strCli.request (strCli.reached link Q (typed (before ++ line :: after)) moves).left =
      .send bytes := (congrArg (fun l : Loop strCli.program => strCli.request l.prog) hloop).trans hsend
  have hlength : (strCli.reached link Q (typed (before ++ line :: after)) moves).loop.queue.length =
      link.roomRight + link.roomLeft + 1 :=
    (congrArg (fun l : Loop strCli.program => l.queue.length) hloop).trans hqueue
  refine ⟨moves, hs.bothBlocked hreq ?_⟩
  exact Nat.lt_of_lt_of_eq (Nat.lt_succ_self _) hlength.symm

/-- Against any echo server: no order of steps leads to both being blocked in `SendAll` precisely when no
line, with what the client still has to read of the lines before it, is longer than both buffers together.
-/
theorem never_blocks_iff (Q : EchoServer UInt8 Errno []) {roomRight roomLeft : ℕ} (hright : 0 < roomRight)
    (hleft : 0 < roomLeft) {lines : List Bytes} (hlines : ∀ line ∈ lines, newline ∉ line) :
    (∀ moves, ¬ (strCli.reached (tcp roomRight roomLeft []) Q (typed lines) moves).BothBlocked
      (tcp roomRight roomLeft [])) ↔
      ∀ before line after, lines = before ++ line :: after →
        (owed before).length + line.length ≤ roomRight + roomLeft := by
  constructor
  · rintro hnever before line after rfl
    by_contra hlong
    rw [List.forall_mem_append, List.forall_mem_cons] at hlines
    obtain ⟨moves, hblocked⟩ := @exists_bothBlocked (tcp roomRight roomLeft []) hright hleft Q before after
      line hlines.1 hlines.2.1 (Nat.lt_of_not_le hlong)
    exact hnever moves hblocked
  · intro hroom moves
    exact @not_bothBlocked (tcp roomRight roomLeft []) rfl Q lines hlines hroom moves

/-- One line of 2049 bytes, with buffers of 1024 bytes each way. -/
theorem blocks_2049 :
    (∀ line ∈ [List.replicate 2049 (97 : UInt8)], newline ∉ line) ∧
      ∃ moves, (strCli.reached (tcp 1024 1024 []) strEcho (typed [List.replicate 2049 97]) moves).BothBlocked
        (tcp 1024 1024 []) := by
  have hline : newline ∉ List.replicate 2049 (97 : UInt8) := by
    rw [List.mem_replicate]
    decide
  refine ⟨fun line hmem => List.mem_singleton.1 hmem ▸ hline, ?_⟩
  refine @exists_bothBlocked (tcp 1024 1024 []) (by decide) (by decide) strEcho [] [] _ (by simp) hline ?_
  rw [List.length_replicate]
  decide

theorem never_blocks_hi :
    (∀ line ∈ ([[104, 105], []] : List Bytes), newline ∉ line) ∧
      ((∀ moves, ¬ (strCli.reached (tcp 1024 1024 []) strEcho (typed [[104, 105], []]) moves).BothBlocked
        (tcp 1024 1024 [])) ↔
        ∀ before line after, [[104, 105], []] = before ++ line :: after →
          (owed before).length + line.length ≤ 1024 + 1024) :=
  ⟨by decide, never_blocks_iff strEcho (by decide) (by decide) (by decide)⟩

/-! ### The client with the stream -/

theorem echoed_strCliIstream (line : Bytes) :
    strCliIstream.echoed (line ++ [newline]) = line ++ [newline] := by
  simp [LineClient.echoed, strCliIstream]

theorem full_strCliIstream (line : Bytes) : strCliIstream.full (line ++ [newline]) = true :=
  decide_eq_true (by simp)

theorem whole_strCliIstream {line : Bytes} (hline : newline ∉ line) (hne : line ≠ []) :
    strCliIstream.Whole (line ++ [newline]) := by
  refine ⟨?_, by simpa [strCliIstream] using hne⟩
  intro q hq hfull
  rcases List.prefix_concat_iff.1 hq with heq | hpre
  · exact heq
  · exact absurd (hpre.subset (List.mem_of_getLast? (of_decide_eq_true hfull))) hline

theorem exists_terminated (Q : EchoServer UInt8 Errno []) {lines : List Bytes} (todo : List Bytes)
    (hlines : ∀ l ∈ lines, newline ∉ l ∧ l ≠ []) :
    ∃ room moves, (strCliIstream.reached (tcp room room []) Q
      (typed (lines ++ [] :: todo)) moves).left.pc = .terminated := by
  have hroom : 0 < (typed (lines ++ [] :: todo)).length := by simp
  obtain ⟨recvline, hbefore⟩ := plays_typed (c := strCliIstream) rfl echoed_strCliIstream full_strCliIstream
    ([] :: todo) (le_refl _) (fun l hl => (hlines l hl).1)
    (fun l hl => whole_strCliIstream (hlines l hl).1 (hlines l hl).2) [] []
  have hreply : strCliIstream.Plays (typed (lines ++ [] :: todo)).length
      ⟨⟨typed ([] :: todo), [] ++ typed lines, [], recvline, false, .top⟩, []⟩
      ⟨⟨typed todo, [] ++ typed lines, [], [], false, .reply⟩, []⟩ :=
    LineClient.plays_reply (c := strCliIstream) (q := []) (b := newline) (t := [])
      (next_typed_cons rfl List.not_mem_nil todo) rfl hroom
      (fun p hp hpre => absurd (List.prefix_nil.1 hpre) hp)
      rfl
  have hplays := hbefore.trans (hreply.trans (LineClient.plays_terminate []))
  obtain ⟨moves, hclient⟩ := exists_left Q hroom hplays
  exact ⟨_, moves, congrArg LineClient.State.pc hclient⟩

/-- Against any echo server: however the traffic is cut, the client never reports that the server has
terminated, and after every round it has printed exactly the lines it has taken, precisely when none of them
is empty. -/
theorem never_terminates_iff (Q : EchoServer UInt8 Errno []) {lines : List Bytes}
    (hlines : ∀ line ∈ lines, newline ∉ line) :
    (∀ roomRight roomLeft moves,
      let client : LineClient.State :=
        (strCliIstream.reached (tcp roomRight roomLeft []) Q (typed lines) moves).left
      client.pc ≠ .terminated ∧ Printed lines client) ↔
      ∀ line ∈ lines, line ≠ [] := by
  constructor
  · intro hsafe
    by_contra hempty
    push Not at hempty
    obtain ⟨lines, line, todo, rfl, hfilled, rfl⟩ := exists_first hempty
    rw [List.forall_mem_append, List.forall_mem_cons] at hlines
    obtain ⟨room, moves, hterminated⟩ := exists_terminated Q todo fun l hl => ⟨hlines.1 l hl, hfilled l hl⟩
    exact (hsafe room room moves).1 hterminated
  · intro hne roomRight roomLeft moves
    have herrors : (tcp roomRight roomLeft []).errors = [] := rfl
    exact printed_of_whole rfl echoed_strCliIstream hlines
      (fun line hl => whole_strCliIstream (hlines line hl) (hne line hl)) herrors Q moves

/-- Someone types an empty line while the server is there. -/
theorem terminated_empty_line :
    let s := strCliIstream.reached (tcp 1024 1024 []) strEcho (typed [[]])
      [.left (.go 1), .left (.go 1), .left (.go 1), .right (.go 1), .right (.go 1), .left (.go 1),
        .left (.go 1), .left (.go 1)]
    s.left.pc = .terminated ∧ s.right = .serving [] :=
  ⟨rfl, rfl⟩

theorem never_terminates_hi :
    (∀ line ∈ ([[104, 105]] : List Bytes), newline ∉ line) ∧
      ((∀ roomRight roomLeft moves,
        let client : LineClient.State :=
          (strCliIstream.reached (tcp roomRight roomLeft []) strEcho (typed [[104, 105]]) moves).left
        client.pc ≠ .terminated ∧ Printed [[104, 105]] client) ↔
        ∀ line ∈ ([[104, 105]] : List Bytes), line ≠ []) :=
  ⟨by decide, never_terminates_iff strEcho (by decide)⟩

end NetProg.Cxx
