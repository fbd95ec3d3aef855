import NetProg.System.LineClient
import NetProg.System.Text

/-!
# The Python echo client

`str_cli` of `tcp/str_echo/python/tcp_echo_client.py`. Its text is in UTF-8, where a newline is one byte and stands
for nothing else, so `readline` cuts the bytes of a text as it cuts the text. `sys.stdin` makes newlines of carriage
returns (`universalNewlines`); so there is none in what is sent, nor in what an echo server sends back, and the file
of the socket changes nothing.

`fp.readline()` and `sock_fp.readline()` take lines of any length. The last one need not end with a newline, and then
`sock_fp.readline()` asks for more than comes back.
-/

namespace NetProg

def carriageReturn : UInt8 := 13

namespace Python

/-- What a text file makes of `\r\n` and of `\r`. -/
def universalNewlines : Bytes → Bytes
  | [] => []
  | b :: text =>
    if b = carriageReturn then
      if text.head? = some newline then universalNewlines text else newline :: universalNewlines text
    else b :: universalNewlines text

/-- `fp.readline()`, and the text that is left. -/
def readline (text : Bytes) : Bytes × Bytes := cutLine text.length text

theorem chunkSize_pos : 0 < 8192 := by decide

theorem not_line_nil : decide (([] : Bytes).getLast? = some newline) = false := by decide

/-- `str_cli(fp, sock)`, with the 8192 bytes that a text file reads ahead. -/
def strCli : LineClient where
  next input := if input = [] then none else some (readline input)
  size := 8192
  full line := decide (line.getLast? = some newline)
  stored := id
  suffix := []
  printed := id
  endsOnce := false
  onError e := if e = .EINTR then .again else .giveUp
  size_pos := chunkSize_pos
  full_nil := not_line_nil

variable {input line rest : Bytes}

theorem next_strCli : strCli.next input = some (line, rest) ↔ input ≠ [] ∧ readline input = (line, rest) := by
  simp [strCli]

theorem echoed_strCli (line : Bytes) : strCli.echoed line = line := by
  simp [LineClient.echoed, strCli]

theorem readline_append (text : Bytes) : (readline text).1 ++ (readline text).2 = text :=
  cutLine_append text.length text

theorem readline_ne_nil (hne : input ≠ []) : (readline input).1 ≠ [] :=
  cutLine_ne_nil (fun hlen => hne (List.length_eq_zero_iff.1 hlen)) hne

theorem readline_last (h : (readline input).1.getLast? ≠ some newline) :
    (readline input).1 = input ∧ (readline input).2 = [] := by
  have happend := readline_append input
  rcases endsLine_cutLine input.length input with (hlast | hlen) | ⟨hrest, -⟩
  · exact absurd hlast h
  · have hsum := congrArg List.length happend
    rw [List.length_append] at hsum
    have hrest : (readline input).2 = [] := by
      apply List.eq_nil_of_length_eq_zero
      simp only [readline] at hsum ⊢
      omega
    rw [hrest, List.append_nil] at happend
    exact ⟨happend, hrest⟩
  · rw [show (readline input).2 = [] from hrest, List.append_nil] at happend
    exact ⟨happend, hrest⟩

theorem newline_notMem_dropLast (text : Bytes) : newline ∉ (readline text).1.dropLast := by
  intro hmem
  obtain ⟨q, rest, hsplit⟩ := List.append_of_mem hmem
  have hpre : q ++ [newline] <+: (readline text).1.dropLast := ⟨rest, by rw [hsplit, List.append_assoc]; rfl⟩
  apply not_endsLine_of_prefix (hpre.trans (List.dropLast_prefix _)) _ (.inl List.getLast?_concat)
  intro heq
  have hle := hpre.length_le
  rw [heq, List.length_dropLast] at hle
  have hpos := congrArg List.length heq
  simp only [List.length_append, List.length_singleton, readline] at hpos hle
  omega

theorem whole_readline (hne : input ≠ []) : strCli.Whole (readline input).1 where
  eq_of_full q hq hfull := by
    by_contra hneq
    exact not_endsLine_of_prefix hq hneq (.inl (of_decide_eq_true hfull))
  stored_ne_nil := readline_ne_nil hne

theorem rounds_append {stdout i : Bytes} (h : strCli.Rounds input stdout i) : stdout ++ i = input := by
  induction h with
  | start => rfl
  | @next stdout i sendline rest _ hnext ih =>
    obtain ⟨-, hcut⟩ := next_strCli.1 hnext
    have happend := readline_append i
    rw [hcut] at happend
    rw [echoed_strCli, List.append_assoc, happend, ih]

theorem allWhole_strCli : strCli.AllWhole input := by
  intro stdout i sendline rest _ hnext
  obtain ⟨hne, hcut⟩ := next_strCli.1 hnext
  have hwhole := whole_readline hne
  rwa [hcut] at hwhole

end Python

end NetProg
