import NetProg.EchoSessions
import NetProg.Python.StrCli

/-!
# How echo sessions end

The sessions of the four `str_cli` with the `str_echo` of each language. Where the reader of a client stops at the end
of every piece it sends, every run that neglects neither side gets through (`echo_session_completes`). `Readline` in C
and `readline` in Python do not stop at the end of a last line without a newline, and then every such run ends with the
client waiting for the server and the server for the client (`echo_session_ends`).
-/

namespace NetProg
open Lib (Choice Duplex Link Move run stateAt)

namespace EchoSession

variable {c : LineClient} {v : Language} {input : Bytes}

/-- What the servers try again. -/
def interruptions : Language → List Errno
  | .cxx => []
  | _ => [.EINTR]

theorem again_of_interruptions {e : Errno} (he : e ∈ interruptions v) : e = .EINTR ∧ Echo.again v e = true := by
  cases v with
  | cxx => cases he
  | c | python =>
    obtain rfl : e = .EINTR := List.mem_singleton.1 he
    exact ⟨rfl, rfl⟩

/-! ### The client in C -/

theorem shrinks_strCli : Shrinks C.strCli := by
  intro input sendline rest hnext
  by_cases hnil : input = []
  · simp [C.strCli, fgets, hnil] at hnext
  · simp only [C.strCli, fgets, if_neg hnil, Option.map_some, Option.some.injEq, Prod.mk.injEq] at hnext
    obtain ⟨rfl, rfl⟩ := hnext
    have hlen := congrArg List.length (cutLine_append 1023 input)
    have hpos := List.length_pos_iff.2 (cutLine_ne_nil (n := 1023) (by decide) hnil)
    have hstring : (cString (cutLine 1023 input).1).length ≤ (cutLine 1023 input).1.length :=
      (List.takeWhile_prefix _).length_le
    rw [List.length_append] at hlen
    constructor
    · show (cutLine 1023 input).2.length < input.length
      omega
    · show (cString (cutLine 1023 input).1).length + (cutLine 1023 input).2.length ≤ input.length + 1
      omega

theorem smooth_strCli {roomRight roomLeft : ℕ} (hright : 0 < roomRight) (hleft : 0 < roomLeft)
    (hroom : 1022 ≤ roomRight + roomLeft) (hinput : 0 ∉ input) :
    Smooth C.strCli v (tcp roomRight roomLeft (interruptions v)) input where
  roomRight := hright
  roomLeft := hleft
  whole := C.allWhole_strCli hinput
  room stdout i sendline rest hrounds hnext := by
    obtain ⟨-, rfl, -⟩ := C.next_strCli (C.nul_notMem_rounds hinput hrounds) hnext
    have hlen := length_cutLine_le 1023 i
    simp only [tcp]
    omega
  shrinks := shrinks_strCli
  errors e he := by
    obtain ⟨rfl, hagain⟩ := again_of_interruptions he
    exact ⟨rfl, hagain, rfl⟩

/-- The reader in C stops at the end of each piece exactly if the last one ends like a line. -/
theorem allFull_strCli (hinput : 0 ∉ input) : AllFull C.strCli input ↔ C.EndsWhole input := by
  constructor
  · intro hall
    obtain ⟨stdout, rest, hrounds, hend⟩ := exists_rounds shrinks_strCli input
    have hnil : rest = [] := by
      by_contra hne
      rw [C.next_strCli_of_ne_nil (C.nul_notMem_rounds hinput hrounds) hne] at hend
      cases hend
    suffices h : C.EndsWhole rest → C.EndsWhole input from h (hnil ▸ dvd_zero 1023)
    clear hend hnil
    induction hrounds with
    | start => exact id
    | next hrounds hnext ih =>
      intro hrest
      have hfull := hall _ _ _ _ hrounds hnext
      obtain ⟨-, rfl, rfl⟩ := C.next_strCli (C.nul_notMem_rounds hinput hrounds) hnext
      exact ih ((C.endsWhole_cutLine (of_decide_eq_true hfull)).2 hrest)
  · intro hends stdout i sendline rest hrounds hnext
    obtain ⟨hne, rfl, -⟩ := C.next_strCli (C.nul_notMem_rounds hinput hrounds) hnext
    apply decide_eq_true
    by_contra hline
    exact (C.not_endsWhole hne hline).2 (C.rounds_endsWhole hinput hends hrounds)

theorem printed_strCli (hinput : 0 ∉ input) {stdout rest : Bytes} (hrounds : C.strCli.Rounds input stdout rest)
    (hend : C.strCli.next rest = none) : stdout = input := by
  have happend := C.rounds_append hinput hrounds
  have hnil : rest = [] := by
    by_contra hne
    rw [C.next_strCli_of_ne_nil (C.nul_notMem_rounds hinput hrounds) hne] at hend
    cases hend
  rwa [hnil, List.append_nil] at happend

theorem last_strCli (hinput : 0 ∉ input) {stdout i line rest : Bytes} (hrounds : C.strCli.Rounds input stdout i)
    (hnext : C.strCli.next i = some (line, rest)) (hline : C.strCli.full line = false) :
    line ≠ [] ∧ stdout ++ line = input ∧ rest = [] := by
  obtain ⟨hne, rfl, rfl⟩ := C.next_strCli (C.nul_notMem_rounds hinput hrounds) hnext
  have hlast := (C.not_endsWhole hne (of_decide_eq_false hline)).1
  have happend := cutLine_append 1023 i
  rw [hlast] at happend ⊢
  exact ⟨hne, C.rounds_append hinput hrounds, List.append_right_eq_self.1 happend⟩

/-! ### The client in Python -/

theorem shrinks_python : Shrinks Python.strCli := by
  intro input sendline rest hnext
  obtain ⟨hne, hcut⟩ := Python.next_strCli.1 hnext
  have hpos := List.length_pos_iff.2 (Python.readline_ne_nil hne)
  have hlen := congrArg List.length (Python.readline_append input)
  rw [hcut, List.length_append] at hlen
  rw [hcut] at hpos
  dsimp only at hlen hpos
  omega

theorem smooth_python {roomRight roomLeft : ℕ} (hright : 0 < roomRight) (hleft : 0 < roomLeft)
    (hroom : ∀ line, line <:+: input → newline ∉ line → line.length ≤ roomRight + roomLeft) :
    Smooth Python.strCli v (tcp roomRight roomLeft (interruptions v)) input where
  roomRight := hright
  roomLeft := hleft
  whole := Python.allWhole_strCli
  room stdout i sendline rest hrounds hnext := by
    obtain ⟨-, hcut⟩ := Python.next_strCli.1 hnext
    have hi := Python.readline_append i
    rw [hcut] at hi
    have hpiece : sendline.dropLast <:+: input := by
      refine (List.dropLast_prefix sendline).isInfix.trans ⟨stdout, rest, ?_⟩
      rw [List.append_assoc, hi, Python.rounds_append hrounds]
    have hnewline := Python.newline_notMem_dropLast i
    rw [hcut] at hnewline
    have hle := hroom _ hpiece hnewline
    rw [List.length_dropLast] at hle
    simp only [tcp]
    omega
  shrinks := shrinks_python
  errors e he := by
    obtain ⟨rfl, hagain⟩ := again_of_interruptions he
    exact ⟨rfl, hagain, rfl⟩

theorem printed_python {stdout rest : Bytes} (hrounds : Python.strCli.Rounds input stdout rest)
    (hend : Python.strCli.next rest = none) : stdout = input := by
  have happend := Python.rounds_append hrounds
  have hnil : rest = [] := by simpa [Python.strCli] using hend
  rwa [hnil, List.append_nil] at happend

theorem last_python {stdout i line rest : Bytes} (hrounds : Python.strCli.Rounds input stdout i)
    (hnext : Python.strCli.next i = some (line, rest)) (hline : Python.strCli.full line = false) :
    line ≠ [] ∧ stdout ++ line = input ∧ rest = [] := by
  obtain ⟨hne, hcut⟩ := Python.next_strCli.1 hnext
  have hopen : (Python.readline i).1.getLast? ≠ some newline := by
    rw [hcut]
    exact of_decide_eq_false hline
  obtain ⟨hall, hrest⟩ := Python.readline_last hopen
  rw [hcut] at hall hrest
  obtain rfl : line = i := hall
  exact ⟨hne, Python.rounds_append hrounds, hrest⟩

theorem allFull_python : AllFull Python.strCli input ↔ input = [] ∨ input.getLast? = some newline := by
  constructor
  · intro hall
    obtain ⟨stdout, rest, hrounds, hend⟩ := exists_rounds shrinks_python input
    rw [← printed_python hrounds hend]
    clear hend
    induction hrounds with
    | start => exact .inl rfl
    | next hrounds hnext ih =>
      have hline : _ = some newline := of_decide_eq_true (hall _ _ _ _ hrounds hnext)
      right
      rw [Python.echoed_strCli, List.getLast?_append, hline]
      rfl
  · intro hends stdout i sendline rest hrounds hnext
    by_contra hfull
    obtain ⟨hne, rfl, -⟩ := last_python hrounds hnext (Bool.not_eq_true _ ▸ hfull)
    have hopen : sendline.getLast? ≠ some newline := of_decide_eq_false (Bool.not_eq_true _ ▸ hfull)
    rcases hends with hnil | hlast
    · exact hne (List.append_eq_nil_iff.1 hnil).2
    · rw [List.getLast?_append_of_ne_nil _ hne] at hlast
      exact hopen hlast

/-! ### The clients in C++ -/

section typed

variable {lines : List Bytes} (hnext : c.next = Cxx.nextLine)
  (hechoed : ∀ line, c.echoed (line ++ [newline]) = line ++ [newline])

include hnext

theorem shrinks_nextLine : Shrinks c := by
  intro input sendline rest hsend
  rw [hnext, Cxx.nextLine, getline] at hsend
  split_ifs at hsend with hnil
  · cases hsend
  · obtain ⟨rfl, rfl⟩ : input.takeWhile (· ≠ newline) ++ [newline] = sendline ∧
        (input.dropWhile (· ≠ newline)).drop 1 = rest := by simpa using hsend
    have hlen := congrArg List.length (List.takeWhile_append_dropWhile (p := (· ≠ newline)) (l := input))
    have hpos := List.length_pos_iff.2 hnil
    rw [List.length_append] at hlen
    rw [List.length_drop, List.length_append, List.length_singleton]
    omega

include hechoed

theorem piece_typed (hlines : ∀ line ∈ lines, newline ∉ line) {stdout i sendline rest : Bytes}
    (hrounds : c.Rounds (typed lines) stdout i) (hsend : c.next i = some (sendline, rest)) :
    ∃ line ∈ lines, sendline = line ++ [newline] := by
  obtain ⟨k, -, rfl, -⟩ := Cxx.rounds_typed hnext hechoed hlines hrounds
  cases hdrop : lines.drop k with
  | nil =>
    rw [hdrop, hnext] at hsend
    simp [Cxx.nextLine, getline] at hsend
  | cons line rest =>
    have hmem : line ∈ lines := List.mem_of_mem_drop (hdrop ▸ List.mem_cons_self)
    rw [hdrop, Cxx.next_typed_cons hnext (hlines line hmem)] at hsend
    exact ⟨line, hmem, (Prod.mk.inj (Option.some.inj hsend)).1.symm⟩

theorem printed_typed (hlines : ∀ line ∈ lines, newline ∉ line) {stdout rest : Bytes}
    (hrounds : c.Rounds (typed lines) stdout rest) (hend : c.next rest = none) : stdout = typed lines := by
  obtain ⟨k, -, rfl, rfl⟩ := Cxx.rounds_typed hnext hechoed hlines hrounds
  have hdrop : lines.drop k = [] := by
    by_contra hne
    obtain ⟨line, rest, hcons⟩ := List.exists_cons_of_ne_nil hne
    have hmem : line ∈ lines := List.mem_of_mem_drop (hcons ▸ List.mem_cons_self)
    rw [hcons, Cxx.next_typed_cons hnext (hlines line hmem)] at hend
    cases hend
  rw [List.take_of_length_le (List.drop_eq_nil_iff.1 hdrop)]

/-- A client of lines gets through if each is a whole piece that there is room for. -/
theorem session_typed {roomRight roomLeft : ℕ} (hright : 0 < roomRight) (hleft : 0 < roomLeft)
    (hfull : ∀ line, c.full (line ++ [newline]) = true) {errors : List Errno}
    (herrors : ∀ e ∈ errors, e = .EINTR ∧ Echo.again v e = true ∧ c.onError e = .again)
    (hlines : ∀ line ∈ lines, newline ∉ line ∧ c.Whole (line ++ [newline]) ∧ line.length ≤ roomRight + roomLeft) :
    Completes c v roomRight roomLeft errors (typed lines) (typed lines) := by
  have hplain : ∀ line ∈ lines, newline ∉ line := fun line hmem => (hlines line hmem).1
  have hsmooth : Smooth c v (tcp roomRight roomLeft errors) (typed lines) := by
    refine ⟨hright, hleft, ?_, ?_, shrinks_nextLine hnext, herrors⟩
    · intro stdout i sendline rest hrounds hsend
      obtain ⟨line, hmem, rfl⟩ := piece_typed hnext hechoed hplain hrounds hsend
      exact (hlines line hmem).2.1
    · intro stdout i sendline rest hrounds hsend
      obtain ⟨line, hmem, rfl⟩ := piece_typed hnext hechoed hplain hrounds hsend
      rw [List.length_append, List.length_singleton]
      exact Nat.succ_le_succ (hlines line hmem).2.2
  have hall : AllFull c (typed lines) := by
    intro stdout i sendline rest hrounds hsend
    obtain ⟨line, -, rfl⟩ := piece_typed hnext hechoed hplain hrounds hsend
    exact hfull line
  exact hsmooth.session hall fun stdout rest => printed_typed hnext hechoed hplain

end typed

end EchoSession

open EchoSession

/-- With each server, in every run that neglects neither side, the session of a client in C++ gets to its end and the
client has printed what was typed: with the `ReadBuffer`, if no line is longer than 1022 bytes, and with the stream, if
none is empty; and if there is room for each line in the buffers. -/
theorem echo_session_completes (v : Language) {roomRight roomLeft : ℕ} (hright : 0 < roomRight)
    (hleft : 0 < roomLeft) :
    (∀ lines, (∀ line ∈ lines, newline ∉ line ∧ line.length ≤ 1022 ∧ line.length ≤ roomRight + roomLeft) →
        Completes Cxx.strCli v roomRight roomLeft (interruptions v) (typed lines) (typed lines)) ∧
      ∀ lines, (∀ line ∈ lines, newline ∉ line ∧ line ≠ [] ∧ line.length ≤ roomRight + roomLeft) →
        Completes Cxx.strCliIstream v roomRight roomLeft [] (typed lines) (typed lines) := by
  constructor
  · intro lines hlines
    apply session_typed rfl Cxx.echoed_strCli hright hleft Cxx.full_strCli
    · intro e he
      obtain ⟨rfl, hagain⟩ := again_of_interruptions he
      exact ⟨rfl, hagain, rfl⟩
    · intro line hmem
      obtain ⟨hline, hlen, hroom⟩ := hlines line hmem
      exact ⟨hline, Cxx.whole_strCli hline hlen, hroom⟩
  · intro lines hlines
    apply session_typed rfl Cxx.echoed_strCliIstream hright hleft Cxx.full_strCliIstream (List.forall_mem_nil _)
    intro line hmem
    obtain ⟨hline, hne, hroom⟩ := hlines line hmem
    exact ⟨hline, Cxx.whole_strCliIstream hline hne, hroom⟩

/-- One line. -/
theorem echo_session_completes_hi :
    Completes Cxx.strCliIstream .c 1024 1024 [] (typed [[104, 105]]) (typed [[104, 105]]) := by
  apply (echo_session_completes .c (by decide) (by decide)).2
  intro line hmem
  rw [List.mem_singleton.1 hmem]
  decide

/-- With each server, in every run that neglects neither side, the session of the client in C gets to its end if the
last piece of its input ends like a line, and hangs if not; that of the client in Python, if its text ends with a
newline, and if not. -/
theorem echo_session_ends (v : Language) {roomRight roomLeft : ℕ} (hright : 0 < roomRight) (hleft : 0 < roomLeft) :
    (∀ input, 0 ∉ input → 1022 ≤ roomRight + roomLeft →
        if 1023 ∣ (input.rtakeWhile (· ≠ newline)).length then
          Completes C.strCli v roomRight roomLeft (interruptions v) input input
        else Hangs C.strCli v roomRight roomLeft (interruptions v) input) ∧
      ∀ text, let input := Python.universalNewlines text
        (∀ line, line <:+: input → newline ∉ line → line.length ≤ roomRight + roomLeft) →
        if input = [] ∨ input.getLast? = some newline then
          Completes Python.strCli v roomRight roomLeft (interruptions v) input input
        else Hangs Python.strCli v roomRight roomLeft (interruptions v) input := by
  constructor
  · intro input hinput hroom
    have hsmooth := smooth_strCli (v := v) hright hleft hroom hinput
    split_ifs with hends
    · exact hsmooth.session ((allFull_strCli hinput).2 hends) fun stdout rest => printed_strCli hinput
    · apply hsmooth.hanging fun hall => hends ((allFull_strCli hinput).1 hall)
      exact fun stdout i line rest => last_strCli hinput
  · intro text input hroom
    have hsmooth := smooth_python (v := v) hright hleft hroom
    split_ifs with hends
    · exact hsmooth.session (allFull_python.2 hends) fun stdout rest => printed_python
    · exact hsmooth.hanging (fun hall => hends (allFull_python.1 hall)) fun stdout i line rest => last_python

/-- A line of the client in C, and one without its newline of the client in Python. -/
theorem echo_session_ends_hi :
    Completes C.strCli .c 1024 1024 (interruptions .c) [104, 105, 10] [104, 105, 10] ∧
      Hangs Python.strCli .c 1024 1024 (interruptions .c) [104, 105] := by
  constructor
  · have h := (@echo_session_ends .c 1024 1024 (by decide) (by decide)).1 [104, 105, 10] (by decide) (by decide)
    rwa [if_pos (by decide)] at h
  · have h := (@echo_session_ends .c 1024 1024 (by decide) (by decide)).2 [104, 105]
      fun line hinfix _ => hinfix.length_le.trans (by decide)
    rwa [if_neg (by decide)] at h

end NetProg
