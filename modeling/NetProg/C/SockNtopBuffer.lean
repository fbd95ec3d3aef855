import NetProg.C.SockNtop
import NetProg.C.Strings
import NetProg.System.InternetText

/-!
# The buffer of `sock_ntop`

`sock_ntop` of `lib/c/sock_ntop.c` puts its text together in a static array, the port by way of an array of
the stack, and returns a pointer into the first one, which is not always to its start. Nothing is written or
read outside of the two arrays, and the string at the pointer is the one that `sockNtop` says, whatever the
arrays held before (`sockNtopText_eq`).
-/

namespace NetProg.C
open Lib Sockaddr

/-- `sizeof(str)`. -/
def sizeofStr : ℕ := 128

/-- `sizeof(portstr)`. -/
def sizeofPortstr : ℕ := 8

/-- `inet_ntop(af, src, array + start, size)`: the array afterwards, or `none` in it for `NULL`. -/
def inetNtop (array : Bytes) (start size : ℕ) (text : Bytes) : Option (Option Bytes) :=
  if size < text.length + 1 then some none else (put array start (text ++ [0])).map some

/-- `snprintf(portstr, sizeof(portstr), …)` and `strcat(str, portstr)`. -/
def appendPort (str portstr text : Bytes) : Option Bytes := do
  let portstr ← snprintf portstr 0 sizeofPortstr text
  strcat str 0 (← string portstr 0)

/-- `sock_ntop(addr, addrlen)`: `str` afterwards and the offset in it of the pointer returned, or `none` in
it for `NULL`. -/
def sockNtopPtr (e : Endian) (ntop : InetNtop) (str portstr addr : Bytes) (addrlen : ℕ) :
    Option (Option (Bytes × ℕ)) := do
  let sa_family ← saFamily e addr
  if sa_family = AF_INET then
    let sin_addr ← field addr 4 4
    let some str ← inetNtop str 0 sizeofStr (ntop.text sin_addr) | return none
    let sin_port ← field addr 2 2
    if ofBe sin_port ≠ 0 then
      let str ← appendPort str portstr (ascii ":" ++ intText (ofBe sin_port))
      return some (str, 0)
    else return some (str, 0)
  else if sa_family = AF_INET6 then
    let str ← put str 0 (ascii "[")
    let sin6_addr ← field addr 8 16
    let some str ← inetNtop str 1 (sizeofStr - 1) (ntop.text sin6_addr) | return none
    let sin6_port ← field addr 2 2
    if ofBe sin6_port ≠ 0 then
      let str ← appendPort str portstr (ascii "]:" ++ intText (ofBe sin6_port))
      return some (str, 0)
    else return some (str, 1)
  else if sa_family = AF_UNIX then
    let c ← addr[2]?
    if c = 0 then
      let str ← strcpy str 0 (ascii "(no pathname bound)")
      return some (str, 0)
    else
      let sun_path ← string addr 2
      let str ← snprintf str 0 sizeofStr sun_path
      return some (str, 0)
  else
    let str ← snprintf str 0 sizeofStr (ascii "sock_ntop: unknown AF_xxx: " ++ intText sa_family ++
      (ascii ", len " ++ intText (toInt addrlen)))
    return some (str, 0)

/-- The string at the pointer that `Sock_ntop` returns. -/
def sockNtopText (e : Endian) (ntop : InetNtop) (str portstr addr : Bytes) (addrlen : ℕ) :
    Option (Option Bytes) := do
  let some (str, ptr) ← sockNtopPtr e ntop str portstr addr addrlen | return none
  (string str ptr).map some

/-! ### The texts -/

section

variable {str portstr text s : Bytes} {start : ℕ}

theorem inetNtop_append {size : ℕ} (hs : 0 ∉ s) (hlies : s <+: str.drop start) (htext : 0 ∉ text)
    (hsize : text.length < size) (hfits : start + s.length + size ≤ str.length) :
    ∃ str', inetNtop str (start + s.length) size text = some (some str') ∧ str'.length = str.length ∧
      StringAt 0 str' start (s ++ text) := by
  obtain ⟨str', hput⟩ : ∃ str', put str (start + s.length) (text ++ [0]) = some str' := by
    apply exists_put
    rw [List.length_append, List.length_singleton]
    omega
  refine ⟨str', ?_, length_put hput, ?_⟩
  · rw [inetNtop, if_neg (by omega), hput]
    rfl
  · have hstring := StringAt.of_put hs hlies hput
    rwa [show text.takeWhile (· ≠ 0) = text from cString_eq_self htext] at hstring

theorem appendPort_eq (hstr : StringAt 0 str 0 s) (hportstr : portstr.length = sizeofPortstr) (htext : 0 ∉ text)
    (hlen : text.length < sizeofPortstr) (hfits : s.length + text.length < str.length) :
    ∃ str', appendPort str portstr text = some str' ∧ StringAt 0 str' 0 (s ++ text) := by
  obtain ⟨portstr', hprint, -, hport⟩ := snprintf_start 0 text (show 0 < sizeofPortstr by decide)
    (show 0 + sizeofPortstr ≤ portstr.length by omega)
  rw [cString_eq_self htext, List.take_of_length_le (by omega)] at hport
  obtain ⟨str', hcat, -, hstring⟩ := strcat_append text hstr (by
    rw [cString_eq_self htext]
    omega)
  rw [cString_eq_self htext] at hstring
  refine ⟨str', ?_, hstring⟩
  simp only [appendPort, hprint, string_eq hport, Option.bind_eq_bind, Option.bind_some, hcat]

end

/-! ### The numbers in them -/

theorem zero_notMem_intText (z : ℤ) : 0 ∉ intText z := by
  have hdigits := notMem_decimalText (c := 0) (.inl (by decide)) z.natAbs
  unfold intText
  split
  · exact fun hmem => (List.mem_cons.1 hmem).elim (by decide) hdigits
  · exact hdigits

theorem length_intText_le {z : ℤ} {k : ℕ} (hk : 0 < k) (h : z.natAbs < 10 ^ k) : (intText z).length ≤ k + 1 := by
  have hle := length_decimalText_le hk h
  unfold intText
  split
  · rw [List.length_cons]
    omega
  · omega

theorem length_port_le {port : Bytes} (h : port.length = 2) : (intText (ofBe port)).length ≤ 5 := by
  rw [intText_natCast]
  apply length_decimalText_le (by decide)
  match port, h with
  | [a, b], _ =>
    have ha := a.toNat_lt
    have hb := b.toNat_lt
    simp only [ofBe, List.foldl_cons, List.foldl_nil]
    omega

theorem natAbs_toInt_le (z : ℤ) : (toInt z).natAbs ≤ 2 ^ 31 := by
  rw [toInt, Int.bmod_def]
  split <;> omega

theorem saFamily_lt {e : Endian} {addr : Bytes} {family : ℕ} (h : saFamily e addr = some family) :
    family < 2 ^ 16 := by
  obtain ⟨b0, -, h⟩ := Option.bind_eq_some_iff.1 h
  obtain ⟨b1, -, rfl⟩ := Option.map_eq_some_iff.1 h
  have h0 := b0.toNat_lt
  have h1 := b1.toNat_lt
  cases e <;> simp only [load16] <;> omega

/-! ### The families -/

section

variable {ntop : InetNtop} {e : Endian} {str portstr addr s before : Bytes} {addrlen : ℕ}

theorem appendPort_port (hstring : StringAt 0 str 0 s) (hstr : str.length = sizeofStr)
    (hportstr : portstr.length = sizeofPortstr) (hs : s.length ≤ 46) (hbefore : 0 ∉ before)
    (hshort : before.length ≤ 2) {port : Bytes} (hport : port.length = 2) :
    ∃ str', appendPort str portstr (before ++ intText (ofBe port)) = some str' ∧
      StringAt 0 str' 0 (s ++ (before ++ intText (ofBe port))) := by
  have hle := length_port_le hport
  have hlen : (before ++ intText (ofBe port)).length ≤ 7 := by
    rw [List.length_append]
    omega
  have htext : 0 ∉ before ++ intText (ofBe port) := by
    rw [List.mem_append, not_or]
    exact ⟨hbefore, zero_notMem_intText _⟩
  apply appendPort_eq hstring hportstr htext
  · exact Nat.lt_of_le_of_lt hlen (by decide)
  · rw [hstr, sizeofStr]
    omega

theorem sockNtopText_inet (hntop : ntop.Standard) (hstr : str.length = sizeofStr)
    (hportstr : portstr.length = sizeofPortstr) (hfamily : saFamily e addr = some AF_INET) :
    sockNtopText e ntop str portstr addr addrlen = (sockNtop e ntop addr addrlen).map some := by
  unfold sockNtopText sockNtopPtr sockNtop
  simp only [hfamily, Option.bind_some, bind, if_true]
  cases hfield : field addr 4 4 with
  | none => rfl
  | some sin_addr =>
    have haddr := length_of_field hfield
    have hlen := hntop.inet_length sin_addr haddr
    have htext : 0 ∉ ntop.text sin_addr := fun hmem => by simpa using hntop.inet_chars sin_addr haddr 0 hmem
    have hfits : (ntop.text sin_addr).length < sizeofStr := hlen.trans (by decide)
    obtain ⟨str', hprint, hlen', hstring⟩ :=
      inetNtop_append List.not_mem_nil List.nil_prefix htext hfits (show 0 + 0 + sizeofStr ≤ str.length by omega)
    rw [List.length_nil, Nat.zero_add] at hprint
    rw [List.nil_append] at hstring
    simp only [Option.bind_some, hprint]
    cases hport : field addr 2 2 with
    | none => rfl
    | some port =>
      simp only [Option.bind_some]
      split_ifs
      · obtain ⟨str'', happend, hstring'⟩ := appendPort_port hstring (hlen'.trans hstr) hportstr
          (hlen.le.trans (by decide)) (show 0 ∉ ascii ":" by decide) (by decide) (length_of_field hport)
        rw [happend]
        exact congrArg (Option.map some) (string_eq hstring')
      · exact congrArg (Option.map some) (string_eq hstring)

theorem sockNtopText_inet6 (hntop : ntop.Standard) (hstr : str.length = sizeofStr)
    (hportstr : portstr.length = sizeofPortstr) (hfamily : saFamily e addr = some AF_INET6) :
    sockNtopText e ntop str portstr addr addrlen = (sockNtop e ntop addr addrlen).map some := by
  unfold sockNtopText sockNtopPtr sockNtop
  simp only [hfamily, Option.bind_some, bind, if_neg (show ¬ AF_INET6 = AF_INET by decide), if_true]
  obtain ⟨str₀, hput⟩ : ∃ str₀, put str 0 (ascii "[") = some str₀ := by
    apply exists_put
    rw [hstr]
    decide
  rw [hput, Option.bind_some]
  cases hfield : field addr 8 16 with
  | none => rfl
  | some sin6_addr =>
    have haddr := length_of_field hfield
    have hlen := hntop.inet6_length sin6_addr haddr
    have hfits : (ntop.text sin6_addr).length < sizeofStr - 1 := hlen.trans (by decide)
    have hroom : 0 + (ascii "[").length + (sizeofStr - 1) ≤ str₀.length := by
      rw [length_put hput, hstr]
      decide
    obtain ⟨str', hprint, hlen', hstring⟩ := inetNtop_append (show 0 ∉ ascii "[" by decide) (take_put hput).2
      (hntop.inet6_chars sin6_addr haddr).2.2 hfits hroom
    have hstr' : str'.length = sizeofStr := hlen'.trans ((length_put hput).trans hstr)
    rw [show 0 + (ascii "[").length = 1 from rfl] at hprint
    simp only [Option.bind_some, hprint]
    cases hport : field addr 2 2 with
    | none => rfl
    | some port =>
      simp only [Option.bind_some]
      split_ifs
      · have hle : (ascii "[" ++ ntop.text sin6_addr).length ≤ 46 := by
          rw [List.length_append, show (ascii "[").length = 1 from rfl]
          omega
        obtain ⟨str'', happend, hstring'⟩ := appendPort_port hstring hstr' hportstr hle
          (show 0 ∉ ascii "]:" by decide) (by decide) (length_of_field hport)
        rw [happend]
        exact congrArg (Option.map some) (string_eq hstring')
      · exact congrArg (Option.map some) (string_eq hstring.suffix)

theorem snprintf_string {text : Bytes} (hstr : str.length = sizeofStr) (htext : 0 ∉ text) :
    ∃ str', snprintf str 0 sizeofStr text = some str' ∧ string str' 0 = some (text.take 127) := by
  obtain ⟨str', hprint, -, hstring⟩ := snprintf_start 0 text (show 0 < sizeofStr by decide)
    (show 0 + sizeofStr ≤ str.length by omega)
  rw [cString_eq_self htext] at hstring
  exact ⟨str', hprint, string_eq hstring⟩

theorem sockNtopText_unix (hstr : str.length = sizeofStr) (hfamily : saFamily e addr = some AF_UNIX) :
    sockNtopText e ntop str portstr addr addrlen = (sockNtop e ntop addr addrlen).map some := by
  unfold sockNtopText sockNtopPtr sockNtop
  simp only [hfamily, Option.bind_some, bind, if_neg (show ¬ AF_UNIX = AF_INET by decide),
    if_neg (show ¬ AF_UNIX = AF_INET6 by decide), if_true]
  cases hchar : addr[2]? with
  | none => rfl
  | some c =>
    simp only [Option.bind_some]
    split_ifs
    · have hnone : cString (ascii "(no pathname bound)") = ascii "(no pathname bound)" := by decide
      obtain ⟨str', hput⟩ : ∃ str', put str 0 (ascii "(no pathname bound)" ++ [0]) = some str' := by
        apply exists_put
        rw [hstr]
        decide
      have hstring := StringAt.of_put (s := []) List.not_mem_nil List.nil_prefix hput
      rw [show (ascii "(no pathname bound)").takeWhile (· ≠ 0) = ascii "(no pathname bound)" from hnone] at hstring
      rw [strcpy, hnone, hput]
      exact congrArg (Option.map some) (string_eq hstring)
    · cases hpath : string addr 2 with
      | none => rfl
      | some sun_path =>
        have hnul : 0 ∉ sun_path := by
          unfold string at hpath
          split at hpath
          · cases hpath
            exact notMem_cString _
          · cases hpath
        obtain ⟨str', hprint, hstring⟩ := snprintf_string hstr hnul
        rw [Option.bind_some, hprint]
        exact congrArg (Option.map some) hstring

theorem sockNtopText_other {family : ℕ} (hstr : str.length = sizeofStr) (hfamily : saFamily e addr = some family)
    (hinet : family ≠ AF_INET) (hinet6 : family ≠ AF_INET6) (hunix : family ≠ AF_UNIX) :
    sockNtopText e ntop str portstr addr addrlen = (sockNtop e ntop addr addrlen).map some := by
  unfold sockNtopText sockNtopPtr sockNtop
  simp only [hfamily, Option.bind_some, bind, if_neg hinet, if_neg hinet6, if_neg hunix]
  have hfamily' : (intText family).length ≤ 5 + 1 :=
    length_intText_le (by decide) ((Int.natAbs_natCast family).trans_lt ((saFamily_lt hfamily).trans (by decide)))
  have haddrlen : (intText (toInt addrlen)).length ≤ 10 + 1 :=
    length_intText_le (by decide) ((natAbs_toInt_le addrlen).trans_lt (by decide))
  have hshort : (ascii "sock_ntop: unknown AF_xxx: " ++ intText family ++
      (ascii ", len " ++ intText (toInt addrlen))).length ≤ 127 := by
    simp only [List.length_append, length_ascii]
    rw [show "sock_ntop: unknown AF_xxx: ".length = 27 from rfl, show ", len ".length = 6 from rfl]
    omega
  have hnul : 0 ∉ ascii "sock_ntop: unknown AF_xxx: " ++ intText family ++
      (ascii ", len " ++ intText (toInt addrlen)) := by
    simp only [List.mem_append, not_or]
    exact ⟨⟨by decide, zero_notMem_intText _⟩, by decide, zero_notMem_intText _⟩
  obtain ⟨str', hprint, hstring⟩ := snprintf_string hstr hnul
  rw [List.take_of_length_le hshort] at hstring
  rw [hprint]
  exact congrArg (Option.map some) hstring

/-- Whatever the arrays hold, the string at the pointer is the text of the address. -/
theorem sockNtopText_eq (hntop : ntop.Standard) (hstr : str.length = sizeofStr)
    (hportstr : portstr.length = sizeofPortstr) (addrlen : ℕ) :
    sockNtopText e ntop str portstr addr addrlen = (sockNtop e ntop addr addrlen).map some := by
  cases hfamily : saFamily e addr with
  | none => simp [sockNtopText, sockNtopPtr, sockNtop, hfamily]
  | some family =>
    by_cases hinet : family = AF_INET
    · exact sockNtopText_inet hntop hstr hportstr (hinet ▸ hfamily)
    by_cases hinet6 : family = AF_INET6
    · exact sockNtopText_inet6 hntop hstr hportstr (hinet6 ▸ hfamily)
    by_cases hunix : family = AF_UNIX
    · exact sockNtopText_unix hstr (hunix ▸ hfamily)
    · exact sockNtopText_other hstr hfamily hinet hinet6 hunix

end

end NetProg.C
