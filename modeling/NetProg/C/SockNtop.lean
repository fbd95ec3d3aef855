import NetProg.System.InternetText

/-!
# `sock_ntop` of the C library

The printer of socket addresses in `lib/c/sock_ntop.c`, which has `addrlen` only to print it for a family it
does not know. `sockNtop_eq`: it prints what `Sockaddr.address` reads, one text for each address. So what it
prints is determined by the bytes that the kernel supplied exactly if these cover the fields of their family
(`determined_iff`).
-/

namespace NetProg.C
open Sockaddr

/-- `sock_ntop(addr, addrlen)`: the string at the pointer it returns. `inet_ntop` has room enough in `str` and
does not fail for the two families. -/
def sockNtop (e : Endian) (ntop : InetNtop) (addr : Bytes) (addrlen : ℕ) : Option Bytes := do
  let sa_family ← saFamily e addr
  if sa_family = AF_INET then
    let sin_addr ← field addr 4 4
    let sin_port ← field addr 2 2
    let str := ntop.text sin_addr
    if ofBe sin_port ≠ 0 then return str ++ (ascii ":" ++ intText (ofBe sin_port))
    else return str
  else if sa_family = AF_INET6 then
    let sin6_addr ← field addr 8 16
    let sin6_port ← field addr 2 2
    let str := ascii "[" ++ ntop.text sin6_addr
    if ofBe sin6_port ≠ 0 then return str ++ (ascii "]:" ++ intText (ofBe sin6_port))
    else return str.drop 1
  else if sa_family = AF_UNIX then
    let c ← addr[2]?
    if c = 0 then return ascii "(no pathname bound)"
    else
      let sun_path ← string addr 2
      return sun_path.take 127
  else
    return ascii "sock_ntop: unknown AF_xxx: " ++ intText sa_family ++
      (ascii ", len " ++ intText (toInt addrlen))

/-- The text of an address. -/
def shown (ntop : InetNtop) (addrlen : ℕ) : Address → Bytes
  | .inet a port => if port ≠ 0 then ntop.text a ++ (ascii ":" ++ intText port) else ntop.text a
  | .inet6 a port =>
    if port ≠ 0 then ascii "[" ++ ntop.text a ++ (ascii "]:" ++ intText port) else ntop.text a
  | .unix path => if path = [] then ascii "(no pathname bound)" else path.take 127
  | .other family =>
    ascii "sock_ntop: unknown AF_xxx: " ++ intText family ++ (ascii ", len " ++ intText (toInt addrlen))

theorem sockNtop_eq (e : Endian) (ntop : InetNtop) (addr : Bytes) (addrlen : ℕ) :
    sockNtop e ntop addr addrlen = (address e addr).map (shown ntop addrlen) := by
  unfold sockNtop address
  cases saFamily e addr with
  | none => rfl
  | some family =>
    simp only [Option.bind_some, bind]
    split_ifs with hinet hinet6 hunix
    · cases field addr 4 4 <;> cases field addr 2 2 <;> simp [shown]
      split_ifs <;> rfl
    · cases field addr 8 16 <;> cases field addr 2 2 <;> simp [shown]
      split_ifs <;> rfl
    · rcases string_cases addr 2 with ⟨hchar, hstring⟩ | ⟨hchar, hstring⟩ | ⟨c, hc, hchar, hstring⟩
      · rw [hchar, hstring]
        rfl
      · rw [hchar, hstring]
        rfl
      · rw [hchar, Option.bind_some, if_neg hc]
        cases hpath : string addr 2 with
        | none => rfl
        | some path =>
          have hne : path ≠ [] := fun hnil => hstring (by rw [hpath, hnil])
          simp [shown, hne]
    · rfl

theorem intText_natCast (n : ℕ) : intText n = decimalText n := by
  rw [intText, if_neg (by omega), Int.natAbs_natCast]

/-- The text is that of the supplied bytes exactly if they cover the fields. -/
theorem determined_iff (e : Endian) (ntop : InetNtop) (addrlen : ℕ) (addr : Bytes) :
    Determined (fun addr => sockNtop e ntop addr addrlen) addrlen addr ↔ Covers e (addr.take addrlen) := by
  simp only [sockNtop_eq]
  apply Sockaddr.determined_iff
  · intro port a a' hlen h
    apply ntop.text_injective a a' hlen
    simp only [shown] at h
    split at h
    · exact List.append_cancel_right h
    · exact h
  · intro port a a' hlen h
    apply ntop.text_injective a a' hlen
    simp only [shown] at h
    split at h
    · exact List.append_cancel_left (List.append_cancel_right h)
    · exact h
  · intro f f' h
    simp only [shown, intText_natCast] at h
    exact decimalText_injective (List.append_cancel_left (List.append_cancel_right h))

/-! ### Internet addresses -/

section

variable {ntop : InetNtop} {a a' : Bytes} {port port' len len' : ℕ}

/-- A colon and a port, if there is one. -/
def colonPort (port : ℕ) : Bytes := if port ≠ 0 then 58 :: decimalText port else []

theorem shown_inet : shown ntop len (.inet a port) = ntop.text a ++ colonPort port := by
  simp only [shown, colonPort, intText_natCast]
  split_ifs
  · rfl
  · rw [List.append_nil]

theorem shown_inet6_of_ne_zero (hport : port ≠ 0) :
    shown ntop len (.inet6 a port) = 91 :: (ntop.text a ++ 93 :: colonPort port) := by
  simp only [shown, colonPort, intText_natCast, if_pos hport]
  simp [ascii]

theorem colonPort_injective (h : colonPort port = colonPort port') : port = port' := by
  unfold colonPort at h
  split_ifs at h with hport hport' hport'
  · exact decimalText_injective (List.cons.inj h).2
  · exact (not_not.1 hport).trans (not_not.1 hport').symm

theorem append_colonPort_inj {s s' : Bytes} (hs : 58 ∉ s) (hs' : 58 ∉ s')
    (h : s ++ colonPort port = s' ++ colonPort port') : s = s' ∧ colonPort port = colonPort port' := by
  have htake : ∀ {s : Bytes} {port : ℕ}, 58 ∉ s → (s ++ colonPort port).takeWhile (· ≠ 58) = s := by
    intro s port hs
    unfold colonPort
    split_ifs
    · exact (Lib.takeWhile_ne_append hs _).1
    · rw [List.append_nil]
      exact List.takeWhile_eq_self_iff.2 fun b hb => by simpa using ne_of_mem_of_not_mem hb hs
  have hsame : s = s' := (htake hs).symm.trans ((congrArg _ h).trans (htake hs'))
  exact ⟨hsame, List.append_cancel_left (hsame ▸ h)⟩

theorem mem_colonPort {c : UInt8} (h : c ∈ colonPort port) : c = 58 ∨ 48 ≤ c.toNat ∧ c.toNat ≤ 57 := by
  unfold colonPort at h
  split_ifs at h
  · exact (List.mem_cons.1 h).imp_right mem_decimalText
  · cases h

theorem count_colonPort_le (port : ℕ) : (colonPort port).count 58 ≤ 1 := by
  unfold colonPort
  split_ifs
  · rw [List.count_cons_self, List.count_eq_zero.2 (notMem_decimalText (.inr (by decide)) port)]
  · exact Nat.zero_le 1

theorem colon_notMem (h : ntop.Standard) (ha : a.length = 4) : 58 ∉ ntop.text a :=
  fun hmem => by simpa using h.inet_chars a ha 58 hmem

theorem shown_inet_chars (len port : ℕ) (h : ntop.Standard) (ha : a.length = 4) :
    91 ∉ shown ntop len (.inet a port) ∧ (shown ntop len (.inet a port)).count 58 ≤ 1 := by
  rw [shown_inet, List.mem_append, not_or, List.count_append, List.count_eq_zero.2 (colon_notMem h ha)]
  refine ⟨⟨fun hmem => ?_, fun hmem => ?_⟩, ?_⟩
  · simpa using h.inet_chars a ha 91 hmem
  · simpa using mem_colonPort hmem
  · rw [Nat.zero_add]
    exact count_colonPort_le port

theorem inet_ne_inet6 (h : ntop.Standard) (ha : a.length = 4) (ha' : a'.length = 16) :
    shown ntop len (.inet a port) ≠ shown ntop len' (.inet6 a' port') := by
  intro heq
  obtain ⟨hbracket, hcount⟩ := shown_inet_chars len port h ha
  rw [heq] at hbracket hcount
  by_cases hport : port' = 0
  · have hcolons := h.inet6_colons a' ha'
    have htext : shown ntop len' (.inet6 a' port') = ntop.text a' := if_neg (not_not.2 hport)
    rw [htext] at hcount
    omega
  · rw [shown_inet6_of_ne_zero hport] at hbracket
    exact hbracket List.mem_cons_self

theorem inet6_injective (h : ntop.Standard) (ha : a.length = 16) (ha' : a'.length = 16)
    (heq : shown ntop len (.inet6 a port) = shown ntop len' (.inet6 a' port')) : a = a' ∧ port = port' := by
  have hopen : ∀ {a : Bytes} {len : ℕ}, shown ntop len (.inet6 a 0) = ntop.text a := rfl
  by_cases hport : port = 0 <;> by_cases hport' : port' = 0
  · subst hport hport'
    exact ⟨ntop.text_injective a a' (ha.trans ha'.symm) heq, rfl⟩
  · subst hport
    rw [hopen, shown_inet6_of_ne_zero hport'] at heq
    exact absurd (by rw [heq]; exact List.mem_cons_self) (h.inet6_chars a ha).1
  · subst hport'
    rw [hopen, shown_inet6_of_ne_zero hport] at heq
    exact absurd (by rw [← heq]; exact List.mem_cons_self) (h.inet6_chars a' ha').1
  · rw [shown_inet6_of_ne_zero hport, shown_inet6_of_ne_zero hport'] at heq
    have hrest := (List.cons.inj heq).2
    have hclose := Lib.takeWhile_ne_append (h.inet6_chars a ha).2.1 (colonPort port)
    have hclose' := Lib.takeWhile_ne_append (h.inet6_chars a' ha').2.1 (colonPort port')
    have htext := hclose.1.symm.trans ((congrArg _ hrest).trans hclose'.1)
    have hports := hclose.2.symm.trans ((congrArg _ hrest).trans hclose'.2)
    exact ⟨ntop.text_injective a a' (ha.trans ha'.symm) htext, colonPort_injective (List.cons.inj hports).2⟩

/-- An internet address can be told from its text. -/
theorem shown_injective (h : ntop.Standard) {A A' : Address} (hA : A.Internet) (hA' : A'.Internet)
    (heq : shown ntop len A = shown ntop len' A') : A = A' := by
  cases A with
  | inet a port =>
    cases A' with
    | inet a' port' =>
      rw [shown_inet, shown_inet] at heq
      obtain ⟨htext, hports⟩ := append_colonPort_inj (colon_notMem h hA) (colon_notMem h hA') heq
      rw [ntop.text_injective a a' (hA.trans hA'.symm) htext, colonPort_injective hports]
    | inet6 a' port' => exact absurd heq (inet_ne_inet6 h hA hA')
    | unix | other => exact absurd hA' not_false
  | inet6 a port =>
    cases A' with
    | inet a' port' => exact absurd heq.symm (inet_ne_inet6 h hA' hA)
    | inet6 a' port' =>
      obtain ⟨rfl, rfl⟩ := inet6_injective h hA hA' heq
      rfl
    | unix | other => exact absurd hA' not_false
  | unix | other => exact absurd hA not_false

end

end NetProg.C
