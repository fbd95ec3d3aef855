import NetProg.System.Sockaddr

/-!
# Texts of internet addresses

What is known of the texts that `inet_ntop` prints (`Standard`), and a function that prints such texts
(`InetNtop.groups`): four numbers with dots, or eight groups of four hexadecimal digits with colons, which
is what `inet_ntop` prints when no group starts with a zero.
-/

namespace NetProg
open Sockaddr

/-- The sizes of the two texts with their terminators are `INET_ADDRSTRLEN` and `INET6_ADDRSTRLEN` at most. -/
structure InetNtop.Standard (ntop : InetNtop) : Prop where
  inet_length : ∀ a, a.length = 4 → (ntop.text a).length < 16
  inet_chars : ∀ a, a.length = 4 → ∀ c ∈ ntop.text a, c = 46 ∨ 48 ≤ c.toNat ∧ c.toNat ≤ 57
  inet6_length : ∀ a, a.length = 16 → (ntop.text a).length < 46
  inet6_colons : ∀ a, a.length = 16 → 2 ≤ (ntop.text a).count 58
  inet6_chars : ∀ a, a.length = 16 → 91 ∉ ntop.text a ∧ 93 ∉ ntop.text a ∧ 0 ∉ ntop.text a

/-- An address of one of the internet families, with as many bytes as it has there. -/
def Sockaddr.Address.Internet : Address → Prop
  | .inet sin_addr _ => sin_addr.length = 4
  | .inet6 sin6_addr _ => sin6_addr.length = 16
  | _ => False

theorem length_of_field {addr bytes : Bytes} {start size : ℕ} (h : field addr start size = some bytes) :
    bytes.length = size := by
  unfold field at h
  split at h
  · cases h
    exact List.length_take_of_le (by rw [List.length_drop]; omega)
  · cases h

theorem internet_of_address {e : Endian} {addr : Bytes} {a : Address}
    (hfamily : saFamily e addr = some AF_INET ∨ saFamily e addr = some AF_INET6)
    (h : address e addr = some a) : a.Internet := by
  rcases hfamily with hfamily | hfamily
  · rw [address, hfamily, Option.bind_some, if_pos rfl] at h
    obtain ⟨sin_addr, hfield, hport⟩ := Option.bind_eq_some_iff.1 h
    obtain ⟨port, -, rfl⟩ := Option.map_eq_some_iff.1 hport
    exact length_of_field hfield
  · rw [address, hfamily, Option.bind_some, if_neg (by decide), if_pos rfl] at h
    obtain ⟨sin6_addr, hfield, hport⟩ := Option.bind_eq_some_iff.1 h
    obtain ⟨port, -, rfl⟩ := Option.map_eq_some_iff.1 hport
    exact length_of_field hfield

/-! ### Groups of digits -/

/-- A hexadecimal digit. -/
def hexDigit (d : ℕ) : UInt8 := UInt8.ofNat (if d < 10 then 48 + d else 87 + d)

def hexText (b : UInt8) : Bytes := [hexDigit (b.toNat / 16), hexDigit (b.toNat % 16)]

/-- Two bytes and a colon, again and again. -/
def groupsText : Bytes → Bytes
  | b :: b' :: a => hexText b ++ (hexText b' ++ 58 :: groupsText a)
  | _ => []

theorem hexDigit_injective {d d' : ℕ} (hd : d < 16) (hd' : d' < 16) (h : hexDigit d = hexDigit d') : d = d' := by
  have hvalue := congrArg UInt8.toNat h
  rw [hexDigit, hexDigit, UInt8.toNat_ofNat', UInt8.toNat_ofNat'] at hvalue
  split at hvalue <;> split at hvalue <;> omega

theorem hexText_injective {b b' : UInt8} (h : hexText b = hexText b') : b = b' := by
  have hlt := b.toNat_lt
  have hlt' := b'.toNat_lt
  obtain ⟨hhigh, hlow⟩ : hexDigit (b.toNat / 16) = hexDigit (b'.toNat / 16) ∧
      hexDigit (b.toNat % 16) = hexDigit (b'.toNat % 16) := by simpa [hexText] using h
  have hdiv := hexDigit_injective (by omega) (by omega) hhigh
  have hmod := hexDigit_injective (by omega) (by omega) hlow
  apply UInt8.toNat_inj.1
  omega

theorem mem_hexText {b c : UInt8} (h : c ∈ hexText b) :
    48 ≤ c.toNat ∧ c.toNat ≤ 57 ∨ 97 ≤ c.toNat ∧ c.toNat ≤ 102 := by
  have hlt := b.toNat_lt
  obtain ⟨d, hd, rfl⟩ : ∃ d < 16, c = hexDigit d := by
    rcases List.mem_cons.1 h with rfl | hlow
    · exact ⟨b.toNat / 16, by omega, rfl⟩
    · exact ⟨b.toNat % 16, by omega, List.mem_singleton.1 hlow⟩
  rw [hexDigit, UInt8.toNat_ofNat']
  split <;> omega

theorem mem_groupsText {a : Bytes} {c : UInt8} (h : c ∈ groupsText a) :
    c = 58 ∨ 48 ≤ c.toNat ∧ c.toNat ≤ 57 ∨ 97 ≤ c.toNat ∧ c.toNat ≤ 102 := by
  induction a using groupsText.induct with
  | case1 b b' a ih =>
    simp only [groupsText, List.mem_append, List.mem_cons] at h
    rcases h with hfirst | hsecond | hcolon | hrest
    · exact .inr (mem_hexText hfirst)
    · exact .inr (mem_hexText hsecond)
    · exact .inl hcolon
    · exact ih hrest
  | case2 a hshort =>
    rw [groupsText] at h
    · cases h
    · exact hshort

section

variable {a b : Bytes} {n : ℕ}

theorem exists_group (h : a.length = 2 * (n + 1)) :
    ∃ b b' rest, a = b :: b' :: rest ∧ rest.length = 2 * n := by
  rcases a with _ | ⟨b, _ | ⟨b', rest⟩⟩
  · simp at h
  · simp at h
    omega
  · refine ⟨b, b', rest, rfl, ?_⟩
    simp only [List.length_cons] at h
    omega

theorem length_groupsText (h : a.length = 2 * n) : (groupsText a).length = 5 * n := by
  induction n generalizing a with
  | zero =>
    rw [List.eq_nil_of_length_eq_zero h]
    rfl
  | succ n ih =>
    obtain ⟨b, b', rest, rfl, hrest⟩ := exists_group h
    simp only [groupsText, hexText, List.length_append, List.length_cons, List.length_nil, ih hrest]
    omega

theorem count_groupsText (h : a.length = 2 * n) : (groupsText a).count 58 = n := by
  have hhex : ∀ b, (hexText b).count 58 = 0 := by
    intro b
    apply List.count_eq_zero.2
    intro hmem
    have hdigit := mem_hexText hmem
    simp at hdigit
  induction n generalizing a with
  | zero =>
    rw [List.eq_nil_of_length_eq_zero h]
    rfl
  | succ n ih =>
    obtain ⟨b, b', rest, rfl, hrest⟩ := exists_group h
    simp [groupsText, hhex, ih hrest]

theorem groupsText_injective (ha : a.length = 2 * n) (hb : b.length = 2 * n)
    (h : groupsText a = groupsText b) : a = b := by
  induction n generalizing a b with
  | zero => rw [List.eq_nil_of_length_eq_zero ha, List.eq_nil_of_length_eq_zero hb]
  | succ n ih =>
    obtain ⟨c, c', rest, rfl, hrest⟩ := exists_group ha
    obtain ⟨d, d', rest', rfl, hrest'⟩ := exists_group hb
    rw [groupsText, groupsText] at h
    obtain ⟨hfirst, h⟩ := List.append_inj h rfl
    obtain ⟨hsecond, h⟩ := List.append_inj h rfl
    rw [hexText_injective hfirst, hexText_injective hsecond, ih hrest hrest' (List.cons.inj h).2]

end

theorem groupsText_dropLast {a : Bytes} (h : a.length = 16) :
    groupsText a = (groupsText a).dropLast ++ [58] ∧ (groupsText a).dropLast.length = 39 ∧
      (groupsText a).dropLast.count 58 = 7 := by
  have hlast : ∀ n a, a.length = 2 * (n + 1) → (groupsText a).getLast? = some 58 := by
    intro n
    induction n with
    | zero =>
      intro a h
      obtain ⟨b, b', rest, rfl, hrest⟩ := exists_group h
      rw [List.eq_nil_of_length_eq_zero hrest]
      simp [groupsText]
    | succ n ih =>
      intro a h
      obtain ⟨b, b', rest, rfl, hrest⟩ := exists_group h
      rw [groupsText, List.getLast?_append, List.getLast?_append, List.getLast?_cons, ih rest hrest]
      rfl
  have hsplit := List.dropLast_append_getLast? 58 (hlast 7 a h)
  have hlen := congrArg List.length hsplit
  have hcount := congrArg (List.count 58) hsplit
  rw [List.length_append, List.length_singleton, length_groupsText (n := 8) h] at hlen
  rw [List.count_append, List.count_singleton_self, count_groupsText (n := 8) h] at hcount
  exact ⟨hsplit.symm, by omega, by omega⟩

/-- Groups for sixteen bytes, and dots for others. -/
def internetText (a : Bytes) : Bytes := if a.length = 16 then (groupsText a).dropLast else dottedText a

theorem internetText_ne_nil (a : Bytes) : internetText a ≠ [] := by
  unfold internetText
  split_ifs with h
  · apply List.ne_nil_of_length_pos
    rw [(groupsText_dropLast h).2.1]
    decide
  · exact dottedText_ne_nil a

theorem internetText_injective {a b : Bytes} (hlen : a.length = b.length) (h : internetText a = internetText b) :
    a = b := by
  by_cases ha : a.length = 16
  · have hb : b.length = 16 := hlen ▸ ha
    rw [internetText, internetText, if_pos ha, if_pos hb] at h
    apply groupsText_injective (n := 8) ha hb
    exact (groupsText_dropLast ha).1.trans ((congrArg (· ++ [58]) h).trans (groupsText_dropLast hb).1.symm)
  · rw [internetText, internetText, if_neg ha, if_neg (hlen ▸ ha)] at h
    exact dottedText_injective hlen h

/-- What `inet_ntop` prints for `AF_INET`, and for `AF_INET6` when no group starts with a zero. -/
def InetNtop.groups : InetNtop where
  text := internetText
  text_ne_nil := internetText_ne_nil
  text_injective _ _ := internetText_injective

theorem InetNtop.text_groups (a : Bytes) : InetNtop.groups.text a = internetText a := rfl

theorem mem_dottedText {a : Bytes} {c : UInt8} (h : c ∈ dottedText a) :
    c = 46 ∨ 48 ≤ c.toNat ∧ c.toNat ≤ 57 := by
  induction a using dottedText.induct with
  | case1 => exact .inl (List.mem_singleton.1 h)
  | case2 b => exact .inr (mem_decimalText h)
  | case3 b b' a ih =>
    rw [dottedText, List.mem_append, List.mem_cons] at h
    rcases h with hnumber | hdot | hrest
    · exact .inr (mem_decimalText hnumber)
    · exact .inl hdot
    · exact ih hrest

theorem length_dottedText_le {a : Bytes} (h : a ≠ []) : (dottedText a).length + 1 ≤ 4 * a.length := by
  have hnumber : ∀ b : UInt8, (decimalText b.toNat).length ≤ 3 := fun b =>
    length_decimalText_le (by decide) (b.toNat_lt.trans (by decide))
  induction a using dottedText.induct with
  | case1 => exact absurd rfl h
  | case2 b =>
    have hb := hnumber b
    simp only [dottedText, List.length_cons, List.length_nil]
    omega
  | case3 b b' a ih =>
    have hb := hnumber b
    have hrest := ih (List.cons_ne_nil b' a)
    simp only [dottedText, List.length_append, List.length_cons] at hrest ⊢
    omega

theorem InetNtop.standard_groups : InetNtop.groups.Standard where
  inet_length a h := by
    have hne : a ≠ [] := List.ne_nil_of_length_pos (by omega)
    have hle := length_dottedText_le hne
    rw [InetNtop.text_groups, internetText, if_neg (by omega)]
    omega
  inet_chars a h c hc := by
    rw [InetNtop.text_groups, internetText, if_neg (by omega)] at hc
    exact mem_dottedText hc
  inet6_length a h := by
    rw [InetNtop.text_groups, internetText, if_pos h, (groupsText_dropLast h).2.1]
    decide
  inet6_colons a h := by
    rw [InetNtop.text_groups, internetText, if_pos h, (groupsText_dropLast h).2.2]
    decide
  inet6_chars a h := by
    have hchars : ∀ c : UInt8, c ≠ 58 → ¬ (48 ≤ c.toNat ∧ c.toNat ≤ 57 ∨ 97 ≤ c.toNat ∧ c.toNat ≤ 102) →
        c ∉ InetNtop.groups.text a := by
      intro c hcolon hhex hc
      rw [InetNtop.text_groups, internetText, if_pos h] at hc
      exact (mem_groupsText (List.dropLast_subset _ hc)).elim hcolon hhex
    exact ⟨hchars 91 (by decide) (by decide), hchars 93 (by decide) (by decide),
      hchars 0 (by decide) (by decide)⟩

end NetProg
