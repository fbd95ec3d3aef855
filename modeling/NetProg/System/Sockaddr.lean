import NetProg.System.Text
import Mathlib.Data.Nat.Digits.Lemmas
import Mathlib.Data.List.Basic

/-!
# Socket addresses in memory

A socket address is an object of some bytes, of which the kernel has supplied the first `addrlen`. The family
in its first two bytes says which of the others mean something: the four or sixteen bytes of an internet
address and its port, or the characters of a path up to a terminator (`address`). Nothing in these accesses
depends on `addrlen`; a read past the object is `none`.

`determined_iff`: what is printed of an address depends on the supplied bytes alone, and is read from inside
the object, exactly if they cover all that the family calls for (`Covers`).
-/

namespace NetProg

/-- The `sa_family_t` in two bytes of memory. -/
def load16 : Endian → UInt8 → UInt8 → ℕ
  | .little, b0, b1 => b0.toNat + 256 * b1.toNat
  | .big, b0, b1 => 256 * b0.toNat + b1.toNat

/-- A number in decimal. -/
def decimalText (n : ℕ) : Bytes :=
  if n = 0 then [48] else (Nat.digits 10 n).reverse.map fun d => UInt8.ofNat (48 + d)

/-- `%d` of an `int`. -/
def intText (z : ℤ) : Bytes := if z < 0 then 45 :: decimalText z.natAbs else decimalText z.natAbs

theorem decimalText_injective {m n : ℕ} (h : decimalText m = decimalText n) : m = n := by
  have hvalue : ∀ n, Nat.ofDigits 10 ((decimalText n).reverse.map fun c => c.toNat - 48) = n := by
    intro n
    unfold decimalText
    split
    · rename_i hzero
      rw [hzero]
      rfl
    · rw [← List.map_reverse, List.reverse_reverse, List.map_map]
      have hdigits : (Nat.digits 10 n).map ((fun c : UInt8 => c.toNat - 48) ∘
          fun d => UInt8.ofNat (48 + d)) = Nat.digits 10 n := by
        conv_rhs => rw [← List.map_id (Nat.digits 10 n)]
        apply List.map_congr_left
        intro d hd
        have hlt := Nat.digits_lt_base (by decide) hd
        simp only [Function.comp_apply, UInt8.toNat_ofNat', id_eq]
        omega
      rw [hdigits, Nat.ofDigits_digits]
  rw [← hvalue m, h, hvalue n]

/-- `inet_ntop`: the text of an internet address, from which the address can be told. -/
structure InetNtop where
  text : Bytes → Bytes
  text_ne_nil : ∀ a, text a ≠ []
  text_injective : ∀ a b, a.length = b.length → text a = text b → a = b

theorem ne_nil_decimalText (n : ℕ) : decimalText n ≠ [] := by
  unfold decimalText
  split
  · exact List.cons_ne_nil _ _
  · rename_i hzero
    simpa [Nat.digits_eq_nil_iff_eq_zero] using hzero

theorem mem_decimalText {n : ℕ} {c : UInt8} (h : c ∈ decimalText n) : 48 ≤ c.toNat ∧ c.toNat ≤ 57 := by
  unfold decimalText at h
  split at h
  · rw [List.mem_singleton.1 h]
    decide
  · obtain ⟨d, hd, rfl⟩ := List.mem_map.1 h
    have hlt := Nat.digits_lt_base (by decide) (List.mem_reverse.1 hd)
    rw [UInt8.toNat_ofNat']
    omega

theorem notMem_decimalText {c : UInt8} (h : c.toNat < 48 ∨ 57 < c.toNat) (n : ℕ) : c ∉ decimalText n := by
  intro hmem
  have hdigit := mem_decimalText hmem
  omega

theorem length_decimalText_le {n k : ℕ} (hk : 0 < k) (h : n < 10 ^ k) : (decimalText n).length ≤ k := by
  unfold decimalText
  split
  · exact hk
  · rw [List.length_map, List.length_reverse, Nat.digits_length_le_iff (by decide)]
    exact h

/-- The numbers of the bytes with dots between them. -/
def dottedText : Bytes → Bytes
  | [] => [46]
  | [b] => decimalText b.toNat
  | b :: b' :: a => decimalText b.toNat ++ 46 :: dottedText (b' :: a)

theorem dottedText_injective {a b : Bytes} (hlen : a.length = b.length) (h : dottedText a = dottedText b) :
    a = b := by
  induction a using dottedText.induct generalizing b with
  | case1 => exact (List.eq_nil_of_length_eq_zero hlen.symm).symm
  | case2 c =>
    obtain ⟨c', rfl⟩ := List.length_eq_one_iff.1 hlen.symm
    rw [UInt8.toNat_inj.1 (decimalText_injective h)]
  | case3 c c₁ a ih =>
    obtain ⟨c', c₁', b, rfl⟩ : ∃ c' c₁' b', b = c' :: c₁' :: b' := by
      rcases b with _ | ⟨c', _ | ⟨c₁', b⟩⟩
      · cases hlen
      · simp at hlen
      · exact ⟨c', c₁', b, rfl⟩
    rw [dottedText, dottedText] at h
    have hdot : ∀ n, 46 ∉ decimalText n := notMem_decimalText (.inl (by decide))
    have hleft := Lib.takeWhile_ne_append (hdot c.toNat) (dottedText (c₁ :: a))
    have hright := Lib.takeWhile_ne_append (hdot c'.toNat) (dottedText (c₁' :: b))
    have hhead := hleft.1.symm.trans ((congrArg _ h).trans hright.1)
    have htail := hleft.2.symm.trans ((congrArg _ h).trans hright.2)
    rw [UInt8.toNat_inj.1 (decimalText_injective hhead), ih (Nat.succ.inj hlen) (List.cons.inj htail).2]

theorem dottedText_ne_nil (a : Bytes) : dottedText a ≠ [] := by
  cases a using dottedText.induct with
  | case1 => exact List.cons_ne_nil _ _
  | case2 b => exact ne_nil_decimalText _
  | case3 b b' a => exact List.append_ne_nil_of_left_ne_nil (ne_nil_decimalText _) _

/-- What `inet_ntop` prints for `AF_INET`. -/
def InetNtop.dotted : InetNtop where
  text := dottedText
  text_ne_nil := dottedText_ne_nil
  text_injective _ _ := dottedText_injective

namespace Sockaddr

def AF_UNIX : ℕ := 1
def AF_INET : ℕ := 2
def AF_INET6 : ℕ := 10
def AF_NETLINK : ℕ := 16

/-- `sa_family`, the first two bytes of an object. -/
def saFamily (e : Endian) (addr : Bytes) : Option ℕ :=
  addr[0]?.bind fun b0 => addr[1]?.map fun b1 => load16 e b0 b1

/-- The `size` bytes at an offset. -/
def field (addr : Bytes) (start size : ℕ) : Option Bytes :=
  if start + size ≤ addr.length then some ((addr.drop start).take size) else none

/-- The C string at an offset. -/
def string (addr : Bytes) (start : ℕ) : Option Bytes :=
  if 0 ∈ addr.drop start then some (cString (addr.drop start)) else none

/-- The families that the printers tell apart. -/
inductive Address
  | inet (sin_addr : Bytes) (sin_port : ℕ)
  | inet6 (sin6_addr : Bytes) (sin6_port : ℕ)
  | unix (sun_path : Bytes)
  | other (sa_family : ℕ)
  deriving DecidableEq, Repr

/-- The address in an object. -/
def address (e : Endian) (addr : Bytes) : Option Address :=
  (saFamily e addr).bind fun family =>
    if family = AF_INET then
      (field addr 4 4).bind fun sin_addr => (field addr 2 2).map fun port => .inet sin_addr (ofBe port)
    else if family = AF_INET6 then
      (field addr 8 16).bind fun sin6_addr => (field addr 2 2).map fun port => .inet6 sin6_addr (ofBe port)
    else if family = AF_UNIX then (string addr 2).map .unix
    else some (.other family)

/-- The supplied bytes are all that their family calls for. -/
def Covers (e : Endian) (supplied : Bytes) : Prop :=
  match saFamily e supplied with
  | none => False
  | some family =>
    if family = AF_INET then 8 ≤ supplied.length
    else if family = AF_INET6 then 24 ≤ supplied.length
    else if family = AF_UNIX then 0 ∈ supplied.drop 2
    else True

/-- What is printed of an object whose first `addrlen` bytes were supplied comes from inside the object and
does not change with the other bytes. -/
def Determined {ρ : Type} (print : Bytes → Option ρ) (addrlen : ℕ) (addr : Bytes) : Prop :=
  print addr ≠ none ∧
    ∀ addr', addr'.length = addr.length → addr'.take addrlen = addr.take addrlen → print addr' = print addr

section

variable {e : Endian} {supplied rest addr : Bytes} {start size : ℕ}

/-! ### What the supplied bytes cover -/

theorem saFamily_append (h : 2 ≤ supplied.length) :
    saFamily e (supplied ++ rest) = saFamily e supplied := by
  rw [saFamily, saFamily, List.getElem?_append_left (by omega), List.getElem?_append_left (by omega)]

theorem two_le_of_saFamily {family : ℕ} (h : saFamily e addr = some family) : 2 ≤ addr.length := by
  rcases addr with _ | ⟨b0, _ | ⟨b1, addr⟩⟩
  · simp [saFamily] at h
  · simp [saFamily] at h
  · simp

theorem field_append (h : start + size ≤ supplied.length) :
    field (supplied ++ rest) start size = field supplied start size := by
  rw [field, field, if_pos h, if_pos (by rw [List.length_append]; omega),
    List.drop_append_of_le_length (by omega),
    List.take_append_of_le_length (by rw [List.length_drop]; omega)]

theorem field_between {before bytes behind : Bytes} (hstart : before.length = start)
    (hsize : bytes.length = size) : field (before ++ (bytes ++ behind)) start size = some bytes := by
  have hle : start + size ≤ (before ++ (bytes ++ behind)).length := by
    rw [List.length_append, List.length_append]
    omega
  rw [field, if_pos hle, ← hstart, List.drop_left, ← hsize, List.take_left]

theorem string_between {before path behind : Bytes} (hstart : before.length = start) (hpath : 0 ∉ path) :
    string (before ++ (path ++ 0 :: behind)) start = some path := by
  rw [string, ← hstart, List.drop_left, if_pos (by simp), cString, (Lib.takeWhile_ne_append hpath _).1]

theorem string_append (h : 0 ∈ supplied.drop start) :
    string (supplied ++ rest) start = string supplied start := by
  have hle : start ≤ supplied.length := by
    by_contra hlt
    rw [List.drop_eq_nil_of_le (by omega)] at h
    simp at h
  obtain ⟨path, after, hsplit, hpath⟩ := List.eq_append_cons_of_mem h
  have hdrop : (supplied ++ rest).drop start = path ++ 0 :: (after ++ rest) := by
    rw [List.drop_append_of_le_length hle, hsplit, List.append_assoc, List.cons_append]
  rw [string, string, if_pos h, hdrop, hsplit, if_pos (by simp), cString, cString,
    (Lib.takeWhile_ne_append hpath _).1, (Lib.takeWhile_ne_append hpath _).1]

theorem string_cases (addr : Bytes) (start : ℕ) :
    addr[start]? = none ∧ string addr start = none ∨
      addr[start]? = some 0 ∧ string addr start = some [] ∨
        ∃ c, c ≠ 0 ∧ addr[start]? = some c ∧ string addr start ≠ some [] := by
  have hhead : (addr.drop start).head? = addr[start]? := List.head?_drop
  unfold string
  cases hdrop : addr.drop start with
  | nil =>
    rw [hdrop] at hhead
    exact .inl ⟨hhead.symm, by simp⟩
  | cons c rest =>
    rw [hdrop] at hhead
    by_cases hc : c = 0
    · subst hc
      exact .inr (.inl ⟨hhead.symm, by simp [cString]⟩)
    · refine .inr (.inr ⟨c, hc, hhead.symm, ?_⟩)
      split
      · simp [cString, hc]
      · simp

theorem exists_address (h : Covers e supplied) :
    ∃ a, ∀ rest, address e (supplied ++ rest) = some a := by
  unfold Covers at h
  split at h
  · exact absurd h not_false
  rename_i family hfamily
  have htwo := two_le_of_saFamily hfamily
  have hbind : ∀ rest, saFamily e (supplied ++ rest) = some family :=
    fun rest => (saFamily_append htwo).trans hfamily
  unfold address
  simp only [hbind, Option.bind_some]
  split_ifs at h ⊢
  · refine ⟨.inet ((supplied.drop 4).take 4) (ofBe ((supplied.drop 2).take 2)), fun rest => ?_⟩
    rw [field_append (by omega), field_append (by omega), field, field, if_pos (by omega), if_pos (by omega)]
    rfl
  · refine ⟨.inet6 ((supplied.drop 8).take 16) (ofBe ((supplied.drop 2).take 2)), fun rest => ?_⟩
    rw [field_append (by omega), field_append (by omega), field, field, if_pos (by omega), if_pos (by omega)]
    rfl
  · refine ⟨.unix (cString (supplied.drop 2)), fun rest => ?_⟩
    rw [string_append h, string, if_pos h]
    rfl
  · exact ⟨.other family, fun rest => rfl⟩

/-! ### What they do not cover -/

theorem field_set_of_not_mem {i : ℕ} {b : UInt8} (h : i < start ∨ start + size ≤ i) :
    field (addr.set i b) start size = field addr start size := by
  rw [field, field, List.length_set]
  split
  · rw [List.drop_set]
    split
    · rfl
    · rw [List.take_set_of_le (by omega)]
  · rfl

theorem eq_of_field_set_eq {i : ℕ} {b : UInt8} (hi : i < addr.length) (hstart : start ≤ i)
    (hend : i < start + size) (hle : start + size ≤ addr.length)
    (h : field (addr.set i b) start size = field addr start size) : b = addr[i] := by
  rw [field, field, List.length_set, if_pos hle, if_pos hle, Option.some.injEq] at h
  have hat := congrArg (·[i - start]?) h
  have hindex : start + (i - start) = i := by omega
  simp only [List.getElem?_take, if_pos (show i - start < size by omega), List.getElem?_drop, hindex,
    List.getElem?_set_self hi, List.getElem?_eq_getElem hi, Option.some.injEq] at hat
  exact hat

theorem saFamily_set {i : ℕ} {b : UInt8} (hi : 2 ≤ i) : saFamily e (addr.set i b) = saFamily e addr := by
  rw [saFamily, saFamily, List.getElem?_set_ne (by omega), List.getElem?_set_ne (by omega)]

theorem exists_other_byte (b : UInt8) : ∃ c : UInt8, c ≠ b := by
  by_cases h : b = 0
  · exact ⟨1, by rw [h]; decide⟩
  · exact ⟨0, fun heq => h heq.symm⟩

variable {ρ : Type} {d : Address → ρ} {addrlen : ℕ}

/-- One byte of the family is not enough: it could be one family nobody knows or another. -/
theorem two_le_of_determined (hother : ∀ f f', d (.other f) = d (.other f') → f = f')
    (h : Determined (fun a => (address e a).map d) addrlen addr) : 2 ≤ (addr.take addrlen).length := by
  obtain ⟨hsome, hsame⟩ := h
  by_contra hlt
  obtain ⟨a, ha⟩ := Option.ne_none_iff_exists'.1 hsome
  obtain ⟨family, hfamily⟩ : ∃ family, saFamily e addr = some family := by
    cases hfamily : saFamily e addr with
    | none => simp [address, hfamily] at ha
    | some family => exact ⟨family, rfl⟩
  obtain ⟨b0, b1, rest, rfl⟩ : ∃ b0 b1 rest, addr = b0 :: b1 :: rest := by
    rcases addr with _ | ⟨b0, _ | ⟨b1, rest⟩⟩
    · simp [saFamily] at hfamily
    · simp [saFamily] at hfamily
    · exact ⟨b0, b1, rest, rfl⟩
  have hlen : addrlen ≤ 1 := by
    simp only [List.length_take, List.length_cons] at hlt
    omega
  have htake : ∀ b : UInt8, (b0 :: b :: rest).take addrlen = (b0 :: b1 :: rest).take addrlen := by
    intro b
    rcases Nat.le_one_iff_eq_zero_or_eq_one.1 hlen with rfl | rfl <;> rfl
  have hprint : ∀ b : UInt8, 100 ≤ b.toNat →
      (address e (b0 :: b :: rest)).map d = some (d (.other (load16 e b0 b))) := by
    intro b hb
    have hload : 100 ≤ load16 e b0 b := by
      cases e <;> simp only [load16] <;> omega
    have hfam : saFamily e (b0 :: b :: rest) = some (load16 e b0 b) := rfl
    rw [address, hfam, Option.bind_some, if_neg (by rw [AF_INET]; omega), if_neg (by rw [AF_INET6]; omega),
      if_neg (by rw [AF_UNIX]; omega)]
    rfl
  have hequal := (hsame (b0 :: 100 :: rest) rfl (htake 100)).trans
    (hsame (b0 :: 101 :: rest) rfl (htake 101)).symm
  simp only [hprint 100 (by decide), hprint 101 (by decide), Option.some.injEq] at hequal
  have hload := hother _ _ hequal
  cases e <;> simp [load16] at hload

theorem field_le_of_determined {mk : Bytes → ℕ → Address}
    (hmk : ∀ port a a', a.length = a'.length → d (mk a port) = d (mk a' port) → a = a')
    (hread : ∀ addr', saFamily e addr' = saFamily e addr → address e addr' =
      (field addr' start size).bind fun a => (field addr' 2 2).map fun port => mk a (ofBe port))
    (hstart : 4 ≤ start) (hsize : 0 < size)
    (h : Determined (fun a => (address e a).map d) addrlen addr) :
    start + size ≤ (addr.take addrlen).length := by
  obtain ⟨hsome, hsame⟩ := h
  have hle : start + size ≤ addr.length := by
    by_contra hlt
    apply hsome
    simp only [hread addr rfl, field, if_neg hlt, Option.bind_none, Option.map_none]
  by_contra hlt
  have hi : start + size - 1 < addr.length := by omega
  have hlen : addrlen ≤ start + size - 1 := by
    rw [List.length_take] at hlt
    omega
  obtain ⟨c, hc⟩ := exists_other_byte addr[start + size - 1]
  have hequal := hsame (addr.set (start + size - 1) c) List.length_set (List.take_set_of_le hlen)
  have hport : field addr 2 2 = some ((addr.drop 2).take 2) := if_pos (by omega)
  simp only [hread addr rfl, hread (addr.set (start + size - 1) c) (saFamily_set (by omega)),
    field_set_of_not_mem (show start + size - 1 < 2 ∨ 2 + 2 ≤ start + size - 1 by omega), hport] at hequal
  have hnew : field (addr.set (start + size - 1) c) start size =
      some (((addr.set (start + size - 1) c).drop start).take size) := if_pos (by rw [List.length_set]; omega)
  have hold : field addr start size = some ((addr.drop start).take size) := if_pos hle
  rw [hnew, hold] at hequal
  simp only [Option.bind_some, Option.map_some, Option.some.injEq] at hequal
  have hfield := hmk _ _ _ (by simp only [List.length_take, List.length_drop, List.length_set]) hequal
  exact hc (eq_of_field_set_eq hi (by omega) (by omega) hle (by rw [hnew, hold, hfield]))

theorem zero_mem_of_determined (hfamily : saFamily e (addr.take addrlen) = some AF_UNIX)
    (h : Determined (fun a => (address e a).map d) addrlen addr) : 0 ∈ (addr.take addrlen).drop 2 := by
  obtain ⟨hsome, hsame⟩ := h
  by_contra hmem
  have htwo := two_le_of_saFamily hfamily
  -- the same supplied bytes with no terminator behind them either
  have hlen : (addr.take addrlen ++ List.replicate (addr.length - addrlen) 1).length = addr.length := by
    rw [List.length_append, List.length_take, List.length_replicate]
    omega
  have htake : (addr.take addrlen ++ List.replicate (addr.length - addrlen) 1).take addrlen =
      addr.take addrlen := by
    rcases Nat.le_total addrlen addr.length with hle | hle
    · rw [List.take_append_of_le_length (by rw [List.length_take]; omega), List.take_take, min_self]
    · rw [Nat.sub_eq_zero_of_le hle, List.replicate_zero, List.append_nil, List.take_take, min_self]
  have hequal := hsame _ hlen htake
  apply hsome
  rw [← hequal]
  have hunterminated :
      0 ∉ (addr.take addrlen ++ List.replicate (addr.length - addrlen) (1 : UInt8)).drop 2 := by
    rw [List.drop_append_of_le_length htwo, List.mem_append, not_or]
    refine ⟨hmem, fun hone => ?_⟩
    exact absurd (List.mem_replicate.1 hone).2 (by decide)
  simp only [address, saFamily_append htwo, hfamily, Option.bind_some,
    if_neg (show ¬ AF_UNIX = AF_INET by decide), if_neg (show ¬ AF_UNIX = AF_INET6 by decide), if_true,
    string, if_neg hunterminated, Option.map_none]

/-- What is printed of an address depends on the supplied bytes alone, and is read from inside the object,
exactly if they cover all that the family calls for. -/
theorem determined_iff
    (hinet : ∀ port a a', a.length = a'.length → d (.inet a port) = d (.inet a' port) → a = a')
    (hinet6 : ∀ port a a', a.length = a'.length → d (.inet6 a port) = d (.inet6 a' port) → a = a')
    (hother : ∀ f f', d (.other f) = d (.other f') → f = f') :
    Determined (fun a => (address e a).map d) addrlen addr ↔ Covers e (addr.take addrlen) := by
  constructor
  · intro h
    have htwo := two_le_of_determined hother h
    have hsplit := List.take_append_drop addrlen addr
    have hwhole : saFamily e addr = saFamily e (addr.take addrlen) := by
      conv_lhs => rw [← hsplit]
      exact saFamily_append htwo
    unfold Covers
    cases hfamily : saFamily e (addr.take addrlen) with
    | none => simp [saFamily, List.getElem?_eq_getElem (show 0 < (addr.take addrlen).length by omega),
        List.getElem?_eq_getElem (show 1 < (addr.take addrlen).length by omega)] at hfamily
    | some family =>
      rw [hfamily] at hwhole
      simp only
      split_ifs with h4 h6 hun
      · have hle : 4 + 4 ≤ (addr.take addrlen).length := by
          apply field_le_of_determined hinet _ (by decide) (by decide) h
          intro addr' hsame
          rw [address, hsame, hwhole, Option.bind_some, if_pos h4]
        exact hle
      · have hle : 8 + 16 ≤ (addr.take addrlen).length := by
          apply field_le_of_determined hinet6 _ (by decide) (by decide) h
          intro addr' hsame
          rw [address, hsame, hwhole, Option.bind_some, if_neg h4, if_pos h6]
        exact hle
      · exact zero_mem_of_determined (hun ▸ hfamily) h
  · intro h
    obtain ⟨a, ha⟩ := exists_address h
    have hsame : ∀ addr', addr'.take addrlen = addr.take addrlen → address e addr' = some a := by
      intro addr' htake
      rw [← List.take_append_drop addrlen addr', htake]
      exact ha _
    refine ⟨by simp [hsame addr rfl], fun addr' _ htake => ?_⟩
    simp only [hsame addr rfl, hsame addr' htake]

end

end Sockaddr

end NetProg
