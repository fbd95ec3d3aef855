import NetProg.Lib.Framing
import Mathlib.Tactic.NormNum

/-!
# Bytes, integers and byte order

What the C, C++ and Python sources share below the system calls: octets, `errno`, the conversions
between the C integer types, and a `uint32_t` as four bytes of a host of either byte order.

`store_htonl` and `ntohl_load` are the two facts every framing proof uses: whatever the byte order of the
host, the bytes of `htonl(n)` in its memory are the big-endian bytes of `n`, and `ntohl` of what was
loaded from four bytes is their big-endian value. `networkOrder` packs them as a code of lengths.
-/

namespace NetProg

/-- The contents of a buffer, a stream or a string. -/
abbrev Bytes := List UInt8

/-- The values of `errno` that the sources tell apart, and the others. -/
inductive Errno
  | EINTR
  | EPROTO
  | ECONNABORTED
  | EBADF
  | other (code : ℕ)
  deriving DecidableEq, Repr

/-- The languages of the programs. -/
inductive Language
  | c
  | cxx
  | python
  deriving DecidableEq, Repr

/-! ### Integer conversions -/

/-- The largest `int`. -/
def INT_MAX : ℕ := 2 ^ 31 - 1

/-- Conversion of a wider integer to `int`. -/
def toInt (n : ℤ) : ℤ := n.bmod (2 ^ 32)

/-- Conversion of an integer to `size_t`. -/
def toSize (n : ℤ) : ℕ := (n % 2 ^ 64).toNat

/-- Conversion of a `size_t` to `ssize_t`. -/
def toSsize (n : ℕ) : ℤ := (n : ℤ).bmod (2 ^ 64)

/-- Conversion of a `size_t` to `uint32_t`. -/
def toU32 (n : ℕ) : BitVec 32 := BitVec.ofNat 32 n

theorem toInt_of_le {n : ℕ} (h : n ≤ INT_MAX) : toInt n = n := by
  rw [INT_MAX] at h
  rw [toInt, Int.bmod_eq_of_le] <;> omega

theorem toInt_neg_one : toInt (-1) = -1 := by decide

theorem toSize_of_lt {n : ℕ} (h : n < 2 ^ 64) : toSize n = n := by
  unfold toSize
  omega

theorem toSize_sub {n k : ℕ} (hk : k ≤ n) (hn : n < 2 ^ 64) : toSize ((n : ℤ) - k) = n - k := by
  unfold toSize
  omega

theorem toSsize_of_lt {n : ℕ} (h : n < 2 ^ 63) : toSsize n = n := by
  unfold toSsize
  rw [Int.bmod_def]
  split <;> omega

/-! ### Byte order -/

/-- The big-endian bytes of `n` modulo `2 ^ 32`. -/
def be32 (n : ℕ) : Bytes :=
  [UInt8.ofNat (n / 2 ^ 24), UInt8.ofNat (n / 2 ^ 16), UInt8.ofNat (n / 2 ^ 8), UInt8.ofNat n]

/-- The value of a string of big-endian bytes. -/
def ofBe (h : Bytes) : ℕ := h.foldl (fun n b => 256 * n + b.toNat) 0

@[simp] theorem length_be32 (n : ℕ) : (be32 n).length = 4 := rfl

theorem ofBe_be32 {n : ℕ} (hn : n < 2 ^ 32) : ofBe (be32 n) = n := by
  simp only [be32, ofBe, List.foldl_cons, List.foldl_nil, UInt8.toNat_ofNat']
  omega

theorem ofBe_lt {h : Bytes} (hlen : h.length = 4) : ofBe h < 2 ^ 32 := by
  match h, hlen with
  | [a, b, c, d], _ =>
    have := a.toNat_lt; have := b.toNat_lt; have := c.toNat_lt; have := d.toNat_lt
    simp only [ofBe, List.foldl_cons, List.foldl_nil]
    omega

theorem be32_ofBe {h : Bytes} (hlen : h.length = 4) : be32 (ofBe h) = h := by
  match h, hlen with
  | [a, b, c, d], _ =>
    have := a.toNat_lt; have := b.toNat_lt; have := c.toNat_lt; have := d.toNat_lt
    simp only [be32, ofBe, List.foldl_cons, List.foldl_nil, List.cons.injEq, and_true,
      ← UInt8.toNat_inj, UInt8.toNat_ofNat']
    omega

/-- The code of block lengths on the wire: four bytes, most significant first. -/
def networkOrder : Lib.LengthCode UInt8 where
  width := 4
  bound := 2 ^ 32
  encode := be32
  decode := ofBe
  bound_pos := by norm_num
  length_encode := length_be32
  decode_encode _ := ofBe_be32
  decode_lt _ := ofBe_lt
  encode_decode _ := be32_ofBe

/-- The byte order of a host. -/
inductive Endian
  | little
  | big
  deriving DecidableEq, Repr

/-- The memory of a `uint32_t`. -/
def store : Endian → BitVec 32 → Bytes
  | .big, v => be32 v.toNat
  | .little, v => (be32 v.toNat).reverse

/-- The `uint32_t` in four bytes of memory. -/
def load : Endian → Bytes → BitVec 32
  | .big, h => BitVec.ofNat 32 (ofBe h)
  | .little, h => BitVec.ofNat 32 (ofBe h.reverse)

/-- The same bytes, the other way round. -/
def byteSwap (v : BitVec 32) : BitVec 32 := load .big (store .little v)

def htonl : Endian → BitVec 32 → BitVec 32
  | .big, v => v
  | .little, v => byteSwap v

def ntohl : Endian → BitVec 32 → BitVec 32
  | .big, v => v
  | .little, v => byteSwap v

@[simp] theorem length_store (e : Endian) (v : BitVec 32) : (store e v).length = 4 := by
  cases e <;> rfl

theorem load_store (e : Endian) (v : BitVec 32) : load e (store e v) = v := by
  cases e with
  | big => rw [store, load, ofBe_be32 v.isLt, BitVec.ofNat_toNat, BitVec.setWidth_eq]
  | little => rw [store, load, List.reverse_reverse, ofBe_be32 v.isLt, BitVec.ofNat_toNat, BitVec.setWidth_eq]

theorem toNat_load_big {h : Bytes} (hlen : h.length = 4) : (load .big h).toNat = ofBe h := by
  rw [load, BitVec.toNat_ofNat, Nat.mod_eq_of_lt (ofBe_lt hlen)]

theorem toNat_byteSwap (v : BitVec 32) : (byteSwap v).toNat = ofBe (be32 v.toNat).reverse :=
  toNat_load_big (length_store .little v)

theorem store_htonl (e : Endian) (v : BitVec 32) : store e (htonl e v) = be32 v.toNat := by
  cases e with
  | big => rfl
  | little =>
    show (be32 (byteSwap v).toNat).reverse = be32 v.toNat
    rw [toNat_byteSwap, be32_ofBe (by simp), List.reverse_reverse]

theorem ntohl_load (e : Endian) {h : Bytes} (hlen : h.length = 4) :
    (ntohl e (load e h)).toNat = ofBe h := by
  cases e with
  | big => exact toNat_load_big hlen
  | little =>
    have hrev : h.reverse.length = 4 := by rw [List.length_reverse, hlen]
    have hload : (load .little h).toNat = ofBe h.reverse := toNat_load_big hrev
    show (byteSwap (load .little h)).toNat = ofBe h
    rw [toNat_byteSwap, hload, be32_ofBe hrev, List.reverse_reverse]

theorem store_htonl_toU32 (e : Endian) {n : ℕ} (hn : n < 2 ^ 32) :
    store e (htonl e (toU32 n)) = be32 n := by
  rw [store_htonl, toU32, BitVec.toNat_ofNat, Nat.mod_eq_of_lt hn]

end NetProg
