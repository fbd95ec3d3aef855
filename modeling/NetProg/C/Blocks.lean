import NetProg.C.Wrapsock
import NetProg.System.Text

/-!
# The receive buffer of the C library

`GetBlock` of `lib/c/blocks.c`. One buffer serves all calls of a process and only grows, so the static
variables are an argument of a call and its result, and a run is a list of calls: each with the connection
it reads from, as that connection stands, and with the bytes that new memory happens to hold.

The capacity test computes `block_length+1` in 32 bits. A call that announces any other length than
`2 ^ 32 - 1` keeps `buf_size` equal to the size of the object and writes inside it (`getBlock_safe`).
For the one length whose successor is zero the buffer is left as it is, and the call writes past its end
once the peer sends what it announced (`getBlock_overflow`).
-/

namespace NetProg.C
open Lib (run_pure run_bind_ok run_bind_error)

/-- The static variables of `blocks.c`. `read_buf` stands for the object it points to, which has no byte
when the pointer is `NULL`: a call of `recv` that is to store bytes there faults like any other, although
Linux would refuse it with `EFAULT`. -/
structure Statics where
  buf_size : ℕ
  read_buf : Bytes
  deriving DecidableEq, Repr

/-- The largest `uint32_t`. -/
def UINT32_MAX : BitVec 32 := BitVec.allOnes 32

/-- `realloc` that succeeds: the old bytes as far as they fit, then indeterminate ones. -/
def realloc (fresh : ℕ → UInt8) (old : Bytes) (size : ℕ) : Bytes :=
  (List.range size).map fun i => old.getD i (fresh i)

/-- `if (buf_size < block_length+1)`, with the sum of a `uint32_t` and an `int`, which is a `uint32_t`. -/
def grow (fresh : ℕ → UInt8) (block_length : BitVec 32) (s : Statics) : Statics :=
  if s.buf_size < (block_length + 1).toNat then
    let buf_size := (block_length + 1).toNat
    { buf_size, read_buf := realloc fresh s.read_buf buf_size }
  else s

/-- `const char *GetBlock(int sockfd)` on a host of byte order `e`; the returned pointer is `read_buf`. -/
def getBlock (e : Endian) (fresh : ℕ → UInt8) (s : Statics) : EStateM Stop Rx Statics := do
  let header ← recvAll ((List.range 4).map fresh) 4
  let block_length := ntohl e (load e header)
  let s := grow fresh block_length s
  let read_buf ← recvAll s.read_buf block_length.toNat
  let read_buf ← write read_buf block_length.toNat [0]
  return { s with read_buf }

/-- What one call of `GetBlock` meets. -/
structure Call where
  rx : Rx
  fresh : ℕ → UInt8

/-- The calls of one process, up to the one that ends it. -/
def getBlocks (e : Endian) : List Call → Statics → Except Stop Statics
  | [], s => .ok s
  | c :: calls, s =>
    match getBlock e c.fresh s c.rx with
    | .ok s _ => getBlocks e calls s
    | .error stop _ => .error stop

/-- Before the first call. -/
def Statics.init : Statics := ⟨0, []⟩

/-- What a peer that starts a block of `block_length` bytes can have sent so far, and may still send. -/
def Announces (block_length : BitVec 32) (c : Call) : Prop :=
  ∃ payload, c.rx.input <+: be32 block_length.toNat ++ payload

/-- No call wrote outside its object. -/
def WritesInside : Except Stop Statics → Prop
  | .ok _ => True
  | .error stop => ¬ stop.IsFault

/-- The invariant of the static variables between two calls. -/
structure Statics.Inv (s : Statics) : Prop where
  size_eq : s.buf_size = s.read_buf.length
  size_le : s.buf_size ≤ UINT32_MAX.toNat

theorem Statics.inv_init : Statics.init.Inv := ⟨rfl, Nat.zero_le _⟩

/-! ### The buffer -/

@[simp] theorem length_realloc (fresh : ℕ → UInt8) (old : Bytes) (size : ℕ) :
    (realloc fresh old size).length = size := by
  rw [realloc, List.length_map, List.length_range]

theorem succ_of_ne {block_length : BitVec 32} (h : block_length ≠ UINT32_MAX) :
    (block_length + 1).toNat = block_length.toNat + 1 := by
  have hne : block_length.toNat ≠ UINT32_MAX.toNat := fun heq => h (BitVec.eq_of_toNat_eq heq)
  have hmax : UINT32_MAX.toNat = 2 ^ 32 - 1 := BitVec.toNat_allOnes
  have hone : (1 : BitVec 32).toNat = 1 := rfl
  rw [BitVec.toNat_add, hone]
  omega

theorem Statics.Inv.grow {s : Statics} (h : s.Inv) (fresh : ℕ → UInt8) (block_length : BitVec 32) :
    (C.grow fresh block_length s).Inv := by
  unfold C.grow
  split_ifs
  · exact ⟨(length_realloc ..).symm, Nat.le_of_lt_succ (block_length + 1).isLt⟩
  · exact h

theorem lt_length_grow {s : Statics} (h : s.Inv) (fresh : ℕ → UInt8) {block_length : BitVec 32}
    (hne : block_length ≠ UINT32_MAX) :
    block_length.toNat < (grow fresh block_length s).read_buf.length := by
  have hsize := h.size_eq
  rw [grow, succ_of_ne hne]
  split_ifs with htest
  · rw [length_realloc]
    omega
  · omega

/-- The test never holds for the length whose successor is zero. -/
theorem grow_max (fresh : ℕ → UInt8) (s : Statics) : grow fresh UINT32_MAX s = s :=
  if_neg (Nat.not_lt_zero _)

/-! ### One call -/

theorem splice_full {object bytes : Bytes} (h : bytes.length = object.length) :
    splice object 0 bytes = bytes := by
  rw [splice, Nat.zero_add, h, List.drop_length, List.take_zero, List.nil_append, List.append_nil]

theorem announced {c : Call} {block_length : BitVec 32} (h : Announces block_length c)
    (hlen : 4 ≤ c.rx.input.length) (e : Endian) : ntohl e (load e (c.rx.input.take 4)) = block_length := by
  obtain ⟨payload, hinitial⟩ := h
  have htake : c.rx.input.take 4 = be32 block_length.toNat := by
    rw [List.prefix_iff_eq_take.mp hinitial, List.take_take, min_eq_left hlen,
      List.take_left' (length_be32 _)]
  apply BitVec.eq_of_toNat_eq
  rw [htake, ntohl_load e (length_be32 _), ofBe_be32 block_length.isLt]

/-- What holds of a call: it wrote inside its object, and if it returned the invariant holds again. -/
def Safe : EStateM.Result Stop Rx Statics → Prop
  | .ok s _ => s.Inv
  | .error stop _ => ¬ stop.IsFault

theorem getBlock_safe (e : Endian) {s : Statics} (hinv : s.Inv) {c : Call} {block_length : BitVec 32}
    (hannounces : Announces block_length c) (hne : block_length ≠ UINT32_MAX) :
    Safe (getBlock e c.fresh s c.rx) := by
  have hheader := recvAll_received c.rx (show 4 ≤ ((List.range 4).map c.fresh).length by simp) (by omega)
  rcases hrun : recvAll ((List.range 4).map c.fresh) 4 c.rx with ⟨header, rx⟩ | ⟨stop, rx⟩
  · rw [hrun] at hheader
    obtain ⟨hlen, hobject, _⟩ := hheader
    rw [splice_full (by simpa using hlen)] at hobject
    have hinv' := hinv.grow c.fresh block_length
    have hroom := lt_length_grow hinv c.fresh hne
    have hpayload := recvAll_received rx hroom.le (by omega)
    rw [getBlock, run_bind_ok hrun, hobject, announced hannounces hlen]
    rcases hrun' : recvAll (grow c.fresh block_length s).read_buf block_length.toNat rx
      with ⟨read_buf, rx'⟩ | ⟨stop, rx'⟩
    · rw [hrun'] at hpayload
      obtain ⟨hlen', rfl, _⟩ := hpayload
      have hsize : (splice (grow c.fresh block_length s).read_buf 0
          (rx.input.take block_length.toNat)).length = (grow c.fresh block_length s).read_buf.length :=
        length_splice (by rw [List.length_take]; omega)
      have hfits : block_length.toNat + [(0 : UInt8)].length ≤
          (splice (grow c.fresh block_length s).read_buf 0 (rx.input.take block_length.toNat)).length := by
        rw [hsize]
        exact hroom
      rw [run_bind_ok hrun', run_bind_ok (write_ok hfits), run_pure]
      exact ⟨by rw [length_splice hfits, hsize, hinv'.size_eq], hinv'.size_le⟩
    · rw [hrun'] at hpayload
      rw [run_bind_error hrun']
      exact hpayload
  · rw [hrun] at hheader
    rw [getBlock, run_bind_error hrun]
    exact hheader

/-- A call whose peer sends the block it announces, with nothing failing. -/
structure Complete (block_length : BitVec 32) (c : Call) : Prop where
  announces : Announces block_length c
  benign : c.rx.Benign
  input_le : 4 + block_length.toNat ≤ c.rx.input.length
  budget_le : 4 + block_length.toNat ≤ c.rx.budget

theorem Complete.header {c : Call} {block_length : BitVec 32} (h : Complete block_length c) (e : Endian) :
    ∃ header rx, recvAll ((List.range 4).map c.fresh) 4 c.rx = .ok header rx ∧
      ntohl e (load e header) = block_length ∧ rx.Benign ∧ rx.input = c.rx.input.drop 4 ∧
      c.rx.budget ≤ rx.budget + 4 := by
  have hinput := h.input_le
  have hbudget := h.budget_le
  have hsize : ((List.range 4).map c.fresh).length = 4 := by rw [List.length_map, List.length_range]
  obtain ⟨rx, hrun, hben, hrest, hbud⟩ := recvAll_enough hsize.ge (by omega) h.benign (by omega) (by omega)
  rw [splice_full (by rw [List.length_take, hsize]; omega)] at hrun
  exact ⟨_, rx, hrun, announced h.announces (by omega) e, hben, hrest, hbud⟩

theorem holds_splice (object bytes : Bytes) : Holds (splice object 0 (bytes ++ [0])) bytes := by
  rw [splice, List.take_zero, List.nil_append]
  exact List.prefix_append _ _

theorem getBlock_complete (e : Endian) {s : Statics} (hinv : s.Inv) {c : Call} {block_length : BitVec 32}
    (hcomplete : Complete block_length c) (hne : block_length ≠ UINT32_MAX) :
    ∃ s' rx, getBlock e c.fresh s c.rx = .ok s' rx ∧ s'.Inv ∧
      Holds s'.read_buf ((c.rx.input.drop 4).take block_length.toNat) ∧ rx.Benign ∧
      rx.input = c.rx.input.drop (4 + block_length.toNat) ∧
      c.rx.budget ≤ rx.budget + (4 + block_length.toNat) := by
  obtain ⟨header, rx, hrun, hlength, hben, hrest, hbud⟩ := hcomplete.header e
  have hinput : block_length.toNat ≤ rx.input.length := by
    have hle := hcomplete.input_le
    rw [hrest, List.length_drop]
    omega
  have hbudget := hcomplete.budget_le
  have hroom := lt_length_grow hinv c.fresh hne
  obtain ⟨rx', hrun', hben', hrest', hbud'⟩ := recvAll_enough hroom.le (by omega) hben hinput (by omega)
  have hpayload : (rx.input.take block_length.toNat).length = block_length.toNat :=
    List.length_take_of_le hinput
  have hfits : block_length.toNat + [(0 : UInt8)].length ≤ (splice (grow c.fresh block_length s).read_buf 0
      (rx.input.take block_length.toNat)).length := by
    rw [length_splice (by rw [hpayload]; omega)]
    exact hroom
  -- the payload and the terminator behind it are one write
  have hjoin := @splice_splice (grow c.fresh block_length s).read_buf
    (rx.input.take block_length.toNat) [0] 0 (Nat.zero_le _)
  rw [hpayload, Nat.zero_add] at hjoin
  have hreturn : getBlock e c.fresh s c.rx = .ok { grow c.fresh block_length s with
      read_buf := splice (grow c.fresh block_length s).read_buf 0
        (rx.input.take block_length.toNat ++ [0]) } rx' := by
    rw [getBlock, run_bind_ok hrun, hlength, run_bind_ok hrun', run_bind_ok (write_ok hfits), hjoin]
    exact run_pure _ _
  have hsafe := getBlock_safe e hinv hcomplete.announces hne
  rw [hreturn] at hsafe
  refine ⟨_, rx', hreturn, hsafe, ?_, hben', ?_, by omega⟩
  · rw [← hrest]
    exact holds_splice _ _
  · rw [hrest', hrest, List.drop_drop]

/-- A call that announces the largest length leaves the buffer as it is, one byte short at best. -/
theorem getBlock_overflow (e : Endian) {s : Statics} (hinv : s.Inv) {c : Call}
    (hcomplete : Complete UINT32_MAX c) :
    ∃ i size rx, getBlock e c.fresh s c.rx = .error (.outOfBounds i size) rx := by
  obtain ⟨header, rx, hrun, hlength, hben, hrest, hbud⟩ := hcomplete.header e
  have hinput : UINT32_MAX.toNat ≤ rx.input.length := by
    have hle := hcomplete.input_le
    rw [hrest, List.length_drop]
    omega
  have hbudget : UINT32_MAX.toNat ≤ rx.budget := by
    have hle := hcomplete.budget_le
    omega
  have hsize := hinv.size_eq
  have hle := hinv.size_le
  have hlt := UINT32_MAX.isLt
  rw [getBlock, run_bind_ok hrun, hlength, grow_max]
  -- not evaluated: the payload of this call is a list of four thousand million bytes
  generalize UINT32_MAX.toNat = n at *
  rcases Nat.lt_or_ge s.read_buf.length n with hover | hfits
  · obtain ⟨i, rx', hrun'⟩ := recvAll_overflow hover (by omega) hben hinput hbudget
    exact ⟨i, _, rx', run_bind_error hrun'⟩
  · obtain ⟨rx', hrun', -⟩ := recvAll_enough hfits (by omega) hben hinput hbudget
    rw [run_bind_ok hrun']
    refine ⟨_, _, rx', run_bind_error (write_fault ?_)⟩
    rw [length_splice (by rw [List.length_take]; omega), List.length_singleton]
    omega

/-! ### Whole runs -/

/-- A peer that sends a block of zeros, one byte at a time. -/
def Call.zeros (block_length : BitVec 32) : Call where
  rx := ⟨be32 block_length.toNat ++ List.replicate block_length.toNat 0,
    List.replicate (4 + block_length.toNat) (.deliver 1)⟩
  fresh _ := 0

theorem Call.complete_zeros (block_length : BitVec 32) :
    Complete block_length (Call.zeros block_length) where
  announces := ⟨_, List.prefix_rfl⟩
  benign _ ha := .inl (List.eq_of_mem_replicate ha ▸ trivial)
  input_le := by rw [zeros, List.length_append, length_be32, List.length_replicate]
  budget_le := by
    rw [Rx.budget, zeros, List.countP_replicate, if_pos]
    exact decide_eq_true trivial

theorem announces_zeros (lengths : List (BitVec 32)) :
    List.Forall₂ Announces lengths (lengths.map Call.zeros) :=
  List.forall₂_map_right_iff.mpr (List.forall₂_same.mpr fun h _ => (Call.complete_zeros h).announces)

theorem getBlocks_safe (e : Endian) {lengths : List (BitVec 32)} (hne : UINT32_MAX ∉ lengths)
    {calls : List Call} (hannounce : List.Forall₂ Announces lengths calls) {s : Statics} (hinv : s.Inv) :
    WritesInside (getBlocks e calls s) := by
  induction hannounce generalizing s with
  | nil => trivial
  | @cons block_length c lengths calls hannounces hrest ih =>
    rw [List.mem_cons, not_or] at hne
    have hsafe := getBlock_safe e hinv hannounces (Ne.symm hne.1)
    rw [getBlocks]
    rcases hrun : getBlock e c.fresh s c.rx with ⟨s', rx⟩ | ⟨stop, rx⟩
    · rw [hrun] at hsafe
      exact ih hne.2 hsafe
    · rw [hrun] at hsafe
      exact hsafe

theorem exists_overflow (e : Endian) {lengths : List (BitVec 32)} (hmem : UINT32_MAX ∈ lengths)
    {s : Statics} (hinv : s.Inv) :
    ∃ calls, List.Forall₂ Announces lengths calls ∧ ¬ WritesInside (getBlocks e calls s) := by
  induction lengths generalizing s with
  | nil => exact absurd hmem List.not_mem_nil
  | cons block_length lengths ih =>
    have hcomplete := Call.complete_zeros block_length
    by_cases heq : block_length = UINT32_MAX
    · subst heq
      obtain ⟨i, size, rx, hrun⟩ := getBlock_overflow e hinv hcomplete
      refine ⟨_, announces_zeros (UINT32_MAX :: lengths), ?_⟩
      rw [List.map_cons, getBlocks, hrun]
      exact not_not_intro trivial
    · obtain ⟨s', rx, hrun, hinv', -⟩ := getBlock_complete e hinv hcomplete heq
      obtain ⟨calls, hcalls, hfault⟩ := ih ((List.mem_cons.mp hmem).resolve_left (Ne.symm heq)) hinv'
      refine ⟨_ :: calls, .cons hcomplete.announces hcalls, ?_⟩
      rw [getBlocks, hrun]
      exact hfault

/-- Whatever lengths the peers of a process announce, in any order: all calls write inside their object,
however the rest of the traffic goes, exactly when the length `2 ^ 32 - 1` is not among them. -/
theorem getBlocks_writes_inside_iff (e : Endian) (lengths : List (BitVec 32)) :
    (∀ calls, List.Forall₂ Announces lengths calls → WritesInside (getBlocks e calls .init)) ↔
      UINT32_MAX ∉ lengths := by
  constructor
  · intro hinside hmem
    obtain ⟨calls, hannounce, hfault⟩ := exists_overflow e hmem Statics.inv_init
    exact hfault (hinside calls hannounce)
  · intro hne calls hannounce
    exact getBlocks_safe e hne hannounce Statics.inv_init

/-- A process on a little-endian host receives the block `A`, for which it allocates two bytes; the next
header is the largest length, and the three bytes after it run over those two. -/
theorem getBlock_overruns_heap :
    List.Forall₂ Announces [1, UINT32_MAX]
        [⟨⟨[0, 0, 0, 1, 65], [.deliver 5, .deliver 5]⟩, fun _ => 0⟩,
          ⟨⟨[0xff, 0xff, 0xff, 0xff, 66, 67, 68], [.deliver 4, .deliver 3]⟩, fun _ => 0⟩] ∧
      getBlocks .little
        [⟨⟨[0, 0, 0, 1, 65], [.deliver 5, .deliver 5]⟩, fun _ => 0⟩,
          ⟨⟨[0xff, 0xff, 0xff, 0xff, 66, 67, 68], [.deliver 4, .deliver 3]⟩, fun _ => 0⟩] .init =
        .error (.outOfBounds 2 2) ∧
      ¬ WritesInside (.error (.outOfBounds 2 2)) :=
  ⟨.cons ⟨[65], by decide⟩ (.cons ⟨[66, 67, 68], by decide⟩ .nil), rfl, not_not_intro trivial⟩

end NetProg.C
