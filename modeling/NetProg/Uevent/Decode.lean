import NetProg.Lib.Fields
import NetProg.System.Text
import NetProg.Uevent.Monitor
import Mathlib.Data.List.Nodup

/-!
# From a netlink message to a dictionary

`NetlinkUeventMonitor::recv` of `netlink.cpp` and `parserRawData` of `uevent_monitor2.py`. The first takes as
much of a message as fits its buffer and makes printable text of it, a line for each field that the kernel
has ended with a NUL; the second splits the text into lines and keeps those with one `=`.

No byte of a field can act as a separator of the other side: the dictionary is that of the NUL-separated
fields of what was received (`dict_of_message`). So it is the environment that the kernel sent exactly if
none of the values has a `=` of its own and the message was not cut (`decode_encode_iff`).
-/

namespace NetProg.Uevent

def UEVENT_RECVTIME : String := "receive_time"

/-- `isprint` in the locale of the process. -/
def isprint (b : UInt8) : Bool := decide (0x20 ≤ b ∧ b ≤ 0x7e)

/-- `NetlinkUeventMonitor::recv(buf_size)`, when `message` is the next one. -/
def NetlinkUeventMonitor.recv (buf_size : ℕ) (message : Bytes) : Bytes :=
  (message.take buf_size).map fun b => if b = 0 then newline else if isprint b then b else 0x20

/-- The `str` that the observer gets for a `std::string`, which is ASCII here. -/
def toStr (data : Bytes) : String := String.ofList (data.map fun b => Char.ofNat b.toNat)

/-- The body of the loop of `parserRawData`. -/
def addLine (event : Dict) (line : List Char) : Dict :=
  if line.count '=' = 1 then
    match line.splitOn '=' with
    | [key, value] => (String.ofList key, String.ofList value) :: event
    | _ => event
  else event

/-- `parserRawData(data)` at the time `now`. An entry of the message for the key of the receive time is
replaced by it. -/
def parserRawData (seq : ℕ) (now : ℤ) (data : String) : Event where
  seq
  fields := ((data.toList.splitOn '\n').foldl addLine []).filter fun p => p.1 ≠ UEVENT_RECVTIME
  receive_time := now

/-! ### What the dictionary should be -/

/-- A byte of a key or a value, or a space for one that cannot be printed. -/
def shown (b : UInt8) : Char := if isprint b then Char.ofNat b.toNat else ' '

/-- A key or a value of the dictionary. -/
def text (bytes : Bytes) : String := String.ofList (bytes.map shown)

/-- The NUL-separated fields of a message with one `=`, as a dictionary. -/
def dictOf (message : Bytes) : Dict :=
  ((Lib.entries 0 0x3d message).map fun p => (text p.1, text p.2)).reverse

/-! ### The two separators -/

/-- What becomes of a byte from the message to the text. -/
def textByte (b : UInt8) : Char := if b = 0 then '\n' else shown b

theorem toList_toStr_recv (buf_size : ℕ) (message : Bytes) :
    (toStr (NetlinkUeventMonitor.recv buf_size message)).toList = (message.take buf_size).map textByte := by
  simp only [toStr, NetlinkUeventMonitor.recv, String.toList_ofList, List.map_map]
  apply List.map_congr_left
  intro b _
  simp only [Function.comp_apply, textByte, shown]
  split_ifs <;> rfl

theorem isprint_iff (b : UInt8) : isprint b = true ↔ 0x20 ≤ b.toNat ∧ b.toNat ≤ 0x7e := by
  unfold isprint
  rw [decide_eq_true_eq, UInt8.le_iff_toNat_le, UInt8.le_iff_toNat_le]
  rfl

theorem toNat_charOfByte (b : UInt8) : (Char.ofNat b.toNat).toNat = b.toNat := by
  have hlt := b.toNat_lt
  have hvalid : b.toNat.isValidChar := .inl (by omega)
  rw [Char.ofNat, dif_pos hvalid]
  rfl

theorem toNat_shown (b : UInt8) :
    (shown b).toNat = if isprint b then b.toNat else 0x20 := by
  unfold shown
  split
  · exact toNat_charOfByte b
  · rfl

theorem shown_eq_equals (b : UInt8) : shown b = '=' ↔ b = 0x3d := by
  have hprint := isprint_iff b
  rw [← Char.toNat_inj, toNat_shown, ← UInt8.toNat_inj]
  show (if isprint b then b.toNat else 0x20) = 0x3d ↔ b.toNat = 0x3d
  split_ifs with h
  · exact Iff.rfl
  · have hout := mt hprint.2 h
    constructor <;> intro heq <;> omega

theorem textByte_eq_newline (b : UInt8) : textByte b = '\n' ↔ b = 0 := by
  unfold textByte
  split_ifs with hnul
  · exact ⟨fun _ => hnul, fun _ => rfl⟩
  · refine ⟨fun h => ?_, fun h => absurd h hnul⟩
    have hprint := isprint_iff b
    rw [← Char.toNat_inj, toNat_shown] at h
    change (if isprint b then b.toNat else 0x20) = 0x0a at h
    split_ifs at h with hb
    · have hin := hprint.1 hb
      omega
    · simp at h

theorem textByte_eq_equals (b : UInt8) : textByte b = '=' ↔ b = 0x3d := by
  unfold textByte
  split_ifs with hnul
  · exact ⟨fun h => absurd h (by decide), fun h => absurd (hnul ▸ h) (by decide)⟩
  · exact shown_eq_equals b

theorem map_textByte {bytes : Bytes} (h : 0 ∉ bytes) : bytes.map textByte = bytes.map shown := by
  apply List.map_congr_left
  intro b hb
  rw [textByte, if_neg (ne_of_mem_of_not_mem hb h)]

/-! ### The dictionary of a message -/

theorem addLine_eq (event : Dict) (line : List Char) :
    addLine event line =
      ((Lib.keyValue '=' line).map fun p => (String.ofList p.1, String.ofList p.2)).toList ++ event := by
  unfold addLine
  split_ifs with hcount
  · have hkv : Lib.keyValue '=' line =
        some (line.takeWhile (· ≠ '='), (line.dropWhile (· ≠ '=')).drop 1) := if_pos hcount
    obtain ⟨hline, hkey, hvalue⟩ := Lib.keyValue_eq_some.1 hkv
    have hsplit : line.splitOn '=' = [line.takeWhile (· ≠ '='), (line.dropWhile (· ≠ '=')).drop 1] := by
      conv_lhs => rw [hline]
      rw [List.splitOn_append_cons_self_of_not_mem hkey, List.splitOn_eq_singleton hvalue]
    rw [hsplit, hkv]
    rfl
  · rw [Lib.keyValue, if_neg hcount]
    rfl

theorem foldl_addLine (lines : List (List Char)) (event : Dict) :
    lines.foldl addLine event =
      ((lines.filterMap (Lib.keyValue '=')).map fun p => (String.ofList p.1, String.ofList p.2)).reverse ++
        event := by
  induction lines generalizing event with
  | nil => rfl
  | cons line lines ih =>
    rw [List.foldl_cons, ih, addLine_eq]
    cases hkv : Lib.keyValue '=' line <;> simp [hkv]

theorem foldl_addLine_recv (buf_size : ℕ) (message : Bytes) :
    ((toStr (NetlinkUeventMonitor.recv buf_size message)).toList.splitOn '\n').foldl addLine [] =
      dictOf (message.take buf_size) := by
  rw [foldl_addLine, List.append_nil, toList_toStr_recv]
  change ((Lib.entries '\n' '=' ((message.take buf_size).map textByte)).map _).reverse = _
  rw [Lib.entries_map textByte_eq_newline textByte_eq_equals, List.map_map, dictOf]
  congr 1
  apply List.map_congr_left
  rintro ⟨key, value⟩ hmem
  obtain ⟨hfield, -⟩ := Lib.mem_entries hmem
  have hnul := (Lib.mem_splitOn hfield).1
  rw [List.mem_append, List.mem_cons, not_or, not_or] at hnul
  simp only [Function.comp_apply, text, map_textByte hnul.1, map_textByte hnul.2.2]

/-- For every message and every size of the buffer: apart from the receive time, the dictionary is exactly
that of the NUL-separated fields of the bytes received. -/
theorem dict_of_message (seq : ℕ) (now : ℤ) (buf_size : ℕ) (message : Bytes) :
    (parserRawData seq now (toStr (NetlinkUeventMonitor.recv buf_size message))).fields =
      (dictOf (message.take buf_size)).filter fun p => p.1 ≠ UEVENT_RECVTIME := by
  rw [parserRawData, foldl_addLine_recv]

/-- A message of 4100 bytes, whose last field is behind the end of the buffer. -/
theorem long_message_cut :
    (parserRawData 0 0 (toStr (NetlinkUeventMonitor.recv 4096
        (List.replicate 4096 0x41 ++ [0, 0x41, 0x3d, 0x42])))).getEventField "A" = none ∧
      (dictOf (List.replicate 4096 0x41 ++ [0, 0x41, 0x3d, 0x42])).lookup "A" = some "B" := by
  have hfield : (0x3d : UInt8) ∉ List.replicate 4096 (0x41 : UInt8) := by
    rw [List.mem_replicate]
    decide
  constructor
  · rw [Event.getEventField, parserRawData, foldl_addLine_recv,
      List.take_left' (by rw [List.length_replicate]), dictOf, Lib.entries_of_eq_notMem hfield]
    rfl
  · rw [dictOf, Lib.entries_append_cons, Lib.entries_of_eq_notMem hfield]
    decide

/-! ### What the kernel sends -/

/-- All characters of the text can be printed. -/
def Printable (s : String) : Prop := ∀ c ∈ s.toList, 0x20 ≤ c.toNat ∧ c.toNat ≤ 0x7e

instance : DecidablePred Printable := fun s =>
  List.decidableBAll (fun c : Char => 0x20 ≤ c.toNat ∧ c.toNat ≤ 0x7e) s.toList

/-- The environment of a uevent: distinct keys with values of any printable text. -/
structure Environment where
  entries : List (String × String)
  nodup : (entries.map Prod.fst).Nodup
  key_ne : ∀ p ∈ entries, p.1 ≠ "" ∧ p.1 ≠ UEVENT_RECVTIME
  key_printable : ∀ p ∈ entries, Printable p.1 ∧ '=' ∉ p.1.toList
  value_printable : ∀ p ∈ entries, Printable p.2

namespace Environment

/-- The bytes of the keys and of the values. -/
def bytes (env : Environment) : List (Bytes × Bytes) := env.entries.map fun p => (ascii p.1, ascii p.2)

/-- The message: a header and the fields, each ended by a NUL. -/
def encode (header : Bytes) (env : Environment) : Bytes := header ++ 0 :: Lib.encode 0 0x3d env.bytes

end Environment

theorem toNat_asciiByte {c : Char} (h : 0x20 ≤ c.toNat ∧ c.toNat ≤ 0x7e) :
    (UInt8.ofNat c.toNat).toNat = c.toNat := by
  rw [UInt8.toNat_ofNat', Nat.mod_eq_of_lt (by omega)]

theorem shown_asciiByte {c : Char} (h : 0x20 ≤ c.toNat ∧ c.toNat ≤ 0x7e) :
    shown (UInt8.ofNat c.toNat) = c := by
  have hbyte := toNat_asciiByte h
  have hprint : isprint (UInt8.ofNat c.toNat) = true := by
    rw [isprint_iff, hbyte]
    exact h
  rw [← Char.toNat_inj, toNat_shown, if_pos hprint, hbyte]

theorem text_ascii {s : String} (h : Printable s) : text (ascii s) = s := by
  rw [← String.toList_inj, text, String.toList_ofList, ascii, List.map_map]
  conv_rhs => rw [← List.map_id s.toList]
  apply List.map_congr_left
  intro c hc
  exact shown_asciiByte (h c hc)

theorem isprint_of_mem_ascii {s : String} (h : Printable s) {b : UInt8} (hb : b ∈ ascii s) :
    isprint b = true := by
  obtain ⟨c, hc, rfl⟩ := List.mem_map.1 hb
  rw [isprint_iff, toNat_asciiByte (h c hc)]
  exact h c hc

theorem ascii_text {bytes : Bytes} (h : ∀ b ∈ bytes, isprint b = true) : ascii (text bytes) = bytes := by
  rw [ascii, text, String.toList_ofList, List.map_map]
  conv_rhs => rw [← List.map_id bytes]
  apply List.map_congr_left
  intro b hb
  rw [Function.comp_apply, toNat_shown, if_pos (h b hb)]
  exact UInt8.ofNat_toNat

theorem equals_mem_ascii {s : String} (h : Printable s) : (0x3d : UInt8) ∈ ascii s ↔ '=' ∈ s.toList := by
  rw [ascii, List.mem_map]
  constructor
  · rintro ⟨c, hc, heq⟩
    have hbyte := toNat_asciiByte (h c hc)
    rw [heq] at hbyte
    have hchar : c = '=' := Char.toNat_inj.1 hbyte.symm
    exact hchar ▸ hc
  · intro hmem
    exact ⟨'=', hmem, rfl⟩

theorem nul_notMem_ascii {s : String} (h : Printable s) : (0 : UInt8) ∉ ascii s := by
  intro hmem
  exact absurd (isprint_of_mem_ascii h hmem) (by decide)

namespace Environment

theorem isEntry (env : Environment) {p : Bytes × Bytes} (h : p ∈ env.bytes) : Lib.IsEntry 0 0x3d p := by
  obtain ⟨q, hq, rfl⟩ := List.mem_map.1 h
  obtain ⟨hkey, heq⟩ := env.key_printable q hq
  exact ⟨nul_notMem_ascii hkey, (equals_mem_ascii hkey).not.2 heq,
    nul_notMem_ascii (env.value_printable q hq)⟩

/-- A header without `=` has no entries, whether the message is cut in it or behind it. -/
theorem entries_take_encode (env : Environment) {header : Bytes} (hheader : 0x3d ∉ header) (n : ℕ) :
    Lib.entries 0 0x3d ((env.encode header).take n) =
      Lib.entries 0 0x3d ((Lib.encode 0 0x3d env.bytes).take (n - (header.length + 1))) := by
  unfold encode
  rcases Nat.lt_or_ge header.length n with hlt | hle
  · obtain ⟨m, rfl⟩ : ∃ m, n = header.length + (m + 1) := ⟨n - header.length - 1, by omega⟩
    rw [List.take_length_add_append, List.take_succ_cons, Lib.entries_append_cons,
      Lib.entries_of_eq_notMem hheader, List.nil_append]
    congr 2
    omega
  · rw [List.take_append_of_le_length hle, show n - (header.length + 1) = 0 by omega, List.take_zero,
      Lib.entries_of_eq_notMem List.not_mem_nil,
      Lib.entries_of_eq_notMem fun h => hheader (List.mem_of_mem_take h)]

end Environment

/-! ### Decoding what was encoded -/

theorem mem_of_lookup {dict : Dict} {key value : String} (h : dict.lookup key = some value) :
    (key, value) ∈ dict := by
  obtain ⟨before, after, rfl, -⟩ := List.lookup_eq_some_iff.1 h
  exact List.mem_append_right _ List.mem_cons_self

theorem lookup_eq_some_iff_mem {dict : Dict} (hnodup : (dict.map Prod.fst).Nodup) {key value : String} :
    dict.lookup key = some value ↔ (key, value) ∈ dict := by
  refine ⟨mem_of_lookup, fun hmem => ?_⟩
  obtain ⟨before, after, rfl⟩ := List.append_of_mem hmem
  refine List.lookup_eq_some_iff.2 ⟨before, after, rfl, ?_⟩
  intro p hp
  rw [List.map_append, List.map_cons, List.nodup_append] at hnodup
  simpa using (hnodup.2.2 _ (List.mem_map_of_mem hp) _ List.mem_cons_self).symm

theorem lookup_reverse {dict : Dict} (hnodup : (dict.map Prod.fst).Nodup) (key : String) :
    dict.reverse.lookup key = dict.lookup key := by
  have hreverse : (dict.reverse.map Prod.fst).Nodup := by
    rw [List.map_reverse, List.nodup_reverse]
    exact hnodup
  apply Option.ext
  intro value
  rw [lookup_eq_some_iff_mem hreverse, lookup_eq_some_iff_mem hnodup, List.mem_reverse]

namespace Environment

variable (env : Environment)

theorem map_text_bytes : env.bytes.map (fun p => (text p.1, text p.2)) = env.entries := by
  rw [bytes, List.map_map]
  conv_rhs => rw [← List.map_id env.entries]
  apply List.map_congr_left
  rintro ⟨key, value⟩ hmem
  have hkey := (env.key_printable _ hmem).1
  have hvalue := env.value_printable _ hmem
  simp only [Function.comp_apply, text_ascii hkey, text_ascii hvalue, id]

/-- What is left of the message when `n` bytes of it have been received. -/
def received (header : Bytes) (n : ℕ) : List (Bytes × Bytes) :=
  Lib.entries 0 0x3d ((Lib.encode 0 0x3d env.bytes).take (n - (header.length + 1)))

/-- The dictionary of the encoded environment, received into a buffer of `n` bytes. -/
theorem fields_decode (seq : ℕ) (now : ℤ) {header : Bytes} (hheader : 0x3d ∉ header) (n : ℕ) :
    (parserRawData seq now (toStr (NetlinkUeventMonitor.recv n (env.encode header)))).fields =
      (((env.received header n).map fun p => (text p.1, text p.2)).reverse).filter
        fun p => p.1 ≠ UEVENT_RECVTIME := by
  rw [parserRawData, foldl_addLine_recv, dictOf, env.entries_take_encode hheader, received]

theorem printable_of_mem_received {header : Bytes} {n : ℕ} {key value : Bytes}
    (h : (key, value) ∈ env.received header n) :
    (∀ b ∈ key, isprint b = true) ∧ (∀ b ∈ value, isprint b = true) ∧ 0x3d ∉ value := by
  obtain ⟨hfield, -, hequals⟩ := Lib.mem_entries h
  obtain ⟨hnul, hmem⟩ := Lib.mem_splitOn hfield
  have hprint : ∀ b ∈ key ++ 0x3d :: value, isprint b = true := by
    intro b hb
    have hb' := List.mem_of_mem_take (hmem b hb)
    rw [Lib.encode, List.mem_flatMap] at hb'
    obtain ⟨p, hp, hbp⟩ := hb'
    obtain ⟨q, hq, rfl⟩ := List.mem_map.1 hp
    simp only [List.mem_append, List.mem_cons, List.not_mem_nil, or_false] at hbp
    rcases hbp with (hkey | rfl | hvalue) | rfl
    · exact isprint_of_mem_ascii (env.key_printable q hq).1 hkey
    · decide
    · exact isprint_of_mem_ascii (env.value_printable q hq) hvalue
    · exact absurd hb hnul
  exact ⟨fun b hb => hprint b (List.mem_append_left _ hb),
    fun b hb => hprint b (List.mem_append_right _ (List.mem_cons_of_mem _ hb)), hequals⟩

theorem mem_received_of_lookup (seq : ℕ) (now : ℤ) {header : Bytes} (hheader : 0x3d ∉ header) {n : ℕ}
    {p : String × String} (h : (parserRawData seq now
      (toStr (NetlinkUeventMonitor.recv n (env.encode header)))).getEventField p.1 = some p.2) :
    (ascii p.1, ascii p.2) ∈ env.received header n ∧ 0x3d ∉ ascii p.2 := by
  rw [Event.getEventField, env.fields_decode seq now hheader] at h
  have hmem := List.mem_reverse.1 (List.mem_filter.1 (mem_of_lookup h)).1
  obtain ⟨⟨key, value⟩, hreceived, heq⟩ := List.mem_map.1 hmem
  obtain ⟨hkey, hvalue, hequals⟩ := env.printable_of_mem_received hreceived
  have hk : text key = p.1 := congrArg Prod.fst heq
  have hv : text value = p.2 := congrArg Prod.snd heq
  rw [← hk, ← hv, ascii_text hkey, ascii_text hvalue]
  exact ⟨hreceived, hequals⟩

theorem received_eq_bytes (hequals : ∀ p ∈ env.entries, '=' ∉ p.2.toList) {header : Bytes} {n : ℕ}
    (hfits : env.entries = [] ∨ (env.encode header).length ≤ n + 1) : env.received header n = env.bytes := by
  apply Lib.entries_encode_take (by decide)
  · intro p hp
    refine ⟨env.isEntry hp, ?_⟩
    obtain ⟨q, hq, rfl⟩ := List.mem_map.1 hp
    exact (equals_mem_ascii (env.value_printable q hq)).not.2 (hequals q hq)
  · rcases hfits with hempty | hlen
    · rw [bytes, hempty]
      exact Nat.zero_le _
    · rw [encode, List.length_append, List.length_cons] at hlen
      omega

theorem ascii_injective {s t : String} (hs : Printable s) (ht : Printable t) (h : ascii s = ascii t) :
    s = t := by
  rw [← text_ascii hs, h, text_ascii ht]

theorem last_notMem_received {before : List (String × String)} {p : String × String}
    (hentries : env.entries = before ++ [p]) {header : Bytes} {n : ℕ}
    (hlong : n + 1 < (env.encode header).length) : (ascii p.1, ascii p.2) ∉ env.received header n := by
  have hp : p ∈ env.entries := by simp [hentries]
  have hbytes : env.bytes = before.map (fun q => (ascii q.1, ascii q.2)) ++ [(ascii p.1, ascii p.2)] := by
    rw [bytes, hentries, List.map_append]
    rfl
  have hlen : 1 < (Lib.encode 0 0x3d env.bytes).length := by
    rw [hbytes, Lib.encode, List.flatMap_append, List.length_append]
    simp
    omega
  rw [encode, List.length_append, List.length_cons] at hlong
  rw [received, hbytes]
  apply Lib.notMem_entries_take (by decide)
  · intro q hq
    obtain ⟨r, hr, rfl⟩ := List.mem_map.1 hq
    have hr' : r ∈ env.entries := by
      rw [hentries]
      exact List.mem_append_left _ hr
    refine ⟨env.isEntry (List.mem_map_of_mem hr'), ?_⟩
    intro heq
    have hkey := ascii_injective (env.key_printable r hr').1 (env.key_printable p hp).1 heq
    have hnodup := env.nodup
    rw [hentries, List.map_append, List.nodup_append] at hnodup
    exact hnodup.2.2 _ (List.mem_map_of_mem hr) _ (by simp) hkey
  · exact env.isEntry (List.mem_map_of_mem hp)
  · rw [← hbytes]
    omega

/-- Decoding gives back the environment, whatever the header and the size of the buffer, exactly when no
value contains a `=`, and the message fits the buffer, except perhaps for its last NUL, unless there is
nothing in it. -/
theorem decode_encode_iff (seq : ℕ) (now : ℤ) {header : Bytes} (hheader : 0x3d ∉ header) (buf_size : ℕ) :
    (∀ key, (parserRawData seq now (toStr (NetlinkUeventMonitor.recv buf_size
        (env.encode header)))).getEventField key = env.entries.lookup key) ↔
      (∀ p ∈ env.entries, '=' ∉ p.2.toList) ∧
        (env.entries = [] ∨ (env.encode header).length ≤ buf_size + 1) := by
  constructor
  · intro hdecode
    have hmem : ∀ p ∈ env.entries,
        (ascii p.1, ascii p.2) ∈ env.received header buf_size ∧ 0x3d ∉ ascii p.2 := by
      intro p hp
      apply env.mem_received_of_lookup seq now hheader
      rw [hdecode]
      exact (lookup_eq_some_iff_mem env.nodup).2 hp
    refine ⟨fun p hp => (equals_mem_ascii (env.value_printable p hp)).not.1 (hmem p hp).2, ?_⟩
    rcases List.eq_nil_or_concat' env.entries with hempty | ⟨before, p, hentries⟩
    · exact .inl hempty
    · refine .inr (Nat.le_of_not_lt fun hlong => ?_)
      exact env.last_notMem_received hentries hlong (hmem p (by simp [hentries])).1
  · rintro ⟨hequals, hfits⟩ key
    rw [Event.getEventField, env.fields_decode seq now hheader, env.received_eq_bytes hequals hfits,
      env.map_text_bytes, List.filter_eq_self.2, lookup_reverse env.nodup]
    intro p hp
    simpa using (env.key_ne p (List.mem_reverse.1 hp)).2

/-- The environment with one key. -/
def single (key value : String)
    (hkey : (key ≠ "" ∧ key ≠ UEVENT_RECVTIME) ∧ Printable key ∧ '=' ∉ key.toList)
    (hvalue : Printable value) : Environment where
  entries := [(key, value)]
  nodup := List.nodup_singleton key
  key_ne := by
    rintro p hp
    rw [List.mem_singleton.1 hp]
    exact hkey.1
  key_printable := by
    rintro p hp
    rw [List.mem_singleton.1 hp]
    exact hkey.2
  value_printable := by
    rintro p hp
    rw [List.mem_singleton.1 hp]
    exact hvalue

/-- A value with a `=` of its own is dropped with its key. -/
theorem equals_in_value_dropped :
    let env := single "NAME" "a=b" (by decide) (by decide)
    0x3d ∉ ascii "add@/x" ∧
      (parserRawData 0 0 (toStr (NetlinkUeventMonitor.recv 4096
        (env.encode (ascii "add@/x"))))).getEventField "NAME" = none ∧
      env.entries.lookup "NAME" = some "a=b" := by
  decide

theorem decode_encode_ab :
    let env := single "NAME" "ab" (by decide) (by decide)
    0x3d ∉ ascii "add@/x" ∧
      ((∀ key, (parserRawData 0 0 (toStr (NetlinkUeventMonitor.recv 4096
        (env.encode (ascii "add@/x"))))).getEventField key = env.entries.lookup key) ↔
        (∀ p ∈ env.entries, '=' ∉ p.2.toList) ∧
          (env.entries = [] ∨ (env.encode (ascii "add@/x")).length ≤ 4096 + 1)) :=
  ⟨by decide, decode_encode_iff _ 0 0 (by decide) 4096⟩

end Environment

end NetProg.Uevent
