import NetProg.Lib.Fields
import NetProg.System.Machine
import Mathlib.Data.List.DropRight
import Mathlib.Data.List.Infix

/-!
# Lines and C strings

What the sources take from the standard libraries of C and C++ to read text: C strings, `fgets`, and
`std::getline` on the standard input. `EndsLine` is the common rule of `fgets` and of the two `readline`s: a
line ends after a newline and when only the terminator fits after it.
-/

namespace NetProg

def newline : UInt8 := 10

/-- The bytes of a text. -/
def ascii (s : String) : Bytes := s.toList.map fun c => UInt8.ofNat c.toNat

theorem length_ascii (s : String) : (ascii s).length = s.length := by
  rw [ascii, List.length_map, String.length_toList]

/-- The C string at the start of an object. -/
def cString (object : Bytes) : Bytes := object.takeWhile (· ≠ 0)

theorem cString_eq_self {bytes : Bytes} (h : 0 ∉ bytes) : cString bytes = bytes :=
  List.takeWhile_eq_self_iff.2 fun b hb => by simpa using ne_of_mem_of_not_mem hb h

/-- The object starts with `bytes` and the terminator. -/
def Holds (object bytes : Bytes) : Prop := bytes ++ [0] <+: object

theorem Holds.cString_eq {object bytes : Bytes} (h : Holds object bytes) (hnul : 0 ∉ bytes) :
    cString object = bytes := by
  obtain ⟨rest, rfl⟩ := h
  rw [List.append_assoc, List.singleton_append]
  exact (Lib.takeWhile_ne_append hnul rest).1

theorem Holds.head?_eq {object bytes : Bytes} (h : Holds object bytes) :
    object.head? = some 0 ↔ bytes = [] ∨ bytes.head? = some 0 := by
  obtain ⟨rest, rfl⟩ := h
  cases bytes <;> simp

/-- A line of a reader with room for `maxlen` bytes, the terminator included, ends after `line`. -/
def EndsLine (maxlen : ℕ) (line : Bytes) : Prop := line.getLast? = some newline ∨ maxlen ≤ line.length + 1

instance (maxlen : ℕ) (line : Bytes) : Decidable (EndsLine maxlen line) :=
  inferInstanceAs (Decidable (_ ∨ _))

theorem not_endsLine_nil {maxlen : ℕ} (h : 1 < maxlen) : ¬ EndsLine maxlen [] := by
  rintro (hlast | hlen)
  · simp at hlast
  · rw [List.length_nil] at hlen
    omega

theorem not_full_nil : decide (EndsLine 1024 []) = false := decide_eq_false (not_endsLine_nil (by decide))

/-- The line without its newline, if it has one. -/
def chomp (line : Bytes) : Bytes := if line.getLast? = some newline then line.dropLast else line

theorem chomp_concat (line : Bytes) : chomp (line ++ [newline]) = line := by
  rw [chomp, if_pos List.getLast?_concat, List.dropLast_concat]

theorem chomp_of_notMem {line : Bytes} (h : newline ∉ line) : chomp line = line :=
  if_neg fun hlast => h (List.mem_of_getLast? hlast)

/-! ### `fgets` -/

/-- The first line of the input, of `n` bytes at most, and what follows it. -/
def cutLine : ℕ → Bytes → Bytes × Bytes
  | 0, input => ([], input)
  | _ + 1, [] => ([], [])
  | n + 1, b :: input =>
    if b = newline then ([b], input) else (b :: (cutLine n input).1, (cutLine n input).2)

/-- `fgets(ptr, n, fp)`: the string stored at `ptr` and the input left, or `none` for `NULL`. -/
def fgets (n : ℕ) (input : Bytes) : Option (Bytes × Bytes) :=
  if input = [] then none else some (cutLine (n - 1) input)

theorem cutLine_append (n : ℕ) (input : Bytes) : (cutLine n input).1 ++ (cutLine n input).2 = input := by
  induction n generalizing input with
  | zero => rfl
  | succ n ih =>
    cases input with
    | nil => rfl
    | cons b input =>
      unfold cutLine
      split
      · rfl
      · exact congrArg (b :: ·) (ih input)

theorem notMem_cutLine {b : UInt8} {input : Bytes} (h : b ∉ input) (n : ℕ) :
    b ∉ (cutLine n input).1 ∧ b ∉ (cutLine n input).2 := by
  rw [← not_or, ← List.mem_append, cutLine_append]
  exact h

theorem not_endsLine_of_prefix {n : ℕ} {input q : Bytes} (hpre : q <+: (cutLine n input).1)
    (hne : q ≠ (cutLine n input).1) : ¬ EndsLine (n + 1) q := by
  induction n generalizing input q with
  | zero => exact absurd (List.prefix_nil.1 hpre) hne
  | succ n ih =>
    cases q with
    | nil => exact not_endsLine_nil (by omega)
    | cons c q =>
      cases input with
      | nil => simp [cutLine] at hpre
      | cons b input =>
        unfold cutLine at hpre hne
        split at hpre
        · rename_i hb
          rw [if_pos hb] at hne
          obtain ⟨rfl, hq⟩ := List.cons_prefix_cons.1 hpre
          exact absurd (by rw [List.prefix_nil.1 hq]) hne
        · rename_i hb
          rw [if_neg hb] at hne
          obtain ⟨rfl, hq⟩ := List.cons_prefix_cons.1 hpre
          have hopen := ih hq fun heq => hne (by rw [heq])
          rintro (hlast | hlen)
          · cases q with
            | nil => exact hb (by simpa using hlast)
            | cons d q => exact hopen (.inl (by simpa using hlast))
          · exact hopen (.inr (by simpa using hlen))

theorem endsLine_cutLine (n : ℕ) (input : Bytes) :
    EndsLine (n + 1) (cutLine n input).1 ∨ (cutLine n input).2 = [] ∧ newline ∉ input := by
  induction n generalizing input with
  | zero => exact .inl (.inr (by simp))
  | succ n ih =>
    cases input with
    | nil => exact .inr ⟨rfl, List.not_mem_nil⟩
    | cons b input =>
      unfold cutLine
      split
      · rename_i hb
        exact .inl (.inl (by simp [hb]))
      · rename_i hb
        rcases ih input with (hlast | hlen) | ⟨hrest, hmem⟩
        · refine .inl (.inl ?_)
          rw [List.getLast?_cons, hlast]
          rfl
        · refine .inl (.inr ?_)
          simpa using hlen
        · refine .inr ⟨hrest, ?_⟩
          rw [List.mem_cons, not_or]
          exact ⟨fun h => hb h.symm, hmem⟩

theorem length_cutLine_le (n : ℕ) (input : Bytes) : (cutLine n input).1.length ≤ n := by
  induction n generalizing input with
  | zero => exact le_refl 0
  | succ n ih =>
    cases input with
    | nil => exact Nat.zero_le _
    | cons b input =>
      unfold cutLine
      split
      · simp
      · simpa using ih input

theorem cutLine_ne_nil {n : ℕ} {input : Bytes} (hn : n ≠ 0) (h : input ≠ []) : (cutLine n input).1 ≠ [] := by
  obtain ⟨n, rfl⟩ := Nat.exists_eq_succ_of_ne_zero hn
  obtain ⟨b, input, rfl⟩ := List.exists_cons_of_ne_nil h
  unfold cutLine
  split <;> simp

theorem getLast?_of_newline_mem {n : ℕ} {input : Bytes} (h : newline ∈ (cutLine n input).1) :
    (cutLine n input).1.getLast? = some newline := by
  induction n generalizing input with
  | zero => simp [cutLine] at h
  | succ n ih =>
    cases input with
    | nil => simp [cutLine] at h
    | cons b input =>
      unfold cutLine at h ⊢
      split at h
      · rename_i hb
        simp [hb]
      · rename_i hb
        rw [if_neg hb]
        rcases List.mem_cons.1 h with hnl | hnl
        · exact absurd hnl.symm hb
        · rw [List.getLast?_cons, ih hnl]
          rfl

/-! ### `std::getline` -/

/-- `std::getline(in, line)`: the line without its newline and the input left, or `none` when the stream
fails because there was nothing to extract. -/
def getline (input : Bytes) : Option (Bytes × Bytes) :=
  if input = [] then none
  else some (input.takeWhile (· ≠ newline), (input.dropWhile (· ≠ newline)).drop 1)

/-- The input of someone who types lines. -/
def typed (lines : List Bytes) : Bytes := (lines.map (· ++ [newline])).flatten

@[simp] theorem typed_nil : typed [] = [] := rfl

@[simp] theorem typed_cons (line : Bytes) (lines : List Bytes) :
    typed (line :: lines) = line ++ newline :: typed lines := by
  simp [typed]

@[simp] theorem typed_append (lines lines' : List Bytes) :
    typed (lines ++ lines') = typed lines ++ typed lines' := by
  simp [typed]

theorem getline_typed_cons {line : Bytes} (h : newline ∉ line) (lines : List Bytes) :
    getline (typed (line :: lines)) = some (line, typed lines) := by
  obtain ⟨htake, hdrop⟩ := Lib.takeWhile_ne_append h (typed lines)
  rw [typed_cons, getline, if_neg (by simp), htake, hdrop, List.drop_one, List.tail_cons]

end NetProg
