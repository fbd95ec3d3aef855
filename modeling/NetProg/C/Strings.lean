import NetProg.Lib.Strings
import NetProg.System.Sockaddr

/-!
# The string functions of the C library

`snprintf`, `strcpy` and `strcat` on strings in an array. A call that would read or write outside of
the array is `none`.
-/

namespace NetProg.C
open Lib Sockaddr

/-- `snprintf(array + start, size, …)` and `vsnprintf` when what is to be printed is `text`. -/
def snprintf (array : Bytes) (start size : ℕ) (text : Bytes) : Option Bytes :=
  if size = 0 then some array else put array start (text.take (size - 1) ++ [0])

/-- `strcpy(array + start, text)`. -/
def strcpy (array : Bytes) (start : ℕ) (text : Bytes) : Option Bytes := put array start (cString text ++ [0])

/-- `strcat(array + start, text)`. -/
def strcat (array : Bytes) (start : ℕ) (text : Bytes) : Option Bytes :=
  (string array start).bind fun s => put array (start + s.length) (cString text ++ [0])

section

variable {array : Bytes} {start size : ℕ} {s : Bytes}

theorem string_eq (h : StringAt 0 array start s) : string array start = some s := by
  rw [string, if_pos h.nul_mem, cString, h.takeWhile_eq]

theorem notMem_cString (object : Bytes) : 0 ∉ cString object :=
  fun hmem => by simpa using List.mem_takeWhile_imp hmem

theorem cString_cString (object : Bytes) : cString (cString object) = cString object :=
  cString_eq_self (notMem_cString object)

theorem cString_take (object : Bytes) (n : ℕ) : cString (object.take n) = (cString object).take n := by
  induction object generalizing n with
  | nil => simp [cString]
  | cons b object ih =>
    cases n with
    | zero => rfl
    | succ n =>
      by_cases hb : b = 0
      · simp [cString, hb]
      · have hrest := ih n
        simpa [cString, hb] using hrest

theorem cString_terminated (object : Bytes) : cString (object ++ [0]) = cString object := by
  induction object with
  | nil => simp [cString]
  | cons b object ih =>
    by_cases hb : b = 0
    · simp [cString, hb]
    · simpa [cString, hb] using ih

theorem snprintf_append (text : Bytes) (hs : 0 ∉ s) (hlies : s <+: array.drop start) (hsize : 0 < size)
    (hfits : start + s.length + size ≤ array.length) :
    ∃ array', snprintf array (start + s.length) size text = some array' ∧ array'.length = array.length ∧
      StringAt 0 array' start (s ++ (cString text).take (size - 1)) := by
  obtain ⟨array', hput⟩ : ∃ array', put array (start + s.length) (text.take (size - 1) ++ [0]) = some array' := by
    apply exists_put
    rw [List.length_append, List.length_take, List.length_singleton]
    omega
  refine ⟨array', by rw [snprintf, if_neg (by omega), hput], length_put hput, ?_⟩
  have hstring := StringAt.of_put hs hlies hput
  rwa [← cString_take]

theorem snprintf_start (start : ℕ) (text : Bytes) (hsize : 0 < size) (hfits : start + size ≤ array.length) :
    ∃ array', snprintf array start size text = some array' ∧ array'.length = array.length ∧
      StringAt 0 array' start ((cString text).take (size - 1)) :=
  snprintf_append (s := []) text List.not_mem_nil List.nil_prefix hsize hfits

theorem strcat_append (text : Bytes) (h : StringAt 0 array start s)
    (hfits : start + s.length + (cString text).length < array.length) :
    ∃ array', strcat array start text = some array' ∧ array'.length = array.length ∧
      StringAt 0 array' start (s ++ cString text) := by
  obtain ⟨array', hput⟩ : ∃ array', put array (start + s.length) (cString text ++ [0]) = some array' := by
    apply exists_put
    rw [List.length_append, List.length_singleton]
    omega
  refine ⟨array', by rw [strcat, string_eq h, Option.bind_some, hput], length_put hput, ?_⟩
  have hstring := StringAt.of_put h.notMem ((List.prefix_append _ _).trans h.lies) hput
  rwa [show (cString text).takeWhile (· ≠ 0) = cString text from cString_cString text] at hstring

end

/-! ### The string at a place -/

section

variable {array bytes : Bytes} {start : ℕ}

theorem string_append_of_notMem (hnul : 0 ∉ bytes) (behind : Bytes) :
    string (bytes ++ behind) 0 = (string behind 0).map (bytes ++ ·) := by
  have hcut : cString (bytes ++ behind) = bytes ++ cString behind := by
    rw [cString, List.takeWhile_append_of_pos]
    · rfl
    · intro b hb
      simpa using ne_of_mem_of_not_mem hb hnul
  unfold string
  simp only [List.drop_zero, List.mem_append, hnul, false_or, hcut]
  split_ifs with hmem
  · simp
  · simp

theorem string_drop (array : Bytes) (start : ℕ) : string (array.drop start) 0 = string array start := by
  simp [string]

theorem isSome_string_iff : (string array start).isSome ↔ 0 ∈ array.drop start := by
  unfold string
  split_ifs with hmem
  · simp [hmem]
  · simp [hmem]

theorem string_eq_nil_iff : string array start = some [] ↔ array[start]? = some 0 := by
  have hhead : array[start]? = (array.drop start).head? := by simp
  rw [hhead, string]
  cases array.drop start with
  | nil => simp
  | cons b behind =>
    by_cases hb : b = 0
    · simp [cString, hb]
    · simp [cString, hb]

end

end NetProg.C
