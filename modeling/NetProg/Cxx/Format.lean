import NetProg.Lib.Template
import NetProg.System.Machine

/-!
# `Format` of the C++ library

The formatter of `lib/cxx/format.hpp`. `Format` walks over the format string with an `int`, copies text, makes
one brace of two, and hands what stands between an opening brace and the next closing one to `FormatItem`.
That looks for a number: with one the field is explicit, without one it takes the next argument. One counter
is all the state, the index of the last automatic field, and `-1` as long as there was none.

`format_eq_render`: on a format string that an `int` can count, `Format` renders the pieces of a template with
`shown`, the numbering of the fields. Automatic fields take the arguments in order (`format_automatic`),
explicit fields are automatic ones of rearranged arguments (`format_explicit`), and the two together are
refused for being mixed only if an automatic field stands before an explicit one (`format_throws_iff`).
-/

namespace NetProg.Cxx.Util
open Lib Lib.Template

def openBrace : UInt8 := 123
def closeBrace : UInt8 := 125
def colon : UInt8 := 58

/-- `isspace` of the C locale. -/
def isspace (c : UInt8) : Bool := c = 32 || (9 ≤ c && c ≤ 13)

/-- `isdigit` of the C locale. -/
def isdigit (c : UInt8) : Bool := 48 ≤ c && c ≤ 57

/-! ### `std::string` -/

/-- `s[i]`, which is `'\0'` at the end. -/
def charAt (s : Bytes) (i : ℕ) : UInt8 := s.getD i 0

/-- `s.substr(pos, count)`. -/
def substr (s : Bytes) (pos count : ℕ) : Bytes := (s.drop pos).take count

/-- `s.find(c, pos)`, or `none` for `npos`. -/
def find (s : Bytes) (c : UInt8) (pos : ℕ) : Option ℕ :=
  if c ∈ s.drop pos then some (pos + ((s.drop pos).takeWhile (· ≠ c)).length) else none

/-- The value of decimal digits. -/
def decimal (digits : Bytes) : ℕ := digits.foldl (fun n c => 10 * n + (c.toNat - 48)) 0

/-- The ways in which a call of `Format` does not return. -/
inductive Failure
  | runtimeError (what : String)
  | outOfRange (what : String)
  /-- A character before the start of the string: undefined behaviour. -/
  | beforeStart (i : ℤ)
  /-- The loop is still running after all its turns. -/
  | running
  deriving DecidableEq, Repr

namespace Failure

/-- `Format` has thrown an exception. -/
def Thrown : Failure → Prop
  | .runtimeError _ => True
  | .outOfRange _ => True
  | _ => False

end Failure

/-- `std::stoi` of a string of digits. -/
def stoi (digits : Bytes) : Except Failure ℤ :=
  if INT_MAX < decimal digits then .error (.outOfRange "stoi") else .ok (decimal digits)

/-! ### `util` -/

/-- The arguments of a call, as they are rendered: at least one (`static_assert`), and `int` counts them. -/
structure Args where
  texts : List Bytes
  ne_nil : texts ≠ []
  length_le : texts.length ≤ INT_MAX

/-- `Arg<T>::Format(ss, fmt)`, which has no use for `fmt`. -/
def argFormat (arg ss _fmt : Bytes) : Bytes := ss ++ arg

/-- `Transfer(argArray, args...)`. -/
def transfer (argArray : List Bytes) : List Bytes → List Bytes
  | [] => argArray
  | t :: args => transfer (argArray ++ [t]) args

/-- The numbering has been automatic and meets a number. -/
def mixed : Failure :=
  .runtimeError "not support to mix automatic field numbering with manual field specification"

def badIndex : Failure := .outOfRange "args index out of range"

/-- `FormatItem(ss, item, args, automic_index)`: the new `ss` and `automic_index`. -/
def formatItem (ss item : Bytes) (args : List Bytes) (automic_index : ℤ) : Except Failure (Bytes × ℤ) := do
  let len := toInt item.length
  let start := ((item.take len.toNat).takeWhile isspace).length
  let stop := start + (((item.take len.toNat).drop start).takeWhile isdigit).length
  let (index, automic_index) ←
    if start = stop then pure (automic_index + 1, automic_index + 1)
    else if automic_index ≠ -1 then throw mixed
    else do
      let index ← stoi (substr item start (stop - start))
      pure (index, automic_index)
  if index < 0 ∨ toInt args.length ≤ index then throw badIndex
  let fmt := if (stop : ℤ) ≠ len ∧ charAt item stop = colon then item.drop stop else []
  return (argFormat (args.getD index.toNat []) ss fmt, automic_index)

/-- `while (i < len)`. -/
def formatLoop (format : Bytes) (argArray : List Bytes) (len : ℤ) :
    ℕ → ℤ → ℤ → Bytes → Except Failure Bytes
  | 0, _, _, _ => .error .running
  | turns + 1, i, bracket_index, ss =>
    if i < len then
      if i < 0 then .error (.beforeStart i)
      else if charAt format i.toNat = openBrace then
        if charAt format (i.toNat + 1) = openBrace then
          formatLoop format argArray len turns (i + 2) bracket_index (ss ++ [openBrace])
        else
          let start := i.toNat + 1
          match find format closeBrace start with
          | some pos => do
            let (ss, bracket_index) ← formatItem ss (substr format start (pos - start)) argArray bracket_index
            formatLoop format argArray len turns (toInt (pos + 1)) bracket_index ss
          | none => formatLoop format argArray len turns (i + 1) bracket_index (ss ++ [openBrace])
      else if charAt format i.toNat = closeBrace then
        let step := if charAt format (i.toNat + 1) = closeBrace then 2 else 1
        formatLoop format argArray len turns (i + step) bracket_index (ss ++ [closeBrace])
      else formatLoop format argArray len turns (i + 1) bracket_index (ss ++ [charAt format i.toNat])
    else .ok ss

/-- `Format(format, args...)`. -/
def format (format : Bytes) (args : Args) : Except Failure Bytes :=
  formatLoop format (transfer [] args.texts) (toInt format.length) (format.length + 1) 0 (-1) []

/-! ### The numbering of the fields -/

/-- The number of a field, or `none` if it has no digits. -/
def argId (item : Bytes) : Option ℕ :=
  let digits := (item.dropWhile isspace).takeWhile isdigit
  if digits = [] then none else some (decimal digits)

/-- The argument of a field when `used` automatic fields stand before it, and how many then do. -/
def shown (args : List Bytes) (used : ℕ) (item : Bytes) : Except Failure (Bytes × ℕ) :=
  match argId item with
  | none => if used < args.length then .ok (args.getD used [], used + 1) else .error badIndex
  | some k =>
    if used ≠ 0 then .error mixed
    else if k < args.length then .ok (args.getD k [], used)
    else if INT_MAX < k then .error (.outOfRange "stoi")
    else .error badIndex

section

variable {args : List Bytes} {used used' k : ℕ} {item out : Bytes}

theorem shown_automatic_eq_ok (hitem : argId item = none) :
    shown args used item = .ok (out, used') ↔
      used < args.length ∧ args.getD used [] = out ∧ used + 1 = used' := by
  rw [shown, hitem]
  simp only
  split_ifs with hlt <;> simp [hlt]

theorem shown_explicit_eq_ok (hitem : argId item = some k) :
    shown args used item = .ok (out, used') ↔
      used = 0 ∧ k < args.length ∧ args.getD k [] = out ∧ used = used' := by
  rw [shown, hitem]
  simp only
  split_ifs with hused hlt hmax
  · simp [hused]
  · simp [not_not.1 hused, hlt]
  · simp [hlt]
  · simp [hlt]

theorem shown_explicit_error (hitem : argId item = some k) (hle : args.length ≤ k) :
    ∃ what, shown args 0 item = .error (.outOfRange what) := by
  rw [shown, hitem]
  simp only
  rw [if_neg (not_not.2 rfl), if_neg (Nat.not_lt.2 hle)]
  split
  · exact ⟨_, rfl⟩
  · exact ⟨_, rfl⟩

end

theorem transfer_eq (argArray args : List Bytes) : transfer argArray args = argArray ++ args := by
  induction args generalizing argArray with
  | nil => exact (List.append_nil argArray).symm
  | cons t args ih => rw [transfer, ih, List.append_assoc, List.singleton_append]

theorem drop_takeWhile_length (p : UInt8 → Bool) (s : Bytes) :
    s.drop (s.takeWhile p).length = s.dropWhile p := by
  have hsplit := s.takeWhile_append_dropWhile (p := p)
  calc s.drop (s.takeWhile p).length = (s.takeWhile p ++ s.dropWhile p).drop (s.takeWhile p).length := by
        rw [hsplit]
    _ = s.dropWhile p := List.drop_left

theorem take_takeWhile_length (p : UInt8 → Bool) (s : Bytes) :
    s.take (s.takeWhile p).length = s.takeWhile p :=
  (List.prefix_iff_eq_take.1 (List.takeWhile_prefix p)).symm

theorem formatItem_eq {args : List Bytes} (hargs : args.length ≤ INT_MAX) {item : Bytes}
    (hitem : item.length ≤ INT_MAX) (ss : Bytes) (used : ℕ) :
    formatItem ss item args ((used : ℤ) - 1) =
      (shown args used item).map fun r => (ss ++ r.1, (r.2 : ℤ) - 1) := by
  have hlen : item.take (toInt item.length).toNat = item := by
    rw [toInt_of_le hitem, Int.toNat_natCast, List.take_length]
  have hn : toInt args.length = args.length := toInt_of_le hargs
  have hdigits : substr item (item.takeWhile isspace).length
      ((item.dropWhile isspace).takeWhile isdigit).length = (item.dropWhile isspace).takeWhile isdigit := by
    rw [substr, drop_takeWhile_length, take_takeWhile_length]
  unfold formatItem shown argId
  simp only [hlen, hn, drop_takeWhile_length, Nat.left_eq_add, List.length_eq_zero_iff,
    Nat.add_sub_cancel_left, hdigits]
  generalize (item.dropWhile isspace).takeWhile isdigit = digits
  by_cases hnil : digits = []
  · -- an automatic field
    simp only [hnil, if_true, Int.sub_add_cancel, pure_bind]
    by_cases hused : used < args.length
    · rw [if_neg (by omega), if_pos hused, Int.toNat_natCast]
      simp only [Except.map, argFormat, Nat.cast_succ, add_sub_cancel_right]
      rfl
    · rw [if_pos (by omega), if_neg hused]
      rfl
  · simp only [hnil, if_false]
    by_cases hused : used = 0
    · subst hused
      rw [if_neg (show ¬ ((0 : ℕ) : ℤ) - 1 ≠ -1 by decide), if_neg (show ¬ (0 : ℕ) ≠ 0 by decide)]
      by_cases hk : decimal digits < args.length
      · have hstoi : stoi digits = .ok (decimal digits) := if_neg (by omega)
        rw [hstoi, if_pos hk]
        show (if (decimal digits : ℤ) < 0 ∨ (args.length : ℤ) ≤ decimal digits then _ else _) = _
        rw [if_neg (by omega), Int.toNat_natCast]
        rfl
      · rw [if_neg hk]
        by_cases hmax : INT_MAX < decimal digits
        · have hstoi : stoi digits = .error (.outOfRange "stoi") := if_pos hmax
          rw [hstoi, if_pos hmax]
          rfl
        · have hstoi : stoi digits = .ok (decimal digits) := if_neg hmax
          rw [hstoi, if_neg hmax]
          show (if (decimal digits : ℤ) < 0 ∨ (args.length : ℤ) ≤ decimal digits then _ else _) = _
          rw [if_pos (by omega)]
          rfl
    · rw [if_pos (by omega), if_pos hused]
      rfl

/-! ### The scan of the format string -/

section

variable {format : Bytes} {args : List Bytes} {turns i : ℕ}

theorem charAt_eq_iff {c : UInt8} (hc : c ≠ 0) : charAt format i = c ↔ (format.drop i).head? = some c := by
  rw [charAt, List.getD_eq_getElem?_getD, List.head?_drop]
  cases format[i]? with
  | none => simpa using hc.symm
  | some d => simp

theorem drop_eq_charAt_cons (h : i < format.length) :
    format.drop i = charAt format i :: format.drop (i + 1) := by
  rw [List.drop_eq_getElem_cons h, charAt, List.getD_eq_getElem?_getD, List.getElem?_eq_getElem h]
  rfl

theorem find_some {c : UInt8} {start : ℕ} (h : c ∈ format.drop start) :
    ∃ pos, find format c start = some pos ∧ start ≤ pos ∧ pos < format.length ∧
      substr format start (pos - start) = (format.drop start).takeWhile (· ≠ c) ∧
      format.drop (pos + 1) = ((format.drop start).dropWhile (· ≠ c)).tail := by
  have hsplit := (format.drop start).takeWhile_append_dropWhile (p := (· ≠ c))
  have hfound : (format.drop start).dropWhile (· ≠ c) ≠ [] := by
    rw [Ne, List.dropWhile_eq_nil_iff]
    intro hall
    simpa using hall c h
  refine ⟨_, if_pos h, Nat.le_add_right _ _, ?_, ?_, ?_⟩
  · have hlen := congrArg List.length hsplit
    rw [List.length_append, List.length_drop] at hlen
    have hpos := List.length_pos_iff.2 hfound
    omega
  · rw [Nat.add_sub_cancel_left, substr, take_takeWhile_length]
  · rw [← drop_takeWhile_length, List.tail_drop, List.drop_drop, Nat.add_assoc]

theorem map_append_cons (x : Except Failure Bytes) (ss : Bytes) (c : UInt8) :
    (x.map (c :: ·)).map (ss ++ ·) = x.map (ss ++ [c] ++ ·) := by
  cases x <;> simp [Except.map]

theorem map_append_append (x : Except Failure Bytes) (ss out : Bytes) :
    (x.map (out ++ ·)).map (ss ++ ·) = x.map (ss ++ out ++ ·) := by
  cases x <;> simp [Except.map]

theorem formatLoop_field (hargs : args.length ≤ INT_MAX) (hformat : format.length ≤ INT_MAX)
    (hlt : i < format.length) (hopen : charAt format i = openBrace)
    (hdouble : (format.drop (i + 1)).head? ≠ some openBrace) (hclosed : closeBrace ∈ format.drop (i + 1))
    (used : ℕ) (ss : Bytes) :
    ∃ k, 0 < k ∧ i + k ≤ format.length ∧
      format.drop (i + k) = ((format.drop (i + 1)).dropWhile (· ≠ closeBrace)).tail ∧
        formatLoop format args format.length (turns + 1) i ((used : ℤ) - 1) ss =
          (shown args used ((format.drop (i + 1)).takeWhile (· ≠ closeBrace))).bind fun r =>
            formatLoop format args format.length turns ((i : ℤ) + k) ((r.2 : ℤ) - 1) (ss ++ r.1) := by
  obtain ⟨pos, hfind, hle, hpos, hitem, hrest⟩ := find_some hclosed
  have hstep : toInt (pos + 1) = (i : ℤ) + ((pos + 1 - i : ℕ) : ℤ) := by
    rw [← Nat.cast_succ, toInt_of_le (by omega)]
    omega
  have hlen : ((format.drop (i + 1)).takeWhile (· ≠ closeBrace)).length ≤ INT_MAX := by
    rw [← hitem, substr, List.length_take, List.length_drop]
    omega
  have hfield := formatItem_eq hargs hlen ss used
  refine ⟨pos + 1 - i, by omega, by omega, ?_, ?_⟩
  · rw [Nat.add_sub_cancel' (by omega), hrest]
  · rw [formatLoop, if_pos (by omega), if_neg (by omega), Int.toNat_natCast, if_pos hopen,
      if_neg (mt (charAt_eq_iff (by decide)).1 hdouble)]
    simp only [hfind, hitem, hstep]
    rw [hfield]
    cases shown args used ((format.drop (i + 1)).takeWhile (· ≠ closeBrace)) with
    | error e => rfl
    | ok r => rfl

theorem add_two_le {c : UInt8} (hc : (format.drop (i + 1)).head? = some c) : i + 2 ≤ format.length := by
  have hne : format.drop (i + 1) ≠ [] := by
    intro hnil
    simp [hnil] at hc
  rw [Ne, List.drop_eq_nil_iff] at hne
  omega

/-- Up to the end of the format string, the loop appends what is left of the template. -/
theorem formatLoop_eq (hargs : args.length ≤ INT_MAX) (hformat : format.length ≤ INT_MAX)
    (hi : i ≤ format.length) (hturns : format.length < turns + i) (used : ℕ) (ss : Bytes) :
    formatLoop format args format.length turns i ((used : ℤ) - 1) ss =
      (render (shown args) used (pieces openBrace closeBrace (format.drop i))).map (ss ++ ·) := by
  induction turns generalizing i used ss with
  | zero => omega
  | succ turns ih =>
    have hnext : ∀ (k : ℕ) (used : ℕ) (ss : Bytes), 0 < k → i + k ≤ format.length →
        formatLoop format args format.length turns ((i : ℤ) + k) ((used : ℤ) - 1) ss =
          (render (shown args) used (pieces openBrace closeBrace (format.drop (i + k)))).map (ss ++ ·) :=
      fun k used ss hk hle => ih (i := i + k) hle (by omega) used ss
    by_cases hend : i = format.length
    · rw [formatLoop, if_neg (by omega), hend, List.drop_length, pieces_nil, render, Except.map,
        List.append_nil]
    have hlt : i < format.length := by omega
    have hin : (i : ℤ) < format.length := by omega
    have hstart : ¬ (i : ℤ) < 0 := by omega
    rw [drop_eq_charAt_cons hlt, pieces]
    by_cases hopen : charAt format i = openBrace
    · rw [if_pos hopen]
      by_cases hdouble : (format.drop (i + 1)).head? = some openBrace
      · rw [formatLoop, if_pos hin, if_neg hstart, Int.toNat_natCast, if_pos hopen,
          if_pos ((charAt_eq_iff (by decide)).2 hdouble), if_pos hdouble, List.tail_drop, render,
          map_append_cons]
        exact hnext 2 used _ (by decide) (add_two_le hdouble)
      rw [if_neg hdouble]
      by_cases hclosed : closeBrace ∈ format.drop (i + 1)
      · obtain ⟨k, hk, hle, hrest, hturn⟩ :=
          @formatLoop_field _ _ turns _ hargs hformat hlt hopen hdouble hclosed used ss
        rw [if_pos hclosed, hturn]
        rcases hshown : shown args used ((format.drop (i + 1)).takeWhile (· ≠ closeBrace)) with
          e | ⟨out, used'⟩
        · rw [render_field_error hshown]
          rfl
        · rw [render_field_ok hshown, map_append_append, ← hrest]
          exact hnext k used' (ss ++ out) hk hle
      · rw [formatLoop, if_pos hin, if_neg hstart, Int.toNat_natCast, if_pos hopen,
          if_neg (mt (charAt_eq_iff (by decide)).1 hdouble), if_neg hclosed]
        simp only [find, if_neg hclosed]
        rw [render, map_append_cons]
        exact hnext 1 used _ (by decide) (by omega)
    rw [formatLoop, if_pos hin, if_neg hstart, Int.toNat_natCast, if_neg hopen, if_neg hopen]
    by_cases hclose : charAt format i = closeBrace
    · by_cases hdouble : (format.drop (i + 1)).head? = some closeBrace
      · rw [if_pos hclose, if_pos ((charAt_eq_iff (by decide)).2 hdouble), if_pos ⟨hclose, hdouble⟩,
          List.tail_drop, render, map_append_cons]
        exact hnext 2 used _ (by decide) (add_two_le hdouble)
      · rw [if_pos hclose, if_neg (mt (charAt_eq_iff (by decide)).1 hdouble),
          if_neg (fun h => hdouble h.2), render, map_append_cons, hclose]
        exact hnext 1 used _ (by decide) (by omega)
    · rw [if_neg hclose, if_neg (fun h => hclose h.1), render, map_append_cons]
      exact hnext 1 used _ (by decide) (by omega)

end

/-- `Format` renders the pieces of a format string that an `int` can count. -/
theorem format_eq_render {text : Bytes} (htext : text.length ≤ INT_MAX) (args : Args) :
    format text args = render (shown args.texts) 0 (pieces openBrace closeBrace text) := by
  have hloop := @formatLoop_eq text args.texts (text.length + 1) 0 args.length_le htext (Nat.zero_le _)
    (by omega) 0 []
  rw [format, transfer_eq, toInt_of_le htext, List.nil_append]
  refine hloop.trans ?_
  rw [List.drop_zero]
  cases render (shown args.texts) 0 (pieces openBrace closeBrace text) <;> rfl

/-! ### Automatic fields -/

/-- The format string `s{}s₁{}s₂…` with the braces of the texts doubled. -/
def automatic (s : Bytes) (segments : List Bytes) : Bytes :=
  compose openBrace closeBrace s (segments.map fun t => ([], t))

/-- Every text after the argument before it. -/
def interleave (args segments : List Bytes) : Bytes := (List.zipWith (· ++ ·) args segments).flatten

theorem pieces_automatic (s : Bytes) (segments : List Bytes) :
    pieces openBrace closeBrace (automatic s segments) =
      s.map .text ++ segments.flatMap fun t => .field [] :: t.map .text := by
  rw [automatic, pieces_compose, List.flatMap_map]
  intro f hf
  obtain ⟨t, -, rfl⟩ := List.mem_map.1 hf
  exact ⟨List.not_mem_nil, by simp [closeBrace, openBrace]⟩

theorem render_automatic {args : List Bytes} {used : ℕ} (hused : used ≤ args.length)
    (segments : List Bytes) :
    render (shown args) used (segments.flatMap fun t => .field [] :: t.map .text) =
      if used + segments.length ≤ args.length then .ok (interleave (args.drop used) segments)
      else .error badIndex := by
  induction segments generalizing used with
  | nil =>
    rw [List.length_nil, Nat.add_zero, if_pos hused, List.flatMap_nil, render]
    simp [interleave]
  | cons t segments ih =>
    rw [List.flatMap_cons, List.cons_append, List.length_cons]
    by_cases hlt : used < args.length
    · have hshown : shown args used [] = .ok (args.getD used [], used + 1) := if_pos hlt
      rw [render_field_ok hshown, render_texts, ih hlt, show used + 1 + segments.length =
        used + (segments.length + 1) by omega]
      split
      · rw [interleave, interleave, List.drop_eq_getElem_cons hlt, List.zipWith_cons_cons,
          List.flatten_cons, List.getD_eq_getElem?_getD, List.getElem?_eq_getElem hlt, List.append_assoc]
        rfl
      · rfl
    · have hshown : shown args used [] = .error badIndex := if_neg hlt
      rw [render_field_error hshown, if_neg (by omega)]

theorem format_eq_interleave (args : Args) (s : Bytes) {segments : List Bytes}
    (hlen : (automatic s segments).length ≤ INT_MAX) :
    format (automatic s segments) args =
      if segments.length ≤ args.texts.length then .ok (s ++ interleave args.texts segments)
      else .error badIndex := by
  rw [format_eq_render hlen, pieces_automatic, render_texts, render_automatic (Nat.zero_le _),
    Nat.zero_add, List.drop_zero]
  split <;> rfl

/-- Automatic fields take the arguments in their order, and one field more than there are arguments is an
error. -/
theorem format_automatic (args : Args) (s : Bytes) {segments : List Bytes}
    (hlen : (automatic s segments).length < 2 ^ 31) :
    format (automatic s segments) args =
      if segments.length ≤ args.texts.length then .ok (s ++ interleave args.texts segments)
      else .error (.outOfRange "args index out of range") :=
  format_eq_interleave args s (by rw [INT_MAX]; omega)

theorem format_automatic_ab :
    (automatic [] [[123], []]).length < 2 ^ 31 ∧
      format (automatic [] [[123], []]) ⟨[[97], [98]], by decide, by decide⟩ =
        if ([[123], []] : List Bytes).length ≤ 2 then .ok ([] ++ interleave [[97], [98]] [[123], []])
        else .error (.outOfRange "args index out of range") :=
  ⟨by decide, format_automatic ⟨[[97], [98]], by decide, by decide⟩ [] (by decide)⟩

/-! ### Explicit fields -/

/-- A field with a number: white space, digits, and anything without a brace after a colon. -/
structure Numbered where
  spaces : Bytes
  digits : Bytes
  spec : Option Bytes
  spaces_isspace : ∀ c ∈ spaces, isspace c = true
  digits_isdigit : ∀ c ∈ digits, isdigit c = true
  digits_ne_nil : digits ≠ []
  spec_braceless : ∀ text ∈ spec, openBrace ∉ text ∧ closeBrace ∉ text

theorem isspace_of_isdigit {c : UInt8} (h : isdigit c = true) : isspace c = false := by
  simp only [isdigit, isspace, Bool.and_eq_true, decide_eq_true_eq, Bool.or_eq_false_iff,
    Bool.and_eq_false_iff, decide_eq_false_iff_not, UInt8.le_iff_toNat_le, ← UInt8.toNat_inj] at h ⊢
  simp only [UInt8.reduceToNat] at h ⊢
  omega

namespace Numbered

def tail (f : Numbered) : Bytes := f.spec.elim [] (colon :: ·)

/-- What stands between the braces. -/
def item (f : Numbered) : Bytes := f.spaces ++ (f.digits ++ f.tail)

def number (f : Numbered) : ℕ := decimal f.digits

theorem head?_tail (f : Numbered) {c : UInt8} (h : f.tail.head? = some c) : c = colon := by
  unfold tail at h
  cases hspec : f.spec with
  | none => simp [hspec] at h
  | some text => simpa [hspec, eq_comm] using h

theorem notMem_tail (f : Numbered) {c : UInt8} (hc : c = openBrace ∨ c = closeBrace) : c ∉ f.tail := by
  unfold tail
  cases hspec : f.spec with
  | none => simp
  | some text =>
    obtain ⟨hopen, hclose⟩ := f.spec_braceless text hspec
    rw [Option.elim_some, List.mem_cons, not_or]
    rcases hc with rfl | rfl
    · exact ⟨by decide, hopen⟩
    · exact ⟨by decide, hclose⟩

theorem notMem_item (f : Numbered) {c : UInt8} (hc : c = openBrace ∨ c = closeBrace) : c ∉ f.item := by
  rw [item, List.mem_append, List.mem_append, not_or, not_or]
  have hnone : isspace c = false ∧ isdigit c = false := by
    rcases hc with rfl | rfl <;> decide
  refine ⟨fun hmem => ?_, fun hmem => ?_, f.notMem_tail hc⟩
  · simpa [hnone.1] using f.spaces_isspace c hmem
  · simpa [hnone.2] using f.digits_isdigit c hmem

theorem argId_item (f : Numbered) : argId f.item = some f.number := by
  have hspaces : f.item.dropWhile isspace = f.digits ++ f.tail := by
    obtain ⟨c, digits, hdigits⟩ := List.exists_cons_of_ne_nil f.digits_ne_nil
    have hdigit : isdigit c = true := f.digits_isdigit c (by simp [hdigits])
    have hspace : isspace c = false := isspace_of_isdigit hdigit
    rw [item, List.dropWhile_append_of_pos f.spaces_isspace, hdigits, List.cons_append,
      List.dropWhile_cons_of_neg (by simp [hspace])]
  have htail : f.tail.takeWhile isdigit = [] := by
    cases htail : f.tail with
    | nil => rfl
    | cons c tail =>
      obtain rfl := f.head?_tail (by rw [htail]; rfl)
      exact List.takeWhile_cons_of_neg (by decide)
  have htake : (f.item.dropWhile isspace).takeWhile isdigit = f.digits := by
    rw [hspaces, List.takeWhile_append_of_pos f.digits_isdigit, htail, List.append_nil]
  rw [argId]
  simp only [htake, f.digits_ne_nil, if_false]
  rfl

end Numbered

/-- The format string `s{k₁}s₁{k₂}s₂…` with the braces of the texts doubled. -/
def explicit (s : Bytes) (fields : List (Numbered × Bytes)) : Bytes :=
  compose openBrace closeBrace s (fields.map fun f => (f.1.item, f.2))

/-- The arguments that the fields name, in the order of the fields. -/
def rearranged (args : List Bytes) (fields : List (Numbered × Bytes)) : List Bytes :=
  fields.map fun f => args.getD f.1.number []

section

variable {fields : List (Numbered × Bytes)}

theorem pieces_explicit (s : Bytes) (fields : List (Numbered × Bytes)) :
    pieces openBrace closeBrace (explicit s fields) =
      s.map .text ++ fields.flatMap fun f => .field f.1.item :: f.2.map .text := by
  rw [explicit, pieces_compose, List.flatMap_map]
  intro g hg
  obtain ⟨f, -, rfl⟩ := List.mem_map.1 hg
  refine ⟨f.1.notMem_item (.inr rfl), ?_⟩
  intro hhead
  have hmem := List.mem_of_mem_head? (Option.mem_def.2 hhead)
  rw [List.mem_append, List.mem_singleton] at hmem
  rcases hmem with hmem | hmem
  · exact f.1.notMem_item (.inl rfl) hmem
  · exact absurd hmem (by decide)

theorem length_automatic_le (s : Bytes) (fields : List (Numbered × Bytes)) :
    (automatic s (fields.map Prod.snd)).length ≤ (explicit s fields).length := by
  rw [automatic, explicit, compose, compose, List.length_append, List.length_append]
  apply Nat.add_le_add_left
  induction fields with
  | nil => exact le_refl 0
  | cons f fields ih =>
    simp only [List.map_cons, List.flatMap_cons, List.length_append, List.length_cons,
      List.length_nil] at ih ⊢
    omega

theorem render_explicit {args : List Bytes} (hfields : ∀ f ∈ fields, f.1.number < args.length) :
    render (shown args) 0 (fields.flatMap fun f => .field f.1.item :: f.2.map .text) =
      .ok (interleave (rearranged args fields) (fields.map Prod.snd)) := by
  induction fields with
  | nil => rfl
  | cons f fields ih =>
    have hshown : shown args 0 f.1.item = .ok (args.getD f.1.number [], 0) :=
      (shown_explicit_eq_ok f.1.argId_item).2 ⟨rfl, hfields f List.mem_cons_self, rfl, rfl⟩
    rw [List.flatMap_cons, List.cons_append, render_field_ok hshown, render_texts,
      ih fun g hg => hfields g (List.mem_cons_of_mem f hg)]
    simp [Except.map, interleave, rearranged]

theorem render_explicit_error {args : List Bytes} (hfields : ∃ f ∈ fields, args.length ≤ f.1.number) :
    ∃ what, render (shown args) 0 (fields.flatMap fun f => .field f.1.item :: f.2.map .text) =
      .error (.outOfRange what) := by
  induction fields with
  | nil => simp at hfields
  | cons f fields ih =>
    rw [List.flatMap_cons, List.cons_append]
    by_cases hlt : f.1.number < args.length
    · have hshown : shown args 0 f.1.item = .ok (args.getD f.1.number [], 0) :=
        (shown_explicit_eq_ok f.1.argId_item).2 ⟨rfl, hlt, rfl, rfl⟩
      have hrest : ∃ f ∈ fields, args.length ≤ f.1.number := by
        obtain ⟨g, hg, hle⟩ := hfields
        rcases List.mem_cons.1 hg with rfl | hg
        · omega
        · exact ⟨g, hg, hle⟩
      obtain ⟨what, hwhat⟩ := ih hrest
      refine ⟨what, ?_⟩
      rw [render_field_ok hshown, render_texts, hwhat]
      rfl
    · obtain ⟨what, hshown⟩ := shown_explicit_error f.1.argId_item (Nat.le_of_not_lt hlt)
      exact ⟨what, render_field_error hshown⟩

/-- Explicit fields print what automatic ones print of the arguments they name, and a number without an
argument is out of range. -/
theorem format_explicit (args : Args) (s : Bytes) (hlen : (explicit s fields).length < 2 ^ 31) :
    ((∀ f ∈ fields, f.1.number < args.texts.length) →
      ∀ args' : Args, args'.texts = rearranged args.texts fields →
        format (explicit s fields) args = format (automatic s (fields.map Prod.snd)) args') ∧
    ((∃ f ∈ fields, args.texts.length ≤ f.1.number) →
      ∃ what, format (explicit s fields) args = .error (.outOfRange what)) := by
  have hle := length_automatic_le s fields
  constructor
  · intro hfields args' hargs'
    have hsegments : (fields.map Prod.snd).length ≤ args'.texts.length := by
      rw [hargs', rearranged, List.length_map, List.length_map]
    rw [format_eq_render (by rw [INT_MAX]; omega), format_eq_render (by rw [INT_MAX]; omega),
      pieces_explicit, pieces_automatic, render_texts, render_texts, render_explicit hfields,
      render_automatic (Nat.zero_le _), Nat.zero_add, if_pos hsegments, List.drop_zero, hargs']
  · intro hfields
    obtain ⟨what, hwhat⟩ := render_explicit_error hfields
    refine ⟨what, ?_⟩
    rw [format_eq_render (by rw [INT_MAX]; omega), pieces_explicit, render_texts, hwhat]
    rfl

end

/-- An `int` cannot count these characters: `Format` takes their number for a negative one. -/
theorem format_long {text : Bytes} (hmin : 2 ^ 31 ≤ text.length) (hmax : text.length < 2 ^ 32)
    (args : Args) : format text args = .ok [] := by
  have hlen : toInt text.length < 0 := by
    rw [toInt, Int.bmod_def]
    omega
  rw [format, formatLoop, if_neg (by omega)]

theorem isdigit_zeros (n : ℕ) : ∀ c ∈ List.replicate (n + 1) 48, isdigit c = true := by
  intro c hc
  rw [(List.mem_replicate.1 hc).2]
  decide

/-- The number zero in `n + 1` digits. -/
def zeros (n : ℕ) : Numbered where
  spaces := []
  digits := List.replicate (n + 1) 48
  spec := none
  spaces_isspace := List.forall_mem_nil _
  digits_isdigit := isdigit_zeros n
  digits_ne_nil := List.cons_ne_nil _ _
  spec_braceless _ h := absurd h (Option.not_mem_none _)

theorem number_zeros (n : ℕ) : (zeros n).number = 0 := by
  show decimal (List.replicate (n + 1) 48) = 0
  induction n with
  | zero => rfl
  | succ n ih => exact ih

theorem length_explicit_zeros (n : ℕ) : (explicit [] [(zeros n, [])]).length = n + 3 := by
  simp [explicit, compose, Numbered.item, Numbered.tail, zeros, escape]

/-- One argument, and a field whose format string an `int` cannot count. -/
theorem explicit_ne_automatic :
    let args : Args := ⟨[[97]], by decide, by decide⟩
    (∀ f ∈ [(zeros (2 ^ 31), ([] : Bytes))], f.1.number < args.texts.length) ∧
      args.texts = rearranged args.texts [(zeros (2 ^ 31), [])] ∧
      format (explicit [] [(zeros (2 ^ 31), [])]) args = .ok [] ∧
      format (automatic [] ([(zeros (2 ^ 31), ([] : Bytes))].map Prod.snd)) args = .ok [97] := by
  have hlen := length_explicit_zeros (2 ^ 31)
  refine ⟨?_, ?_, ?_, ?_⟩
  · intro f hf
    rw [List.mem_singleton.1 hf, number_zeros]
    exact Nat.one_pos
  · rw [rearranged, List.map_singleton, number_zeros]
    rfl
  · exact format_long (by omega) (by omega) _
  · have hautomatic : format (automatic [] [[]]) ⟨[[97]], by decide, by decide⟩ = .ok [97] := by decide
    exact hautomatic

theorem isspace_blank : ∀ c ∈ ([32] : Bytes), isspace c = true := by simp [isspace]

theorem isdigit_zeroOne : ∀ c ∈ ([48, 49] : Bytes), isdigit c = true := by simp [isdigit]

theorem braceless_x : ∀ text ∈ some ([120] : Bytes), openBrace ∉ text ∧ closeBrace ∉ text := by
  simp [openBrace, closeBrace]

/-- The field of ` 01:x`. -/
def paddedOne : Numbered where
  spaces := [32]
  digits := [48, 49]
  spec := some [120]
  spaces_isspace := isspace_blank
  digits_isdigit := isdigit_zeroOne
  digits_ne_nil := List.cons_ne_nil _ _
  spec_braceless := braceless_x

theorem format_explicit_swap :
    let args : Args := ⟨[[97], [98]], by decide, by decide⟩
    (explicit [] [(paddedOne, [125]), (zeros 0, [])]).length < 2 ^ 31 ∧
      ((∀ f ∈ [(paddedOne, [125]), (zeros 0, ([] : Bytes))], f.1.number < args.texts.length) →
        ∀ args' : Args, args'.texts = rearranged args.texts [(paddedOne, [125]), (zeros 0, [])] →
          format (explicit [] [(paddedOne, [125]), (zeros 0, [])]) args =
            format (automatic [] ([(paddedOne, [125]), (zeros 0, ([] : Bytes))].map Prod.snd)) args') ∧
      ((∃ f ∈ [(paddedOne, [125]), (zeros 0, ([] : Bytes))], args.texts.length ≤ f.1.number) →
        ∃ what,
          format (explicit [] [(paddedOne, [125]), (zeros 0, [])]) args = .error (.outOfRange what)) := by
  intro args
  have hlen : (explicit [] [(paddedOne, [125]), (zeros 0, [])]).length < 2 ^ 31 := by decide
  exact ⟨hlen, format_explicit args [] hlen⟩

/-! ### Mixed numbering -/

/-- The items of the fields of a format string. -/
def fields (text : Bytes) : List Bytes := items (pieces openBrace closeBrace text)

/-- What makes `Format` refuse fields: an automatic one before an explicit one, more automatic ones than
arguments, or a number without an argument. -/
def Refused (args : List Bytes) (fields : List Bytes) : Prop :=
  ¬ fields.Pairwise (fun s t => argId s = none → argId t = none) ∨
    args.length < fields.countP (fun s => argId s = none) ∨
    ∃ s ∈ fields, ∃ k, argId s = some k ∧ args.length ≤ k

theorem accepts_iff {args : List Bytes} {used : ℕ} (hused : used ≤ args.length) (fields : List Bytes) :
    Accepts (shown args) used fields ↔
      (used = 0 ∨ ∀ t ∈ fields, argId t = none) ∧
        fields.Pairwise (fun s t => argId s = none → argId t = none) ∧
        used + fields.countP (fun s => argId s = none) ≤ args.length ∧
        ∀ s ∈ fields, ∀ k, argId s = some k → k < args.length := by
  induction fields generalizing used with
  | nil => simpa [Accepts] using hused
  | cons s fields ih =>
    rw [Accepts, List.pairwise_cons, List.forall_mem_cons, List.forall_mem_cons]
    cases hs : argId s with
    | none =>
      rw [List.countP_cons_of_pos (by simp [hs])]
      constructor
      · rintro ⟨out, used', hshown, haccepts⟩
        obtain ⟨hlt, -, rfl⟩ := (shown_automatic_eq_ok hs).1 hshown
        obtain ⟨hall, hpairs, hcount, hnumbers⟩ := (ih hlt).1 haccepts
        have hrest : ∀ t ∈ fields, argId t = none := hall.resolve_left (Nat.succ_ne_zero used)
        exact ⟨.inr ⟨rfl, hrest⟩, ⟨fun t ht _ => hrest t ht, hpairs⟩, by omega, by simp, hnumbers⟩
      · rintro ⟨-, ⟨hrest, hpairs⟩, hcount, -, hnumbers⟩
        have hlt : used < args.length := by omega
        refine ⟨_, _, (shown_automatic_eq_ok hs).2 ⟨hlt, rfl, rfl⟩,
          (ih hlt).2 ⟨.inr ?_, hpairs, ?_, hnumbers⟩⟩
        · exact fun t ht => hrest t ht rfl
        · omega
    | some k =>
      rw [List.countP_cons_of_neg (by simp [hs])]
      constructor
      · rintro ⟨out, used', hshown, haccepts⟩
        obtain ⟨hzero, hk, -, rfl⟩ := (shown_explicit_eq_ok hs).1 hshown
        obtain ⟨-, hpairs, hcount, hnumbers⟩ := (ih hused).1 haccepts
        exact ⟨.inl hzero, ⟨by simp, hpairs⟩, hcount, by simpa using hk, hnumbers⟩
      · rintro ⟨hall, ⟨-, hpairs⟩, hcount, hk, hnumbers⟩
        have hzero : used = 0 := hall.resolve_right fun h => by simp at h
        exact ⟨_, _, (shown_explicit_eq_ok hs).2 ⟨hzero, hk k rfl, rfl, rfl⟩,
          (ih hused).2 ⟨.inl hzero, hpairs, hcount, hnumbers⟩⟩

theorem thrown_of_shown {args : List Bytes} {used : ℕ} {item : Bytes} {e : Failure}
    (h : shown args used item = .error e) : e.Thrown := by
  unfold shown at h
  split at h <;> split_ifs at h <;> (simp at h; subst h; exact trivial)

theorem throws_iff {text : Bytes} (htext : text.length ≤ INT_MAX) (args : Args) :
    (∃ e, format text args = .error e ∧ e.Thrown) ↔ Refused args.texts (fields text) := by
  have hiff := (@render_ok_iff _ _ _ (shown args.texts) 0 (pieces openBrace closeBrace text)).trans
    (accepts_iff (Nat.zero_le _) _)
  rw [← format_eq_render htext args] at hiff
  constructor
  · rintro ⟨e, he, -⟩
    by_contra hrefused
    simp only [Refused, not_or, not_not, not_lt, not_exists, not_and, not_le] at hrefused
    obtain ⟨hpairs, hcount, hnumbers⟩ := hrefused
    obtain ⟨out, hout⟩ := hiff.2 ⟨.inl rfl, hpairs, by rwa [Nat.zero_add], hnumbers⟩
    rw [he] at hout
    simp at hout
  · intro hrefused
    cases hresult : format text args with
    | error e =>
      rw [format_eq_render htext] at hresult
      obtain ⟨used, item, hitem⟩ := exists_of_render_error hresult
      exact ⟨e, rfl, thrown_of_shown hitem⟩
    | ok out =>
      obtain ⟨-, hpairs, hcount, hnumbers⟩ := hiff.1 ⟨out, hresult⟩
      rw [Nat.zero_add] at hcount
      rcases hrefused with hnot | hlt | ⟨s, hs, k, hk, hle⟩
      · exact absurd hpairs hnot
      · exact absurd hcount (Nat.not_le.2 hlt)
      · exact absurd (hnumbers s hs k hk) (Nat.not_lt.2 hle)

/-- `Format` throws if the fields are refused and an `int` can count the characters, and below four gigabytes
only then. -/
theorem format_throws_iff (text : Bytes) (args : Args) :
    (text.length < 2 ^ 31 ∧ Refused args.texts (fields text) →
      ∃ e, format text args = .error e ∧ e.Thrown) ∧
    (text.length < 2 ^ 32 → (∃ e, format text args = .error e ∧ e.Thrown) →
      text.length < 2 ^ 31 ∧ Refused args.texts (fields text)) := by
  constructor
  · rintro ⟨hlen, hrefused⟩
    exact (throws_iff (by rw [INT_MAX]; omega) args).2 hrefused
  · intro hmax hthrows
    by_cases hlen : text.length < 2 ^ 31
    · exact ⟨hlen, (throws_iff (by rw [INT_MAX]; omega) args).1 hthrows⟩
    · obtain ⟨e, he, -⟩ := hthrows
      rw [format_long (by omega) hmax] at he
      simp at he

theorem format_throws_iff_mixed :
    let text : Bytes := [123, 125, 123, 48, 125]
    let args : Args := ⟨[[97]], by decide, by decide⟩
    (text.length < 2 ^ 31 ∧ Refused args.texts (fields text)) ∧
      ∃ e, format text args = .error e ∧ e.Thrown := by
  intro text args
  have hthrows : ∃ e, format text args = .error e ∧ e.Thrown := ⟨mixed, by decide, trivial⟩
  have hiff := format_throws_iff text args
  exact ⟨hiff.2 (by decide) hthrows, hthrows⟩

/-- An explicit field and then an automatic one: both print the only argument. -/
theorem mixed_zero_automatic :
    let text : Bytes := [123, 48, 125, 123, 125]
    (∃ s ∈ fields text, argId s = none) ∧ (∃ s ∈ fields text, ∃ k, argId s = some k) ∧
      format text ⟨[[97]], by decide, by decide⟩ = .ok [97, 97] := by
  have hfields : fields [123, 48, 125, 123, 125] = [[48], []] := by
    have hzero := @pieces_field _ _ openBrace closeBrace [48] (by decide) (by decide) [123, 125]
    have hnext := @pieces_field _ _ openBrace closeBrace [] (by decide) (by decide) []
    rw [pieces_nil] at hnext
    exact congrArg items (hzero.trans (congrArg (Piece.field [48] :: ·) hnext))
  refine ⟨⟨[], ?_, rfl⟩, ⟨[48], ?_, 0, rfl⟩, by decide⟩
  · rw [hfields]
    decide
  · rw [hfields]
    decide

end NetProg.Cxx.Util
