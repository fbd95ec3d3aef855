import NetProg.C.Strings

/-!
# The error printers of the C library

`err_doit` of `lib/c/error.c` and `netdb_err_doit` of `lib/c/wrapnetdb.c`, which put a message and the text
of an error together in an array of the stack. They write nowhere else, and what they print is the start of
both with a newline (`prints_start`).
-/

namespace NetProg.C
open Lib Sockaddr

def MAXLINE : ℕ := 1024

/-- `snprintf(buf + n, MAXLINE - n, ": %s", …)`, if there is the text of an error to print. -/
def printError (buf : Bytes) (n : ℤ) : Option Bytes → Option Bytes
  | some text => snprintf buf n.toNat (toSize (MAXLINE - n)) (ascii ": " ++ cString text)
  | none => some buf

/-- What both functions do with `buf`, which starts as `fresh`: the line on `stderr`. The text of the
message is what `vsnprintf` makes of `fmt` and `ap`. -/
def printLine (fresh : ℕ → UInt8) (message : Bytes) (error : Option Bytes) : Option Bytes := do
  let buf ← snprintf ((List.range (MAXLINE + 1)).map fresh) 0 MAXLINE message
  let n := toInt (← string buf 0).length
  let buf ← printError buf n error
  let buf ← strcat buf 0 [newline]
  string buf 0

/-- `err_doit(errnoflag, fmt, ap)`. -/
def errDoit (fresh : ℕ → UInt8) (strerror : ℤ → Bytes) (errno errnoflag : ℤ) (message : Bytes) : Option Bytes :=
  printLine fresh message (if errnoflag ≠ 0 then some (strerror errno) else none)

/-- `enum netdb_error_type`. -/
inductive NetdbErrorType
  | netdb_hostent_error
  | netdb_addrinfo_error
  deriving DecidableEq, Repr

/-- `netdb_err_doit(error_type, error_code, fmt, ap)`. -/
def netdbErrDoit (fresh : ℕ → UInt8) (hstrerror gai_strerror : ℤ → Bytes) (error_code : ℤ) (message : Bytes) :
    NetdbErrorType → Option Bytes
  | .netdb_hostent_error => printLine fresh message (some (hstrerror error_code))
  | .netdb_addrinfo_error => printLine fresh message (some (gai_strerror error_code))

/-- What there is to print. -/
def whole (message : Bytes) : Option Bytes → Bytes
  | some error => cString message ++ (ascii ": " ++ cString error)
  | none => cString message

section

variable {message text : Bytes} {buf : Bytes}

theorem printError_eq (hlen : buf.length = MAXLINE + 1)
    (hbuf : StringAt 0 buf 0 ((cString message).take (MAXLINE - 1))) {n : ℕ}
    (hn : n = ((cString message).take (MAXLINE - 1)).length) (error : Option Bytes) :
    ∃ buf', printError buf (toInt n) error = some buf' ∧ buf'.length = MAXLINE + 1 ∧
      StringAt 0 buf' 0 ((whole message error).take (MAXLINE - 1)) := by
  cases error with
  | none => exact ⟨buf, rfl, hlen, hbuf⟩
  | some text =>
    have hroom : MAXLINE - 1 < MAXLINE := by decide
    have hle : n ≤ MAXLINE - 1 := hn ▸ List.length_take_le _ _
    have hint : toInt n = n := toInt_of_le (hle.trans (by decide))
    have hsize : toSize (MAXLINE - toInt n) = MAXLINE - n := by
      rw [hint]
      exact toSize_sub (hle.trans (Nat.sub_le _ _)) (by decide)
    have herror : cString (ascii ": " ++ cString text) = ascii ": " ++ cString text := by
      apply cString_eq_self
      rw [List.mem_append, not_or]
      exact ⟨by decide, notMem_cString text⟩
    have hwhole : (whole message (some text)).take (MAXLINE - 1) =
        (cString message).take (MAXLINE - 1) ++ (ascii ": " ++ cString text).take (MAXLINE - n - 1) := by
      have hrest : MAXLINE - n - 1 = MAXLINE - 1 - (cString message).length := by
        rw [hn, List.length_take]
        omega
      rw [whole, List.take_append, hrest]
    have hfits : 0 + ((cString message).take (MAXLINE - 1)).length + (MAXLINE - n) ≤ buf.length := by
      rw [← hn]
      omega
    obtain ⟨buf', hprint, hlen', hstring⟩ := snprintf_append (ascii ": " ++ cString text) hbuf.notMem
      ((List.prefix_append _ _).trans hbuf.lies) (show 0 < MAXLINE - n by omega) hfits
    rw [← hn, Nat.zero_add] at hprint
    refine ⟨buf', ?_, hlen'.trans hlen, ?_⟩
    · rw [printError, hsize, hint, Int.toNat_natCast, hprint]
    · rwa [hwhole, ← herror]

theorem printLine_eq (fresh : ℕ → UInt8) (message : Bytes) (error : Option Bytes) :
    printLine fresh message error = some ((whole message error).take (MAXLINE - 1) ++ [newline]) := by
  obtain ⟨buf, hprint, hlen, hbuf⟩ := @snprintf_start ((List.range (MAXLINE + 1)).map fresh) MAXLINE 0 message
    (by decide) (by simp)
  rw [List.length_map, List.length_range] at hlen
  obtain ⟨buf', herror, hlen', hbuf'⟩ := printError_eq hlen hbuf rfl error
  have hnewline : cString [newline] = [newline] := by decide
  have hfits : 0 + ((whole message error).take (MAXLINE - 1)).length + (cString [newline]).length <
      buf'.length := by
    have hroom : MAXLINE - 1 < MAXLINE := by decide
    have hle := List.length_take_le (MAXLINE - 1) (whole message error)
    rw [hnewline, hlen', List.length_singleton]
    omega
  obtain ⟨buf'', hcat, -, hbuf''⟩ := strcat_append [newline] hbuf' hfits
  rw [hnewline] at hbuf''
  simp only [printLine, hprint, string_eq hbuf, Option.bind_eq_bind, Option.bind_some, herror, hcat]
  exact string_eq hbuf''

end

/-- Whatever is in the array of the stack, the two printers stay inside it, and print the first 1023 bytes
of the message and, behind a colon, the text of the error if one is asked for, with a newline. -/
theorem prints_start (fresh : ℕ → UInt8) (strerror hstrerror gai_strerror : ℤ → Bytes)
    (errno errnoflag error_code : ℤ) (message : Bytes) :
    errDoit fresh strerror errno errnoflag message =
        some ((cString message ++ if errnoflag ≠ 0 then ascii ": " ++ cString (strerror errno) else []).take 1023 ++
          [newline]) ∧
      ∀ error_type, netdbErrDoit fresh hstrerror gai_strerror error_code message error_type =
        some ((cString message ++ (ascii ": " ++ cString (match error_type with
          | .netdb_hostent_error => hstrerror error_code
          | .netdb_addrinfo_error => gai_strerror error_code))).take 1023 ++ [newline]) := by
  constructor
  · rw [errDoit, printLine_eq]
    split_ifs
    · rfl
    · rw [List.append_nil]
      rfl
  · intro error_type
    cases error_type with
    | netdb_hostent_error => exact printLine_eq fresh message (some (hstrerror error_code))
    | netdb_addrinfo_error => exact printLine_eq fresh message (some (gai_strerror error_code))

end NetProg.C
