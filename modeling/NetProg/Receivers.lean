import NetProg.C.Wrapsock
import NetProg.Cxx.Wrapsock
import NetProg.Python.TcpSixteenServer

/-!
# The receivers of an exact number of bytes

`RecvAll` of the C library, `Socket::RecvAll` and the `recvall` of the Python server of sixteen bytes, on the
same stream. All three receive what they are asked for and never ask for more. They differ at lengths that
few programs use: the C function prints what it was asked for with the conversion of an `int`, and Python
cannot ask for a length that is no `Py_ssize_t`.
-/

namespace NetProg

/-- All three calls are exact, each with its own schedule. -/
def AllReceiveExactly (object : Bytes) (n : ℕ) (input : Bytes) (cRecvs cxxRecvs pyRecvs : RecvSchedule) :
    Prop :=
  C.ReceivesExactly object n input cRecvs ∧ Cxx.Socket.ReceivesExactly n input cxxRecvs ∧
    Python.TcpSixteenServer.ReceivesExactly n input pyRecvs

/-- Wherever the stream ends and however it is cut, all three calls are exact if and only if the length is an
`int`, or the stream holds as many bytes and the length is a `Py_ssize_t`. -/
theorem allReceiveExactly_iff {object : Bytes} {n : ℕ} (hfits : n ≤ object.length) (hlt : n < 2 ^ 64)
    (input : Bytes) (cRecvs cxxRecvs pyRecvs : RecvSchedule) :
    AllReceiveExactly object n input cRecvs cxxRecvs pyRecvs ↔
      n < 2 ^ 31 ∨ n ≤ input.length ∧ n < 2 ^ 63 := by
  unfold AllReceiveExactly
  rw [C.receivesExactly_iff hfits hlt, Python.TcpSixteenServer.receivesExactly_iff]
  have hcxx := Cxx.Socket.receivesExactly hlt input cxxRecvs
  constructor
  · rintro ⟨hle | hsmall, -, hsize⟩
    · exact .inr ⟨hle, hsize⟩
    · exact .inl hsmall
  · rintro (hsmall | ⟨hle, hsize⟩)
    · exact ⟨.inr hsmall, hcxx, by omega⟩
    · exact ⟨.inl hle, hcxx, hsize⟩

/-- Three bytes of a stream that ends after two. -/
theorem allReceiveExactly_three :
    AllReceiveExactly [0, 0, 0] 3 [104, 105] (.always 1) (.always 2) (.always 3) ↔
      3 < 2 ^ 31 ∨ 3 ≤ [104, 105].length ∧ 3 < 2 ^ 63 :=
  @allReceiveExactly_iff [0, 0, 0] 3 (by decide) (by decide) [104, 105] (.always 1) (.always 2) (.always 3)

/-- Asked for `2 ^ 31` bytes of an empty stream, the C function says that it was expecting -2147483648. -/
theorem recvAll_prints_negative :
    C.recvAll (List.replicate (2 ^ 31) 0) (2 ^ 31) ⟨[], [.deliver 1]⟩ =
        .error (.errQuit (-2147483648) 0) ⟨[], []⟩ ∧
      ¬ AllReceiveExactly (List.replicate (2 ^ 31) 0) (2 ^ 31) [] (.always 1) (.always 1) (.always 1) := by
  have hwanted : toInt ((2 ^ 31 : ℕ) : ℤ) = -2147483648 := by decide
  have hreceived : toInt (toSize (((2 ^ 31 : ℕ) : ℤ) - (2 ^ 31 : ℕ))) = 0 := by decide
  refine ⟨?_, ?_⟩
  · rw [← hwanted, ← hreceived]
    exact Lib.whileLoop_stopped (by decide) (C.recvAllTurn_eof (Nat.zero_le _) (2 ^ 31))
  · rintro ⟨hc, -⟩
    have hfits : 2 ^ 31 ≤ (List.replicate (2 ^ 31) (0 : UInt8)).length := by rw [List.length_replicate]
    rcases (C.receivesExactly_iff hfits (by decide) [] (.always 1)).1 hc with hle | hsmall
    · exact absurd hle (by decide)
    · exact absurd hsmall (by decide)

end NetProg
