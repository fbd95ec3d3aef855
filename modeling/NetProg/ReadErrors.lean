import NetProg.C.ReadlineStatics
import NetProg.Cxx.ReadBuffer

/-!
# Line readers after read errors

A caller of `readline` of the C library or of `ReadBuffer::Readline` of the C++ library that calls again
after a failed call. A line that is open when a read fails is not returned, and its bytes are not in the
buffer any more; at the end of the stream both return what they have of it. So the bytes that the calls have
handed over and the ones that wait in the buffer are the bytes that have been read exactly if no read fails
in an open line with bytes in it (`hands_over_iff`).
-/

namespace NetProg
open Lib

/-- The C reader of a descriptor before its first call. -/
def openC (rx : Rx) : Session C.LineStatics UInt8 := .start (.init rx)

/-- The C++ reader of a descriptor before its first call. -/
def openCxx (buf_size : ℕ) (rx : Rx) : Session Cxx.ReadBuffer UInt8 := .start (.new buf_size rx)

/-- In both libraries, with a buffer of the C++ reader that is not overrun: after any calls, what they have
handed over and what the buffer holds are the bytes read so far, precisely if none of the calls meets a read
that fails when bytes of its line have been taken. -/
theorem hands_over_iff (rx : Rx) (maxlens : List ℕ) {buf_size : ℕ} (hroom : Cxx.sizeofVector ≤ buf_size)
    (calls : List Cxx.ReadBuffer.ReadlineCall) :
    (let s := run (Session.step C.LineStatics.handOver) (openC rx) maxlens;
      s.handed ++ s.state.toLineBuffer.unread ++ s.state.rx.input = rx.input ↔
        Along (Session.step C.LineStatics.handOver) (Session.Spares C.LineStatics.Swallows) (openC rx) maxlens) ∧
    (let s := run (Session.step Cxx.ReadBuffer.handOver) (openCxx buf_size rx) calls;
      s.handed ++ s.state.unread ++ s.state.rx.input = rx.input ↔
        Along (Session.step Cxx.ReadBuffer.handOver) (Session.Spares Cxx.ReadBuffer.Swallows)
          (openCxx buf_size rx) calls) := by
  constructor
  · intro s
    rw [List.append_assoc]
    exact C.LineStatics.failingReader_readline.handed_iff ⟨C.LineStatics.inside_init rx, trivial⟩ maxlens
  · intro s
    rw [List.append_assoc]
    exact (Cxx.ReadBuffer.failingReader_readline hroom).handed_iff (Cxx.ReadBuffer.safe_new buf_size rx) calls

/-- The line `ab\n`: one byte arrives, a read fails, and the rest arrives. The first call fails, and the
second one hands over `b\n`. -/
theorem swallows_first_byte :
    let rx : Rx := ⟨[97, 98, 10], [.deliver 1, .fail (.other 5), .deliver 2]⟩
    (run (Session.step C.LineStatics.handOver) (openC rx) [100, 100]).handed = [98, 10] ∧
      (run (Session.step Cxx.ReadBuffer.handOver) (openCxx 32 rx) [⟨100, 10⟩, ⟨100, 10⟩]).handed = [98, 10] ∧
      ¬ ([98, 10] : Bytes) <+: rx.input := by
  intro rx
  refine ⟨?_, ?_, by decide⟩
  · have hhanded := Session.run_handed_eq C.LineStatics.handOver_simulates (C.LineStatics.inside_init rx) [100, 100]
    exact hhanded.trans (by decide)
  · decide

theorem hands_over_iff_ab :
    let rx : Rx := ⟨[97, 98, 10], [.deliver 1, .fail (.other 5), .deliver 2]⟩
    Cxx.sizeofVector ≤ 32 ∧
    (let s := run (Session.step C.LineStatics.handOver) (openC rx) [100, 100];
      s.handed ++ s.state.toLineBuffer.unread ++ s.state.rx.input = rx.input ↔
        Along (Session.step C.LineStatics.handOver) (Session.Spares C.LineStatics.Swallows) (openC rx) [100, 100]) ∧
    (let s := run (Session.step Cxx.ReadBuffer.handOver) (openCxx 32 rx) [⟨100, 10⟩, ⟨100, 10⟩];
      s.handed ++ s.state.unread ++ s.state.rx.input = rx.input ↔
        Along (Session.step Cxx.ReadBuffer.handOver) (Session.Spares Cxx.ReadBuffer.Swallows)
          (openCxx 32 rx) [⟨100, 10⟩, ⟨100, 10⟩]) :=
  ⟨by decide, hands_over_iff _ [100, 100] (by decide) [⟨100, 10⟩, ⟨100, 10⟩]⟩

end NetProg
