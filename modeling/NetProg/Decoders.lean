import NetProg.Cxx.Blocks
import NetProg.Python.Blocks

/-!
# The C++ and the Python block server agree

Both loops follow `Lib.Decodes` on the same code of lengths, so they agree on every stream, however it is
cut and wherever it ends, and they end normally on exactly the streams that start with a framed
conversation.
-/

namespace NetProg
open Lib (Decodes decodes_closed_iff)

/-- On any stream and any two schedules the servers deliver the same blocks and leave the same bytes
unread. If the stream starts with a framed conversation both finish having consumed exactly one, and
otherwise both fail with the error that reports the end of the stream. -/
theorem block_servers_agree (e : Endian) (stream : Bytes) (cxxRecvs pyRecvs : RecvSchedule) :
    ∃ N, ∀ n ≥ N, ∀ n' ≥ N,
      let cxx := Cxx.server e ⟨stream, cxxRecvs.upTo n⟩
      let py := Python.server ⟨stream, pyRecvs.upTo n'⟩
      cxx.blocks = py.blocks ∧ cxx.final.input = py.final.input ∧
      ((∃ ms rest, networkOrder.Conversation stream ms rest) →
        cxx.outcome = .finished ∧ py.outcome = .finished ∧
          networkOrder.Conversation stream cxx.blocks cxx.final.input) ∧
      ((¬ ∃ ms rest, networkOrder.Conversation stream ms rest) →
        (∃ x, cxx.outcome = .failed x ∧ x.IsEof) ∧ ∃ x, py.outcome = .failed x ∧ x.IsEof) := by
  obtain ⟨N, hN⟩ := cxxRecvs.exists_budget (stream.length + 1)
  obtain ⟨N', hN'⟩ := pyRecvs.exists_budget (stream.length + 1)
  refine ⟨max N N', ?_⟩
  intro n hn n' hn'
  have hcxx := @Cxx.server_of_decodes e ⟨stream, cxxRecvs.upTo n⟩
  have hpy := @Python.server_of_decodes ⟨stream, pyRecvs.upTo n'⟩
  have hcxxBudget := hN n (le_trans (le_max_left _ _) hn) stream
  have hpyBudget := hN' n' (le_trans (le_max_right _ _) hn') stream
  have hcxxBenign := cxxRecvs.benign stream n
  have hpyBenign := pyRecvs.benign stream n'
  by_cases hconv : ∃ ms rest, networkOrder.Conversation stream ms rest
  · obtain ⟨ms, rest, hms⟩ := hconv
    have hdecodes := decodes_closed_iff.mpr hms
    obtain ⟨hblocks, hfinished, hinput⟩ := hcxx hdecodes hcxxBenign hcxxBudget
    obtain ⟨hblocks', hfinished', hinput'⟩ := hpy hdecodes hpyBenign hpyBudget
    refine ⟨hblocks.trans hblocks'.symm, hinput.trans hinput'.symm, fun _ => ⟨hfinished, hfinished', ?_⟩,
      fun hno => absurd ⟨ms, rest, hms⟩ hno⟩
    rw [hblocks, hinput]
    exact hms
  · obtain ⟨blocks, rest, ending, hdecodes⟩ := Decodes.total networkOrder stream
    cases ending with
    | closed => exact absurd ⟨blocks, rest, decodes_closed_iff.mp hdecodes⟩ hconv
    | truncated =>
      obtain ⟨hblocks, hfailed, hinput⟩ := hcxx hdecodes hcxxBenign hcxxBudget
      obtain ⟨hblocks', hfailed', hinput'⟩ := hpy hdecodes hpyBenign hpyBudget
      exact ⟨hblocks.trans hblocks'.symm, hinput.trans hinput'.symm, fun hyes => absurd hyes hconv,
        fun _ => ⟨hfailed, hfailed'⟩⟩

end NetProg
