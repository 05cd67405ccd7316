import EpollThreads.Config.LineSplitting

/-!
# The loader stays in its buffers

Whatever a file holds, the loop on the bytes of the buffer has a result, which
is that of the loader's model: no piece, no pointer and no argument leads out of
the line buffer or the arrays of `g_Server`.
-/

namespace EpollThreads.Config

open Foundations Logging

namespace Loading

variable {canAppend : List Byte → Bool}

theorem runBytes_eq (s : Loading) {buffer : List Byte} {pieces : List (List Byte)}
    (hbuffer : buffer.length = MY_CONFIGLINE_MAX)
    (hpieces : ∀ piece ∈ pieces, piece.length < MY_CONFIGLINE_MAX) :
    s.runBytes canAppend buffer pieces = some (s.run canAppend pieces) := by
  induction pieces generalizing s buffer with
  | nil => rfl
  | cons piece pieces ih =>
    obtain ⟨buffer', hlen, hstep⟩ := s.stepBytes_eq canAppend hbuffer
      (hpieces piece List.mem_cons_self)
    rw [runBytes, run, hstep]
    simp only [Option.bind_eq_bind, Option.bind_some]
    cases s.step canAppend piece with
    | next s => exact ih s hlen fun p hp => hpieces p (List.mem_cons_of_mem _ hp)
    | fail s | blocked s => rfl

end Loading

/-- No access falls outside the line buffer and no copy outside the array it fills. -/
theorem load_in_bounds (files : Files) (filename : Option (List Byte)) (g : SERVER) :
    loadServerConfigBytes files filename g = some (loadServerConfig files filename g) := by
  cases filename with
  | none => rfl
  | some path =>
    cases hread : files.read path with
    | none => simp only [loadServerConfigBytes, loadServerConfig, hread]
    | some content =>
      simp only [loadServerConfigBytes, loadServerConfig, hread]
      rw [Loading.runBytes_eq _ List.length_replicate, Option.map_some]
      exact fun piece hpiece => Nat.lt_succ_of_le (length_le_of_mem_fgetsAll hpiece)

end EpollThreads.Config
