import SortKey.Proofs.Fields
import SortKey.Proofs.Splices
import SortKey.Proofs.Views

/-!
# Writing seen through the content

Whatever a growing buffer is made of, a write does to its content what it does to a byte string, and
gives the same answer. So what is proved of writes to byte strings holds of the contents of any such
buffer.
-/

namespace SortKey.Stream

open BufMut LawfulBufMut

variable {γ : Type} [BufMut γ]

namespace Output

theorem seenAs_offset : SeenAs content (offset : Output γ Nat) (offset : Output Bytes Nat) :=
  fun _ => rfl

variable [LawfulBufMut γ]

theorem seenAs_put (bs : Bytes) :
    SeenAs content (put bs : Output γ Unit) (put bs : Output Bytes Unit) := by
  intro b
  obtain ⟨b', hput, hheld⟩ := put_ok bs b
  rw [hput, seen, hheld]
  rfl

theorem seenAs_bytes (src : Bytes) (r : Range) :
    SeenAs content (bytes src r : Output γ Unit) (bytes src r : Output Bytes Unit) :=
  (seenAs_checked _).bind seenAs_put

theorem seenAs_field (f : Field) :
    SeenAs content (field f : Output γ Unit) (field f : Output Bytes Unit) := by
  rw [field_eq_put, field_eq_put]
  exact seenAs_put f.bytes

/-- The bytes that are reclaimed are as many as were lent. -/
theorem seenAs_overwriteLent {start stop : Nat} {src : Bytes} (h : start + src.length = stop) :
    SeenAs content (overwriteLent (.between start stop) src : Output γ Unit)
      (overwriteLent (.between start stop) src : Output Bytes Unit) := by
  intro b
  rw [overwriteLent, overwriteLent, get_bind, get_bind, lend_eq, lend_eq]
  change (checked ((Range.between start stop).span (content b).length) >>= _) (content b) = _
  rw [Range.span_between]
  by_cases hin : start ≤ stop ∧ stop ≤ (content b).length
  · have hlen : ((Span.mk start stop).splice (content b) src).length = (lend b).length := by
      rw [lend_eq]
      exact Span.length_splice h hin.2
    rw [if_pos hin, checked_bind_ok, checked_bind_ok, set_run, set_run, seen,
      content_reclaim b _ hlen]
    rfl
  · rw [if_neg hin]
    rfl

theorem seenAs_patch (start : Nat) (x : Int32) :
    SeenAs content (patch start x : Output γ Unit) (patch start x : Output Bytes Unit) := by
  refine seenAs_offset.bind fun written => ?_
  by_cases hend : start + 4 < indexLimit
  · rw [addIndex_ok hend]
    by_cases hroom : start + 4 ≤ written
    · simp only [if_pos hroom]
      exact seenAs_overwriteLent (by rw [BigEndian.length_digits])
    · simp only [if_neg hroom]
      exact seenAs_throw _
  · rw [addIndex_error (Nat.not_lt.mp hend)]
    exact seenAs_throw _

end Output

namespace WriteStep

variable [LawfulBufMut γ]

theorem seenAs_perform (step : WriteStep) :
    SeenAs content (step.perform : Output γ (Option Nat))
      (step.perform : Output Bytes (Option Nat)) := by
  cases step with
  | offset => exact Output.seenAs_offset.map some
  | field f => exact (Output.seenAs_field f).bind fun _ => seenAs_pure none
  | bytes src r => exact (Output.seenAs_bytes src r).bind fun _ => seenAs_pure none
  | patch start x => exact (Output.seenAs_patch start x).bind fun _ => seenAs_pure none

theorem run_content (step : WriteStep) (b : γ) :
    step.run (content b) = (step.run b).map id content := step.seenAs_perform.outcome_eq b

end WriteStep

end SortKey.Stream
