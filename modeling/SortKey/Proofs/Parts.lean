import SortKey.Proofs.Inputs
import SortKey.Proofs.Views

/-!
# Reading across parts

A read asks how many bytes are left, looks at the next one or takes some from the front. Whatever
part of its bytes a buffer shows, each of these does to the view what it does to a byte string, and
a computation that is made of them does so too. So no run of reads can tell where a buffer is
divided.
-/

namespace SortKey

namespace Stream

variable {β : Type} [Buf β] [LawfulBuf β]

open LawfulBuf

namespace Input

theorem seenAs_remaining :
    SeenAs view (remaining : Input β Nat) (remaining : Input Bytes Nat) := by
  intro b
  rw [remaining_run b]
  exact remaining_run (view b)

theorem seenAs_peek : SeenAs view (peek : Input β UInt8) (peek : Input Bytes UInt8) := by
  intro b
  cases hview : view b with
  | nil =>
      rw [peek_nil hview, seen, hview]
      exact peek_nil rfl
  | cons x bs =>
      rw [peek_cons hview, seen, hview]
      exact peek_cons rfl

/-- Bytes are taken only if there are enough of them, and then the same ones from either. -/
theorem seenAs_next (n : Nat) :
    SeenAs view (next n : Input β Bytes) (next n : Input Bytes Bytes) := by
  intro b
  by_cases h : n ≤ (view b).length
  · have hwhole : (Buf.take n (view b)).2 = (view b).drop n := (Buf.take_spec (b := view b) h).2
    rw [next_ok h, seen, (Buf.take_spec h).2, ← hwhole]
    exact next_ok (b := view b) h
  · have hlt := Nat.not_le.mp h
    rw [next_error hlt]
    exact next_error (b := view b) hlt

theorem seenAs_natural (n : Nat) :
    SeenAs view (natural n : Input β Nat) (natural n : Input Bytes Nat) :=
  (seenAs_next n).bind fun _ => seenAs_pure _

theorem seenAs_fill (r : Range) :
    SeenAs (Prod.map view id) (fill (β := β) r) (fill (β := Bytes) r) :=
  SeenAs.fillRange seenAs_next r

/-- The lead byte may be in one part and the bytes that it announces in others. -/
theorem seenAs_sorted (w : Width) :
    SeenAs view (sorted w : Input β Component) (sorted w : Input Bytes Component) := by
  refine seenAs_peek.bind fun b => (seenAs_checked _).bind fun _ => ?_
  refine ((seenAs_fill _).withBuffer _).bind ?_
  rintro ⟨-, cells⟩
  refine (seenAs_checked _).bind fun magnitude => ?_
  exact (seenAs_checked _).bind fun v => seenAs_pure _

theorem seenAs_field (k : Kind) :
    SeenAs view (field k : Input β Reading) (field k : Input Bytes Reading) := by
  have hfixed : ∀ (α : Type) (n : Nat) (g : Nat → α),
      SeenAs view (do return g (← natural n) : Input β α) (do return g (← natural n)) :=
    fun α n g => (seenAs_natural n).bind fun m => seenAs_pure (g m)
  cases k with
  | boolean => exact (hfixed Bool 1 _).map Reading.boolean
  | byte => exact (hfixed Int8 1 _).map Reading.byte
  | int16 => exact (hfixed Int16 2 _).map Reading.int16
  | int32 => exact (hfixed Int32 4 _).map Reading.int32
  | int64 => exact (hfixed Int64 8 _).map Reading.int64
  | float64 => exact (hfixed UInt64 8 _).map Reading.float64
  | sorted w => exact (seenAs_sorted w).map Reading.sorted

end Input

/-- A step answers a buffer as it answers the view, and leaves the same bytes unread. -/
theorem ReadStep.run_view (step : ReadStep) (b : β) :
    step.run (view b) = (step.run b).map id view := by
  cases step with
  | remaining =>
      rw [run, run, (Input.seenAs_remaining.map Reading.remaining).outcome_eq b]
      rfl
  | peek =>
      rw [run, run, (Input.seenAs_peek.map Reading.peeked).outcome_eq b]
      rfl
  | field k =>
      rw [run, run, (Input.seenAs_field k).outcome_eq b]
      rfl
  | fill dst r =>
      have h := (Input.seenAs_fill r).outcome_eq (b, dst)
      rw [run, run]
      simp only [Prod.map, id] at h
      rw [h]
      rfl

/-- The answers of a run, each with how many bytes are left after it. -/
def account {γ : Type} [Buf γ] (steps : List ReadStep) (b : γ) : List (ReadReply × Nat) :=
  (traceAll ReadStep.run steps b).map (Prod.map id Buf.remaining)

theorem account_view (steps : List ReadStep) (b : β) :
    account steps (view b) = account steps b := by
  rw [account, account, traceAll_map ReadStep.run_view, List.map_map]
  apply List.map_congr_left
  rintro ⟨reply, b'⟩ -
  exact congrArg (Prod.mk reply) (remaining_eq b').symm

/-- Every answer, what each destination holds and how many bytes are left are the same for a buffer
in parts as for the byte string that the parts make up, and so are the bytes left unread. Wherever a
run has come to, a part that is empty or used up is passed over for the next byte. -/
theorem parts_read_as_whole (steps : List ReadStep) (b : β) :
    let now := after ReadStep.run steps b
    account steps b = account steps (view b) ∧
    view now = after ReadStep.run steps (view b) ∧
    Input.peek now = (match view now with
      | [] => .error (.underflow ⟨1, 0⟩) now
      | x :: _ => .ok x now) ∧
    ∀ parts : List Bytes, account steps (⟨parts⟩ : Chain) = account steps parts.flatten := by
  intro now
  refine ⟨(account_view steps b).symm, (after_map ReadStep.run_view steps b).symm, ?_, ?_⟩
  · cases hview : view now with
    | nil => exact Input.peek_nil hview
    | cons x bs => exact Input.peek_cons hview
  · intro parts
    exact (account_view steps (⟨parts⟩ : Chain)).symm

/-- A field and an encoding are divided between parts, and empty parts lie within both. -/
theorem fields_read_across_parts :
    account [.field .int32, .peek, .fill [7, 7] (.upTo 3), .field (.sorted .w64)]
        (⟨[[], [0, 0], [], [1], [2, 0xF9, 3], [], [0x6F]]⟩ : Chain) =
      [(.value (.ok (.int32 258)), 3), (.value (.ok (.peeked 0xF9)), 3),
        (.filled (.error (.violation .indexOutOfRange)) [7, 7], 3),
        (.value (.ok (.sorted ⟨.w64, ⟨1000⟩⟩)), 0)] := by
  obtain ⟨haccount, -⟩ := parts_read_as_whole
    [.field .int32, .peek, .fill [7, 7] (.upTo 3), .field (.sorted .w64)]
    (⟨[[], [0, 0], [], [1], [2, 0xF9, 3], [], [0x6F]]⟩ : Chain)
  exact haccount.trans rfl

end Stream

end SortKey
