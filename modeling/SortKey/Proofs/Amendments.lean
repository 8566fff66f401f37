import SortKey.Proofs.Contents

/-!
# What a write makes of a buffer

A write that succeeds appends an item or replaces four bytes; one that fails changes nothing. What
it does at some offset of a buffer it does at the same distance into any front part put before it.
-/

namespace SortKey

namespace Stream

open BufMut

variable {γ : Type} [BufMut γ]

namespace Output

theorem bytes_ok {src bs : Bytes} {r : Range} (h : r.slice src = .ok bs) (b : γ) :
    bytes src r b = put bs b := by
  rw [bytes, h, checked_bind_ok]

theorem bytes_error {src : Bytes} {r : Range} {v : Violation} (h : r.slice src = .error v)
    (b : γ) : bytes src r b = .error v b := by
  rw [bytes, h]
  rfl

theorem patch_ok {start : Nat} {buf : Bytes} (x : Int32) (h : start + 4 ≤ buf.length)
    (hend : start + 4 < indexLimit) :
    patch start x buf = .ok ()
      ((Span.mk start (start + 4)).splice buf (BigEndian.digits 4 x.toBitVec.toNat)) := by
  have hoffset : offset buf = .ok buf.length buf := rfl
  rw [patch, bind_ok hoffset, addIndex_ok hend]
  simp only [if_pos h]
  change (checked ((Range.between start (start + 4)).span buf.length) >>= _) buf = _
  rw [Range.span_between, if_pos ⟨Nat.le_add_right _ _, h⟩]
  rfl

/-- The end of the four bytes lies behind the buffer or is no index. -/
theorem patch_error {start : Nat} {b : γ} (x : Int32)
    (h : start + 4 < indexLimit → (content b).length < start + 4) :
    patch start x b = .error (.patchOutOfRange start (content b).length) b := by
  have hoffset : offset b = .ok (content b).length b := rfl
  rw [patch, bind_ok hoffset]
  by_cases hend : start + 4 < indexLimit
  · rw [addIndex_ok hend]
    simp only [if_neg (Nat.not_le.mpr (h hend))]
    rfl
  · rw [addIndex_error (Nat.not_lt.mp hend)]
    rfl

theorem fits_of_patch {start : Nat} {x : Int32} {b b' : γ} (h : patch start x b = .ok () b') :
    start + 4 ≤ (content b).length ∧ start + 4 < indexLimit := by
  by_contra hroom
  have herror : start + 4 < indexLimit → (content b).length < start + 4 := by omega
  rw [patch_error x herror] at h
  cases h

end Output

namespace WriteStep

/-- The item that a step appends, a byte array as far as its range goes. -/
def pushes : WriteStep → Option Item
  | field f => some (.field f)
  | bytes src r => (r.slice src).toOption.map .bytes
  | _ => none

theorem pushes_bytes_ok {src bs : Bytes} {r : Range} (h : r.slice src = .ok bs) :
    (bytes src r).pushes = some (.bytes bs) := by
  rw [pushes, h]
  rfl

theorem pushes_bytes_error {src : Bytes} {r : Range} {v : Violation} (h : r.slice src = .error v) :
    (bytes src r).pushes = none := by
  rw [pushes, h]
  rfl

/-- What a step that succeeds makes of bytes whose first `front` are out of its reach. -/
def amend (front : Nat) (whole : Bytes) : WriteStep → Bytes
  | patch start x =>
      (Span.mk (front + start) (front + start + 4)).splice whole
        (BigEndian.digits 4 x.toBitVec.toNat)
  | step => whole ++ layout step.pushes.toList

theorem amend_append_left (step : WriteStep) (front buf : Bytes) :
    step.amend front.length (front ++ buf) = front ++ step.amend 0 buf := by
  cases step with
  | patch start x =>
      simp only [amend, Nat.zero_add, Nat.add_assoc]
      exact Span.splice_append_left front buf _ ⟨start, start + 4⟩
  | offset => exact List.append_assoc front buf _
  | field f => exact List.append_assoc front buf _
  | bytes src r => exact List.append_assoc front buf _

theorem run_offset (buf : Bytes) : offset.run buf = (.ok (some buf.length), buf) := rfl

theorem run_field (f : Field) (buf : Bytes) : (field f).run buf = (.ok none, buf ++ f.bytes) := by
  rw [run, perform]
  exact outcome_ok (bind_ok (Output.field_run f buf) _)

theorem run_bytes_ok {src bs : Bytes} {r : Range} (h : r.slice src = .ok bs) (buf : Bytes) :
    (bytes src r).run buf = (.ok none, buf ++ bs) := by
  have hrun : Output.bytes src r buf = .ok () (buf ++ bs) := Output.bytes_ok h buf
  rw [run, perform]
  exact outcome_ok (bind_ok hrun _)

theorem run_bytes_error {src : Bytes} {r : Range} {v : Violation} (h : r.slice src = .error v)
    (b : γ) : (bytes src r).run b = (.error v, b) := by
  rw [run, perform]
  exact outcome_error (bind_error (Output.bytes_error h b) _)

theorem run_patch_ok {start : Nat} {buf : Bytes} (x : Int32) (h : start + 4 ≤ buf.length)
    (hend : start + 4 < indexLimit) :
    (patch start x).run buf = (.ok none, (patch start x).amend 0 buf) := by
  rw [run, perform, amend, Nat.zero_add]
  exact outcome_ok (bind_ok (Output.patch_ok x h hend) _)

theorem run_patch_error {start : Nat} {b : γ} (x : Int32)
    (h : start + 4 < indexLimit → (content b).length < start + 4) :
    (patch start x).run b = (.error (.patchOutOfRange start (content b).length), b) := by
  rw [run, perform]
  exact outcome_error (bind_error (Output.patch_error x h) _)

/-- A step amends the content of the buffer, or fails and leaves the buffer alone. -/
theorem run_cases [LawfulBufMut γ] (step : WriteStep) (b : γ) :
    (∃ a b', step.run b = (.ok a, b') ∧ content b' = step.amend 0 (content b)) ∨
      ∃ v, step.run b = (.error v, b) := by
  -- What becomes of the content says what becomes of the buffer, unless the step fails.
  have hcontent := step.run_content b
  have hamends : ∀ a, step.run (content b) = (.ok a, step.amend 0 (content b)) →
      ∃ a b', step.run b = (.ok a, b') ∧ content b' = step.amend 0 (content b) := by
    intro a h
    rw [hcontent] at h
    have hanswer := congrArg Prod.fst h
    have hleft := congrArg Prod.snd h
    exact ⟨a, (step.run b).2, Prod.ext hanswer rfl, hleft⟩
  cases step with
  | offset => exact Or.inl (hamends (some (content b).length) (by simp [run_offset, amend, pushes]))
  | field f => exact Or.inl (hamends none (by simp [run_field, amend, pushes, Item.encode]))
  | bytes src r =>
      cases hslice : r.slice src with
      | ok bs =>
          have hpush := pushes_bytes_ok hslice
          exact Or.inl (hamends none (by simp [run_bytes_ok hslice, amend, hpush, Item.encode]))
      | error v => exact Or.inr ⟨v, run_bytes_error hslice b⟩
  | patch start x =>
      by_cases h : start + 4 ≤ (content b).length ∧ start + 4 < indexLimit
      · exact Or.inl (hamends none (run_patch_ok x h.1 h.2))
      · exact Or.inr ⟨_, run_patch_error x (by omega)⟩

/-- All steps but patches leave the buffer with what they append behind it. -/
theorem run_of_not_patch {step : WriteStep} (h : ∀ start x, step ≠ .patch start x) (buf : Bytes) :
    (step.run buf).2 = buf ++ layout step.pushes.toList := by
  cases step with
  | offset => simp [run_offset, pushes]
  | field f => simp [run_field, pushes, Item.encode]
  | bytes src r =>
      cases hslice : r.slice src with
      | ok bs => simp [run_bytes_ok hslice, pushes_bytes_ok hslice, Item.encode]
      | error v => simp [run_bytes_error hslice, pushes_bytes_error hslice]
  | patch start x => exact absurd rfl (h start x)

end WriteStep

end Stream

end SortKey
