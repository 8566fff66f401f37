import SortKey.Buffer
import SortKey.Proofs.Inputs
import SortKey.Proofs.Openings

/-!
# Reading is settled by the opening

Reading at an offset and reading from the front of a buffer check their bytes in ways of their own,
but the opening of the bytes ahead settles the answer of each.
-/

namespace SortKey

namespace Lead

theorem require_ok {w : Width} {l : Lead} (h : l.length ≤ w.maxLength) : l.require w = .ok () :=
  if_pos h

theorem require_error {w : Width} {l : Lead} (h : w.maxLength < l.length) :
    l.require w = .error (.tooManyMagnitudeBytes l.count) := if_neg (Nat.not_le.mpr h)

theorem decode_take {l : Lead} {bs : Bytes} (w : Width) (h : l.length ≤ bs.length + 1) :
    l.decode w (bs.take l.count) = .ok (l.assemble w (bs.take l.count)) := by
  rw [length] at h
  rw [decode, if_pos]
  rw [List.length_take]
  omega

/-- Cells that hold an encoding hold its magnitude behind the first. -/
theorem slice_magnitude {l : Lead} {b : UInt8} {bs : Bytes} (h : l.length ≤ bs.length + 1)
    (rest : Bytes) :
    (Range.between 1 l.length).slice ((b :: bs).take l.length ++ rest) = .ok (bs.take l.count) := by
  have hlen : ((b :: bs).take l.length).length = l.length := List.length_take_of_le h
  rw [Range.slice_between l.length_pos (by rw [List.length_append]; omega),
    List.take_left' hlen, length, Nat.add_comm, List.take_succ_cons, List.drop_succ_cons,
    List.drop_zero]

end Lead

theorem span_upTo_cells {n size : Nat} (h : n ≤ size) :
    (Range.upTo n).span (List.replicate size (0 : UInt8)).length = .ok ⟨0, n⟩ := by
  rw [Range.span_upTo, List.length_replicate, if_pos h]

namespace Opening

variable {w : Width}

def result : Opening w → Except Fault (Signed w)
  | blank => .error (.underflow ⟨1, 0⟩)
  | wide l => .error (.violation (.tooManyMagnitudeBytes l.count))
  | cut l n => .error (.underflow ⟨l.length, n⟩)
  | whole _ v => .ok v

end Opening

namespace Buffer

theorem read_eq (w : Width) (buf : Bytes) (offset : Nat) :
    read w buf offset = (opening w (buf.drop offset)).result := by
  rw [read]
  cases hrest : buf.drop offset with
  | nil => rfl
  | cons b bs =>
      rcases opening_cons_cases w b bs with
        ⟨hwide, hopen⟩ | ⟨hfit, hcut, hopen⟩ | ⟨hfit, hle, hopen⟩
      · rw [hopen]
        simp only [Lead.require_error hwide]
        rfl
      · rw [hopen]
        simp only [Lead.require_ok hfit, if_pos hcut]
        rfl
      · have hslice := Lead.slice_magnitude (b := b) hle ((b :: bs).drop (Lead.ofByte b).length)
        rw [List.take_append_drop] at hslice
        rw [hopen]
        simp only [Lead.require_ok hfit, if_neg (Nat.not_lt.mpr hle), hslice]
        change (Lead.decode w _ _).mapError Fault.violation = _
        rw [Lead.decode_take w hle]
        rfl

end Buffer

namespace Stream.Input

variable {β : Type} [Buf β] [LawfulBuf β]

open LawfulBuf

theorem fill_upTo_ok {n size : Nat} {b : β} (hsize : n ≤ size) (h : n ≤ (view b).length) :
    withBuffer size (fill (.upTo n)) b =
      .ok ((), (view b).take n ++ List.replicate (size - n) 0) (Buf.take n b).2 := by
  refine withBuffer_ok ?_
  rw [fill, fillRange_ok (span_upTo_cells hsize) (next_ok (n := n) h)]
  simp [Span.splice]

theorem fill_upTo_error {n size : Nat} {b : β} (hsize : n ≤ size) (h : (view b).length < n) :
    withBuffer size (fill (.upTo n)) b = .error (.underflow ⟨n, (view b).length⟩) b := by
  exact withBuffer_error (fillRange_error (span_upTo_cells hsize) (next_error (n := n) h))

/-- A sorted integer is read in two looks, which together see the opening of the view. -/
theorem sorted_run (w : Width) (b : β) :
    sorted w b = match opening w (view b) with
      | .blank => .error (.underflow ⟨1, 0⟩) b
      | .wide l => .error (.violation (.tooManyMagnitudeBytes l.count)) b
      | .cut l n => .error (.underflow ⟨l.length, n⟩) b
      | .whole l v => .ok ⟨w, v⟩ (Buf.take l.length b).2 := by
  cases hview : view b with
  | nil => rw [sorted, bind_error (peek_nil hview), opening_nil]
  | cons x bs =>
      rw [sorted, bind_ok (peek_cons hview)]
      have hlen : (view b).length = bs.length + 1 := by rw [hview, List.length_cons]
      rcases opening_cons_cases w x bs with
        ⟨hwide, hopen⟩ | ⟨hfit, hcut, hopen⟩ | ⟨hfit, hle, hopen⟩
      · rw [hopen, Lead.require_error hwide]
        rfl
      · rw [hopen, Lead.require_ok hfit, checked_bind_ok,
          bind_error (fill_upTo_error hfit (by rwa [hlen])), hlen]
      · rw [hopen, Lead.require_ok hfit, checked_bind_ok,
          bind_ok (fill_upTo_ok hfit (by rwa [hlen])), hview]
        change (checked ((Range.between 1 (Lead.ofByte x).length).slice _) >>= _) _ = _
        rw [Lead.slice_magnitude hle, checked_bind_ok, Lead.decode_take w hle]
        rfl

theorem sorted_of_opening_eq_whole {w : Width} {b : β} {l : Lead} {v : Signed w}
    (h : opening w (view b) = .whole l v) :
    ∃ b', sorted w b = .ok ⟨w, v⟩ b' ∧ view b' = (view b).drop l.length := by
  refine ⟨(Buf.take l.length b).2, ?_, (Buf.take_spec (length_le_of_opening_eq_whole h)).2⟩
  rw [sorted_run, h]

end Stream.Input

end SortKey
