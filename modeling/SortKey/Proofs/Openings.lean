import SortKey.Proofs.Assembly

/-!
# How a byte string opens

Whatever reads an encoding learns one of four things from the bytes ahead: that there are none,
that the lead asks for more than the width has, that too few bytes are there, or the value and its
length. An encoding opens with the value that was encoded, whatever follows it.
-/

namespace SortKey

inductive Opening (w : Width)
  | blank
  | wide (lead : Lead)
  | cut (lead : Lead) (available : Nat)
  | whole (lead : Lead) (value : Signed w)

def opening (w : Width) : Bytes → Opening w
  | [] => .blank
  | b :: bs =>
      if w.maxLength < (Lead.ofByte b).length then .wide (Lead.ofByte b)
      else if bs.length + 1 < (Lead.ofByte b).length then .cut (Lead.ofByte b) (bs.length + 1)
      else .whole (Lead.ofByte b) ((Lead.ofByte b).assemble w (bs.take (Lead.ofByte b).count))

variable {w : Width}

@[simp] theorem opening_nil : opening w [] = .blank := rfl

theorem opening_wide {b : UInt8} (h : w.maxLength < (Lead.ofByte b).length) (bs : Bytes) :
    opening w (b :: bs) = .wide (Lead.ofByte b) := if_pos h

theorem opening_cut {b : UInt8} {bs : Bytes} (h : (Lead.ofByte b).length ≤ w.maxLength)
    (h' : bs.length + 1 < (Lead.ofByte b).length) :
    opening w (b :: bs) = .cut (Lead.ofByte b) (bs.length + 1) := by
  rw [opening, if_neg (Nat.not_lt.mpr h), if_pos h']

theorem opening_whole {b : UInt8} {bs : Bytes} (h : (Lead.ofByte b).length ≤ w.maxLength)
    (h' : (Lead.ofByte b).length ≤ bs.length + 1) :
    opening w (b :: bs) = .whole (Lead.ofByte b)
      ((Lead.ofByte b).assemble w (bs.take (Lead.ofByte b).count)) := by
  rw [opening, if_neg (Nat.not_lt.mpr h), if_neg (Nat.not_lt.mpr h')]

/-- The lead and the number of bytes decide how a string opens that is not empty. -/
theorem opening_cons_cases (w : Width) (b : UInt8) (bs : Bytes) :
    (w.maxLength < (Lead.ofByte b).length ∧ opening w (b :: bs) = .wide (Lead.ofByte b)) ∨
      ((Lead.ofByte b).length ≤ w.maxLength ∧ bs.length + 1 < (Lead.ofByte b).length ∧
        opening w (b :: bs) = .cut (Lead.ofByte b) (bs.length + 1)) ∨
      (Lead.ofByte b).length ≤ w.maxLength ∧ (Lead.ofByte b).length ≤ bs.length + 1 ∧
        opening w (b :: bs) = .whole (Lead.ofByte b)
          ((Lead.ofByte b).assemble w (bs.take (Lead.ofByte b).count)) := by
  by_cases hwide : w.maxLength < (Lead.ofByte b).length
  · exact Or.inl ⟨hwide, opening_wide hwide bs⟩
  · have hfit := Nat.not_lt.mp hwide
    by_cases hcut : bs.length + 1 < (Lead.ofByte b).length
    · exact Or.inr (Or.inl ⟨hfit, hcut, opening_cut hfit hcut⟩)
    · have hle := Nat.not_lt.mp hcut
      exact Or.inr (Or.inr ⟨hfit, hle, opening_whole hfit hle⟩)

theorem length_le_of_opening_eq_whole {bs : Bytes} {l : Lead} {v : Signed w}
    (h : opening w bs = .whole l v) : l.length ≤ bs.length := by
  cases bs with
  | nil => cases h
  | cons b bs =>
      rcases opening_cons_cases w b bs with ⟨-, hopen⟩ | ⟨-, -, hopen⟩ | ⟨-, hle, hopen⟩
      · rw [hopen] at h
        cases h
      · rw [hopen] at h
        cases h
      · rw [hopen] at h
        cases h
        exact hle

theorem opening_encode_append (v : Signed w) (r : Bytes) :
    opening w (v.encode ++ r) = .whole v.lead v := by
  have hlen := BigEndian.length_digits v.lead.count (v.lead.magnitude v.toInt)
  rw [Signed.encode, List.cons_append, opening_whole, v.ofByte_lead, List.take_left' hlen,
    v.assemble_digits]
  · rw [v.ofByte_lead, Lead.length_le_maxLength_iff]
    exact v.count_lead_le
  · rw [v.ofByte_lead, Lead.length, List.length_append, hlen]
    omega

end SortKey
