import SortKey.Proofs.Ladder
import SortKey.Proofs.Openings

/-!
# Wrapping into a width

Two integers wrap into the same value exactly if they differ by a multiple of the number of words.
The words of a width are a multiple of the words of a narrower one, so wrapping into the wide width
first makes no difference to the narrow one.
-/

namespace SortKey

namespace Signed

variable {w w' : Width}

theorem toInt_ofInt_bmod (i : Int) : (ofInt w i).toInt = i.bmod (BigEndian.limit w.bytes) := by
  rw [← w.two_pow_bits]
  exact BitVec.toInt_ofInt i

theorem ofInt_eq_ofInt_iff {i j : Int} :
    ofInt w i = ofInt w j ↔ (BigEndian.limit w.bytes : Int) ∣ i - j := by
  rw [Int.dvd_iff_bmod_eq_zero, ← Int.bmod_eq_bmod_iff_bmod_sub_eq_zero, ← toInt_ofInt_bmod,
    ← toInt_ofInt_bmod]
  constructor
  · intro h
    rw [h]
  · intro h
    exact ext_toInt h

theorem ofInt_eq_iff {i : Int} {v : Signed w} :
    ofInt w i = v ↔ (BigEndian.limit w.bytes : Int) ∣ i - v.toInt := by
  rw [← ofInt_eq_ofInt_iff, ofInt_toInt]

/-- An integer survives wrapping exactly if it fits the width. -/
theorem toInt_ofInt_eq_iff {i : Int} :
    (ofInt w i).toInt = i ↔ w.least ≤ i ∧ i ≤ w.greatest := by
  constructor
  · intro h
    rw [← h]
    exact ⟨least_le_toInt _, toInt_le_greatest _⟩
  · rintro ⟨h, h'⟩
    exact toInt_ofInt h h'

end Signed

end SortKey
