import SortKey.Encoding.Staged
import SortKey.Proofs.Leads
import SortKey.Proofs.Steps

/-!
# The steps of staging

A checked sum or narrowing passes exactly if its result is what it is with integers, and the numbers
that are checked on the way to an encoding are all in range. A byte is stored where there is a cell
for it.
-/

namespace SortKey

namespace Signed

variable {w : Width}

theorem least_le_toInt (v : Signed w) : w.least ≤ v.toInt := by
  have h := v.le_two_mul_toInt
  rw [Width.least]
  omega

theorem toInt_le_greatest (v : Signed w) : v.toInt ≤ w.greatest := by
  have h := v.two_mul_toInt_lt
  have hhalves := w.halves
  omega

theorem toInt_ofInt {i : Int} (h : w.least ≤ i) (h' : i ≤ w.greatest) : (ofInt w i).toInt = i := by
  obtain ⟨hleast, hgreatest, -, -⟩ := w.halves
  rw [hleast, Int.natCast_pow] at h
  rw [hgreatest, Int.natCast_pow] at h'
  exact BitVec.toInt_ofInt_eq_self (by cases w <;> decide) h (Int.lt_of_le_sub_one h')

/-- A checked sum is the sum of the integers or there is none. -/
theorem addChecked_eq_ok_iff {u v : Signed w} {i : Int} :
    v.addChecked i = .ok u ↔ u.toInt = v.toInt + i := by
  unfold addChecked
  constructor
  · intro h
    split at h
    · cases h
      exact toInt_ofInt (by omega) (by omega)
    · cases h
  · intro h
    have hlo := u.least_le_toInt
    have hhi := u.toInt_le_greatest
    rw [← h, if_pos ⟨hlo, hhi⟩, ofInt_toInt]

/-- A value below the band can be shifted up, since zero is not reached. -/
theorem exists_shifted_below {v : Signed w} (hv : v.toInt < inlineMin) :
    ∃ u : Signed w, u.toInt = v.toInt + belowShift := by
  have hleast := v.least_le_toInt
  have hhalves := w.halves
  have hmin : inlineMin = -119 := rfl
  have hshift : belowShift = 119 := rfl
  exact ⟨_, toInt_ofInt (by omega) (by omega)⟩

theorem exists_shifted_above {v : Signed w} (hv : inlineMax < v.toInt) :
    ∃ u : Signed w, u.toInt = v.toInt + -aboveShift := by
  have hgreatest := v.toInt_le_greatest
  have hhalves := w.halves
  have hmax : inlineMax = 120 := rfl
  have hshift : aboveShift = 121 := rfl
  exact ⟨_, toInt_ofInt (by omega) (by omega)⟩

end Signed

namespace Staging

theorem unsignedByte_eq_ok_iff {i : Int} {b : UInt8} :
    unsignedByte i = .ok b ↔ (b.toNat : Int) = i := by
  unfold unsignedByte
  constructor
  · intro h
    split at h
    · cases h
      rw [UInt8.toNat_ofNat']
      omega
    · cases h
  · rintro rfl
    have hb := b.toNat_lt
    rw [if_pos (by omega), Int.toNat_natCast, UInt8.ofNat_toNat]

theorem signedByte_eq_ok_iff {i : Int} {b : Int8} : signedByte i = .ok b ↔ b.toInt = i := by
  unfold signedByte
  constructor
  · intro h
    split at h
    · cases h
      exact Int8.toInt_ofInt_of_le (by omega) (by omega)
    · cases h
  · rintro rfl
    have hlo := b.le_toInt
    have hhi := b.toInt_lt
    rw [if_pos (by omega), Int8.ofInt_toInt]

theorem exists_unsigned {i : Int} (h : 0 ≤ i) (h' : i < 256) : ∃ b : UInt8, (b.toNat : Int) = i :=
  ⟨_, unsignedByte_eq_ok_iff.mp (if_pos ⟨h, h'⟩)⟩

theorem exists_signed {i : Int} (h : -128 ≤ i) (h' : i < 128) : ∃ b : Int8, b.toInt = i :=
  ⟨_, signedByte_eq_ok_iff.mp (if_pos ⟨h, h'⟩)⟩

/-- A value of the band is a signed byte, and its distance from the bias an unsigned one. -/
theorem exists_inline_byte {i : Int} (h : inlineMin ≤ i) (h' : i ≤ inlineMax) :
    (∃ a : Int8, a.toInt = i) ∧ ∃ b : UInt8, (b.toNat : Int) = i + inlineBias := by
  simp only [inlineMin, inlineMax, inlineBias] at h h' ⊢
  exact ⟨exists_signed (by omega) (by omega), exists_unsigned (by omega) (by omega)⟩

theorem store_ok {i : Nat} {s : Stage} (h : i < s.cells.length) (b : UInt8) :
    store i b s = .ok () { s with cells := s.cells.set i b } := by
  rw [store, get_bind, if_pos h]
  rfl

theorem push_ok {s : Stage} (b : UInt8) (h : s.used < s.cells.length)
    (h' : s.used + 1 < indexLimit) :
    push b s = .ok () ⟨s.cells.set s.used b, s.used + 1⟩ := by
  have hnext : nextIndex s.used = .ok (s.used + 1) := if_pos h'
  rw [push, get_bind, bind_ok (store_ok h b), hnext, checked_bind_ok]
  rfl

/-- Where the count of magnitude bytes and the lead are bytes, the lead is stored. -/
theorem storeLead_eq_store {lead : Int → Int} {s : Stage} {count b : UInt8}
    (hcount : (count.toNat : Int) = s.used - 1) (hlead : (b.toNat : Int) = lead (s.used - 1)) :
    storeLead lead s = store 0 b s := by
  have hchecked := unsignedByte_eq_ok_iff.mpr hcount
  rw [← hcount] at hlead
  rw [storeLead, get_bind, hchecked, checked_bind_ok, unsignedByte_eq_ok_iff.mpr hlead,
    checked_bind_ok]

end Staging

end SortKey
