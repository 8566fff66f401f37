import SortKey.Proofs.Digits

/-!
# The leads of encodings

The lead of a value is one that its width has room for, and it is found again in its byte. What is
left of the value once the lead is known fits the digits that the lead announces.
-/

namespace SortKey

namespace Width

theorem bytes_pos (w : Width) : 0 < w.bytes := by cases w <;> decide

theorem bytes_le (w : Width) : w.bytes ≤ 8 := by cases w <;> decide

theorem one_le_maxLength (w : Width) : 1 ≤ w.maxLength := Nat.le_add_right 1 w.bytes

theorem two_pow_bits (w : Width) : 2 ^ w.bits = BigEndian.limit w.bytes :=
  (BigEndian.limit_eq_two_pow w.bytes).symm

/-- A width has half of its values on either side of zero, and the narrowest has many of them. -/
theorem halves (w : Width) :
    w.least = -((2 ^ (w.bits - 1) : Nat) : Int) ∧
      w.greatest = ((2 ^ (w.bits - 1) : Nat) : Int) - 1 ∧
      BigEndian.limit w.bytes = 2 * 2 ^ (w.bits - 1) ∧ 2 ^ 31 ≤ 2 ^ (w.bits - 1) := by
  cases w <;> decide

end Width

namespace Signed

variable {w : Width}

theorem le_two_mul_toInt (v : Signed w) : -(BigEndian.limit w.bytes : Int) ≤ 2 * v.toInt := by
  have h : -(2 : Int) ^ w.bits ≤ 2 * v.toInt := v.word.le_two_mul_toInt
  rw [← Width.two_pow_bits, Int.natCast_pow]
  exact h

theorem two_mul_toInt_lt (v : Signed w) : 2 * v.toInt < (BigEndian.limit w.bytes : Int) := by
  have h : 2 * v.toInt < (2 : Int) ^ w.bits := v.word.two_mul_toInt_lt
  rw [← Width.two_pow_bits, Int.natCast_pow]
  exact h

end Signed

namespace Lead

/-- The integer that a lead and a magnitude stand for, whatever the width. -/
def integer : Lead → Nat → Int
  | inline x, _ => x
  | below n, m => m - BigEndian.limit n - belowShift
  | above _, m => m + aboveShift

/-- The leads that encodings of a width start with. -/
def Proper (w : Width) : Lead → Prop
  | inline x => inlineMin ≤ x ∧ x ≤ inlineMax
  | below n => 0 < n ∧ n ≤ w.bytes
  | above n => 0 < n ∧ n ≤ w.bytes

variable {w : Width}

theorem length_le_maxLength_iff {l : Lead} : l.length ≤ w.maxLength ↔ l.count ≤ w.bytes :=
  Nat.add_le_add_iff_left

theorem maxLength_lt_length_iff {l : Lead} : w.maxLength < l.length ↔ w.bytes < l.count :=
  Nat.add_lt_add_iff_left

/-- A lead byte as an integer. -/
def rank : Lead → Int
  | inline x => x + 127
  | below n => 8 - n
  | above n => 247 + n

theorem Proper.toNat_toByte {l : Lead} (h : l.Proper w) : (l.toByte.toNat : Int) = l.rank := by
  have hw := w.bytes_le
  cases l with
  | inline x =>
      simp only [Proper, inlineMin, inlineMax] at h
      simp only [toByte, UInt8.toNat_ofNat', inlineBias, rank]
      omega
  | below n =>
      simp only [Proper] at h
      simp only [toByte, UInt8.toNat_ofNat', belowBase, rank]
      omega
  | above n =>
      simp only [Proper] at h
      simp only [toByte, UInt8.toNat_ofNat', aboveBase, rank]
      omega

theorem Proper.ofByte_toByte {l : Lead} (h : l.Proper w) : ofByte l.toByte = l := by
  have hw := w.bytes_le
  have hb := h.toNat_toByte
  cases l with
  | inline x =>
      simp only [Proper, inlineMin, inlineMax] at h
      simp only [rank] at hb
      unfold ofByte belowBase aboveBase inlineBias
      rw [if_neg (by omega), if_neg (by omega)]
      exact congrArg inline (by omega)
  | below n =>
      simp only [Proper] at h
      simp only [rank] at hb
      unfold ofByte belowBase
      rw [if_pos (by omega)]
      exact congrArg below (by omega)
  | above n =>
      simp only [Proper] at h
      simp only [rank] at hb
      unfold ofByte belowBase aboveBase
      rw [if_neg (by omega), if_pos (by omega)]
      exact congrArg above (by omega)

theorem Proper.count_le {l : Lead} (h : l.Proper w) : l.count ≤ w.bytes := by
  cases l with
  | inline x => exact Nat.zero_le _
  | below n => exact h.2
  | above n => exact h.2

end Lead

namespace Signed

variable {w : Width}

/-- A value lies below the inline band, above it or in it. -/
theorem lead_cases (v : Signed w) :
    (v.toInt < -119 ∧ v.lead = .below (digitCount (-120 - v.toInt).toNat)) ∨
      (120 < v.toInt ∧ v.lead = .above (digitCount (v.toInt - 121).toNat)) ∨
      (-119 ≤ v.toInt ∧ v.toInt ≤ 120 ∧ v.lead = .inline v.toInt) := by
  unfold lead inlineMin inlineMax
  by_cases hb : v.toInt < -119
  · exact Or.inl ⟨hb, if_pos hb⟩
  · by_cases ha : 120 < v.toInt
    · refine Or.inr (Or.inl ⟨ha, ?_⟩)
      rw [if_neg hb, if_pos ha]
      rfl
    · refine Or.inr (Or.inr ⟨by omega, by omega, ?_⟩)
      rw [if_neg hb, if_neg ha]

theorem lead_proper (v : Signed w) : v.lead.Proper w := by
  have hlo := v.le_two_mul_toInt
  have hhi := v.two_mul_toInt_lt
  rcases v.lead_cases with ⟨hv, hl⟩ | ⟨hv, hl⟩ | ⟨hlow, hhigh, hl⟩
  · rw [hl]
    refine ⟨digitCount_pos _, (digitCount_le_iff w.bytes_pos).mpr ?_⟩
    omega
  · rw [hl]
    refine ⟨digitCount_pos _, (digitCount_le_iff w.bytes_pos).mpr ?_⟩
    omega
  · rw [hl]
    exact ⟨hlow, hhigh⟩

@[simp] theorem ofByte_lead (v : Signed w) : Lead.ofByte v.lead.toByte = v.lead :=
  v.lead_proper.ofByte_toByte

theorem count_lead_le (v : Signed w) : v.lead.count ≤ w.bytes := v.lead_proper.count_le

theorem magnitude_lt (v : Signed w) : v.lead.magnitude v.toInt < BigEndian.limit v.lead.count := by
  rcases v.lead_cases with ⟨hv, hl⟩ | ⟨hv, hl⟩ | ⟨hlow, hhigh, hl⟩
  · have h := lt_limit_digitCount (-120 - v.toInt).toNat
    rw [hl]
    simp only [Lead.magnitude, Lead.count, belowShift]
    omega
  · have h := lt_limit_digitCount (v.toInt - 121).toNat
    rw [hl]
    simp only [Lead.magnitude, Lead.count, aboveShift]
    omega
  · rw [hl]
    exact Nat.zero_lt_one

theorem value_digits_magnitude (v : Signed w) :
    BigEndian.value (BigEndian.digits v.lead.count (v.lead.magnitude v.toInt)) =
      v.lead.magnitude v.toInt := by
  rw [BigEndian.value_digits, Nat.mod_eq_of_lt v.magnitude_lt]

/-- A value is the integer of its lead and its magnitude. -/
theorem integer_magnitude (v : Signed w) :
    v.lead.integer (v.lead.magnitude v.toInt) = v.toInt := by
  rcases v.lead_cases with ⟨hv, hl⟩ | ⟨hv, hl⟩ | ⟨hlow, hhigh, hl⟩
  · have h := lt_limit_digitCount (-120 - v.toInt).toNat
    rw [hl]
    simp only [Lead.integer, Lead.magnitude, belowShift]
    omega
  · rw [hl]
    simp only [Lead.integer, Lead.magnitude, aboveShift]
    omega
  · rw [hl, Lead.integer]

end Signed

end SortKey
