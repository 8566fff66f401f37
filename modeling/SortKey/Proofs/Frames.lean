import SortKey.Proofs.Canonic
import SortKey.Proofs.Wrapping

/-!
# Byte strings that are one frame

A frame is a lead byte and exactly the bytes that it announces. It stands for an integer, which is
wrapped into the width it is read at. It is the encoding of a value exactly if that integer is the
value and the lead is the one the value asks for, that is if no digit of it could be left out.
-/

namespace SortKey

namespace BigEndian

theorem eq_of_value_eq {as bs : Bytes} (hlen : as.length = bs.length) (h : value as = value bs) :
    as = bs := by
  rw [← digits_value as, hlen, h, digits_value]

end BigEndian

/-- A number has `n` digits if it fits into `n` and not into fewer. -/
theorem digitCount_eq_iff {m n : Nat} (hn : 0 < n) :
    digitCount m = n ↔ m < BigEndian.limit n ∧ (n ≠ 1 → BigEndian.limit (n - 1) ≤ m) := by
  have hle := digitCount_le_iff (m := m) hn
  have hpos := digitCount_pos m
  by_cases h1 : n = 1
  · omega
  · have hle' := digitCount_le_iff (m := m) (show 0 < n - 1 by omega)
    omega

namespace Lead

theorem ofByte_below {b : UInt8} {n : Nat} (hn : 0 < n) (h : b.toNat + n = 8) :
    ofByte b = .below n := by
  rw [ofByte, if_pos (by rw [belowBase]; omega), belowBase]
  exact congrArg below (by omega)

theorem ofByte_above {b : UInt8} {n : Nat} (hn : 0 < n) (h : b.toNat = 247 + n) :
    ofByte b = .above n := by
  rw [ofByte, if_neg (by rw [belowBase]; omega), if_pos (by rw [aboveBase]; omega), aboveBase]
  exact congrArg above (by omega)

theorem ofByte_inline {b : UInt8} (h : 8 ≤ b.toNat) (h' : b.toNat ≤ 247) :
    ofByte b = .inline (b.toNat - 127) := by
  rw [ofByte, if_neg (by rw [belowBase]; omega), if_neg (by rw [aboveBase]; omega), inlineBias]

theorem ofByte_cases (b : UInt8) :
    (∃ n, 0 < n ∧ b.toNat + n = 8 ∧ ofByte b = .below n) ∨
      (∃ n, 0 < n ∧ b.toNat = 247 + n ∧ ofByte b = .above n) ∨
      (8 ≤ b.toNat ∧ b.toNat ≤ 247 ∧ ofByte b = .inline (b.toNat - 127)) := by
  by_cases hb : b.toNat < 8
  · exact Or.inl ⟨8 - b.toNat, by omega, by omega, ofByte_below (by omega) (by omega)⟩
  · by_cases ha : 247 < b.toNat
    · exact Or.inr (Or.inl ⟨b.toNat - 247, by omega, by omega, ofByte_above (by omega) (by omega)⟩)
    · exact Or.inr (Or.inr ⟨by omega, by omega, ofByte_inline (by omega) (by omega)⟩)

theorem proper_ofByte {w : Width} {b : UInt8} (h : (ofByte b).count ≤ w.bytes) :
    (ofByte b).Proper w := by
  rcases ofByte_cases b with ⟨n, hpos, -, hb⟩ | ⟨n, hpos, -, hb⟩ | ⟨hlow, hhigh, hb⟩
  · rw [hb] at h ⊢
    exact ⟨hpos, h⟩
  · rw [hb] at h ⊢
    exact ⟨hpos, h⟩
  · rw [hb]
    simp only [Proper, inlineMin, inlineMax]
    omega

/-- An integer with fewer digits than the width has bytes fits the width. -/
theorem integer_fits_of_lt {w : Width} {l : Lead} {x : Nat} (hpos : 0 < l.count)
    (hlt : l.count < w.bytes) (hx : x < BigEndian.limit l.count) :
    w.least ≤ l.integer x ∧ l.integer x ≤ w.greatest := by
  have hmono := BigEndian.limit_mono (Nat.le_sub_one_of_lt hlt)
  have hhalves := w.halves
  have hfull : BigEndian.limit w.bytes = 256 * BigEndian.limit (w.bytes - 1) := by cases w <;> rfl
  cases l with
  | inline x => exact absurd hpos (Nat.lt_irrefl 0)
  | below n =>
      simp only [count] at hmono hx
      simp only [integer, belowShift]
      omega
  | above n =>
      simp only [count] at hmono hx
      simp only [integer, aboveShift]
      omega

/-- Digits that belong to the same lead and the same integer are the same. -/
theorem eq_of_integer_eq {l : Lead} {as bs : Bytes} (ha : as.length = l.count)
    (hb : bs.length = l.count)
    (h : l.integer (BigEndian.value as) = l.integer (BigEndian.value bs)) : as = bs := by
  cases l with
  | inline x => rw [List.length_eq_zero_iff.mp ha, List.length_eq_zero_iff.mp hb]
  | below n =>
      simp only [integer] at h
      exact BigEndian.eq_of_value_eq (ha.trans hb.symm) (by omega)
  | above n =>
      simp only [integer] at h
      exact BigEndian.eq_of_value_eq (ha.trans hb.symm) (by omega)

end Lead

variable {w : Width}

theorem opening_frame {b : UInt8} {m : Bytes} (hm : m.length = (Lead.ofByte b).count)
    (hfit : m.length ≤ w.bytes) :
    opening w (b :: m) = .whole (Lead.ofByte b)
      (.ofInt w ((Lead.ofByte b).integer (BigEndian.value m))) := by
  rw [opening_whole, ← hm, List.take_length, Lead.assemble_eq hm]
  · rw [Lead.length_le_maxLength_iff, ← hm]
    exact hfit
  · rw [Lead.length]
    omega

theorem eq_ofByte_of_opening_eq_whole {b : UInt8} {bs : Bytes} {l : Lead} {v : Signed w}
    (h : opening w (b :: bs) = .whole l v) : l = Lead.ofByte b := by
  rw [opening] at h
  split at h
  · cases h
  · split at h
    · cases h
    · cases h
      rfl

/-- What is read in full is one frame. -/
theorem opening_all_iff {e : Bytes} {v : Signed w} :
    (∃ l, opening w e = .whole l v ∧ l.length = e.length) ↔
      ∃ b m, e = b :: m ∧ m.length = (Lead.ofByte b).count ∧ m.length ≤ w.bytes ∧
        Signed.ofInt w ((Lead.ofByte b).integer (BigEndian.value m)) = v := by
  constructor
  · rintro ⟨l, hopen, hlen⟩
    cases e with
    | nil => cases hopen
    | cons b m =>
        have hl := eq_ofByte_of_opening_eq_whole hopen
        rw [hl, Lead.length, List.length_cons] at hlen
        have hm : m.length = (Lead.ofByte b).count := by omega
        by_cases hroom : m.length ≤ w.bytes
        · rw [opening_frame hm hroom] at hopen
          injection hopen with _ hv
          exact ⟨b, m, rfl, hm, hroom, hv⟩
        · rw [opening_wide (Lead.maxLength_lt_length_iff.mpr (by omega))] at hopen
          cases hopen
  · rintro ⟨b, m, rfl, hm, hroom, rfl⟩
    refine ⟨Lead.ofByte b, opening_frame hm hroom, ?_⟩
    rw [Lead.length, List.length_cons, hm, Nat.add_comm]

namespace Signed

theorem lead_of_below {v : Signed w} {m : Nat} (h : v.toInt = -120 - m) :
    v.lead = .below (digitCount m) := by
  have hm : (inlineMin - 1 - v.toInt).toNat = m := by
    rw [inlineMin]
    omega
  rw [lead, if_pos (by rw [inlineMin]; omega), hm]

theorem lead_of_above {v : Signed w} {m : Nat} (h : v.toInt = m + 121) :
    v.lead = .above (digitCount m) := by
  have hm : (v.toInt - (inlineMax + 1)).toNat = m := by
    rw [inlineMax]
    omega
  rw [lead, if_neg (by rw [inlineMin]; omega), if_pos (by rw [inlineMax]; omega), hm]

theorem lead_of_inline {v : Signed w} (h : -119 ≤ v.toInt) (h' : v.toInt ≤ 120) :
    v.lead = .inline v.toInt := by
  rw [lead, if_neg (by rw [inlineMin]; omega), if_neg (by rw [inlineMax]; omega)]

theorem encode_eq_cons_iff {v : Signed w} {b : UInt8} {m : Bytes}
    (hm : m.length = (Lead.ofByte b).count) :
    v.encode = b :: m ↔
      v.toInt = (Lead.ofByte b).integer (BigEndian.value m) ∧ v.lead = Lead.ofByte b := by
  rw [encode, List.cons.injEq]
  constructor
  · rintro ⟨rfl, rfl⟩
    rw [v.ofByte_lead, v.value_digits_magnitude, v.integer_magnitude]
    exact ⟨rfl, rfl⟩
  · rintro ⟨hint, hl⟩
    rw [← hl] at hm hint
    refine ⟨by rw [hl, Lead.toByte_ofByte], ?_⟩
    apply Lead.eq_of_integer_eq (BigEndian.length_digits _ _) hm
    rw [v.value_digits_magnitude, v.integer_magnitude, hint]

/-- An encoding is a frame. -/
theorem exists_encode_eq_cons (v : Signed w) :
    ∃ b m, v.encode = b :: m ∧ m.length = (Lead.ofByte b).count ∧ m.length ≤ w.bytes := by
  refine ⟨_, _, rfl, ?_, ?_⟩
  · rw [v.ofByte_lead, BigEndian.length_digits]
  · rw [BigEndian.length_digits]
    exact v.count_lead_le

end Signed

end SortKey
