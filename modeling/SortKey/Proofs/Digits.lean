import Mathlib.Data.BitVec
import Mathlib.Tactic.Ring
import SortKey.Encoding.Basic

/-!
# Digits that are compared and cut

Only the low digits of a number are written, so numbers with the same remainder are written alike.
Numbers that fit their digits are ordered like the digits, whatever bytes follow.
-/

namespace SortKey

namespace BigEndian

theorem limit_eq_two_pow (n : Nat) : limit n = 2 ^ (8 * n) := by
  induction n with
  | zero => rfl
  | succ n ih => rw [limit, ih, Nat.mul_succ, Nat.pow_add, Nat.mul_comm]

theorem cast_limit (n : Nat) : (limit n : Int) = 256 ^ n := by
  induction n with
  | zero => rfl
  | succ n ih => rw [limit, Int.natCast_mul, ih, pow_succ, mul_comm]; rfl

theorem limit_mono {m n : Nat} (h : m ≤ n) : limit m ≤ limit n := by
  rw [limit_eq_two_pow, limit_eq_two_pow]
  exact Nat.pow_le_pow_right (by decide) (Nat.mul_le_mul_left 8 h)

theorem digits_mod (n m : Nat) : digits n (m % limit n) = digits n m := by
  have h := digits_value (digits n m)
  rwa [length_digits, value_digits] at h

theorem digits_congr {n a b : Nat} (h : a % limit n = b % limit n) : digits n a = digits n b := by
  rw [← digits_mod n a, h, digits_mod]

theorem compare_byte (a b : UInt8) : compare a b = compare a.toNat b.toNat := by
  simp only [compare, compareOfLessAndEq, UInt8.lt_iff_toNat_lt, UInt8.toNat_inj]

theorem compare_ofNat {a b : Nat} (ha : a < 256) (hb : b < 256) :
    compare (UInt8.ofNat a) (UInt8.ofNat b) = compare a b := by
  rw [compare_byte, UInt8.toNat_ofNat', UInt8.toNat_ofNat', Nat.mod_eq_of_lt ha,
    Nat.mod_eq_of_lt hb]

/-- Numbers compare by their quotients first and by their remainders if those are equal. -/
theorem compare_div_mod (a b k : Nat) :
    compare a b = (compare (a / k) (b / k)).then (compare (a % k) (b % k)) := by
  have ha := Nat.div_add_mod a k
  have hb := Nat.div_add_mod b k
  rcases Nat.lt_trichotomy (a / k) (b / k) with h | h | h
  · rw [Nat.compare_eq_lt.mpr h, Ordering.lt_then]
    exact Nat.compare_eq_lt.mpr (Nat.lt_of_div_lt_div h)
  · rw [Nat.compare_eq_eq.mpr h, Ordering.eq_then, ← ha, ← hb, h]
    simp only [Nat.mul_add_mod, Nat.mod_mod]
    rcases Nat.lt_trichotomy (a % k) (b % k) with hm | hm | hm
    · rw [Nat.compare_eq_lt.mpr hm, Nat.compare_eq_lt]
      omega
    · rw [hm]
      simp
    · rw [Nat.compare_eq_gt.mpr hm, Nat.compare_eq_gt]
      omega
  · rw [Nat.compare_eq_gt.mpr h, Ordering.gt_then]
    exact Nat.compare_eq_gt.mpr (Nat.lt_of_div_lt_div h)

theorem compare_append_left (bs s t : Bytes) : compare (bs ++ s) (bs ++ t) = compare s t := by
  induction bs with
  | nil => rfl
  | cons b bs ih =>
      rw [List.cons_append, List.cons_append, List.compare_cons_cons,
        Std.ReflOrd.compare_self, Ordering.eq_then, ih]

theorem compare_digits_append {n a b : Nat} (ha : a < limit n) (hb : b < limit n) (s t : Bytes) :
    compare (digits n a ++ s) (digits n b ++ t) = (compare a b).then (compare s t) := by
  induction n generalizing a b with
  | zero =>
      have ha : a = 0 := Nat.lt_one_iff.mp ha
      have hb : b = 0 := Nat.lt_one_iff.mp hb
      subst ha hb
      rfl
  | succ n ih =>
      have hpos := limit_pos n
      have hqa : a / limit n < 256 := Nat.div_lt_of_lt_mul (by rwa [Nat.mul_comm])
      have hqb : b / limit n < 256 := Nat.div_lt_of_lt_mul (by rwa [Nat.mul_comm])
      rw [digits, digits, ← digits_mod n a, ← digits_mod n b, List.cons_append, List.cons_append,
        List.compare_cons_cons, compare_ofNat hqa hqb,
        ih (Nat.mod_lt a hpos) (Nat.mod_lt b hpos), compare_div_mod a b (limit n),
        Ordering.then_assoc]

end BigEndian

/-- The digits of `m` fit into `n` bytes exactly when `m` does. -/
theorem digitCount_le_iff {m n : Nat} (hn : 0 < n) : digitCount m ≤ n ↔ m < BigEndian.limit n := by
  by_cases hm : m = 0
  · subst hm
    have hpos := BigEndian.limit_pos n
    have hlog : Nat.log2 0 = 0 := by decide
    rw [digitCount, hlog]
    omega
  · rw [BigEndian.limit_eq_two_pow, ← Nat.log2_lt hm, digitCount]
    omega

theorem digitCount_pos (m : Nat) : 0 < digitCount m := Nat.succ_pos _

theorem lt_limit_digitCount (m : Nat) : m < BigEndian.limit (digitCount m) :=
  (digitCount_le_iff (digitCount_pos m)).mp Nat.le.refl

end SortKey
