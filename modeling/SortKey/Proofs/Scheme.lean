import Mathlib.Order.Bounds.Basic
import SortKey.Proofs.Agreement
import SortKey.Transfer.Encoding

/-!
# The scheme that the ladder follows

The scheme says how many magnitude bytes a value outside the inline band has: the least number of
them that reaches the value from the band. The ladder of mask tests never looks for this number. It
drops the bytes that repeat their fill, and what it keeps are the digits that the scheme asks for.
-/

namespace SortKey

/-- Of the counts that are not less than a positive one, that one is the least. -/
theorem isLeast_of_mem_iff {s : Set Nat} {d : Nat} (hd : 1 ≤ d)
    (h : ∀ n, 1 ≤ n → (n ∈ s ↔ d ≤ n)) (hs : ∀ n ∈ s, 1 ≤ n) : IsLeast s d := by
  refine ⟨(h d hd).mpr Nat.le.refl, ?_⟩
  intro n hn
  exact (h n (hs n hn)).mp hn

namespace Signed

variable {w : Width}

/-- The count in the lead of a value is the least that reaches the value from the inline band. -/
theorem isLeast_count_lead (v : Signed w) (hv : ¬ (-119 ≤ v.toInt ∧ v.toInt ≤ 120)) :
    IsLeast {n : Nat | 1 ≤ n ∧ -119 - 256 ^ n ≤ v.toInt ∧ v.toInt ≤ 120 + 256 ^ n}
      v.lead.count := by
  rcases v.lead_cases with ⟨hlow, hl⟩ | ⟨hhigh, hl⟩ | ⟨hlow, hhigh, -⟩
  · rw [hl]
    refine isLeast_of_mem_iff (digitCount_pos _) ?_ fun n hn => hn.1
    intro n hn
    have hlimit := BigEndian.limit_pos n
    have hcount := digitCount_le_iff (m := (-120 - v.toInt).toNat) hn
    rw [Set.mem_ofPred_eq, Lead.count, hcount, ← BigEndian.cast_limit]
    omega
  · rw [hl]
    refine isLeast_of_mem_iff (digitCount_pos _) ?_ fun n hn => hn.1
    intro n hn
    have hlimit := BigEndian.limit_pos n
    have hcount := digitCount_le_iff (m := (v.toInt - 121).toNat) hn
    rw [Set.mem_ofPred_eq, Lead.count, hcount, ← BigEndian.cast_limit]
    omega
  · exact absurd ⟨hlow, hhigh⟩ hv

end Signed

/-- A value in the inline band is one byte. Any other has the least number of magnitude bytes that
reaches it from the band, and the digits of its distance, counted up from zero above the band and
down from all ones below it. Every way to ask for the length of the encoding agrees. -/
theorem ladder_follows_scheme (w : Width) (v : Signed w) :
    ∃ (b : UInt8) (m : Bytes) (n : Nat),
      v.stagedEncode = .ok (b :: m) ∧
      (if -119 ≤ v.toInt ∧ v.toInt ≤ 120 then
        n = 0 ∧ m = [] ∧ (b.toNat : Int) = v.toInt + 127
      else
        IsLeast {k : Nat | 1 ≤ k ∧ -119 - 256 ^ k ≤ v.toInt ∧ v.toInt ≤ 120 + 256 ^ k} n ∧
        n ≤ w.bytes ∧
        if 120 < v.toInt then
          b.toNat = 0xF7 + n ∧ m = BigEndian.digits n (v.toInt - 121).toNat ∧
          (BigEndian.value m : Int) = v.toInt - 121
        else
          b.toNat = 0x08 - n ∧ m = BigEndian.digits n (v.toInt + 119 + 256 ^ n).toNat ∧
          (BigEndian.value m : Int) = v.toInt + 119 + 256 ^ n) ∧
      v.stagedLength = .ok (1 + n) ∧ Transfer.encodedLength ⟨w, v⟩ = .ok (1 + n) ∧
      v.encodedLength = 1 + n ∧
      ∀ pre post : Bytes, Buffer.probe (pre ++ b :: post) pre.length = .ok (1 + n) := by
  have hbyte := v.lead_proper.toNat_toByte
  have hvalue := v.value_digits_magnitude
  have hint := v.integer_magnitude
  have hleast := v.isLeast_count_lead
  have hle := v.count_lead_le
  have hlength := v.stagedLength_eq
  rw [v.length_encode] at hlength
  refine ⟨v.lead.toByte, BigEndian.digits v.lead.count (v.lead.magnitude v.toInt), v.lead.count,
    v.stagedEncode_eq, ?_, hlength, hlength, rfl, ?_⟩
  · rcases v.lead_cases with ⟨hlow, hl⟩ | ⟨hhigh, hl⟩ | ⟨hlow, hhigh, hl⟩
    · have hout : ¬ (-119 ≤ v.toInt ∧ v.toInt ≤ 120) := by omega
      rw [if_neg hout, if_neg (by omega)]
      refine ⟨hleast hout, hle, ?_⟩
      rw [hl] at hbyte hvalue hint ⊢
      simp only [Lead.rank, Lead.integer, belowShift, BigEndian.cast_limit] at hbyte hint
      refine ⟨by rw [Lead.count]; omega, ?_, by rw [hvalue, Lead.count]; omega⟩
      rw [Lead.magnitude, BigEndian.cast_limit]
      rfl
    · have hout : ¬ (-119 ≤ v.toInt ∧ v.toInt ≤ 120) := by omega
      rw [if_neg hout, if_pos hhigh]
      refine ⟨hleast hout, hle, ?_⟩
      rw [hl] at hbyte hvalue hint ⊢
      simp only [Lead.rank, Lead.integer, aboveShift] at hbyte hint
      exact ⟨by rw [Lead.count]; omega, rfl, by rw [hvalue]; omega⟩
    · rw [if_pos ⟨hlow, hhigh⟩]
      rw [hl] at hbyte ⊢
      exact ⟨rfl, rfl, hbyte⟩
  · intro pre post
    rw [Buffer.probe_cons List.drop_left, v.ofByte_lead, Lead.length]

end SortKey
