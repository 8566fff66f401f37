import SortKey.Encoding.Reassembly
import SortKey.Proofs.Leads

/-!
# What a lead and its magnitude bytes stand for

Shifting bytes into a word multiplies and adds modulo the number of words, so the value that is put
together is the integer of the lead and the magnitude, wrapped into the width. The bytes of an
encoding give back the value that was encoded.
-/

namespace SortKey

theorem shiftLeft_or_byte {n : Nat} (word : BitVec n) (b : UInt8) :
    word <<< 8 ||| BitVec.ofNat n b.toNat = word * 256 + (b.toNat : BitVec n) := by
  apply BitVec.eq_of_toNat_eq
  have hor : 2 ^ 8 * word.toNat + b.toNat = 2 ^ 8 * word.toNat ||| b.toNat :=
    Nat.two_pow_add_eq_or_of_lt b.toNat_lt word.toNat
  rw [BitVec.toNat_or, BitVec.toNat_shiftLeft, BitVec.toNat_ofNat, Nat.shiftLeft_eq,
    ← Nat.or_mod_two_pow, Nat.mul_comm, ← hor]
  simp [Nat.mul_comm]

/-- The bytes are shifted in as base-256 digits behind the seed. -/
theorem shiftIn_intCast {n : Nat} (i : Int) (bs : Bytes) :
    shiftIn (i : BitVec n) bs =
      ((i * BigEndian.limit bs.length + BigEndian.value bs : Int) : BitVec n) := by
  induction bs generalizing i with
  | nil => simp [shiftIn, BigEndian.limit]
  | cons b bs ih =>
      have hstep : (i : BitVec n) <<< 8 ||| BitVec.ofNat n b.toNat =
          ((i * 256 + b.toNat : Int) : BitVec n) := by
        rw [shiftLeft_or_byte]
        push_cast
        rfl
      rw [shiftIn, List.foldl_cons, hstep]
      change shiftIn _ bs = _
      rw [ih, BigEndian.value_cons, List.length_cons, BigEndian.limit]
      congr 1
      push_cast
      ring

namespace Lead

variable {w : Width}

theorem assemble_eq {l : Lead} {m : Bytes} (h : m.length = l.count) :
    l.assemble w m = .ofInt w (l.integer (BigEndian.value m)) := by
  cases l with
  | inline x => rfl
  | below n =>
      have hseed : BitVec.allOnes w.bits = ((-1 : Int) : BitVec w.bits) := by
        rw [← BitVec.neg_one_eq_allOnes]
        push_cast
        rfl
      have hlen : m.length = n := h
      have hshift : BitVec.ofNat w.bits belowShift = ((belowShift : Int) : BitVec w.bits) :=
        (Int.cast_natCast belowShift).symm
      rw [assemble, hseed, shiftIn_intCast, hlen, hshift, ← Int.cast_sub]
      refine congrArg (fun i : Int => Signed.mk (i : BitVec w.bits)) ?_
      rw [integer]
      ring
  | above n =>
      have hseed : 0#w.bits = ((0 : Int) : BitVec w.bits) := by
        push_cast
        rfl
      have hshift : BitVec.ofNat w.bits aboveShift = ((aboveShift : Int) : BitVec w.bits) :=
        (Int.cast_natCast aboveShift).symm
      rw [assemble, hseed, shiftIn_intCast, hshift, ← Int.cast_add]
      refine congrArg (fun i : Int => Signed.mk (i : BitVec w.bits)) ?_
      rw [integer]
      ring

end Lead

namespace Signed

variable {w : Width}

/-- The digits of a value's magnitude, put together behind its lead, are the value. -/
theorem assemble_digits (v : Signed w) :
    v.lead.assemble w (BigEndian.digits v.lead.count (v.lead.magnitude v.toInt)) = v := by
  rw [Lead.assemble_eq (BigEndian.length_digits _ _), v.value_digits_magnitude,
    v.integer_magnitude, ofInt_toInt]

end Signed

end SortKey
