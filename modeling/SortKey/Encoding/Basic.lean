import SortKey.Lead

/-!
# Order-preserving encoding

A small value is one byte. A value outside the inline band is a lead byte followed by the fewest
base-256 digits that its distance from the band fits into. Above the band the digits count up from
zero; below it they count down from all ones, so that they too grow with the value.
-/

namespace SortKey

/-- The number of base-256 digits of `m`. Zero has one digit. -/
def digitCount (m : Nat) : Nat := Nat.log2 m / 8 + 1

namespace Lead

/-- What remains of `x` once its lead byte is known, as a number of `count` digits. -/
def magnitude : Lead → Int → Nat
  | inline _, _ => 0
  | below n, x => (x + belowShift + BigEndian.limit n).toNat
  | above _, x => (x - aboveShift).toNat

end Lead

namespace Signed

variable {w : Width}

def lead (v : Signed w) : Lead :=
  if v.toInt < inlineMin then .below (digitCount (inlineMin - 1 - v.toInt).toNat)
  else if inlineMax < v.toInt then .above (digitCount (v.toInt - (inlineMax + 1)).toNat)
  else .inline v.toInt

def encode (v : Signed w) : Bytes :=
  v.lead.toByte :: BigEndian.digits v.lead.count (v.lead.magnitude v.toInt)

def encodedLength (v : Signed w) : Nat := v.lead.length

@[simp] theorem length_encode (v : Signed w) : v.encode.length = v.encodedLength := by
  rw [encode, encodedLength, Lead.length, List.length_cons, BigEndian.length_digits, Nat.add_comm]

end Signed

end SortKey
