import SortKey.Bytes.BigEndian
import SortKey.Signed

/-!
# Lead bytes

The first byte of an encoding is all there is to know about its shape. The middle of the byte range
holds small values themselves. The bytes below it announce a value below that band, the smaller the
byte the more magnitude bytes follow; the bytes above it announce a value above the band, the
greater the byte the more follow. So lead bytes are ordered like the values behind them.
-/

namespace SortKey

/-- The least value that is its own encoding. -/
def inlineMin : Int := -119

/-- The greatest value that is its own encoding. -/
def inlineMax : Int := 120

/-- The distance from a small value to its byte. -/
def inlineBias : Int := 127

/-- Lead bytes below this announce a value below the inline band. -/
def belowBase : Nat := 8

/-- Lead bytes above this announce a value above the inline band. -/
def aboveBase : Nat := 247

/-- Added to a value below the band; the sum is negative. -/
def belowShift : Nat := 119

/-- Subtracted from a value above the band; the difference is not negative. -/
def aboveShift : Nat := 121

inductive Lead
  | inline (value : Int)
  | below (count : Nat)
  | above (count : Nat)
  deriving DecidableEq, Repr

namespace Lead

def ofByte (b : UInt8) : Lead :=
  if b.toNat < belowBase then .below (belowBase - b.toNat)
  else if aboveBase < b.toNat then .above (b.toNat - aboveBase)
  else .inline (b.toNat - inlineBias)

def toByte : Lead → UInt8
  | inline x => UInt8.ofNat (x + inlineBias).toNat
  | below n => UInt8.ofNat (belowBase - n)
  | above n => UInt8.ofNat (aboveBase + n)

def count : Lead → Nat
  | inline _ => 0
  | below n => n
  | above n => n

/-- The length of the whole encoding. -/
def length (l : Lead) : Nat := 1 + l.count

/-- Refuses a lead that announces more bytes than the width has. The wide width has room for all. -/
def require (w : Width) (l : Lead) : Except Violation Unit :=
  if l.length ≤ w.maxLength then .ok () else .error (.tooManyMagnitudeBytes l.count)

theorem toByte_ofByte (b : UInt8) : (ofByte b).toByte = b := by
  have hb := b.toNat_lt
  apply UInt8.toNat.inj
  unfold ofByte belowBase aboveBase inlineBias
  split
  · simp only [toByte, belowBase, UInt8.toNat_ofNat']
    omega
  · split
    · simp only [toByte, aboveBase, UInt8.toNat_ofNat']
      omega
    · simp only [toByte, inlineBias, UInt8.toNat_ofNat']
      omega

theorem count_ofByte_le (b : UInt8) : (ofByte b).count ≤ 8 := by
  have hb := b.toNat_lt
  unfold ofByte belowBase aboveBase
  split
  · simp [count]
  · split
    · simp only [count]
      omega
    · simp [count]

theorem length_pos (l : Lead) : 0 < l.length := by
  rw [length]
  omega

end Lead

end SortKey
