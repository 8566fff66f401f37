import SortKey.Encoding.Basic
import SortKey.Bytes.Range

/-!
# Encoding on machine words

Writing an encoding needs no list of unknown length: it fits into a fixed number of cells. The cells
are filled from the shifted word itself, byte by byte from the most significant one, and each byte
but the last is kept only if the word differs from its fill there or further up. Sums, narrowings
and indices are all checked, so that a result is a proof that none of them went wrong.
-/

namespace SortKey

/-- Cells for one encoding, and how many of them are in use. The first is kept for the lead byte. -/
structure Stage where
  cells : Bytes
  used : Nat
  deriving DecidableEq, Repr

namespace Stage

def fresh (w : Width) : Stage := ⟨List.replicate w.maxLength 0, 1⟩

def written (s : Stage) : Except Violation Bytes := (Range.upTo s.used).slice s.cells

end Stage

abbrev Staging := EStateM Violation Stage

namespace Staging

def store (i : Nat) (b : UInt8) : Staging Unit := do
  let s ← get
  if i < s.cells.length then set { s with cells := s.cells.set i b } else throw .indexOutOfRange

def push (b : UInt8) : Staging Unit := do
  let s ← get
  store s.used b
  let used ← checked (nextIndex s.used)
  modify fun s => { s with used := used }

def unsignedByte (i : Int) : Except Violation UInt8 :=
  if 0 ≤ i ∧ i < 256 then .ok (UInt8.ofNat i.toNat) else .error .overflow

def signedByte (i : Int) : Except Violation Int8 :=
  if -128 ≤ i ∧ i < 128 then .ok (Int8.ofInt i) else .error .overflow

variable {n : Nat}

/-- The `k`-th byte of a word, from the least significant one. -/
def wordByte (word : BitVec n) (k : Nat) : UInt8 := UInt8.ofNat (word >>> (8 * k)).toNat

def lowMask (n k : Nat) : BitVec n := BitVec.ofNat n (BigEndian.limit k - 1)

/-- Something at or above byte `k` differs from all ones. -/
def keptBelow (word : BitVec n) (k : Nat) : Bool := word ||| lowMask n k != BitVec.allOnes n

/-- Something at or above byte `k` differs from zero. -/
def keptAbove (word : BitVec n) (k : Nat) : Bool := word &&& ~~~ lowMask n k != 0#n

/-- Pushes the bytes `k`, …, `1` that are kept, and byte `0`. -/
def pushKept (kept : BitVec n → Nat → Bool) (word : BitVec n) : Nat → Staging Unit
  | 0 => push (wordByte word 0)
  | k + 1 => do
      if kept word (k + 1) then push (wordByte word (k + 1))
      pushKept kept word k

/-- Writes the lead byte once the magnitude bytes are counted. -/
def storeLead (lead : Int → Int) : Staging Unit := do
  let s ← get
  let count ← checked (unsignedByte (s.used - 1))
  store 0 (← checked (unsignedByte (lead count.toNat)))

def encode {w : Width} (v : Signed w) : Staging Unit := do
  if v.toInt < inlineMin then
    let shifted ← checked (v.addChecked belowShift)
    pushKept keptBelow shifted.word (w.bytes - 1)
    storeLead fun count => belowBase - count
  else if inlineMax < v.toInt then
    let shifted ← checked (v.addChecked (-aboveShift))
    pushKept keptAbove shifted.word (w.bytes - 1)
    storeLead fun count => aboveBase + count
  else
    let small ← checked (signedByte v.toInt)
    store 0 (← checked (unsignedByte (small.toInt + inlineBias)))

end Staging

namespace Signed

variable {w : Width}

/-- The cells after encoding `v` into fresh ones. -/
def stage (v : Signed w) : Except Violation Stage :=
  match Staging.encode v (Stage.fresh w) with
  | .ok _ s => .ok s
  | .error e _ => .error e

/-- The encoding of `v`, by way of the cells. -/
def stagedEncode (v : Signed w) : Except Violation Bytes := do
  (← v.stage).written

/-- The length of the encoding of `v`, by way of the cells. -/
def stagedLength (v : Signed w) : Except Violation Nat := do
  return (← v.stage).used

end Signed

end SortKey
