import SortKey.Bytes.BigEndian
import SortKey.Fault

/-!
# Signed integers of two widths

A signed integer is the word that stores it. The integer that a word stands for is its two's
complement reading, and words are ordered by that reading.
-/

namespace SortKey

inductive Width
  | w32
  | w64
  deriving DecidableEq, Repr

namespace Width

def bytes : Width → Nat
  | w32 => 4
  | w64 => 8

def bits (w : Width) : Nat := 8 * w.bytes

/-- The length of the longest encoding: a lead byte and one byte for each byte of the word. -/
def maxLength (w : Width) : Nat := 1 + w.bytes

def label : Width → String
  | w32 => "SortedI32"
  | w64 => "SortedI64"

def least (w : Width) : Int := -(BigEndian.limit w.bytes / 2)

def greatest (w : Width) : Int := BigEndian.limit w.bytes / 2 - 1

end Width

structure Signed (w : Width) where
  word : BitVec w.bits
  deriving DecidableEq, Repr

namespace Signed

variable {w : Width}

def toInt (v : Signed w) : Int := v.word.toInt

/-- The value congruent to `i` modulo the number of words. -/
def ofInt (w : Width) (i : Int) : Signed w := ⟨BitVec.ofInt w.bits i⟩

/-- A sum that has to stay within the width. -/
def addChecked (v : Signed w) (i : Int) : Except Violation (Signed w) :=
  if w.least ≤ v.toInt + i ∧ v.toInt + i ≤ w.greatest then .ok (ofInt w (v.toInt + i))
  else .error .overflow

instance : Ord (Signed w) := ⟨fun a b => compare a.toInt b.toInt⟩

theorem compare_eq (a b : Signed w) : compare a b = compare a.toInt b.toInt := rfl

@[ext] theorem ext_toInt {a b : Signed w} (h : a.toInt = b.toInt) : a = b := by
  cases a
  cases b
  exact congrArg Signed.mk (BitVec.eq_of_toInt_eq h)

@[simp] theorem ofInt_toInt (v : Signed w) : ofInt w v.toInt = v := by
  cases v
  simp [ofInt, toInt]

def decimal (v : Signed w) : String := toString v.toInt

def inspect (v : Signed w) : String := w.label ++ "(" ++ v.decimal ++ ")"

end Signed

end SortKey
