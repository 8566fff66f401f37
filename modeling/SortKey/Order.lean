import SortKey.Bytes.BigEndian
import SortKey.Signed

/-!
# Checking that bytes are ordered like values

Byte strings compare byte by byte, a proper front part being less. The check compares two values and
two byte strings, and reports both comparisons if they differ.
-/

namespace SortKey

structure OrderMismatch (α : Type) where
  first : α
  second : α
  order : Ordering
  firstBytes : Bytes
  secondBytes : Bytes
  byteOrder : Ordering
  deriving Repr

def checkSameOrder {α : Type} [Ord α] (a b : α) (as bs : Bytes) :
    Except (OrderMismatch α) Unit :=
  if compare a b = compare as bs then .ok ()
  else .error ⟨a, b, compare a b, as, bs, compare as bs⟩

def orderName : Ordering → String
  | .lt => "Less"
  | .eq => "Equal"
  | .gt => "Greater"

def decimalBytes (bs : Bytes) : String :=
  "[" ++ ", ".intercalate (bs.map fun b => toString b.toNat) ++ "]"

namespace OrderMismatch

variable {α : Type}

def message (inspect : α → String) (m : OrderMismatch α) : String :=
  inspect m.first ++ " and " ++ inspect m.second ++ " compare as " ++ orderName m.order ++
    ", but their encodings " ++ decimalBytes m.firstBytes ++ " and " ++
    decimalBytes m.secondBytes ++ " compare as " ++ orderName m.byteOrder

end OrderMismatch

/-- The elements in ascending order; equal ones stay as they were. -/
def ascending {α : Type} [Ord α] (xs : List α) : List α :=
  xs.mergeSort fun a b => (compare a b).isLE

end SortKey
