import SortKey.Encoding.Basic

/-!
# Composite keys

A key is a list of integers, each of its own width. Its bytes are the encodings one after another,
with nothing between them, and compare like the list of integers.
-/

namespace SortKey

structure Component where
  width : Width
  value : Signed width
  deriving DecidableEq, Repr

namespace Component

def toInt (c : Component) : Int := c.value.toInt

def encode (c : Component) : Bytes := c.value.encode

end Component

namespace Key

/-- Enough bytes for a key whatever its values are. -/
def room : List Component → Nat
  | [] => 0
  | c :: cs => c.width.maxLength + room cs

def encode (key : List Component) : Bytes := key.flatMap Component.encode

end Key

end SortKey
