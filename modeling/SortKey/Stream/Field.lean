import SortKey.Key

/-!
# Fields of a byte stream

A stream is a sequence of fields with no marks between them. All but sorted integers have a fixed
width and are big-endian. A byte is written as an unsigned number and read as a signed one, and a
double is its 64 bits, so that every pattern survives.
-/

namespace SortKey.Stream

inductive Field
  | boolean (b : Bool)
  | byte (b : UInt8)
  | int16 (i : Int16)
  | int32 (i : Int32)
  | int64 (i : Int64)
  | float64 (bits : UInt64)
  | sorted (c : Component)
  deriving DecidableEq, Repr

inductive Kind
  | boolean
  | byte
  | int16
  | int32
  | int64
  | float64
  | sorted (w : Width)
  deriving DecidableEq, Repr

/-- What is read. The first two are had without consuming anything. -/
inductive Reading
  | remaining (n : Nat)
  | peeked (b : UInt8)
  | boolean (b : Bool)
  | byte (i : Int8)
  | int16 (i : Int16)
  | int32 (i : Int32)
  | int64 (i : Int64)
  | float64 (bits : UInt64)
  | sorted (c : Component)
  deriving DecidableEq, Repr

def Field.kind : Field → Kind
  | boolean _ => .boolean
  | byte _ => .byte
  | int16 _ => .int16
  | int32 _ => .int32
  | int64 _ => .int64
  | float64 _ => .float64
  | sorted c => .sorted c.width

end SortKey.Stream
