import SortKey.Bytes.Buf
import SortKey.Bytes.Fill
import SortKey.Encoding.Reassembly
import SortKey.Run
import SortKey.Stream.Field

/-!
# Reading from the front of a buffer

A read consumes the bytes of what it returns. It makes sure of them before it takes the first one,
so a read that fails consumes nothing. A sorted integer is read in two looks: its first byte says
how many bytes belong to it, and only if all of them are there is any of them taken.
-/

namespace SortKey.Stream

abbrev Input (β : Type) := EStateM Fault β

namespace Input

variable {β : Type} [Buf β]

def remaining : Input β Nat := return Buf.remaining (← get)

/-- Fails unless `n` bytes are left. -/
def need (n : Nat) : Input β Unit := do
  let available ← remaining
  if available < n then throw (.underflow ⟨n, available⟩)

/-- The next byte, which stays unread. -/
def peek : Input β UInt8 := do
  need 1
  checked (byteAt (Buf.chunk (← get)) 0)

def next (n : Nat) : Input β Bytes := do
  need n
  modifyGet (Buf.take n)

def natural (n : Nat) : Input β Nat := return BigEndian.value (← next n)

/-- Any byte but zero is true. -/
def boolean : Input β Bool := return (← natural 1) != 0

def byte : Input β Int8 := return .ofBitVec (.ofNat 8 (← natural 1))

def int16 : Input β Int16 := return .ofBitVec (.ofNat 16 (← natural 2))

def int32 : Input β Int32 := return .ofBitVec (.ofNat 32 (← natural 4))

def int64 : Input β Int64 := return .ofBitVec (.ofNat 64 (← natural 8))

def float64 : Input β UInt64 := return .ofNat (← natural 8)

def fill (r : Range) : EStateM Fault (β × Bytes) Unit := fillRange next r

def sorted (w : Width) : Input β Component := do
  let lead := Lead.ofByte (← peek)
  checked (lead.require w)
  let (_, cells) ← withBuffer w.maxLength (fill (.upTo lead.length))
  let magnitude ← checked ((Range.between 1 lead.length).slice cells)
  return ⟨w, ← checked (lead.decode w magnitude)⟩

def field : Kind → Input β Reading
  | .boolean => .boolean <$> boolean
  | .byte => .byte <$> byte
  | .int16 => .int16 <$> int16
  | .int32 => .int32 <$> int32
  | .int64 => .int64 <$> int64
  | .float64 => .float64 <$> float64
  | .sorted w => .sorted <$> sorted w

end Input

inductive ReadStep
  | remaining
  | peek
  | field (k : Kind)
  | fill (dst : Bytes) (range : Range)
  deriving DecidableEq, Repr

/-- The answer to a read; for a destination that was to be filled, what it holds afterwards. -/
inductive ReadReply
  | value (r : Except Fault Reading)
  | filled (r : Except Fault Unit) (dst : Bytes)

namespace ReadStep

variable {β : Type} [Buf β]

def run (step : ReadStep) (b : β) : ReadReply × β :=
  match step with
  | remaining => (outcome (.remaining <$> Input.remaining) b).map .value id
  | peek => (outcome (.peeked <$> Input.peek) b).map .value id
  | field k => (outcome (Input.field k) b).map .value id
  | fill dst range =>
      let (r, b', dst') := outcome (Input.fill range) (b, dst)
      (.filled r dst', b')

end ReadStep

end SortKey.Stream
