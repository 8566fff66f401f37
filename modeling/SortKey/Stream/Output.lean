import SortKey.Bytes.BufMut
import SortKey.Encoding.Staged
import SortKey.Run
import SortKey.Stream.Field

/-!
# Writing to a growing buffer

Fields are put into a buffer, one after another. A 32-bit field that is already there can be
overwritten, for a length that is only known once the rest has been written. A step that fails on
its own account leaves the buffer as it was.
-/

namespace SortKey.Stream

abbrev Output (β : Type) := EStateM Violation β

namespace Output

variable {β : Type} [BufMut β]

def offset : Output β Nat := return (BufMut.content (← get)).length

def natural (n m : Nat) : Output β Unit := BufMut.put (BigEndian.digits n m)

def boolean (b : Bool) : Output β Unit := natural 1 b.toNat

def byte (b : UInt8) : Output β Unit := natural 1 b.toNat

def int16 (i : Int16) : Output β Unit := natural 2 i.toBitVec.toNat

def int32 (i : Int32) : Output β Unit := natural 4 i.toBitVec.toNat

def int64 (i : Int64) : Output β Unit := natural 8 i.toBitVec.toNat

def float64 (bits : UInt64) : Output β Unit := natural 8 bits.toNat

def bytes (src : Bytes) (r : Range) : Output β Unit := do
  BufMut.put (← checked (r.slice src))

def sorted (c : Component) : Output β Unit := do
  let s ← checked c.value.stage
  bytes s.cells (.upTo s.used)

/-- Writes over part of the bytes that the buffer lends. -/
def overwriteLent (r : Range) (src : Bytes) : Output β Unit := do
  let b ← get
  let span ← checked (r.span (BufMut.lend b).length)
  set (BufMut.reclaim b (span.splice (BufMut.lend b) src))

/-- Overwrites the four bytes at `start`, all of which have to be there. -/
def patch (start : Nat) (i : Int32) : Output β Unit := do
  let written ← offset
  match addIndex start 4 with
  | .ok stop =>
      if stop ≤ written then
        overwriteLent (.between start stop) (BigEndian.digits 4 i.toBitVec.toNat)
      else throw (.patchOutOfRange start written)
  | .error _ => throw (.patchOutOfRange start written)

def field : Field → Output β Unit
  | .boolean b => boolean b
  | .byte b => byte b
  | .int16 i => int16 i
  | .int32 i => int32 i
  | .int64 i => int64 i
  | .float64 bits => float64 bits
  | .sorted c => sorted c

end Output

inductive WriteStep
  | offset
  | field (f : Field)
  | bytes (src : Bytes) (range : Range)
  | patch (offset : Nat) (value : Int32)
  deriving DecidableEq, Repr

namespace WriteStep

variable {β : Type} [BufMut β]

/-- Only the question for the offset has a value. -/
def perform : WriteStep → Output β (Option Nat)
  | offset => some <$> Output.offset
  | field f => do
      Output.field f
      return none
  | bytes src range => do
      Output.bytes src range
      return none
  | patch start value => do
      Output.patch start value
      return none

def run (step : WriteStep) : β → Except Violation (Option Nat) × β := outcome step.perform

end WriteStep

end SortKey.Stream
