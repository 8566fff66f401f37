import SortKey.Bytes.BigEndian
import SortKey.Fault

/-!
# Ranges of a byte string

A range is a pair of bounds, each absent, included or excluded. Against a length it resolves to a
span of indices, or it is refused. An index is a number of 64 bits, so a sum of two is checked where
nothing else bounds it.
-/

namespace SortKey

/-- The least number that is no 64-bit index. -/
def indexLimit : Nat := BigEndian.limit 8

inductive Bound
  | unbounded
  | included (n : Nat)
  | excluded (n : Nat)
  deriving DecidableEq, Repr

structure Range where
  lower : Bound := .unbounded
  upper : Bound := .unbounded
  deriving DecidableEq, Repr

/-- The indices from `start` up to but not including `stop`. -/
structure Span where
  start : Nat
  stop : Nat
  deriving DecidableEq, Repr

def addIndex (m n : Nat) : Except Violation Nat :=
  if m + n < indexLimit then .ok (m + n) else .error .overflow

theorem addIndex_ok {m n : Nat} (h : m + n < indexLimit) : addIndex m n = .ok (m + n) := if_pos h

theorem addIndex_error {m n : Nat} (h : indexLimit ≤ m + n) : addIndex m n = .error .overflow :=
  if_neg (Nat.not_lt.mpr h)

def nextIndex (n : Nat) : Except Violation Nat := addIndex n 1

namespace Bound

/-- The first index that a lower bound admits. -/
def first : Bound → Except Violation Nat
  | unbounded => .ok 0
  | included n => .ok n
  | excluded n => nextIndex n

/-- The index at which an upper bound ends a string of length `len`. -/
def past (len : Nat) : Bound → Except Violation Nat
  | unbounded => .ok len
  | included n => nextIndex n
  | excluded n => .ok n

end Bound

namespace Span

def length (s : Span) : Nat := s.stop - s.start

def slice (s : Span) (bs : Bytes) : Bytes := (bs.take s.stop).drop s.start

def splice (s : Span) (bs src : Bytes) : Bytes := bs.take s.start ++ src ++ bs.drop s.stop

end Span

namespace Range

def upTo (n : Nat) : Range := { upper := .excluded n }

def between (start stop : Nat) : Range := { lower := .included start, upper := .excluded stop }

def span (r : Range) (len : Nat) : Except Violation Span := do
  let start ← r.lower.first
  let stop ← r.upper.past len
  if start ≤ stop ∧ stop ≤ len then return ⟨start, stop⟩ else throw .indexOutOfRange

def slice (r : Range) (bs : Bytes) : Except Violation Bytes := do
  return (← r.span bs.length).slice bs

end Range

def byteAt (bs : Bytes) (i : Nat) : Except Violation UInt8 :=
  match bs[i]? with
  | some b => .ok b
  | none => .error .indexOutOfRange

/-- Replaces the bytes from `offset` on by `src`, which has to end within the buffer. -/
def overwrite (offset : Nat) (src : Bytes) : EStateM Violation Bytes Unit := do
  let buf ← get
  let stop ← checked (addIndex offset src.length)
  let span ← checked ((Range.between offset stop).span buf.length)
  set (span.splice buf src)

end SortKey
