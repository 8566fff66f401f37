/-!
# Faults

A read fails in one of two ways. It underflows when the bytes end too early, which a caller may
handle and retry, or it violates its contract, which no amount of further bytes can mend. Writes
only ever fail by a violation.
-/

namespace SortKey

structure Underflow where
  requested : Nat
  available : Nat
  deriving DecidableEq, Repr

namespace Underflow

def message (u : Underflow) : String :=
  "Tried to read " ++ toString u.requested ++ " bytes, but only " ++ toString u.available ++
    " bytes remain"

def inspect (u : Underflow) : String :=
  "UnderflowError \x7b requested: " ++ toString u.requested ++ ", available: " ++
    toString u.available ++ " \x7d"

end Underflow

inductive Violation
  | tooManyMagnitudeBytes (announced : Nat)
  | patchOutOfRange (offset written : Nat)
  | indexOutOfRange
  | overflow
  | lengthMismatch
  deriving DecidableEq, Repr

namespace Violation

/-- The two violations with a text name the numbers at fault; the others are breaches of bounds. -/
def message : Violation → Option String
  | tooManyMagnitudeBytes announced => some <|
      "Can't decode an i32 from an encoding announcing " ++ toString announced ++
        " magnitude bytes!"
  | patchOutOfRange offset written => some <|
      "Can't patch four bytes at offset " ++ toString offset ++ " of a buffer with only " ++
        toString written ++ " written bytes!"
  | indexOutOfRange => none
  | overflow => none
  | lengthMismatch => none

end Violation

inductive Fault
  | underflow (u : Underflow)
  | violation (v : Violation)
  deriving DecidableEq, Repr

/-- Error types that can carry a violation. -/
class OfViolation (ε : Type) where
  ofViolation : Violation → ε

export OfViolation (ofViolation)

instance : OfViolation Violation := ⟨id⟩

instance : OfViolation Fault := ⟨Fault.violation⟩

/-- Runs a check inside a stateful computation. A failed check leaves the state as it is. -/
def checked {ε σ α : Type} [OfViolation ε] : Except Violation α → EStateM ε σ α
  | .ok a => pure a
  | .error v => throw (ofViolation v)

@[simp] theorem checked_ok {ε σ α : Type} [OfViolation ε] (a : α) (s : σ) :
    (checked (.ok a) : EStateM ε σ α) s = .ok a s := rfl

@[simp] theorem checked_error {ε σ α : Type} [OfViolation ε] (v : Violation) (s : σ) :
    (checked (.error v) : EStateM ε σ α) s = .error (ofViolation v) s := rfl

end SortKey
