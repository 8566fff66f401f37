import SortKey.Encoding.Staged
import SortKey.Key
import SortKey.Run

/-!
# Encoding into a consumer

A consumer accepts bytes for as long as it has room for them, and then fails with a code of its own.
What fits of an encoding is accepted even if the whole of it does not fit.
-/

namespace SortKey.Transfer

class Consumer (κ : Type) (ε : outParam Type) where
  /-- Hands over bytes. A consumer that runs out of room before the last one reports its code. -/
  push : Bytes → EStateM ε κ Unit

/-- The bytes handed over so far are `accepted`, and there is `room` for so many more. Bytes are
taken in order, and from the front those for which there is room if that is not all of them. -/
class LawfulConsumer (κ : Type) (ε : outParam Type) [Consumer κ ε] where
  accepted : κ → Bytes
  room : κ → Nat
  code : κ → ε
  push_of_le : ∀ (bs : Bytes) (k : κ), bs.length ≤ room k → ∃ k',
    Consumer.push bs k = .ok () k' ∧ accepted k' = accepted k ++ bs ∧
      room k' = room k - bs.length ∧ code k' = code k
  push_of_lt : ∀ (bs : Bytes) (k : κ), room k < bs.length → ∃ k',
    Consumer.push bs k = .error (code k) k' ∧ accepted k' = accepted k ++ bs.take (room k)

inductive EncodeError (ε : Type := Int)
  | refused (code : ε)
  | violation (v : Violation)
  deriving DecidableEq, Repr

variable {κ ε : Type}

instance : OfViolation (EncodeError ε) := ⟨EncodeError.violation⟩

/-- How many bytes are going to be handed over. -/
def encodedLength (c : Component) : Except Violation Nat := c.value.stagedLength

variable [Consumer κ ε]

def encode (c : Component) : EStateM (EncodeError ε) κ Unit := do
  (Consumer.push (← checked c.value.stagedEncode)).adaptExcept .refused

/-- The answers of a run, each with the consumer after it. A refusal ends the run. -/
def encodeAll : List Component → κ → List (Except (EncodeError ε) Unit × κ) :=
  trace isFailure fun c => outcome (encode c)

end SortKey.Transfer
