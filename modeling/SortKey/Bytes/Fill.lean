import SortKey.Bytes.Range

/-!
# Filling part of a buffer

A destination is filled from anything that delivers bytes by count. The range is resolved before the
first byte is asked for, so a range that is refused costs the supplier nothing.
-/

namespace SortKey

variable {ε σ α : Type}

/-- Overwrites the selected part of the buffer by what `next` delivers for its length. -/
def fillRange [OfViolation ε] (next : Nat → EStateM ε σ Bytes) (r : Range) :
    EStateM ε (σ × Bytes) Unit := fun (s, dst) =>
  match r.span dst.length with
  | .error v => .error (ofViolation v) (s, dst)
  | .ok span =>
      match next span.length s with
      | .ok bs s' => .ok () (s', span.splice dst bs)
      | .error e s' => .error e (s', dst)

/-- Gives a computation a zeroed buffer of its own and returns what the buffer holds in the end. -/
def withBuffer (size : Nat) (x : EStateM ε (σ × Bytes) α) : EStateM ε σ (α × Bytes) := fun s =>
  match x (s, List.replicate size 0) with
  | .ok a (s', buf) => .ok (a, buf) s'
  | .error e (s', _) => .error e s'

end SortKey
