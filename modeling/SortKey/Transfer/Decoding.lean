import SortKey.Bytes.Fill
import SortKey.Encoding.Reassembly
import SortKey.Encoding.Staged
import SortKey.Key
import SortKey.Run

/-!
# Decoding from a producer

A producer delivers bytes until it ends, with a last item or with an error. A value is decoded in
two fills of one set of cells, first the lead byte and then what it announces, so no byte past the
encoding is ever taken. Canonic decoding accepts only the bytes that encoding would have produced.
-/

namespace SortKey.Transfer

/-- Last items and error codes are numbers if nothing else is said. -/
inductive Ending (φ : Type := Int) (ε : Type := Int)
  | final (item : φ)
  | failure (code : ε)
  deriving DecidableEq, Repr

class Producer (π : Type) (φ ε : outParam Type) where
  /-- Takes `n` bytes. A producer that ends before reports its end. -/
  pull : Nat → EStateM (Ending φ ε) π Bytes

/-- The bytes up to the end are `unread`. They are taken from the front, and all of them if they are
too few. -/
class LawfulProducer (π : Type) (φ ε : outParam Type) [Producer π φ ε] where
  unread : π → Bytes
  ending : π → Ending φ ε
  pull_of_le : ∀ (n : Nat) (p : π), n ≤ (unread p).length → ∃ p',
    Producer.pull n p = .ok ((unread p).take n) p' ∧
      unread p' = (unread p).drop n ∧ ending p' = ending p
  pull_of_lt : ∀ (n : Nat) (p : π), (unread p).length < n → ∃ p',
    Producer.pull n p = .error (ending p) p' ∧ unread p' = []

inductive FormatError
  | tooWide
  | notMinimal
  deriving DecidableEq, Repr

namespace FormatError

def message : FormatError → String
  | tooWide => "The indicator byte announced too many magnitude bytes"
  | notMinimal => "A sorted integer encoding was not minimal"

def name : FormatError → String
  | tooWide => "TooWide"
  | notMinimal => "NotMinimal"

end FormatError

inductive DecodeError (φ : Type := Int) (ε : Type := Int)
  | ended (ending : Ending φ ε)
  | format (e : FormatError)
  | violation (v : Violation)
  deriving DecidableEq, Repr

variable {π φ ε : Type}

instance : OfViolation (DecodeError φ ε) := ⟨DecodeError.violation⟩

section Decoding

variable [Producer π φ ε]

/-- Fills part of the cells from the producer. -/
def fill (r : Range) : EStateM (DecodeError φ ε) (π × Bytes) Unit :=
  fillRange (fun n => (Producer.pull n).adaptExcept .ended) r

/-- Fills the cells with one whole encoding and returns its lead. -/
def fillFrame (w : Width) : EStateM (DecodeError φ ε) (π × Bytes) Lead := do
  fill (.upTo 1)
  let (_, cells) ← get
  let lead := Lead.ofByte (← checked (byteAt cells 0))
  if w.maxLength < lead.length then throw (.format .tooWide)
  if 1 < lead.length then fill (.between 1 lead.length)
  return lead

/-- The next value, with its lead and the cells it was read into. -/
def frame (w : Width) : EStateM (DecodeError φ ε) π (Signed w × Lead × Bytes) := do
  let (lead, cells) ← withBuffer w.maxLength (fillFrame w)
  let magnitude ← checked ((Range.between 1 lead.length).slice cells)
  return (← checked (lead.decode w magnitude), lead, cells)

def decode (w : Width) : EStateM (DecodeError φ ε) π (Signed w) := do
  let (v, _, _) ← frame w
  return v

/-- Decoding wraps around, so only comparing the bytes tells every foreign encoding. -/
def decodeCanonic (w : Width) : EStateM (DecodeError φ ε) π (Signed w) := do
  let (v, lead, cells) ← frame w
  let canonic ← checked v.stagedEncode
  let given ← checked ((Range.upTo lead.length).slice cells)
  if canonic = given then return v else throw (.format .notMinimal)

end Decoding

structure DecodeStep where
  width : Width
  canonic : Bool
  deriving DecidableEq, Repr

namespace DecodeStep

/-- Only the end of the producer ends a run; a run goes on behind bytes that were refused. -/
def isLast : Except (DecodeError φ ε) Component → Bool
  | .error (.ended _) => true
  | _ => false

variable [Producer π φ ε]

def perform (step : DecodeStep) : EStateM (DecodeError φ ε) π Component :=
  Component.mk step.width <$>
    if step.canonic then decodeCanonic step.width else decode step.width

def runAll : List DecodeStep → π → List (Except (DecodeError φ ε) Component × π) :=
  trace isLast fun step => outcome step.perform

end DecodeStep

end SortKey.Transfer
