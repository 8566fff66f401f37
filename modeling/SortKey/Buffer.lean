import SortKey.Encoding.Reassembly
import SortKey.Encoding.Staged
import SortKey.Key
import SortKey.Run

/-!
# Encodings at offsets of a fixed buffer

A buffer of fixed size holds encodings at offsets. Writing returns the offset past the encoding,
reading leaves the buffer alone, and the length of an encoding shows in its first byte. So a buffer
is walked from one encoding to the next without knowing what was written.
-/

namespace SortKey.Buffer

def probe (buf : Bytes) (offset : Nat) : Except Violation Nat := do
  return (Lead.ofByte (← byteAt buf offset)).length

def write {w : Width} (v : Signed w) (offset : Nat) : EStateM Violation Bytes Nat := do
  let bs ← checked v.stagedEncode
  overwrite offset bs
  checked (addIndex offset bs.length)

/-- Reads the value that is encoded at `offset`. Past the end there is nothing to read. -/
def read (w : Width) (buf : Bytes) (offset : Nat) : Except Fault (Signed w) :=
  match buf.drop offset with
  | [] => .error (.underflow ⟨1, 0⟩)
  | b :: bs => do
      let lead := Lead.ofByte b
      (lead.require w).mapError .violation
      if bs.length + 1 < lead.length then throw (.underflow ⟨lead.length, bs.length + 1⟩)
      let magnitude ← ((Range.between 1 lead.length).slice (b :: bs)).mapError .violation
      (lead.decode w magnitude).mapError .violation

/-- Reads at an offset and moves on by what the probe says. -/
def next (w : Width) (buf : Bytes) : EStateM Fault Nat (Signed w) := fun offset =>
  match read w buf offset with
  | .error e => .error e offset
  | .ok v =>
      match probe buf offset with
      | .error e => .error (.violation e) offset
      | .ok n => .ok v (offset + n)

/-- Writes components one after another and returns the offset past each. -/
def writeAll : List Component → Nat → EStateM Violation Bytes (List Nat)
  | [], _ => pure []
  | c :: cs, offset => do
      let past ← write c.value offset
      return past :: (← writeAll cs past)

/-- The offsets past the components and the bytes they take up in a buffer that has room for all. -/
def pack (cs : List Component) : Except Violation (List Nat × Bytes) := do
  match writeAll cs 0 (List.replicate (Key.room cs) 0) with
  | .error e _ => throw e
  | .ok ends buf => return (ends, ← (Range.upTo (ends.getLast?.getD 0)).slice buf)

/-- Reads components of the given widths one after another, up to the first that fails, each with
the offset past it. -/
def readAll (buf : Bytes) : List Width → Nat → List (Except Fault Component × Nat) :=
  trace isFailure fun w => outcome (Component.mk w <$> next w buf)

theorem lt_of_probe_eq_ok {buf : Bytes} {offset n : Nat} (h : probe buf offset = .ok n) :
    offset < buf.length ∧ 0 < n := by
  unfold probe byteAt at h
  cases hb : buf[offset]? with
  | none => simp [hb, bind, Except.bind] at h
  | some b =>
      simp only [hb, bind, Except.bind, pure, Except.pure, Except.ok.injEq] at h
      exact ⟨(List.getElem?_eq_some_iff.mp hb).1, h ▸ Lead.length_pos _⟩

theorem lt_of_next_eq_ok {w : Width} {buf : Bytes} {offset offset' : Nat} {v : Signed w}
    (h : next w buf offset = .ok v offset') : offset < buf.length ∧ offset < offset' := by
  unfold next at h
  cases hr : read w buf offset with
  | error e => simp [hr] at h
  | ok u =>
      cases hp : probe buf offset with
      | error e => simp [hr, hp] at h
      | ok n =>
          have hn := lt_of_probe_eq_ok hp
          simp only [hr, hp, EStateM.Result.ok.injEq] at h
          omega

/-- Reads values of one width for as long as that succeeds, each with the offset it was read at. The
last entry is the failure. -/
def scan (w : Width) (buf : Bytes) (offset : Nat) : List (Nat × Except Fault (Signed w)) :=
  match _h : next w buf offset with
  | .ok v offset' => (offset, .ok v) :: scan w buf offset'
  | .error e _ => [(offset, .error e)]
termination_by buf.length - offset
decreasing_by
  have := lt_of_next_eq_ok _h
  omega

end SortKey.Buffer
