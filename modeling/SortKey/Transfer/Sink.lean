import SortKey.Transfer.Encoding

/-!
# Byte strings as consumers

A sink keeps the bytes it accepts, up to as many as it has room for, and then refuses with a code.
-/

namespace SortKey.Transfer

/-- Codes are numbers if nothing else is said. -/
structure Sink (ε : Type := Int) where
  accepted : Bytes
  room : Nat
  code : ε
  deriving DecidableEq, Repr

variable {ε : Type}

namespace Sink

def ofRoom (room : Nat) (code : ε) : Sink ε := ⟨[], room, code⟩

/-- Hands over bytes in order, as many as there is room for. -/
def put (bs : Bytes) : EStateM ε (Sink ε) Unit := do
  let s ← get
  set { s with accepted := s.accepted ++ bs.take s.room, room := s.room - bs.length }
  if s.room < bs.length then throw s.code

theorem put_eq_ok {bs : Bytes} {s : Sink ε} (h : bs.length ≤ s.room) :
    put bs s = .ok () ⟨s.accepted ++ bs, s.room - bs.length, s.code⟩ := by
  change (if s.room < bs.length then throw s.code else pure () : EStateM ε (Sink ε) Unit)
    ⟨s.accepted ++ bs.take s.room, s.room - bs.length, s.code⟩ = _
  rw [if_neg (Nat.not_lt.mpr h), List.take_of_length_le h]
  rfl

theorem put_eq_error {bs : Bytes} {s : Sink ε} (h : s.room < bs.length) :
    put bs s = .error s.code ⟨s.accepted ++ bs.take s.room, s.room - bs.length, s.code⟩ := by
  change (if s.room < bs.length then throw s.code else pure () : EStateM ε (Sink ε) Unit)
    ⟨s.accepted ++ bs.take s.room, s.room - bs.length, s.code⟩ = _
  rw [if_pos h]
  rfl

end Sink

instance : Consumer (Sink ε) ε := ⟨Sink.put⟩

instance : LawfulConsumer (Sink ε) ε where
  accepted := Sink.accepted
  room := Sink.room
  code := Sink.code
  push_of_le _ _ h := ⟨_, Sink.put_eq_ok h, rfl, rfl, rfl⟩
  push_of_lt _ _ h := ⟨_, Sink.put_eq_error h, rfl⟩

namespace Sink

/-- Encodes one component into a sink. -/
abbrev encode : Component → EStateM (EncodeError ε) (Sink ε) Unit := Transfer.encode

abbrev encodeAll : List Component → Sink ε → List (Except (EncodeError ε) Unit × Sink ε) :=
  Transfer.encodeAll

end Sink

end SortKey.Transfer
