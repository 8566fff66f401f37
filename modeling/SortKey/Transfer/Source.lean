import SortKey.Transfer.Decoding

/-!
# Byte strings as producers

A source is a byte string that is delivered from the front and the ending that comes after it.
-/

namespace SortKey.Transfer

structure Source (φ : Type := Int) (ε : Type := Int) where
  unread : Bytes
  ending : Ending φ ε
  deriving DecidableEq, Repr

variable {φ ε : Type}

namespace Source

/-- Takes `n` bytes. A source that ends before gives up the bytes it has. -/
def pull (n : Nat) : EStateM (Ending φ ε) (Source φ ε) Bytes := do
  let s ← get
  set { s with unread := s.unread.drop n }
  if n ≤ s.unread.length then return s.unread.take n else throw s.ending

theorem pull_eq_ok {n : Nat} {s : Source φ ε} (h : n ≤ s.unread.length) :
    pull n s = .ok (s.unread.take n) ⟨s.unread.drop n, s.ending⟩ := by
  change (if n ≤ s.unread.length then pure (s.unread.take n) else throw s.ending :
    EStateM (Ending φ ε) (Source φ ε) Bytes) ⟨s.unread.drop n, s.ending⟩ = _
  rw [if_pos h]
  rfl

theorem pull_eq_error {n : Nat} {s : Source φ ε} (h : s.unread.length < n) :
    pull n s = .error s.ending ⟨s.unread.drop n, s.ending⟩ := by
  change (if n ≤ s.unread.length then pure (s.unread.take n) else throw s.ending :
    EStateM (Ending φ ε) (Source φ ε) Bytes) ⟨s.unread.drop n, s.ending⟩ = _
  rw [if_neg (Nat.not_le.mpr h)]
  rfl

end Source

instance : Producer (Source φ ε) φ ε := ⟨Source.pull⟩

instance : LawfulProducer (Source φ ε) φ ε where
  unread := Source.unread
  ending := Source.ending
  pull_of_le _ _ h := ⟨_, Source.pull_eq_ok h, rfl, rfl⟩
  pull_of_lt _ _ h := ⟨_, Source.pull_eq_error h, List.drop_eq_nil_of_le (Nat.le_of_lt h)⟩

end SortKey.Transfer
