import SortKey.Lead

/-!
# Values from their bytes

A value is put together from its lead and the magnitude bytes that followed it: the bytes are
shifted into a word of all ones or all zeros, which is then shifted back by a constant. All of it
wraps around, so every byte string of the announced length stands for some value.
-/

namespace SortKey

/-- Shifts bytes into a word from the right. -/
def shiftIn {n : Nat} (seed : BitVec n) (bs : Bytes) : BitVec n :=
  bs.foldl (fun acc b => acc <<< 8 ||| BitVec.ofNat n b.toNat) seed

namespace Lead

/-- The value that a lead and its magnitude bytes stand for. -/
def assemble (w : Width) (l : Lead) (magnitude : Bytes) : Signed w :=
  match l with
  | inline x => .ofInt w x
  | below _ => ⟨shiftIn (BitVec.allOnes w.bits) magnitude - BitVec.ofNat w.bits belowShift⟩
  | above _ => ⟨shiftIn (0#w.bits) magnitude + BitVec.ofNat w.bits aboveShift⟩

/-- The same for bytes whose number has been settled by the lead. -/
def decode (w : Width) (l : Lead) (magnitude : Bytes) : Except Violation (Signed w) :=
  if l.count = magnitude.length then .ok (l.assemble w magnitude) else .error .lengthMismatch

end Lead

end SortKey
