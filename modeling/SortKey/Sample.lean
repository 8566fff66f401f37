import SortKey.Bytes.BigEndian
import SortKey.Signed

/-!
# Values drawn from a pool of bytes

A value is drawn from the front of a pool as its little-endian word. A pool that runs out counts as
zeros, so every pool yields a value.
-/

namespace SortKey.Sample

def draw (w : Width) (pool : Bytes) : Signed w × Bytes :=
  (⟨BitVec.ofNat w.bits (BigEndian.value (pool.take w.bytes).reverse)⟩, pool.drop w.bytes)

def drawAll (w : Width) : Nat → Bytes → List (Signed w × Bytes)
  | 0, _ => []
  | n + 1, pool =>
      let (v, rest) := draw w pool
      (v, rest) :: drawAll w n rest

end SortKey.Sample
