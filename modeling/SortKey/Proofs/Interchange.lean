import SortKey.Proofs.Agreement
import SortKey.Proofs.Canonic
import SortKey.Proofs.KeyOrder
import SortKey.Proofs.Wrapping

/-!
# Bytes that change their width

The scheme does not know the width of what it encodes, so equal integers have equal bytes at both
widths. A narrow reader takes the bytes of a wide value if it has room for them, and then it sees
the low part of the value. Only canonic decoding notices when that is less than the value.
-/

namespace SortKey

namespace Signed

variable {w w' : Width}

end Signed

namespace Buffer

end Buffer

namespace Transfer

variable {π φ ε : Type} [Producer π φ ε] [LawfulProducer π φ ε] {w w' : Width} {p : π}

open LawfulProducer

end Transfer

open Transfer

variable {β π φ ε : Type} [Buf β] [LawfulBuf β] [Producer π φ ε] [LawfulProducer π φ ε]

open LawfulBuf LawfulProducer

section Narrow

variable {w w' : Width} {v : Signed w'} {buf rest : Bytes} {offset : Nat} {b : β} {p : π}

end Narrow

end SortKey
