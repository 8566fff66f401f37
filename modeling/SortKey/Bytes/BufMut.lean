import SortKey.Bytes.Buf
import SortKey.Fault

/-!
# Buffers that are written to

Bytes are put into a buffer, and the bytes that it holds are lent out to be written over. What that
amounts to is up to the buffer; one that grows takes every byte, behind those that it holds. A
buffer that is read from its front as well holds what is still unread.
-/

namespace SortKey

class BufMut (β : Type) where
  /-- The bytes that the buffer holds. -/
  content : β → Bytes
  /-- Puts bytes in. A number is put as its bytes, the most significant one first. -/
  put : Bytes → EStateM Violation β Unit
  /-- The bytes that may be written over. -/
  lend : β → Bytes
  /-- The buffer after they have been. -/
  reclaim : β → Bytes → β

/-- What is put is appended, and there is always room for it. The bytes lent are those that are
held. -/
class LawfulBufMut (β : Type) [BufMut β] : Prop where
  put_ok : ∀ (bs : Bytes) (b : β), ∃ b', BufMut.put bs b = .ok () b' ∧
    BufMut.content b' = BufMut.content b ++ bs
  lend_eq : ∀ b : β, BufMut.lend b = BufMut.content b
  content_reclaim : ∀ (b : β) (bs : Bytes), bs.length = (BufMut.lend b).length →
    BufMut.content (BufMut.reclaim b bs) = bs

/-- What a buffer holds is what can be read from it. -/
class LawfulQueue (β : Type) [Buf β] [LawfulBuf β] [BufMut β] : Prop extends LawfulBufMut β where
  content_eq_view : ∀ b : β, BufMut.content b = LawfulBuf.view b

instance : BufMut Bytes where
  content := id
  put bs := modify fun held => held ++ bs
  lend := id
  reclaim _ bs := bs

instance : LawfulQueue Bytes where
  put_ok _ _ := ⟨_, rfl, rfl⟩
  lend_eq _ := rfl
  content_reclaim _ _ _ := rfl
  content_eq_view _ := rfl

end SortKey
