import SortKey.Bytes.BigEndian

/-!
# Buffers that are read from the front

A buffer shows some of its unread bytes at a time. A byte string shows all of them, a chain of byte
strings those of its first part that has any. Taking bytes goes from chunk to chunk, so a buffer is
known by the byte string that its chunks make up.
-/

namespace SortKey

class Buf (β : Type) where
  /-- How many bytes are unread. -/
  remaining : β → Nat
  /-- Some of the unread bytes, from the front; empty only at the end. -/
  chunk : β → Bytes
  /-- Drops bytes from the front. -/
  advance : β → Nat → β

namespace Buf

variable {β : Type} [Buf β]

/-- Takes up to `n` bytes in at most `rounds` chunks. -/
def gather : Nat → Nat → β → Bytes × β
  | 0, _, b => ([], b)
  | rounds + 1, n, b =>
      let piece := (chunk b).take n
      let (bs, rest) := gather rounds (n - piece.length) (advance b piece.length)
      (piece ++ bs, rest)

/-- Takes up to `n` bytes. No more than `n` chunks are needed, as none is empty before the end. -/
def take (n : Nat) (b : β) : Bytes × β := gather n n b

end Buf

/-- The unread bytes are `view`, whatever part of them is shown. -/
class LawfulBuf (β : Type) [Buf β] where
  view : β → Bytes
  remaining_eq : ∀ b : β, Buf.remaining b = (view b).length
  chunk_isPrefix : ∀ b : β, Buf.chunk b <+: view b
  chunk_ne_nil : ∀ b : β, view b ≠ [] → Buf.chunk b ≠ []
  view_advance : ∀ (b : β) (n : Nat), n ≤ (view b).length →
    view (Buf.advance b n) = (view b).drop n

instance : Buf Bytes where
  remaining := List.length
  chunk := id
  advance bs n := bs.drop n

instance : LawfulBuf Bytes where
  view := id
  remaining_eq _ := rfl
  chunk_isPrefix bs := List.prefix_refl bs
  chunk_ne_nil _ h := h
  view_advance _ _ _ := rfl

/-- Byte strings one after another, read as one. -/
structure Chain where
  parts : List Bytes
  deriving DecidableEq, Repr

namespace Chain

/-- The first part that has bytes left. -/
def front : List Bytes → Bytes
  | [] => []
  | [] :: parts => front parts
  | (b :: bs) :: _ => b :: bs

def drop : List Bytes → Nat → List Bytes
  | [], _ => []
  | part :: parts, n =>
      if n < part.length then part.drop n :: parts else drop parts (n - part.length)

theorem front_isPrefix (parts : List Bytes) : front parts <+: parts.flatten := by
  fun_induction front parts with
  | case1 => exact List.prefix_refl _
  | case2 parts ih => simpa using ih
  | case3 b bs parts => exact ⟨parts.flatten, by simp⟩

theorem front_ne_nil (parts : List Bytes) (h : parts.flatten ≠ []) : front parts ≠ [] := by
  fun_induction front parts with
  | case1 => exact absurd rfl h
  | case2 parts ih => exact ih (by simpa using h)
  | case3 => simp

theorem flatten_drop (parts : List Bytes) (n : Nat) :
    (drop parts n).flatten = parts.flatten.drop n := by
  fun_induction drop parts n with
  | case1 => simp
  | case2 n part parts h =>
      rw [List.flatten_cons, List.flatten_cons, List.drop_append_of_le_length (Nat.le_of_lt h)]
  | case3 n part parts h ih =>
      rw [ih, List.flatten_cons, List.drop_append, List.drop_eq_nil_of_le (Nat.not_lt.mp h),
        List.nil_append]

end Chain

instance : Buf Chain where
  remaining c := c.parts.flatten.length
  chunk c := Chain.front c.parts
  advance c n := ⟨Chain.drop c.parts n⟩

instance : LawfulBuf Chain where
  view c := c.parts.flatten
  remaining_eq _ := rfl
  chunk_isPrefix c := Chain.front_isPrefix c.parts
  chunk_ne_nil c h := Chain.front_ne_nil c.parts h
  view_advance c n _ := Chain.flatten_drop c.parts n

end SortKey
