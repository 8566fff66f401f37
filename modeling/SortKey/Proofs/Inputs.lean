import SortKey.Proofs.Steps
import SortKey.Stream.Input

/-!
# Taking bytes from the front of a buffer

However a buffer shows its bytes, taking some of them takes the front of its view. So every read is
a function of the view: it asks for enough bytes, and then takes them or leaves all as it was.
-/

namespace SortKey

namespace Buf

variable {β : Type} [Buf β] [LawfulBuf β]

open LawfulBuf

/-- As many chunks as bytes are enough, since every chunk before the end has a byte. -/
theorem gather_spec (rounds n : Nat) (b : β) (hn : n ≤ rounds) (h : n ≤ (view b).length) :
    (gather rounds n b).1 = (view b).take n ∧ view (gather rounds n b).2 = (view b).drop n := by
  induction rounds generalizing n b with
  | zero =>
      have h0 : n = 0 := by omega
      subst h0
      exact ⟨rfl, rfl⟩
  | succ rounds ih =>
      have hchunk : chunk b = (view b).take (chunk b).length :=
        List.prefix_iff_eq_take.mp (chunk_isPrefix b)
      have hle : (chunk b).length ≤ (view b).length := (chunk_isPrefix b).length_le
      obtain ⟨p, hp⟩ : ∃ p, p = ((chunk b).take n).length := ⟨_, rfl⟩
      have hpmin : p = min n (chunk b).length := by rw [hp, List.length_take]
      have hpiece : (chunk b).take n = (view b).take p := by
        rw [hpmin, hchunk, List.take_take, ← hchunk]
      -- A chunk before the end has a byte, so the rounds that are left are enough for the rest.
      have hprogress : n - p ≤ rounds := by
        by_cases hzero : n = 0
        · omega
        · have hview : view b ≠ [] := by
            intro hnil
            rw [hnil, List.length_nil] at h
            omega
          have hpos := List.length_pos_iff.mpr (chunk_ne_nil b hview)
          omega
      have hadv := view_advance b p (by omega)
      have hrest := ih (n - p) (Buf.advance b p) hprogress
        (by rw [hadv, List.length_drop]; omega)
      rw [hadv] at hrest
      have hnp : n = p + (n - p) := by omega
      rw [gather, ← hp]
      constructor
      · change (chunk b).take n ++ (gather rounds (n - p) (Buf.advance b p)).1 = _
        rw [hrest.1, hpiece, ← List.take_add, ← hnp]
      · change view (gather rounds (n - p) (Buf.advance b p)).2 = _
        rw [hrest.2, List.drop_drop, ← hnp]

theorem take_spec {n : Nat} {b : β} (h : n ≤ (view b).length) :
    (take n b).1 = (view b).take n ∧ view (take n b).2 = (view b).drop n :=
  gather_spec n n b Nat.le.refl h

end Buf

namespace Stream.Input

variable {β : Type} [Buf β] [LawfulBuf β]

open LawfulBuf

theorem remaining_run (b : β) : (remaining : Input β Nat) b = .ok (view b).length b := by
  rw [remaining, get_bind, remaining_eq]
  rfl

theorem need_ok {n : Nat} {b : β} (h : n ≤ (view b).length) :
    (need n : Input β Unit) b = .ok () b := by
  rw [need, bind_ok (remaining_run b), if_neg (Nat.not_lt.mpr h)]
  rfl

theorem need_error {n : Nat} {b : β} (h : (view b).length < n) :
    (need n : Input β Unit) b = .error (.underflow ⟨n, (view b).length⟩) b := by
  rw [need, bind_ok (remaining_run b), if_pos h]
  rfl

theorem peek_nil {b : β} (h : view b = []) :
    (peek : Input β UInt8) b = .error (.underflow ⟨1, 0⟩) b := by
  have hlt : (view b).length < 1 := by rw [h]; decide
  rw [peek, bind_error (need_error hlt), h]
  rfl

theorem peek_cons {b : β} {x : UInt8} {bs : Bytes} (h : view b = x :: bs) :
    (peek : Input β UInt8) b = .ok x b := by
  have hle : 1 ≤ (view b).length := by rw [h, List.length_cons]; omega
  have hne := chunk_ne_nil b (by rw [h]; exact List.cons_ne_nil x bs)
  obtain ⟨rest, hrest⟩ := chunk_isPrefix b
  rw [peek, bind_ok (need_ok hle), get_bind]
  cases hc : Buf.chunk b with
  | nil => exact absurd hc hne
  | cons y ys =>
      rw [hc, h, List.cons_append, List.cons.injEq] at hrest
      rw [hrest.1]
      rfl

theorem next_ok {n : Nat} {b : β} (h : n ≤ (view b).length) :
    (next n : Input β Bytes) b = .ok ((view b).take n) (Buf.take n b).2 := by
  rw [next, bind_ok (need_ok h), ← (Buf.take_spec h).1]
  rfl

theorem next_error {n : Nat} {b : β} (h : (view b).length < n) :
    (next n : Input β Bytes) b = .error (.underflow ⟨n, (view b).length⟩) b := by
  rw [next, bind_error (need_error h)]

end Stream.Input

end SortKey
