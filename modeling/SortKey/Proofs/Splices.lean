import SortKey.Bytes.Range

/-!
# Spans that are replaced

Replacing a span by as many bytes as it has keeps every other byte where it is. Read at one place at
a time, the result is the new byte inside the span and the old one outside. What stands before or
behind the replaced string has no part in it.
-/

namespace SortKey.Span

variable {s : Span} {bs src : Bytes}

theorem start_add_length (h : s.start ≤ s.stop) : s.start + s.length = s.stop :=
  Nat.add_sub_cancel' h

theorem length_slice (hstop : s.stop ≤ bs.length) : (s.slice bs).length = s.length := by
  rw [slice, List.length_drop, List.length_take_of_le hstop, length]

theorem length_splice (hlen : s.start + src.length = s.stop) (hstop : s.stop ≤ bs.length) :
    (s.splice bs src).length = bs.length := by
  simp only [splice, List.length_append, List.length_take, List.length_drop]
  omega

theorem getElem?_splice (hlen : s.start + src.length = s.stop) (hstop : s.stop ≤ bs.length)
    (i : Nat) :
    (s.splice bs src)[i]? =
      if s.start ≤ i ∧ i < s.stop then src[i - s.start]? else bs[i]? := by
  have hfront : (bs.take s.start).length = s.start := List.length_take_of_le (by omega)
  unfold splice
  rw [List.append_assoc]
  by_cases hlow : i < s.start
  · rw [List.getElem?_append_left (by rwa [hfront]), List.getElem?_take, if_pos hlow,
      if_neg (by omega)]
  · rw [List.getElem?_append_right (by omega), hfront]
    by_cases hhigh : i < s.stop
    · rw [List.getElem?_append_left (by omega), if_pos ⟨by omega, hhigh⟩]
    · rw [List.getElem?_append_right (by omega), List.getElem?_drop, if_neg (by omega)]
      congr 1
      omega

theorem getElem?_splice_outside (hlen : s.start + src.length = s.stop)
    (hstop : s.stop ≤ bs.length) {i : Nat} (h : i < s.start ∨ s.stop ≤ i) :
    (s.splice bs src)[i]? = bs[i]? := by
  rw [getElem?_splice hlen hstop, if_neg (by omega)]

theorem drop_splice (h : s.start ≤ bs.length) :
    (s.splice bs src).drop s.start = src ++ bs.drop s.stop := by
  unfold splice
  rw [List.append_assoc]
  exact List.drop_left' (List.length_take_of_le h)

theorem slice_splice (hlen : s.start + src.length = s.stop) (h : s.start ≤ bs.length) :
    s.slice (s.splice bs src) = src := by
  unfold slice
  rw [List.drop_take, drop_splice h]
  exact List.take_left' (by omega)

theorem splice_append_left (front bs src : Bytes) (s : Span) :
    (Span.mk (front.length + s.start) (front.length + s.stop)).splice (front ++ bs) src =
      front ++ s.splice bs src := by
  simp only [splice, List.take_length_add_append, List.drop_length_add_append, List.append_assoc]

theorem splice_append_right (hstart : s.start ≤ s.stop) (hstop : s.stop ≤ bs.length)
    (back : Bytes) : s.splice (bs ++ back) src = s.splice bs src ++ back := by
  simp only [splice, List.append_assoc]
  rw [List.take_append_of_le_length (Nat.le_trans hstart hstop),
    List.drop_append_of_le_length hstop]

/-- Where a gap stands between two parts, what is put there stands between them instead. -/
theorem splice_gap {pre gap post : Bytes} (h : gap.length = src.length) :
    (Span.mk pre.length (pre.length + src.length)).splice (pre ++ gap ++ post) src =
      pre ++ src ++ post := by
  have hfront : (pre ++ gap ++ post).take pre.length = pre := by
    rw [List.append_assoc, List.take_left]
  have hback : (pre ++ gap ++ post).drop (pre.length + src.length) = post :=
    List.drop_left' (by rw [List.length_append, h])
  simp only [splice, hfront, hback]

/-- Spans that are replaced one behind the other are one span. -/
theorem splice_splice {start mid stop : Nat} {src' : Bytes} (hlen : start + src.length = mid)
    (hlen' : mid + src'.length = stop) (h : start ≤ bs.length) :
    (Span.mk mid stop).splice ((Span.mk start mid).splice bs src) src' =
      (Span.mk start stop).splice bs (src ++ src') := by
  have hfront : (bs.take start ++ src).length = mid := by
    rw [List.length_append, List.length_take_of_le h, hlen]
  have htake : (bs.take start ++ src ++ bs.drop mid).take mid = bs.take start ++ src :=
    List.take_left' hfront
  have hdrop : (bs.take start ++ src ++ bs.drop mid).drop stop = bs.drop stop := by
    rw [← hlen', ← hfront, List.drop_length_add_append, List.drop_drop, hfront]
  simp only [splice, htake, hdrop]
  simp only [List.append_assoc]

end SortKey.Span
