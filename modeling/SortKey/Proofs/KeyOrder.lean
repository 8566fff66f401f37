import SortKey.Order
import SortKey.Proofs.Writing

/-!
# Keys are ordered like their integers

Two encodings differ at the lead byte or, after equal lead bytes, within the same number of digits.
Either way the first difference decides, so no encoding is the front of a different one and what
follows is only compared if the integers are equal. The order of lists of integers follows.
-/

namespace SortKey

theorem digitCount_mono {a b : Nat} (h : a ≤ b) : digitCount a ≤ digitCount b := by
  exact (digitCount_le_iff (digitCount_pos b)).mpr (Nat.lt_of_le_of_lt h (lt_limit_digitCount b))

namespace Lead

theorem integer_lt_integer {l : Lead} {m n : Nat} (h : l.integer m < l.integer n) : m < n := by
  cases l with
  | inline x => exact absurd h (Int.lt_irrefl x)
  | below k =>
      simp only [integer] at h
      omega
  | above k =>
      simp only [integer] at h
      omega

end Lead

namespace Signed

variable {w w' : Width}

theorem rank_mono {a : Signed w} {b : Signed w'} (h : a.toInt ≤ b.toInt) :
    a.lead.rank ≤ b.lead.rank := by
  have hbelow := digitCount_mono (show (-120 - b.toInt).toNat ≤ (-120 - a.toInt).toNat by omega)
  have habove := digitCount_mono (show (a.toInt - 121).toNat ≤ (b.toInt - 121).toNat by omega)
  rcases a.lead_cases with ⟨ha, hal⟩ | ⟨ha, hal⟩ | ⟨ha, ha', hal⟩ <;>
    rcases b.lead_cases with ⟨hb, hbl⟩ | ⟨hb, hbl⟩ | ⟨hb, hb', hbl⟩ <;>
    rw [hal, hbl] <;> simp only [Lead.rank] <;> omega

theorem lead_congr {a : Signed w} {b : Signed w'} (h : a.toInt = b.toInt) : a.lead = b.lead := by
  unfold lead
  rw [h]

theorem encode_congr {a : Signed w} {b : Signed w'} (h : a.toInt = b.toInt) :
    a.encode = b.encode := by
  rw [encode, encode, lead_congr h, h]

/-- A smaller value has the smaller lead byte, or the same lead and the smaller magnitude. -/
theorem lead_lt_or_magnitude_lt {a : Signed w} {b : Signed w'} (h : a.toInt < b.toInt) :
    a.lead.toByte.toNat < b.lead.toByte.toNat ∨
      a.lead = b.lead ∧ a.lead.magnitude a.toInt < b.lead.magnitude b.toInt := by
  have hrank := rank_mono (Int.le_of_lt h)
  rw [← a.lead_proper.toNat_toByte, ← b.lead_proper.toNat_toByte] at hrank
  by_cases heq : a.lead.toByte = b.lead.toByte
  · have hl : a.lead = b.lead := by rw [← a.ofByte_lead, heq, b.ofByte_lead]
    refine Or.inr ⟨hl, Lead.integer_lt_integer (l := b.lead) ?_⟩
    have ha := a.integer_magnitude
    rw [hl] at ha ⊢
    rwa [ha, b.integer_magnitude]
  · have hne : a.lead.toByte.toNat ≠ b.lead.toByte.toNat := fun hn => heq (UInt8.toNat.inj hn)
    exact Or.inl (by omega)

theorem compare_encode_append_of_lt {a : Signed w} {b : Signed w'} (h : a.toInt < b.toInt)
    (s t : Bytes) : compare (a.encode ++ s) (b.encode ++ t) = .lt := by
  rw [encode, encode, List.cons_append, List.cons_append, List.compare_cons_cons,
    BigEndian.compare_byte]
  rcases lead_lt_or_magnitude_lt h with hlt | ⟨hl, hlt⟩
  · rw [Nat.compare_eq_lt.mpr hlt, Ordering.lt_then]
  · have ha := a.magnitude_lt
    rw [hl] at ha hlt ⊢
    rw [Nat.compare_eq_eq.mpr rfl, Ordering.eq_then,
      BigEndian.compare_digits_append ha b.magnitude_lt, Nat.compare_eq_lt.mpr hlt,
      Ordering.lt_then]

/-- The integers decide; only if they are equal does the comparison go on behind them. -/
theorem compare_encode_append (a : Signed w) (b : Signed w') (s t : Bytes) :
    compare (a.encode ++ s) (b.encode ++ t) = (compare a.toInt b.toInt).then (compare s t) := by
  rcases Int.lt_trichotomy a.toInt b.toInt with h | h | h
  · rw [compare_encode_append_of_lt h, Std.compare_eq_lt.mpr h, Ordering.lt_then]
  · rw [encode_congr h, h, Std.ReflOrd.compare_self, Ordering.eq_then,
      BigEndian.compare_append_left]
  · have hswap : compare (a.encode ++ s) (b.encode ++ t) =
        (compare (b.encode ++ t) (a.encode ++ s)).swap := Std.OrientedCmp.eq_swap
    rw [hswap, compare_encode_append_of_lt h, Std.compare_eq_gt.mpr h, Ordering.gt_then]
    rfl

theorem checkSameOrder_encode (a b : Signed w) : checkSameOrder a b a.encode b.encode = .ok () := by
  have h := compare_encode_append a b [] []
  rw [List.append_nil, List.append_nil, Std.ReflOrd.compare_self, Ordering.then_eq] at h
  rw [checkSameOrder, if_pos (h ▸ compare_eq a b)]

end Signed

namespace Key

/-- Equal integers at the front have equal bytes, and different ones decide at once. -/
theorem compare_encode_cons (x y : Component) (xs ys : List Component) (s t : Bytes) :
    compare (encode (x :: xs) ++ s) (encode (y :: ys) ++ t) =
      (compare x.toInt y.toInt).then (compare (encode xs ++ s) (encode ys ++ t)) := by
  rw [encode_cons, encode_cons, List.append_assoc, List.append_assoc]
  exact Signed.compare_encode_append x.value y.value _ _

theorem compare_encode (xs ys : List Component) :
    compare (encode xs) (encode ys) =
      compare (xs.map Component.toInt) (ys.map Component.toInt) := by
  induction xs generalizing ys with
  | nil =>
      cases ys with
      | nil => rfl
      | cons y ys => rfl
  | cons x xs ih =>
      cases ys with
      | nil => rfl
      | cons y ys =>
          have h := compare_encode_cons x y xs ys [] []
          simp only [List.append_nil] at h
          rw [h, ih, List.map_cons, List.map_cons, List.compare_cons_cons]

/-- If neither list of integers is the front of the other, the keys differ before either ends. -/
theorem compare_encode_append {xs ys : List Component}
    (hxy : ¬ xs.map Component.toInt <+: ys.map Component.toInt)
    (hyx : ¬ ys.map Component.toInt <+: xs.map Component.toInt) (s t : Bytes) :
    compare (encode xs ++ s) (encode ys ++ t) =
      compare (xs.map Component.toInt) (ys.map Component.toInt) := by
  induction xs generalizing ys with
  | nil => exact absurd List.nil_prefix hxy
  | cons x xs ih =>
      cases ys with
      | nil => exact absurd List.nil_prefix hyx
      | cons y ys =>
          rw [compare_encode_cons, List.map_cons, List.map_cons, List.compare_cons_cons]
          by_cases h : x.toInt = y.toInt
          · rw [List.map_cons, List.map_cons, h] at hxy hyx
            rw [List.cons_prefix_cons] at hxy hyx
            rw [ih (fun hp => hxy ⟨rfl, hp⟩) (fun hp => hyx ⟨rfl, hp⟩)]
          · have hne : compare x.toInt y.toInt ≠ .eq := fun he => h (Std.compare_eq_iff_eq.mp he)
            cases hc : compare x.toInt y.toInt with
            | eq => exact absurd hc hne
            | lt => rw [Ordering.lt_then, Ordering.lt_then]
            | gt => rw [Ordering.gt_then, Ordering.gt_then]

end Key

/-- Whichever way the components of a key are written, they are written as their encodings, and the
bytes of the whole key compare like lists of integers. What follows them is not looked at unless one
list is the front of the other, and single values always pass the check of their order. -/
theorem keys_ordered_like_integers (xs ys : List Component) :
    (∀ c : Component, Buffer.pack [c] = .ok ([c.encode.length], c.encode) ∧
      (∀ (β : Type) [BufMut β], (Stream.Output.sorted c : Stream.Output β Unit) =
        BufMut.put c.encode) ∧
      ∀ (κ ε : Type) [Transfer.Consumer κ ε] (k : κ), Transfer.encode c k =
        (Transfer.Consumer.push c.encode).adaptExcept Transfer.EncodeError.refused k) ∧
    Buffer.pack xs = (if (Key.encode xs).length < indexLimit then
      .ok (Key.ends 0 xs, Key.encode xs) else .error .overflow) ∧
    compare (Key.encode xs) (Key.encode ys) =
      compare (xs.map Component.toInt) (ys.map Component.toInt) ∧
    (Key.encode xs = Key.encode ys ↔ xs.map Component.toInt = ys.map Component.toInt) ∧
    (¬ xs.map Component.toInt <+: ys.map Component.toInt →
      ¬ ys.map Component.toInt <+: xs.map Component.toInt →
      ∀ s t : Bytes, compare (Key.encode xs ++ s) (Key.encode ys ++ t) =
        compare (xs.map Component.toInt) (ys.map Component.toInt)) ∧
    (∀ (w : Width) (a b : Signed w), ∃ enda endb as bs,
      Buffer.pack [⟨w, a⟩] = .ok (enda, as) ∧ Buffer.pack [⟨w, b⟩] = .ok (endb, bs) ∧
      checkSameOrder a b as bs = .ok ()) := by
  have hcompare := Key.compare_encode xs ys
  refine ⟨?_, Buffer.pack_eq xs, hcompare, ?_, Key.compare_encode_append, ?_⟩
  · intro c
    refine ⟨Buffer.pack_singleton c, ?_, ?_⟩
    · intro β _
      exact Stream.Output.sorted_eq_put c
    · intro κ ε _ k
      exact Transfer.encode_eq_push c k
  · rw [← Std.compare_eq_iff_eq, hcompare, Std.compare_eq_iff_eq]
  · intro w a b
    exact ⟨_, _, _, _, Buffer.pack_singleton _, Buffer.pack_singleton _,
      Signed.checkSameOrder_encode a b⟩

/-- Neither list is the front of the other, and the bytes behind them would compare the other
way. -/
theorem mixed_widths_ordered :
    compare (Key.encode [⟨.w32, ⟨-1⟩⟩, ⟨.w64, ⟨500⟩⟩] ++ [0x00])
      (Key.encode [⟨.w64, ⟨-1⟩⟩, ⟨.w32, ⟨121⟩⟩] ++ [0xFF]) = .gt := by
  obtain ⟨-, -, -, -, hfollowed, -⟩ :=
    keys_ordered_like_integers [⟨.w32, ⟨-1⟩⟩, ⟨.w64, ⟨500⟩⟩] [⟨.w64, ⟨-1⟩⟩, ⟨.w32, ⟨121⟩⟩]
  exact hfollowed (by decide) (by decide) [0x00] [0xFF]

end SortKey
