import SortKey.Proofs.Frames

/-!
# The grammar of encodings

Canonic decoding never looks at the shape of what it reads, it encodes the value again. What it
accepts has a shape all the same: no digit is redundant, and at full length the digits keep clear of
the integers that the width cannot hold. Below the band the redundant digit is all ones.
-/

namespace SortKey

/-- The byte strings that are encodings at a width, told from their bytes alone. -/
inductive MinimalForm (w : Width) : Bytes → Prop
  | inline {b : UInt8} (low : 0x08 ≤ b) (high : b ≤ 0xF7) : MinimalForm w [b]
  | above {b : UInt8} {m : Bytes} {n : Nat} (lead : b.toNat = 0xF7 + n) (pos : 1 ≤ n)
      (room : n ≤ w.bytes) (length : m.length = n) (kept : n ≠ 1 → m.head? ≠ some 0x00)
      (within : n = w.bytes → BigEndian.value m ≤ 2 ^ (w.bits - 1) - 1 - 121) :
      MinimalForm w (b :: m)
  | below {b : UInt8} {m : Bytes} {n : Nat} (lead : b.toNat = 0x08 - n) (pos : 1 ≤ n)
      (room : n ≤ w.bytes) (length : m.length = n) (kept : n ≠ 1 → m.head? ≠ some 0xFF)
      (within : n = w.bytes → 2 ^ (w.bits - 1) + 119 ≤ BigEndian.value m) :
      MinimalForm w (b :: m)

namespace BigEndian

theorem limit_le_value_cons_iff (b : UInt8) (bs : Bytes) :
    limit bs.length ≤ value (b :: bs) ↔ b ≠ 0x00 := by
  have hlt := value_lt bs
  rw [value_cons, ne_eq, ← UInt8.toNat_inj]
  change _ ↔ ¬ b.toNat = 0
  constructor
  · intro hle hzero
    rw [hzero] at hle
    omega
  · intro hne
    have hmul : 1 * limit bs.length ≤ b.toNat * limit bs.length :=
      Nat.mul_le_mul_right _ (Nat.pos_of_ne_zero hne)
    omega

/-- The same for the distance from the greatest number that the digits can write. -/
theorem limit_le_complement_cons_iff (b : UInt8) (bs : Bytes) :
    limit bs.length ≤ limit (bs.length + 1) - 1 - value (b :: bs) ↔ b ≠ 0xFF := by
  have hlt := value_lt bs
  have hbyte := b.toNat_lt
  rw [value_cons, limit, ne_eq, ← UInt8.toNat_inj]
  change _ ↔ ¬ b.toNat = 255
  constructor
  · intro hle hones
    rw [hones] at hle
    omega
  · intro hne
    have hmul : b.toNat * limit bs.length ≤ 254 * limit bs.length :=
      Nat.mul_le_mul_right _ (by omega)
    omega

end BigEndian

/-- Digits are as many as their number has unless the first of them is redundant. -/
theorem digitCount_value_iff {m : Bytes} (hm : 0 < m.length) :
    digitCount (BigEndian.value m) = m.length ↔ (m.length ≠ 1 → m.head? ≠ some 0x00) := by
  rw [digitCount_eq_iff hm, and_iff_right (BigEndian.value_lt m)]
  cases m with
  | nil => exact absurd hm (Nat.lt_irrefl 0)
  | cons b bs =>
      have hfirst := BigEndian.limit_le_value_cons_iff b bs
      simpa using imp_congr_right fun _ => hfirst

theorem digitCount_complement_iff {m : Bytes} (hm : 0 < m.length) :
    digitCount (BigEndian.limit m.length - 1 - BigEndian.value m) = m.length ↔
      (m.length ≠ 1 → m.head? ≠ some 0xFF) := by
  have hpos := BigEndian.limit_pos m.length
  rw [digitCount_eq_iff hm, and_iff_right (by omega)]
  cases m with
  | nil => exact absurd hm (Nat.lt_irrefl 0)
  | cons b bs =>
      have hfirst := BigEndian.limit_le_complement_cons_iff b bs
      simpa using imp_congr_right fun _ => hfirst

/-- Only at full length can an integer be out of range. -/
theorem Lead.above_le_greatest_iff {w : Width} {n x : Nat} (hpos : 0 < n) (hn : n ≤ w.bytes)
    (hx : x < BigEndian.limit n) :
    (Lead.above n).integer x ≤ w.greatest ↔ (n = w.bytes → x ≤ 2 ^ (w.bits - 1) - 1 - 121) := by
  by_cases hfull : n = w.bytes
  · have hhalves := w.halves
    simp only [integer, aboveShift, hfull, forall_const]
    omega
  · have hfits := integer_fits_of_lt (w := w) (l := .above n) hpos (by simp only [count]; omega) hx
    simp [hfull, hfits.2]

theorem Lead.least_le_below_iff {w : Width} {n x : Nat} (hpos : 0 < n) (hn : n ≤ w.bytes)
    (hx : x < BigEndian.limit n) :
    w.least ≤ (Lead.below n).integer x ↔ (n = w.bytes → 2 ^ (w.bits - 1) + 119 ≤ x) := by
  by_cases hfull : n = w.bytes
  · have hhalves := w.halves
    simp only [integer, belowShift, hfull, forall_const]
    omega
  · have hfits := integer_fits_of_lt (w := w) (l := .below n) hpos (by simp only [count]; omega) hx
    simp [hfull, hfits.1]

namespace Signed

variable {w : Width} {b : UInt8} {m : Bytes}

theorem exists_encode_eq_inline (hlow : 8 ≤ b.toNat) (hhigh : b.toNat ≤ 247) :
    ∃ v : Signed w, v.encode = [b] := by
  have hl := Lead.ofByte_inline hlow hhigh
  have hhalves := w.halves
  have hint : (ofInt w (b.toNat - 127)).toInt = (b.toNat : Int) - 127 :=
    toInt_ofInt (by omega) (by omega)
  refine ⟨ofInt w (b.toNat - 127), (encode_eq_cons_iff ?_).mpr ⟨?_, ?_⟩⟩
  · rw [hl]
    rfl
  · rw [hl, hint]
    rfl
  · rw [lead_of_inline (by omega) (by omega), hint, hl]

theorem exists_encode_eq_above_iff (hb : Lead.ofByte b = .above m.length) :
    (∃ v : Signed w, v.encode = b :: m) ↔
      (Lead.above m.length).integer (BigEndian.value m) ≤ w.greatest ∧
        digitCount (BigEndian.value m) = m.length := by
  have hm : m.length = (Lead.ofByte b).count := by rw [hb, Lead.count]
  have hlead : ∀ v : Signed w, v.toInt = (Lead.above m.length).integer (BigEndian.value m) →
      v.lead = .above (digitCount (BigEndian.value m)) := fun v => lead_of_above
  constructor
  · rintro ⟨v, hv⟩
    obtain ⟨hint, hl⟩ := (encode_eq_cons_iff hm).mp hv
    rw [hb] at hint hl
    rw [hlead v hint, Lead.above.injEq] at hl
    exact ⟨hint ▸ v.toInt_le_greatest, hl⟩
  · rintro ⟨hle, hcount⟩
    have hleast : w.least ≤ (Lead.above m.length).integer (BigEndian.value m) := by
      have := w.halves
      simp only [Lead.integer]
      omega
    have hint := toInt_ofInt hleast hle
    refine ⟨_, (encode_eq_cons_iff hm).mpr ⟨hb ▸ hint, ?_⟩⟩
    rw [hb, hlead _ hint, hcount]

theorem exists_encode_eq_below_iff (hb : Lead.ofByte b = .below m.length) :
    (∃ v : Signed w, v.encode = b :: m) ↔
      w.least ≤ (Lead.below m.length).integer (BigEndian.value m) ∧
        digitCount (BigEndian.limit m.length - 1 - BigEndian.value m) = m.length := by
  have hm : m.length = (Lead.ofByte b).count := by rw [hb, Lead.count]
  have hlt := BigEndian.value_lt m
  have hlead : ∀ v : Signed w, v.toInt = (Lead.below m.length).integer (BigEndian.value m) →
      v.lead = .below (digitCount (BigEndian.limit m.length - 1 - BigEndian.value m)) := by
    intro v hv
    apply lead_of_below
    rw [hv]
    simp only [Lead.integer, belowShift]
    omega
  constructor
  · rintro ⟨v, hv⟩
    obtain ⟨hint, hl⟩ := (encode_eq_cons_iff hm).mp hv
    rw [hb] at hint hl
    rw [hlead v hint, Lead.below.injEq] at hl
    exact ⟨hint ▸ v.least_le_toInt, hl⟩
  · rintro ⟨hle, hcount⟩
    have hgreatest : (Lead.below m.length).integer (BigEndian.value m) ≤ w.greatest := by
      have := w.halves
      simp only [Lead.integer]
      omega
    have hint := toInt_ofInt hle hgreatest
    refine ⟨_, (encode_eq_cons_iff hm).mpr ⟨hb ▸ hint, ?_⟩⟩
    rw [hb, hlead _ hint, hcount]

end Signed

/-- The grammar describes the encodings and nothing else. -/
theorem minimalForm_iff_exists_encode {w : Width} {e : Bytes} :
    MinimalForm w e ↔ ∃ v : Signed w, v.encode = e := by
  constructor
  · intro h
    cases h with
    | inline low high => exact Signed.exists_encode_eq_inline low high
    | above lead pos room length kept within =>
        subst length
        have hb := Lead.ofByte_above pos lead
        rw [Signed.exists_encode_eq_above_iff hb, digitCount_value_iff pos]
        exact ⟨(Lead.above_le_greatest_iff pos room (BigEndian.value_lt _)).mpr within, kept⟩
    | @below b m n lead pos room length kept within =>
        subst length
        have hw := w.bytes_le
        have hb : Lead.ofByte b = .below m.length := Lead.ofByte_below pos (by omega)
        rw [Signed.exists_encode_eq_below_iff hb, digitCount_complement_iff pos]
        exact ⟨(Lead.least_le_below_iff pos room (BigEndian.value_lt _)).mpr within, kept⟩
  · rintro ⟨v, rfl⟩
    obtain ⟨b, m, hv, hm, hroom⟩ := v.exists_encode_eq_cons
    rw [hv]
    rcases Lead.ofByte_cases b with ⟨n, hpos, hbyte, hb⟩ | ⟨n, hpos, hbyte, hb⟩ | ⟨hlow, hhigh, hb⟩
    · rw [hb, Lead.count] at hm
      subst hm
      obtain ⟨hleast, hcount⟩ := (Signed.exists_encode_eq_below_iff hb).mp ⟨v, hv⟩
      exact .below (by omega) hpos hroom rfl ((digitCount_complement_iff hpos).mp hcount)
        ((Lead.least_le_below_iff hpos hroom (BigEndian.value_lt m)).mp hleast)
    · rw [hb, Lead.count] at hm
      subst hm
      obtain ⟨hgreatest, hcount⟩ := (Signed.exists_encode_eq_above_iff hb).mp ⟨v, hv⟩
      exact .above hbyte hpos hroom rfl ((digitCount_value_iff hpos).mp hcount)
        ((Lead.above_le_greatest_iff hpos hroom (BigEndian.value_lt m)).mp hgreatest)
    · rw [hb, Lead.count] at hm
      rw [List.length_eq_zero_iff.mp hm]
      exact .inline hlow hhigh

namespace Transfer

variable {π φ ε : Type} [Producer π φ ε] [LawfulProducer π φ ε] {w : Width} {p : π}

open LawfulProducer

theorem decodeCanonic_all_iff :
    (∃ v p', decodeCanonic w p = .ok v p' ∧ unread p' = []) ↔
      ∃ v : Signed w, v.encode = unread p := by
  constructor
  · rintro ⟨v, p', hrun, hrest⟩
    have hunread := eq_encode_append_of_decodeCanonic hrun
    rw [hrest, List.append_nil] at hunread
    exact ⟨v, hunread.symm⟩
  · rintro ⟨v, hv⟩
    obtain ⟨p', hrun, hrest, -⟩ := decodeCanonic_encode_append (v := v) (r := [])
      (by rw [List.append_nil, hv])
    exact ⟨v, p', hrun, hrest⟩

theorem decodeCanonic_frame_refused {b : UInt8} {m : Bytes} (hp : unread p = b :: m)
    (hm : m.length = (Lead.ofByte b).count) (hroom : m.length ≤ w.bytes)
    (hnot : ¬ ∃ v : Signed w, v.encode = unread p) :
    ∃ p', decodeCanonic w p = .error (.format .notMinimal) p' ∧ unread p' = [] := by
  obtain ⟨p', hrun⟩ := decode_run w p
  rw [hp, opening_frame hm hroom] at hrun
  obtain ⟨hdecode, hrest, -⟩ := hrun
  have hnil : unread p' = [] := by
    rw [hrest]
    apply List.drop_eq_nil_of_le
    rw [List.length_cons, Lead.length]
    omega
  refine ⟨p', ?_, hnil⟩
  rw [decodeCanonic_eq, hdecode]
  apply if_neg
  rw [hnil, List.append_nil]
  intro h
  exact hnot ⟨_, h.symm⟩

/-- Canonic decoding accepts a byte string as a whole exactly if the grammar does, and any other
string that is one frame is refused for not being minimal. -/
theorem accepted_iff_minimalForm (w : Width) (p : π) :
    ((∃ v p', decodeCanonic w p = .ok v p' ∧ unread p' = []) ↔ MinimalForm w (unread p)) ∧
    ∀ (b : UInt8) (m : Bytes) (n : Nat), unread p = b :: m → m.length = n → 1 ≤ n → n ≤ w.bytes →
      b.toNat = 0xF7 + n ∨ b.toNat = 0x08 - n → ¬ MinimalForm w (unread p) →
      ∃ p', decodeCanonic w p = .error (.format .notMinimal) p' ∧ unread p' = [] := by
  refine ⟨decodeCanonic_all_iff.trans minimalForm_iff_exists_encode.symm, ?_⟩
  intro b m n hp hm hpos hroom hlead hnot
  subst hm
  rw [minimalForm_iff_exists_encode] at hnot
  refine decodeCanonic_frame_refused hp ?_ hroom hnot
  rcases hlead with hlead | hlead
  · rw [Lead.ofByte_above hpos hlead, Lead.count]
  · have hw := w.bytes_le
    rw [Lead.ofByte_below hpos (by omega), Lead.count]

/-- No digit is redundant here, but the integer is one more than the width can hold. -/
theorem first_wrapped_refused :
    ∃ p', decodeCanonic .w32 (⟨[0xFB, 0x7F, 0xFF, 0xFF, 0x87], .final 0⟩ : Source) =
        .error (.format .notMinimal) p' ∧ unread p' = [] := by
  have hnot : ¬ MinimalForm .w32 [0xFB, 0x7F, 0xFF, 0xFF, 0x87] := by
    intro h
    cases h with
    | above _ _ _ length _ within =>
        subst length
        exact absurd (within rfl) (by decide)
    | below lead _ room _ _ _ =>
        simp only [Width.bytes] at room
        have hlead : (0xFB : UInt8).toNat = 251 := rfl
        omega
  exact (accepted_iff_minimalForm .w32 (⟨[0xFB, 0x7F, 0xFF, 0xFF, 0x87], .final 0⟩ : Source)).2
    0xFB [0x7F, 0xFF, 0xFF, 0x87] 4 rfl rfl (by decide) (by decide) (Or.inl rfl) hnot

end Transfer

end SortKey
