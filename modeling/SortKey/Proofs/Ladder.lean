import SortKey.Proofs.Cells

/-!
# The ladder of mask tests writes the encoding

Every test of the ladder asks whether a word has a digit at or above some place, so the bytes that
are kept are the digits of the word from the most significant one that counts. The cells always hold
what was written so far, followed by zeros, and there are enough of them for every value.
-/

namespace SortKey

namespace Stage

/-- Cells that hold `bs` and have `free` more. -/
def holding (bs : Bytes) (free : Nat) : Stage := ⟨bs ++ List.replicate free 0, bs.length⟩

theorem written_holding (bs : Bytes) (free : Nat) : (holding bs free).written = .ok bs := by
  rw [written, holding, Range.slice_upTo (by simp)]
  simp

end Stage

namespace Staging

open Stage

theorem push_holding {bs : Bytes} (b : UInt8) (free : Nat) (h : bs.length + 1 < indexLimit) :
    push b (holding bs (free + 1)) = .ok () (holding (bs ++ [b]) free) := by
  have hset : (bs ++ List.replicate (free + 1) (0 : UInt8)).set bs.length b =
      bs ++ [b] ++ List.replicate free 0 := by
    simp [List.replicate_succ]
  rw [push_ok b (by simp [holding]) h]
  simp only [holding, hset, List.length_append, List.length_singleton]

variable {n : Nat}

theorem wordByte_eq (word : BitVec n) (k : Nat) :
    wordByte word k = UInt8.ofNat (word.toNat / BigEndian.limit k) := by
  rw [wordByte, BitVec.toNat_ushiftRight, Nat.shiftRight_eq_div_pow, BigEndian.limit_eq_two_pow]

theorem getLsbD_lowMask (n k i : Nat) :
    (lowMask n k).getLsbD i = (decide (i < n) && decide (i < 8 * k)) := by
  rw [lowMask, BigEndian.limit_eq_two_pow, BitVec.getLsbD_ofNat, Nat.testBit_two_pow_sub_one]

theorem and_not_lowMask_eq_zero_iff (word : BitVec n) (k : Nat) :
    word &&& ~~~ lowMask n k = 0#n ↔ word.toNat < BigEndian.limit k := by
  rw [BigEndian.limit_eq_two_pow]
  constructor
  · intro h
    apply Nat.lt_pow_two_of_testBit
    intro i hi
    rw [BitVec.testBit_toNat]
    have hbit : (word &&& ~~~ lowMask n k).getLsbD i = false := by rw [h, BitVec.getLsbD_zero]
    have hik : ¬ i < 8 * k := by omega
    by_cases hin : i < n
    · rw [BitVec.getLsbD_and, BitVec.getLsbD_not, getLsbD_lowMask] at hbit
      simpa only [hin, hik, decide_true, decide_false, Bool.and_false, Bool.not_false,
        Bool.and_true] using hbit
    · exact BitVec.getLsbD_of_ge word i (by omega)
  · intro h
    apply BitVec.eq_of_getLsbD_eq
    intro i hin
    by_cases hi : i < 8 * k
    · simp [getLsbD_lowMask, hin, hi]
    · have hbit : word.getLsbD i = false := by
        rw [← BitVec.testBit_toNat]
        apply Nat.testBit_lt_two_pow
        exact Nat.lt_of_lt_of_le h (Nat.pow_le_pow_right (by decide) (by omega))
      simp [hbit]

theorem keptAbove_eq (word : BitVec n) {k : Nat} (hk : 0 < k) :
    keptAbove word k = decide (k < digitCount word.toNat) := by
  have hiff := and_not_lowMask_eq_zero_iff word k
  have hcount := digitCount_le_iff (m := word.toNat) hk
  rw [keptAbove, bne, Bool.eq_iff_iff, Bool.not_eq_true', beq_eq_false_iff_ne, ne_eq, hiff,
    decide_eq_true_iff]
  omega

example : lowMask 64 3 = 0x0000000000FFFFFF#64 := by decide

example : lowMask 32 3 = 0x00FFFFFF#32 := by decide

/-- A byte of a negative number counts if it counts in the complement. -/
theorem keptBelow_eq_keptAbove_not (word : BitVec n) (k : Nat) :
    keptBelow word k = keptAbove (~~~ word) k := by
  rw [keptBelow, keptAbove, ← BitVec.not_or, Bool.eq_iff_iff, bne_iff_ne, bne_iff_ne,
    ← BitVec.not_allOnes, ne_eq, ne_eq, BitVec.not_inj]

/-- If the tests keep what lies below place `d`, the bytes pushed are `d` digits of the word. -/
theorem pushKept_holding {kept : BitVec n → Nat → Bool} {word : BitVec n} {k d : Nat}
    (hd : 0 < d) (hdk : d ≤ k + 1) (hkept : ∀ j, 0 < j → j ≤ k → kept word j = decide (j < d))
    (bs : Bytes) (free : Nat) (h : bs.length + d < indexLimit) :
    pushKept kept word k (holding bs (d + free)) =
      .ok () (holding (bs ++ BigEndian.digits d word.toNat) free) := by
  -- Places from `d` on are passed over; from place `d - 1` down, `d` falls together with `k`.
  induction k generalizing bs d with
  | zero =>
      have hd1 : d = 1 := by omega
      subst hd1
      rw [pushKept, Nat.add_comm, push_holding _ _ h, wordByte_eq]
      rfl
  | succ k ih =>
      rw [pushKept, hkept (k + 1) (Nat.succ_pos k) Nat.le.refl]
      by_cases hlt : k + 1 < d
      · have hd2 : d = k + 1 + 1 := by omega
        subst hd2
        have hlower : ∀ j, 0 < j → j ≤ k → kept word j = decide (j < k + 1) := by
          intro j hj hjk
          rw [hkept j hj (by omega), decide_eq_decide]
          omega
        have hlen : (bs ++ [wordByte word (k + 1)]).length + (k + 1) < indexLimit := by
          rw [List.length_append, List.length_singleton]
          omega
        have hrest := ih (Nat.succ_pos k) Nat.le.refl hlower _ hlen
        rw [List.append_assoc, List.singleton_append, wordByte_eq] at hrest
        rw [if_pos (decide_eq_true hlt), Nat.add_right_comm,
          bind_ok (push_holding _ _ (by omega)), BigEndian.digits, wordByte_eq]
        exact hrest
      · rw [if_neg (by simpa using hlt)]
        exact ih hd (by omega) (fun j hj hjk => hkept j hj (by omega)) bs h

theorem store_zero_holding (a b : UInt8) (ds : Bytes) (free : Nat) :
    store 0 b (holding (a :: ds) free) = .ok () (holding (b :: ds) free) := by
  rw [store_ok (by simp [holding])]
  simp [holding]

theorem storeLead_holding {lead : Int → Int} {b : UInt8} (a : UInt8) {ds : Bytes} (free : Nat)
    (hds : ds.length < 256) (hlead : (b.toNat : Int) = lead ds.length) :
    storeLead lead (holding (a :: ds) free) = .ok () (holding (b :: ds) free) := by
  have hused : ((holding (a :: ds) free).used : Int) - 1 = ds.length := by simp [holding]
  obtain ⟨count, hcount⟩ := exists_unsigned (i := ds.length) (by omega) (by omega)
  rw [← hused] at hcount hlead
  rw [storeLead_eq_store hcount hlead, store_zero_holding]

end Staging

namespace Signed

variable {w : Width}

theorem toNat_word_of_neg {v : Signed w} (h : v.toInt < 0) :
    (v.word.toNat : Int) = v.toInt + BigEndian.limit w.bytes := by
  have hdef : v.toInt = if 2 * v.word.toNat < 2 ^ w.bits then (v.word.toNat : Int)
      else v.word.toNat - (2 ^ w.bits : Nat) := v.word.toInt_eq_toNat_cond
  rw [Width.two_pow_bits] at hdef
  split at hdef <;> omega

theorem toNat_word_of_nonneg {v : Signed w} (h : 0 ≤ v.toInt) :
    (v.word.toNat : Int) = v.toInt := by
  have hlt := v.word.isLt
  have hdef : v.toInt = if 2 * v.word.toNat < 2 ^ w.bits then (v.word.toNat : Int)
      else v.word.toNat - (2 ^ w.bits : Nat) := v.word.toInt_eq_toNat_cond
  split at hdef <;> omega

/-- Shifted up, a value below the band has its magnitude as its low digits. -/
theorem digits_shifted_below {v s : Signed w} {n : Nat} (hl : v.lead = .below n)
    (hs : s.toInt = v.toInt + 119) (hneg : s.toInt < 0) :
    BigEndian.digits n s.word.toNat = BigEndian.digits n (v.lead.magnitude v.toInt) := by
  have hword := toNat_word_of_neg hneg
  have hint := v.integer_magnitude
  have hle := v.count_lead_le
  rw [hl] at hint hle ⊢
  simp only [Lead.integer, belowShift] at hint
  -- Word and magnitude differ by a multiple of `limit n`, which the low digits do not show.
  have hlimit : BigEndian.limit w.bytes =
      BigEndian.limit n * BigEndian.limit (w.bytes - n) := by
    rw [← BigEndian.limit_add, Nat.add_sub_cancel' (show n ≤ w.bytes from hle)]
  have hsum : s.word.toNat + BigEndian.limit n = (Lead.below n).magnitude v.toInt +
      BigEndian.limit n * BigEndian.limit (w.bytes - n) := by
    rw [← hlimit]
    omega
  apply BigEndian.digits_congr
  rw [← Nat.add_mod_right s.word.toNat, hsum, Nat.add_mul_mod_self_left]

end Signed

namespace Staging

open Stage

variable {w : Width}

theorem fresh_eq (w : Width) : Stage.fresh w = holding [0] w.bytes := by
  rw [Stage.fresh, Width.maxLength, Nat.add_comm, List.replicate_succ]
  rfl

/-- One run of the ladder on fresh cells, with the lead byte at its end. -/
theorem ladder_fresh {kept : BitVec w.bits → Nat → Bool} {word : BitVec w.bits} {d : Nat}
    (hd : 0 < d) (hdw : d ≤ w.bytes)
    (hkept : ∀ j, 0 < j → kept word j = decide (j < d)) {lead : Int → Int} {b : UInt8}
    (hlead : (b.toNat : Int) = lead d) :
    (pushKept kept word (w.bytes - 1) >>= fun _ => storeLead lead) (Stage.fresh w) =
      .ok () (holding (b :: BigEndian.digits d word.toNat) (w.bytes - d)) := by
  have hw := w.bytes_le
  have hlen : ([0] : Bytes).length + d < indexLimit := by
    have hlim : 9 < indexLimit := by decide
    rw [List.length_singleton]
    omega
  have hpush := pushKept_holding hd (show d ≤ w.bytes - 1 + 1 by omega)
    (fun j hj _ => hkept j hj) [0] (w.bytes - d) hlen
  rw [Nat.add_sub_cancel' hdw, List.singleton_append] at hpush
  have hcount := BigEndian.length_digits d word.toNat
  rw [fresh_eq, bind_ok hpush, storeLead_holding 0 _ (by omega) (by rwa [hcount])]

theorem encode_below {v : Signed w} {n : Nat} (hv : v.toInt < -119)
    (hn : digitCount (-120 - v.toInt).toNat = n) (hl : v.lead = .below n) :
    encode v (Stage.fresh w) = .ok () (holding v.encode (w.bytes - n)) := by
  have hproper := v.lead_proper
  rw [hl] at hproper
  have hbyte : ((Lead.below n).toByte.toNat : Int) = belowBase - n := hproper.toNat_toByte
  obtain ⟨s, hs⟩ := Signed.exists_shifted_below hv
  have hsv : s.toInt = v.toInt + 119 := hs
  have hneg : s.toInt < 0 := by omega
  have hnot : (~~~ s.word).toNat = (-120 - v.toInt).toNat := by
    have hword := Signed.toNat_word_of_neg hneg
    rw [BitVec.toNat_not, Width.two_pow_bits]
    omega
  have hkept : ∀ j, 0 < j → keptBelow s.word j = decide (j < n) := by
    intro j hj
    rw [keptBelow_eq_keptAbove_not, keptAbove_eq _ hj, hnot, hn]
  rw [encode, if_pos (show v.toInt < inlineMin from hv), Signed.addChecked_eq_ok_iff.mpr hs,
    checked_bind_ok, ladder_fresh hproper.1 hproper.2 hkept hbyte,
    Signed.digits_shifted_below hl hsv hneg, Signed.encode, hl]
  rfl

theorem encode_above {v : Signed w} {n : Nat} (hv : 120 < v.toInt)
    (hn : digitCount (v.toInt - 121).toNat = n) (hl : v.lead = .above n) :
    encode v (Stage.fresh w) = .ok () (holding v.encode (w.bytes - n)) := by
  have hproper := v.lead_proper
  rw [hl] at hproper
  have hbyte : ((Lead.above n).toByte.toNat : Int) = aboveBase + n := hproper.toNat_toByte
  obtain ⟨s, hs⟩ := Signed.exists_shifted_above hv
  have hsv : s.toInt = v.toInt - 121 := hs
  have hword : s.word.toNat = (v.toInt - 121).toNat := by
    have hword := Signed.toNat_word_of_nonneg (v := s) (by omega)
    omega
  have hkept : ∀ j, 0 < j → keptAbove s.word j = decide (j < n) := by
    intro j hj
    rw [keptAbove_eq _ hj, hword, hn]
  rw [encode, if_neg (show ¬ v.toInt < inlineMin by simp only [inlineMin]; omega),
    if_pos (show inlineMax < v.toInt from hv), Signed.addChecked_eq_ok_iff.mpr hs,
    checked_bind_ok, ladder_fresh hproper.1 hproper.2 hkept hbyte, hword, Signed.encode, hl]
  rfl

theorem encode_inline {v : Signed w} (hv : -119 ≤ v.toInt) (hv' : v.toInt ≤ 120)
    (hl : v.lead = .inline v.toInt) :
    encode v (Stage.fresh w) = .ok () (holding v.encode w.bytes) := by
  have hproper := v.lead_proper
  rw [hl] at hproper
  have hbyte : ((Lead.inline v.toInt).toByte.toNat : Int) = v.toInt + inlineBias :=
    hproper.toNat_toByte
  obtain ⟨i, hi⟩ := exists_signed (i := v.toInt) (by omega) (by omega)
  rw [encode, if_neg (show ¬ v.toInt < inlineMin by simp only [inlineMin]; omega),
    if_neg (show ¬ inlineMax < v.toInt by simp only [inlineMax]; omega),
    signedByte_eq_ok_iff.mpr hi, checked_bind_ok, hi, unsignedByte_eq_ok_iff.mpr hbyte,
    checked_bind_ok, fresh_eq, store_zero_holding, Signed.encode, hl]
  rfl

theorem encode_fresh (v : Signed w) :
    encode v (Stage.fresh w) = .ok () (holding v.encode (w.bytes - v.lead.count)) := by
  rcases v.lead_cases with ⟨hv, hl⟩ | ⟨hv, hl⟩ | ⟨hv, hv', hl⟩
  · rw [hl]
    exact encode_below hv rfl hl
  · rw [hl]
    exact encode_above hv rfl hl
  · rw [hl]
    exact encode_inline hv hv' hl

end Staging

namespace Signed

variable {w : Width}

theorem stage_eq (v : Signed w) :
    v.stage = .ok (Stage.holding v.encode (w.bytes - v.lead.count)) := by
  rw [stage, Staging.encode_fresh]

theorem stagedEncode_eq (v : Signed w) : v.stagedEncode = .ok v.encode := by
  rw [stagedEncode, stage_eq]
  exact Stage.written_holding _ _

theorem stagedLength_eq (v : Signed w) : v.stagedLength = .ok v.encode.length := by
  rw [stagedLength, stage_eq]
  rfl

end Signed

end SortKey
