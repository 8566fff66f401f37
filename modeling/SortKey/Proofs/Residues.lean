import Mathlib.Data.Int.ModEq
import SortKey.Proofs.Frames

/-!
# Values as residues

A lead and its magnitude bytes stand for an integer, and a value is read as the residue of that
integer modulo the number of words. With fewer magnitude bytes than the width has, the integer fits
the width and is the value itself. Bytes before the lead and behind the magnitude have no part in
it.
-/

namespace SortKey

namespace Signed

variable {w : Width}

/-- A value is known by its residue, and every integer has the residue of one value. -/
theorem toInt_modEq_iff {i : Int} {v : Signed w} :
    v.toInt ≡ i [ZMOD 2 ^ w.bits] ↔ v = ofInt w i := by
  have hpow : (2 : Int) ^ w.bits = (BigEndian.limit w.bytes : Nat) := by
    rw [← w.two_pow_bits, Int.natCast_pow]
    rfl
  rw [Int.modEq_iff_dvd, hpow, ← ofInt_eq_iff]
  exact eq_comm

theorem toInt_ofInt_eq_iff_lt {i : Int} :
    (ofInt w i).toInt = i ↔ -2 ^ (w.bits - 1) ≤ i ∧ i < 2 ^ (w.bits - 1) := by
  obtain ⟨hleast, hgreatest, -, -⟩ := w.halves
  rw [toInt_ofInt_eq_iff, hleast, hgreatest, Int.natCast_pow]
  exact and_congr_right fun _ => Int.le_sub_one_iff

end Signed

namespace Lead

variable {w : Width} {b : UInt8} {m : Bytes}

/-- The lead byte alone tells how many bytes follow and where the integer is counted from. -/
theorem integer_ofByte (b : UInt8) (x : Nat) :
    if b.toNat < 0x08 then
      b.toNat + (ofByte b).count = 0x08 ∧ (ofByte b).integer x = x - 256 ^ (ofByte b).count - 119
    else if 0xF7 < b.toNat then
      b.toNat = 0xF7 + (ofByte b).count ∧ (ofByte b).integer x = x + 121
    else (ofByte b).count = 0 ∧ (ofByte b).integer x = b.toNat - 127 := by
  rcases ofByte_cases b with ⟨n, hpos, hsum, hb⟩ | ⟨n, hpos, hsum, hb⟩ | ⟨hlow, hhigh, hb⟩
  · rw [if_pos (by omega), hb]
    refine ⟨hsum, ?_⟩
    simp only [integer, count, belowShift, BigEndian.cast_limit]
    rfl
  · rw [if_neg (by omega), if_pos (by omega), hb]
    exact ⟨hsum, rfl⟩
  · rw [if_neg (by omega), if_neg (by omega), hb]
    exact ⟨rfl, rfl⟩

/-- Nothing wraps if a byte of the width is left over. -/
theorem toInt_ofInt_integer (hm : m.length = (ofByte b).count)
    (hless : (ofByte b).count < w.bytes) :
    (Signed.ofInt w ((ofByte b).integer (BigEndian.value m))).toInt =
      (ofByte b).integer (BigEndian.value m) := by
  apply Signed.toInt_ofInt_eq_iff.mpr
  rcases ofByte_cases b with ⟨n, hpos, -, hb⟩ | ⟨n, hpos, -, hb⟩ | ⟨hlow, hhigh, hb⟩
  · apply integer_fits_of_lt (by rw [hb]; exact hpos) hless
    rw [← hm]
    exact BigEndian.value_lt m
  · apply integer_fits_of_lt (by rw [hb]; exact hpos) hless
    rw [← hm]
    exact BigEndian.value_lt m
  · have hhalves := w.halves
    simp only [hb, integer]
    omega

end Lead

namespace Buffer

variable {w : Width} {buf buf' : Bytes} {offset n : Nat} {b : UInt8}

theorem drop_of_getElem? (hb : buf[offset]? = some b) :
    buf.drop offset = b :: buf.drop (offset + 1) := by
  obtain ⟨hlt, rfl⟩ := List.getElem?_eq_some_iff.mp hb
  exact List.drop_eq_getElem_cons hlt

theorem take_drop_congr (h : ∀ k, offset ≤ k → k < offset + n → buf'[k]? = buf[k]?) :
    (buf'.drop offset).take n = (buf.drop offset).take n := by
  apply List.ext_getElem?
  intro k
  simp only [List.getElem?_take, List.getElem?_drop]
  by_cases hk : k < n
  · rw [if_pos hk, if_pos hk, h (offset + k) (by omega) (by omega)]
  · rw [if_neg hk, if_neg hk]

/-- A frame that starts at the offset is read as the residue of its integer. -/
theorem read_frame {m : Bytes} (hb : buf[offset]? = some b)
    (hm : (buf.drop (offset + 1)).take (Lead.ofByte b).count = m)
    (hlen : m.length = (Lead.ofByte b).count) (hfit : (Lead.ofByte b).count ≤ w.bytes) :
    read w buf offset = .ok (.ofInt w ((Lead.ofByte b).integer (BigEndian.value m))) := by
  have hroom : (Lead.ofByte b).length ≤ (buf.drop (offset + 1)).length + 1 := by
    rw [← hm, List.length_take] at hlen
    rw [Lead.length]
    omega
  rw [read_eq, drop_of_getElem? hb,
    opening_whole (Lead.length_le_maxLength_iff.mpr hfit) hroom, hm, Lead.assemble_eq hlen]
  rfl

end Buffer

/-- Where a lead byte announces no more bytes than the width has, and that many follow it, the value
read is the residue of the byte itself or of the magnitude counted from the inline band. It is that
integer if a byte of the width is left over, and otherwise if and only if the integer fits. No other
byte of the buffer is looked at. -/
theorem reads_are_residues (w : Width) {buf : Bytes} {offset n : Nat} {b : UInt8}
    (hb : buf[offset]? = some b) (hn : (Lead.ofByte b).count = n) (hfit : n ≤ w.bytes)
    (hroom : offset + 1 + n ≤ buf.length) :
    ∃ (x : Nat) (i : Int) (v : Signed w),
      x = BigEndian.value ((buf.drop (offset + 1)).take n) ∧
      (if b.toNat < 0x08 then b.toNat + n = 0x08 ∧ i = x - 256 ^ n - 119
        else if 0xF7 < b.toNat then b.toNat = 0xF7 + n ∧ i = x + 121
        else n = 0 ∧ i = b.toNat - 127) ∧
      Buffer.read w buf offset = .ok v ∧
      (∀ u : Signed w, u.toInt ≡ i [ZMOD 2 ^ w.bits] ↔ u = v) ∧
      (n < w.bytes → v.toInt = i) ∧
      (v.toInt = i ↔ -2 ^ (w.bits - 1) ≤ i ∧ i < 2 ^ (w.bits - 1)) ∧
      ∀ buf' : Bytes, (∀ k, offset ≤ k → k < offset + 1 + n → buf'[k]? = buf[k]?) →
        Buffer.read w buf' offset = .ok v := by
  subst hn
  have hlen : ((buf.drop (offset + 1)).take (Lead.ofByte b).count).length =
      (Lead.ofByte b).count := by
    rw [List.length_take, List.length_drop]
    omega
  refine ⟨_, _, _, rfl, Lead.integer_ofByte b _, Buffer.read_frame hb rfl hlen hfit, ?_, ?_, ?_, ?_⟩
  · intro u
    exact Signed.toInt_modEq_iff
  · exact Lead.toInt_ofInt_integer hlen
  · exact Signed.toInt_ofInt_eq_iff_lt
  · intro buf' hsame
    have hb' : buf'[offset]? = some b := by
      rw [hsame offset (Nat.le_refl _) (by omega), hb]
    have hmagnitude : (buf'.drop (offset + 1)).take (Lead.ofByte b).count =
        (buf.drop (offset + 1)).take (Lead.ofByte b).count := by
      apply Buffer.take_drop_congr
      intro k hk hk'
      exact hsame k (by omega) hk'
    exact Buffer.read_frame hb' hmagnitude hlen hfit

/-- The greatest magnitude of the narrow width wraps around to the greatest inline value, whatever
stands around it. -/
theorem greatest_magnitude_wraps :
    Buffer.read .w32 [0x2A, 0xFB, 0xFF, 0xFF, 0xFF, 0xFF, 0x07] 1 = .ok ⟨120⟩ ∧
      (Signed.mk 120 : Signed .w32).toInt ≡ 0xFFFFFFFF + 121 [ZMOD 2 ^ Width.w32.bits] ∧
      Buffer.read .w32 [0x00, 0xFB, 0xFF, 0xFF, 0xFF, 0xFF] 1 = .ok ⟨120⟩ := by
  have hlead : ([0x2A, 0xFB, 0xFF, 0xFF, 0xFF, 0xFF, 0x07] : Bytes)[1]? = some 0xFB := rfl
  have hcount : (Lead.ofByte 0xFB).count = 4 := rfl
  obtain ⟨x, i, v, rfl, hi, hread, hresidue, -, -, hsame⟩ :=
    reads_are_residues .w32 hlead hcount (by decide) (by decide)
  rw [if_neg (by decide), if_pos (by decide)] at hi
  obtain ⟨-, rfl⟩ := hi
  obtain rfl : v = ⟨120⟩ := (Except.ok.inj hread).symm
  refine ⟨hread, (hresidue _).mpr rfl, hsame _ ?_⟩
  intro k hk hk'
  have hcases : k = 1 ∨ k = 2 ∨ k = 3 ∨ k = 4 ∨ k = 5 := by omega
  rcases hcases with rfl | rfl | rfl | rfl | rfl <;> rfl

end SortKey
