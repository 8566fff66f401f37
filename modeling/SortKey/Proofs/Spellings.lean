import SortKey.Proofs.Agreement
import SortKey.Proofs.Frames

/-!
# Every spelling of a value

Decoding wraps around and takes redundant digits, so a value has more than one spelling. Redundant
digits make a spelling longer. The only other freedom is at full length, where a frame of the other
sign can stand for an integer that the width cannot hold. So no spelling is shorter than the
encoding, and one that is as long is of full length.
-/

namespace SortKey

namespace Lead

/-- The digit that is redundant in front of a magnitude. -/
def filler : Lead → UInt8
  | inline _ => 0x00
  | below _ => 0xFF
  | above _ => 0x00

/-- The same side of the band with `k` more digits. -/
def pad (k : Nat) : Lead → Lead
  | inline x => inline x
  | below n => below (n + k)
  | above n => above (n + k)

/-- The leads of full length that the value is not encoded with for its sign. -/
def Foreign {w : Width} (v : Signed w) : Lead → Prop
  | inline _ => False
  | below n => n = w.bytes ∧ -119 ≤ v.toInt
  | above n => n = w.bytes ∧ v.toInt ≤ 120

end Lead

namespace Signed

variable {w : Width}

/-- A frame of full length whose integer is out of range and wraps to the value. -/
structure Wrapped (v : Signed w) (l : Lead) (m : Bytes) : Prop where
  full : m.length = w.bytes
  outside : ¬ (w.least ≤ l.integer (BigEndian.value m) ∧ l.integer (BigEndian.value m) ≤ w.greatest)
  wraps : ofInt w (l.integer (BigEndian.value m)) = v

/-- The ways to write a value: as it is encoded, with redundant digits, or wrapped around. -/
inductive Spelling (v : Signed w) : Bytes → Prop
  | encoded : Spelling v v.encode
  | padded (k : Nat) (outside : v.toInt < -119 ∨ 120 < v.toInt) (pos : 0 < k)
      (room : v.lead.count + k ≤ w.bytes) :
      Spelling v ((v.lead.pad k).toByte :: (List.replicate k v.lead.filler ++ v.encode.tail))
  | wrapped (l : Lead) (m : Bytes) (foreign : l.Foreign v) (wrapped : v.Wrapped l m) :
      Spelling v (l.toByte :: m)

end Signed

namespace BigEndian

theorem value_replicate_zero (k : Nat) : value (List.replicate k 0x00) = 0 := by
  induction k with
  | zero => rfl
  | succ k ih =>
      rw [List.replicate_succ, value_cons, ih]
      exact Nat.zero_mul _

theorem value_replicate_ones (k : Nat) : value (List.replicate k 0xFF) = limit k - 1 := by
  induction k with
  | zero => rfl
  | succ k ih =>
      have hpos := limit_pos k
      have hbyte : (0xFF : UInt8).toNat = 255 := rfl
      rw [List.replicate_succ, value_cons, ih, List.length_replicate, hbyte, limit]
      omega

end BigEndian

namespace Lead

/-- Redundant digits do not change the integer. -/
theorem integer_pad {l : Lead} {m : Bytes} (hm : m.length = l.count) (k : Nat) :
    (l.pad k).integer (BigEndian.value (List.replicate k l.filler ++ m)) =
      l.integer (BigEndian.value m) := by
  cases l with
  | inline x => rfl
  | below n =>
      have hlen : m.length = n := hm
      have hpos := BigEndian.limit_pos k
      have hadd := BigEndian.limit_add n k
      have hmul : (BigEndian.limit k - 1) * BigEndian.limit n + BigEndian.limit n =
          BigEndian.limit (n + k) := by
        rw [hadd, Nat.mul_comm (BigEndian.limit n), ← Nat.succ_mul]
        congr 1
        omega
      simp only [pad, filler, integer]
      rw [BigEndian.value_append, BigEndian.value_replicate_ones, hlen]
      omega
  | above n =>
      simp only [pad, filler, integer]
      rw [BigEndian.value_append, BigEndian.value_replicate_zero, Nat.zero_mul, Nat.zero_add]

theorem count_pad {l : Lead} (hl : 0 < l.count) (k : Nat) : (l.pad k).count = l.count + k := by
  cases l with
  | inline x => exact absurd hl (Nat.lt_irrefl 0)
  | below n => rfl
  | above n => rfl

theorem Proper.pad {w : Width} {l : Lead} (h : l.Proper w) {k : Nat}
    (hroom : l.count + k ≤ w.bytes) : (l.pad k).Proper w := by
  cases l with
  | inline x => exact h
  | below n => exact ⟨Nat.add_pos_left h.1 k, hroom⟩
  | above n => exact ⟨Nat.add_pos_left h.1 k, hroom⟩

theorem pad_zero (l : Lead) : l.pad 0 = l := by cases l <;> rfl

theorem Foreign.count_eq {w : Width} {v : Signed w} {l : Lead} (h : l.Foreign v) :
    l.count = w.bytes := by
  cases l with
  | inline x => exact h.elim
  | below n => exact h.1
  | above n => exact h.1

theorem Foreign.proper {w : Width} {v : Signed w} {l : Lead} (h : l.Foreign v) : l.Proper w := by
  cases l with
  | inline x => exact h.elim
  | below n => exact ⟨h.1 ▸ w.bytes_pos, Nat.le_of_eq h.1⟩
  | above n => exact ⟨h.1 ▸ w.bytes_pos, Nat.le_of_eq h.1⟩

end Lead

namespace Signed

variable {w : Width} {v : Signed w} {l : Lead} {m : Bytes}

/-- One turn above the range leads back into it. -/
theorem toInt_of_wraps_above {i : Int} (h : ofInt w i = v) (hout : w.greatest < i)
    (hturn : i ≤ BigEndian.limit w.bytes + 120) : v.toInt = i - BigEndian.limit w.bytes := by
  have hback : ofInt w (i - BigEndian.limit w.bytes) = v := by
    rw [← h, ofInt_eq_ofInt_iff]
    exact ⟨-1, by ring⟩
  have hhalves := w.halves
  rw [← hback, toInt_ofInt (by omega) (by omega)]

theorem toInt_of_wraps_below {i : Int} (h : ofInt w i = v) (hout : i < w.least)
    (hturn : -119 - (BigEndian.limit w.bytes : Int) ≤ i) :
    v.toInt = i + BigEndian.limit w.bytes := by
  have hback : ofInt w (i + BigEndian.limit w.bytes) = v := by
    rw [← h, ofInt_eq_ofInt_iff]
    exact ⟨1, by ring⟩
  have hhalves := w.halves
  rw [← hback, toInt_ofInt (by omega) (by omega)]

/-- The integer of a wrapped frame is one turn away from the value. -/
theorem wrapped_above_iff (hm : m.length = w.bytes) :
    v.Wrapped (.above w.bytes) m ↔
      (BigEndian.value m : Int) = v.toInt + BigEndian.limit w.bytes - 121 := by
  have hlt := BigEndian.value_lt m
  have hhalves := w.halves
  have hlow := v.least_le_toInt
  rw [hm] at hlt
  constructor
  · rintro ⟨-, hout, hwraps⟩
    simp only [Lead.integer, aboveShift] at hout hwraps
    have hint := toInt_of_wraps_above hwraps (by omega) (by omega)
    omega
  · intro h
    have hint : (Lead.above w.bytes).integer (BigEndian.value m) =
        v.toInt + BigEndian.limit w.bytes := by
      simp only [Lead.integer, aboveShift]
      omega
    refine ⟨hm, by rw [hint]; omega, ?_⟩
    rw [hint, ofInt_eq_iff]
    exact ⟨1, by ring⟩

theorem wrapped_below_iff (hm : m.length = w.bytes) :
    v.Wrapped (.below w.bytes) m ↔ (BigEndian.value m : Int) = v.toInt + 119 := by
  have hlt := BigEndian.value_lt m
  have hhalves := w.halves
  have hhigh := v.toInt_le_greatest
  rw [hm] at hlt
  constructor
  · rintro ⟨-, hout, hwraps⟩
    simp only [Lead.integer, belowShift] at hout hwraps
    have hint := toInt_of_wraps_below hwraps (by omega) (by omega)
    omega
  · intro h
    have hint : (Lead.below w.bytes).integer (BigEndian.value m) =
        v.toInt - BigEndian.limit w.bytes := by
      simp only [Lead.integer, belowShift]
      omega
    refine ⟨hm, by rw [hint]; omega, ?_⟩
    rw [hint, ofInt_eq_iff]
    exact ⟨-1, by ring⟩

theorem exists_unique_value {x : Int} (hlow : 0 ≤ x) (hhigh : x < BigEndian.limit w.bytes) :
    ∃! m : Bytes, m.length = w.bytes ∧ (BigEndian.value m : Int) = x := by
  refine ⟨BigEndian.digits w.bytes x.toNat, ⟨BigEndian.length_digits _ _, ?_⟩, ?_⟩
  · rw [BigEndian.value_digits, Nat.mod_eq_of_lt (by omega)]
    omega
  · rintro m ⟨hm, hx⟩
    apply BigEndian.eq_of_value_eq
    · rw [hm, BigEndian.length_digits]
    · rw [BigEndian.value_digits, Nat.mod_eq_of_lt (by omega)]
      omega

/-- Each foreign lead has one wrapped frame for the value. -/
theorem exists_unique_wrapped (h : l.Foreign v) : ∃! m, v.Wrapped l m := by
  have hlow := v.least_le_toInt
  have hhigh := v.toInt_le_greatest
  have hhalves := w.halves
  cases l with
  | inline x => exact h.elim
  | below n =>
      obtain ⟨rfl, hv⟩ := h
      obtain ⟨m, ⟨hm, hx⟩, hunique⟩ := exists_unique_value (w := w) (x := v.toInt + 119)
        (by omega) (by omega)
      refine ⟨m, (wrapped_below_iff hm).mpr hx, ?_⟩
      intro m' h'
      exact hunique m' ⟨h'.full, (wrapped_below_iff h'.full).mp h'⟩
  | above n =>
      obtain ⟨rfl, hv⟩ := h
      obtain ⟨m, ⟨hm, hx⟩, hunique⟩ := exists_unique_value (w := w)
        (x := v.toInt + BigEndian.limit w.bytes - 121) (by omega) (by omega)
      refine ⟨m, (wrapped_above_iff hm).mpr hx, ?_⟩
      intro m' h'
      exact hunique m' ⟨h'.full, (wrapped_above_iff h'.full).mp h'⟩

theorem length_tail_encode (v : Signed w) : v.encode.tail.length = v.lead.count :=
  BigEndian.length_digits _ _

theorem integer_tail_encode (v : Signed w) :
    v.lead.integer (BigEndian.value v.encode.tail) = v.toInt := by
  rw [encode, List.tail_cons, v.value_digits_magnitude, v.integer_magnitude]

/-- A lead with enough digits for the integer of a value is the value's own, padded. -/
theorem exists_pad_of_integer_eq {x : Nat} (hl : l.Proper w) (hx : x < BigEndian.limit l.count)
    (h : v.toInt = l.integer x) :
    ∃ k, l = v.lead.pad k ∧ l.count = v.lead.count + k ∧
      (0 < k → v.toInt < -119 ∨ 120 < v.toInt) := by
  cases l with
  | inline y =>
      simp only [Lead.Proper, inlineMin, inlineMax] at hl
      simp only [Lead.integer] at h
      have hlead := lead_of_inline (v := v) (by omega) (by omega)
      rw [hlead, h]
      exact ⟨0, rfl, rfl, fun hk => absurd hk (Nat.lt_irrefl 0)⟩
  | below n =>
      simp only [Lead.count] at hx
      simp only [Lead.integer, belowShift] at h
      have hlead := lead_of_below (v := v) (m := BigEndian.limit n - 1 - x) (by omega)
      have hle := (digitCount_le_iff hl.1).mpr (show BigEndian.limit n - 1 - x < _ by omega)
      have hsum := Nat.add_sub_cancel' hle
      refine ⟨n - digitCount (BigEndian.limit n - 1 - x), ?_, ?_, fun _ => Or.inl (by omega)⟩
      · rw [hlead, Lead.pad, hsum]
      · rw [hlead, Lead.count, Lead.count, hsum]
  | above n =>
      simp only [Lead.integer, aboveShift] at h
      have hlead := lead_of_above (v := v) (m := x) h
      have hle := (digitCount_le_iff hl.1).mpr hx
      have hsum := Nat.add_sub_cancel' hle
      refine ⟨n - digitCount x, ?_, ?_, fun _ => Or.inr (by omega)⟩
      · rw [hlead, Lead.pad, hsum]
      · rw [hlead, Lead.count, Lead.count, hsum]

/-- An integer out of range has full length and the other sign. -/
theorem foreign_of_outside {x : Nat} (hl : l.Proper w) (hx : x < BigEndian.limit l.count)
    (hout : ¬ (w.least ≤ l.integer x ∧ l.integer x ≤ w.greatest))
    (h : ofInt w (l.integer x) = v) : l.Foreign v := by
  have hfull : 0 < l.count → l.count = w.bytes := by
    intro hpos
    by_contra hne
    exact hout (Lead.integer_fits_of_lt hpos (Nat.lt_of_le_of_ne hl.count_le hne) hx)
  have hhalves := w.halves
  cases l with
  | inline y =>
      simp only [Lead.Proper, inlineMin, inlineMax] at hl
      simp only [Lead.integer] at hout
      omega
  | below n =>
      have hn : n = w.bytes := hfull hl.1
      subst hn
      simp only [Lead.count] at hx
      simp only [Lead.integer, belowShift] at hout h
      have hint := toInt_of_wraps_below h (by omega) (by omega)
      exact ⟨rfl, by omega⟩
  | above n =>
      have hn : n = w.bytes := hfull hl.1
      subst hn
      simp only [Lead.count] at hx
      simp only [Lead.integer, aboveShift] at hout h
      have hint := toInt_of_wraps_above h (by omega) (by omega)
      exact ⟨rfl, by omega⟩

theorem spelling_of_frame {b : UInt8} (hm : m.length = (Lead.ofByte b).count)
    (hroom : m.length ≤ w.bytes)
    (h : ofInt w ((Lead.ofByte b).integer (BigEndian.value m)) = v) : v.Spelling (b :: m) := by
  have hproper := Lead.proper_ofByte (hm ▸ hroom)
  have hx := BigEndian.value_lt m
  rw [hm] at hx
  by_cases hin : w.least ≤ (Lead.ofByte b).integer (BigEndian.value m) ∧
      (Lead.ofByte b).integer (BigEndian.value m) ≤ w.greatest
  · have hint : v.toInt = (Lead.ofByte b).integer (BigEndian.value m) := by
      rw [← h, toInt_ofInt hin.1 hin.2]
    obtain ⟨k, hl, hcount, hout⟩ := exists_pad_of_integer_eq hproper hx hint
    by_cases hk : k = 0
    · rw [hk, Lead.pad_zero] at hl
      rw [← (encode_eq_cons_iff hm).mpr ⟨hint, hl.symm⟩]
      exact .encoded
    · have hdigits : m = List.replicate k v.lead.filler ++ v.encode.tail := by
        apply Lead.eq_of_integer_eq hm
        · rw [List.length_append, List.length_replicate, length_tail_encode, hcount, Nat.add_comm]
        · rw [← hint, hl, Lead.integer_pad v.length_tail_encode, integer_tail_encode]
      have hpos := Nat.pos_of_ne_zero hk
      have hspelling := Spelling.padded (v := v) k (hout hpos) hpos (by omega)
      rwa [← hl, Lead.toByte_ofByte, ← hdigits] at hspelling
  · have hforeign := foreign_of_outside hproper hx hin h
    have hspelling := Spelling.wrapped (Lead.ofByte b) m hforeign
      ⟨hm.trans hforeign.count_eq, hin, h⟩
    rwa [Lead.toByte_ofByte] at hspelling

theorem Spelling.exists_frame {e : Bytes} (h : v.Spelling e) :
    ∃ b m, e = b :: m ∧ m.length = (Lead.ofByte b).count ∧ m.length ≤ w.bytes ∧
      ofInt w ((Lead.ofByte b).integer (BigEndian.value m)) = v := by
  cases h with
  | encoded =>
      obtain ⟨b, m, hv, hm, hroom⟩ := v.exists_encode_eq_cons
      refine ⟨b, m, hv, hm, hroom, ?_⟩
      rw [← ((encode_eq_cons_iff hm).mp hv).1, ofInt_toInt]
  | padded k outside pos room =>
      have hcount : 0 < v.lead.count := by
        rcases v.lead_cases with ⟨-, hl⟩ | ⟨-, hl⟩ | ⟨hlow, hhigh, -⟩
        · exact hl ▸ digitCount_pos _
        · exact hl ▸ digitCount_pos _
        · omega
      have hl := (v.lead_proper.pad room).ofByte_toByte
      have hlen : (List.replicate k v.lead.filler ++ v.encode.tail).length = v.lead.count + k := by
        rw [List.length_append, List.length_replicate, length_tail_encode, Nat.add_comm]
      refine ⟨_, _, rfl, ?_, ?_, ?_⟩
      · rw [hl, Lead.count_pad hcount, hlen]
      · rwa [hlen]
      · rw [hl, Lead.integer_pad v.length_tail_encode, integer_tail_encode, ofInt_toInt]
  | wrapped l m foreign wrapped =>
      have hl := foreign.proper.ofByte_toByte
      refine ⟨_, _, rfl, ?_, Nat.le_of_eq wrapped.full, ?_⟩
      · rw [hl, foreign.count_eq, wrapped.full]
      · rw [hl, wrapped.wraps]

/-- The byte strings that are read in full as a value are its spellings. -/
theorem opening_all_iff_spelling {e : Bytes} :
    (∃ l, opening w e = .whole l v ∧ l.length = e.length) ↔ v.Spelling e := by
  rw [opening_all_iff]
  constructor
  · rintro ⟨b, m, rfl, hm, hroom, h⟩
    exact spelling_of_frame hm hroom h
  · exact Spelling.exists_frame

/-- What a value was read from is one of its spellings. -/
theorem spelling_of_opening {bs : Bytes} (h : opening w bs = .whole l v) :
    v.Spelling (bs.take l.length) := by
  cases bs with
  | nil => cases h
  | cons b bs =>
      rcases opening_cons_cases w b bs with
        ⟨-, hopen⟩ | ⟨-, -, hopen⟩ | ⟨hfit, hle, hopen⟩
      · rw [hopen] at h
        cases h
      · rw [hopen] at h
        cases h
      · rw [hopen] at h
        cases h
        rw [Lead.length_le_maxLength_iff] at hfit
        have hm : (bs.take (Lead.ofByte b).count).length = (Lead.ofByte b).count := by
          apply List.length_take_of_le
          rw [Lead.length] at hle
          omega
        rw [Lead.length, Nat.add_comm, List.take_succ_cons]
        exact spelling_of_frame hm (hm.symm ▸ hfit) (Lead.assemble_eq hm).symm

end Signed

theorem Buffer.read_all_iff {w : Width} {v : Signed w} {e : Bytes} :
    (read w e 0 = .ok v ∧ probe e 0 = .ok e.length) ↔
      ∃ l, opening w e = .whole l v ∧ l.length = e.length := by
  have hread := read_eq w e 0
  rw [List.drop_zero] at hread
  cases hopen : opening w e with
  | whole l u =>
      have hprobe : probe e 0 = .ok l.length := by
        cases e with
        | nil => cases hopen
        | cons b bs =>
            rw [eq_ofByte_of_opening_eq_whole hopen]
            exact probe_cons List.drop_zero
      rw [hread, hopen, hprobe]
      simp [Opening.result]
  | _ =>
      rw [hread, hopen]
      simp [Opening.result]

namespace Transfer

variable {π φ ε : Type} [Producer π φ ε] [LawfulProducer π φ ε] {w : Width} {v : Signed w} {p : π}

open LawfulProducer

theorem decode_all_iff :
    (∃ p', decode w p = .ok v p' ∧ unread p' = []) ↔
      ∃ l, opening w (unread p) = .whole l v ∧ l.length = (unread p).length := by
  obtain ⟨p₁, hrun⟩ := decode_run w p
  cases hopen : opening w (unread p) with
  | whole l u =>
      rw [hopen] at hrun
      obtain ⟨hdecode, hrest, -⟩ := hrun
      have hle := length_le_of_opening_eq_whole hopen
      constructor
      · rintro ⟨p', h, hnil⟩
        rw [hdecode] at h
        cases h
        rw [hrest, List.drop_eq_nil_iff] at hnil
        exact ⟨l, rfl, Nat.le_antisymm hle hnil⟩
      · rintro ⟨l', h, hlen⟩
        cases h
        exact ⟨p₁, hdecode, by rw [hrest, hlen, List.drop_length]⟩
  | _ =>
      rw [hopen] at hrun
      simp [hrun.1]

end Transfer

namespace Signed

variable {w : Width} {v : Signed w} {e : Bytes}

theorem Spelling.length_le (h : v.Spelling e) : v.encode.length ≤ e.length := by
  have hcount := v.count_lead_le
  rw [v.length_encode, encodedLength, Lead.length]
  cases h with
  | encoded =>
      rw [v.length_encode, encodedLength, Lead.length]
  | padded k outside pos room =>
      rw [List.length_cons, List.length_append, length_tail_encode]
      omega
  | wrapped l m foreign wrapped =>
      rw [List.length_cons, wrapped.full]
      omega

/-- Only a wrapped frame is another spelling of the same length. -/
theorem Spelling.wrapped_of_length_eq (h : v.Spelling e) (hlen : e.length = v.encode.length)
    (hne : e ≠ v.encode) :
    e.length = 1 + w.bytes ∧ ∃ l m, l.Foreign v ∧ v.Wrapped l m ∧ e = l.toByte :: m := by
  cases h with
  | encoded => exact absurd rfl hne
  | padded k outside pos room =>
      rw [v.length_encode, encodedLength, Lead.length, List.length_cons, List.length_append,
        List.length_replicate, length_tail_encode] at hlen
      omega
  | wrapped l m foreign wrapped =>
      refine ⟨?_, l, m, foreign, wrapped, rfl⟩
      rw [List.length_cons, wrapped.full, Nat.add_comm]

end Signed

open Transfer

variable {π φ ε : Type} [Producer π φ ε] [LawfulProducer π φ ε]

open LawfulProducer

/-- What either reader takes as a whole for a value is one of its spellings, of which the encoding
is a shortest one. At most one wrapped spelling of each sign goes with it, and nothing else is as
short. -/
theorem spellings_exact (w : Width) (v : Signed w) :
    v.stagedEncode = .ok v.encode ∧
    (∀ e : Bytes,
      Buffer.read w e 0 = .ok v ∧ Buffer.probe e 0 = .ok e.length ↔ v.Spelling e) ∧
    (∀ p : π, (∃ p', decode w p = .ok v p' ∧ unread p' = []) ↔ v.Spelling (unread p)) ∧
    (∀ l : Lead, l.Foreign v → ∃! m, v.Wrapped l m) ∧
    (∀ e : Bytes, v.Spelling e → v.encode.length ≤ e.length) ∧
    ∀ e : Bytes, v.Spelling e → e.length = v.encode.length → e ≠ v.encode →
      e.length = 1 + w.bytes ∧ ∃ l m, l.Foreign v ∧ v.Wrapped l m ∧ e = l.toByte :: m := by
  refine ⟨v.stagedEncode_eq, ?_, ?_, ?_, ?_, ?_⟩
  · intro e
    exact Buffer.read_all_iff.trans Signed.opening_all_iff_spelling
  · intro p
    exact decode_all_iff.trans Signed.opening_all_iff_spelling
  · intro l hl
    exact Signed.exists_unique_wrapped hl
  · intro e he
    exact he.length_le
  · intro e he hlen hne
    exact he.wrapped_of_length_eq hlen hne

/-- The least narrow value, whose encoding starts with `0x04`, has a spelling of the other sign. -/
theorem least_value_wrapped :
    Buffer.read .w32 [0xFB, 0x7F, 0xFF, 0xFF, 0x87] 0 = .ok ⟨0x80000000⟩ ∧
      ∃ l m, l.Foreign (w := .w32) ⟨0x80000000⟩ ∧ Signed.Wrapped (w := .w32) ⟨0x80000000⟩ l m ∧
        [0xFB, 0x7F, 0xFF, 0xFF, 0x87] = l.toByte :: m := by
  obtain ⟨-, hread, -, -, -, hwrapped⟩ := spellings_exact (π := Source) .w32 ⟨0x80000000⟩
  have hvalue : Buffer.read .w32 [0xFB, 0x7F, 0xFF, 0xFF, 0x87] 0 = .ok ⟨0x80000000⟩ := rfl
  have hspelling := (hread [0xFB, 0x7F, 0xFF, 0xFF, 0x87]).mp ⟨hvalue, rfl⟩
  exact ⟨hvalue, (hwrapped _ hspelling rfl (by decide)).2⟩

end SortKey
