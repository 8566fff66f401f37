import SortKey.Proofs.Chains
import SortKey.Proofs.Scans
import SortKey.Transfer.Sink

/-!
# Checks that always pass

Sums, narrowings and indices are checked wherever an encoding is written or read. A check passes
exactly if its result is what it is with integers. While an encoding is written, the cells in use
grow by at most one at each rung of the ladder, whatever the tests say, so there is a cell for every
byte; and the sums have room in the width. On the way back only one check can fail, and only on a
lead for a wider integer.
-/

namespace SortKey

/-- Of `size` cells the first is in use and none behind the first `n`. -/
structure Stage.Within (s : Stage) (size n : Nat) : Prop where
  length_cells : s.cells.length = size
  used_pos : 0 < s.used
  used_le : s.used ≤ n

theorem Stage.Within.mono {s : Stage} {size m n : Nat} (h : s.Within size m) (hle : m ≤ n) :
    s.Within size n := ⟨h.length_cells, h.used_pos, Nat.le_trans h.used_le hle⟩

namespace Staging

open Stage

variable {s : Stage} {size n : Nat}

theorem push_within (b : UInt8) (h : s.Within size n) (hroom : n < size)
    (hsize : size < indexLimit) : ∃ s', push b s = .ok () s' ∧ s'.Within size (n + 1) := by
  have hlen := h.length_cells
  have hused := h.used_le
  refine ⟨_, push_ok b (by omega) (by omega), ?_, Nat.succ_pos _, Nat.succ_le_succ hused⟩
  rw [List.length_set, hlen]

/-- Each rung pushes at most one byte, whichever of them are kept. -/
theorem pushKept_within {m : Nat} (kept : BitVec m → Nat → Bool) (word : BitVec m) (k : Nat)
    (h : s.Within size n) (hroom : n + k < size) (hsize : size < indexLimit) :
    ∃ s', pushKept kept word k s = .ok () s' ∧ s'.Within size (n + k + 1) := by
  induction k generalizing s n with
  | zero => exact push_within (wordByte word 0) h hroom hsize
  | succ k ih =>
      rw [pushKept]
      by_cases hkept : kept word (k + 1) = true
      · obtain ⟨s₁, hpush, h₁⟩ := push_within (wordByte word (k + 1)) h (by omega) hsize
        obtain ⟨s', hrest, h'⟩ := ih h₁ (by omega)
        rw [if_pos hkept, bind_ok hpush]
        exact ⟨s', hrest, h'.mono (by omega)⟩
      · obtain ⟨s', hrest, h'⟩ := ih h (by omega)
        rw [if_neg hkept]
        exact ⟨s', hrest, h'.mono (by omega)⟩

/-- The lead byte is stored in the first cell, and no other cell comes into use by that. -/
theorem store_zero_within (b : UInt8) (h : s.Within size n) (hsize : 0 < size) :
    ∃ s', store 0 b s = .ok () s' ∧ s'.Within size n ∧ s'.used = s.used ∧
      s'.cells[0]? = some b := by
  have hlen := h.length_cells
  refine ⟨_, store_ok (by omega) b, ⟨?_, h.used_pos, h.used_le⟩, rfl, ?_⟩
  · rw [List.length_set, hlen]
  · exact List.getElem?_set_self (by omega)

variable {w : Width}

/-- However many rungs push a byte, the cells are enough and the lead byte can say how many. -/
theorem ladder_within (kept : BitVec w.bits → Nat → Bool) (word : BitVec w.bits)
    {lead : Int → Int} (hlead : ∀ c : Int, 0 ≤ c → c ≤ w.bytes → 0 ≤ lead c ∧ lead c < 256)
    (h : s.Within w.maxLength 1) :
    ∃ s', (pushKept kept word (w.bytes - 1) >>= fun _ => storeLead lead) s = .ok () s' ∧
      s'.Within w.maxLength w.maxLength ∧
      ∃ b, s'.cells[0]? = some b ∧ (b.toNat : Int) = lead (s'.used - 1) := by
  have hw := w.bytes_le
  have hpos := w.bytes_pos
  have hlen : w.maxLength = 1 + w.bytes := rfl
  have hlimit : w.maxLength < indexLimit := by cases w <;> decide
  obtain ⟨s₁, hpush, h₁⟩ := pushKept_within kept word (w.bytes - 1) h (by omega) hlimit
  have h₁ := h₁.mono (show 1 + (w.bytes - 1) + 1 ≤ w.maxLength by omega)
  have hused := h₁.used_pos
  have hused' := h₁.used_le
  obtain ⟨count, hcount⟩ := exists_unsigned (i := (s₁.used : Int) - 1) (by omega) (by omega)
  obtain ⟨hlo, hhi⟩ := hlead (s₁.used - 1) (by omega) (by omega)
  obtain ⟨b, hb⟩ := exists_unsigned hlo hhi
  obtain ⟨s', hstore, h', hsame, hcell⟩ := store_zero_within b h₁ (by omega)
  rw [bind_ok hpush, storeLead_eq_store hcount hb]
  exact ⟨s', hstore, h', b, hcell, by rw [hb, hsame]⟩

/-- Every number on the way from a value to its cells is that of a word or a byte, and the first
cell holds the number it should. -/
structure Exact (v : Signed w) (s : Stage) : Prop where
  count : ∃ n : UInt8, (n.toNat : Int) = s.used - 1
  below : v.toInt < inlineMin →
    (∃ u : Signed w, u.toInt = v.toInt + belowShift) ∧
      ∃ b, s.cells[0]? = some b ∧ (b.toNat : Int) = belowBase - (s.used - 1)
  above : inlineMax < v.toInt →
    (∃ u : Signed w, u.toInt = v.toInt + -aboveShift) ∧
      ∃ b, s.cells[0]? = some b ∧ (b.toNat : Int) = aboveBase + (s.used - 1)
  inline : inlineMin ≤ v.toInt → v.toInt ≤ inlineMax →
    (∃ i : Int8, i.toInt = v.toInt) ∧
      ∃ b, s.cells[0]? = some b ∧ (b.toNat : Int) = v.toInt + inlineBias

theorem exists_count (h : s.Within w.maxLength w.maxLength) :
    ∃ n : UInt8, (n.toNat : Int) = s.used - 1 := by
  have hpos := h.used_pos
  have hle := h.used_le
  have hw := w.bytes_le
  rw [Width.maxLength] at hle
  exact exists_unsigned (by omega) (by omega)

/-- No check fails on the way from a value to its cells, whatever they held before. -/
theorem encode_within (v : Signed w) (h : s.Within w.maxLength 1) :
    ∃ s', encode v s = .ok () s' ∧ s'.Within w.maxLength w.maxLength ∧ Exact v s' := by
  have hw := w.bytes_le
  -- The three ranges exclude each other, so `Exact` asks for one thing in each case.
  have hband : inlineMin ≤ inlineMax := by decide
  by_cases hbelow : v.toInt < inlineMin
  · obtain ⟨u, hu⟩ := Signed.exists_shifted_below hbelow
    have hlead : ∀ c : Int, 0 ≤ c → c ≤ w.bytes → 0 ≤ belowBase - c ∧ belowBase - c < 256 := by
      intro c hc hc'
      simp only [belowBase]
      omega
    obtain ⟨s', hrun, h', hcell⟩ := ladder_within keptBelow u.word hlead h
    refine ⟨s', ?_, h', exists_count h', fun _ => ⟨⟨u, hu⟩, hcell⟩, ?_, ?_⟩
    · rw [encode, if_pos hbelow, Signed.addChecked_eq_ok_iff.mpr hu, checked_bind_ok]
      exact hrun
    · intro habove
      omega
    · intro hlo
      omega
  · by_cases habove : inlineMax < v.toInt
    · obtain ⟨u, hu⟩ := Signed.exists_shifted_above habove
      have hlead : ∀ c : Int, 0 ≤ c → c ≤ w.bytes → 0 ≤ aboveBase + c ∧ aboveBase + c < 256 := by
        intro c hc hc'
        simp only [aboveBase]
        omega
      obtain ⟨s', hrun, h', hcell⟩ := ladder_within keptAbove u.word hlead h
      refine ⟨s', ?_, h', exists_count h', ?_, fun _ => ⟨⟨u, hu⟩, hcell⟩, ?_⟩
      · rw [encode, if_neg hbelow, if_pos habove, Signed.addChecked_eq_ok_iff.mpr hu,
          checked_bind_ok]
        exact hrun
      · intro hlo
        omega
      · intro hlo hhi
        omega
    · obtain ⟨⟨i, hi⟩, b, hb⟩ := exists_inline_byte (Int.not_lt.mp hbelow) (Int.not_lt.mp habove)
      obtain ⟨s', hstore, h', -, hcell⟩ := store_zero_within b h w.one_le_maxLength
      have h' := h'.mono w.one_le_maxLength
      refine ⟨s', ?_, h', exists_count h', ?_, ?_, fun _ _ => ⟨⟨i, hi⟩, b, hcell, hb⟩⟩
      · rw [← hi] at hb
        rw [encode, if_neg hbelow, if_neg habove, signedByte_eq_ok_iff.mpr hi, checked_bind_ok,
          unsignedByte_eq_ok_iff.mpr hb, checked_bind_ok]
        exact hstore
      · intro hv
        omega
      · intro hv
        omega

end Staging

/-- A lead byte taken apart with every difference checked. -/
def Lead.ofByteChecked (b : UInt8) : Except Violation Lead :=
  if b.toNat < belowBase then
    (fun n => .below n.toNat) <$> Staging.unsignedByte (belowBase - b.toNat)
  else if aboveBase < b.toNat then
    (fun n => .above n.toNat) <$> Staging.unsignedByte (b.toNat - aboveBase)
  else (fun x => .inline x.toInt) <$> Staging.signedByte (b.toNat - inlineBias)

theorem Lead.ofByteChecked_eq (b : UInt8) : ofByteChecked b = .ok (ofByte b) := by
  have hb := b.toNat_lt
  have hbase : belowBase = 8 := rfl
  have hbase' : aboveBase = 247 := rfl
  have hbias : inlineBias = 127 := rfl
  unfold ofByteChecked ofByte
  by_cases hbelow : b.toNat < belowBase
  · obtain ⟨n, hn⟩ := Staging.exists_unsigned (i := belowBase - b.toNat) (by omega) (by omega)
    rw [if_pos hbelow, if_pos hbelow, Staging.unsignedByte_eq_ok_iff.mpr hn]
    exact congrArg (fun k => Except.ok (below k)) (by omega)
  · rw [if_neg hbelow, if_neg hbelow]
    by_cases habove : aboveBase < b.toNat
    · obtain ⟨n, hn⟩ := Staging.exists_unsigned (i := b.toNat - aboveBase) (by omega) (by omega)
      rw [if_pos habove, if_pos habove, Staging.unsignedByte_eq_ok_iff.mpr hn]
      exact congrArg (fun k => Except.ok (above k)) (by omega)
    · obtain ⟨x, hx⟩ := Staging.exists_signed (i := b.toNat - inlineBias) (by omega) (by omega)
      rw [if_neg habove, if_neg habove, Staging.signedByte_eq_ok_iff.mpr hx]
      exact congrArg (fun k => Except.ok (inline k)) hx

variable {w : Width}

/-- The wide width has room for whatever a lead announces. -/
theorem result_eq_violation_iff_narrow {u : Bytes} {x : Violation} :
    (opening w u).result = .error (.violation x) ↔
      w = .w32 ∧ ∃ b, u.head? = some b ∧ 4 < (Lead.ofByte b).count ∧
        x = .tooManyMagnitudeBytes (Lead.ofByte b).count := by
  have hwide : ∀ b, w.bytes < (Lead.ofByte b).count ↔ w = .w32 ∧ 4 < (Lead.ofByte b).count :=
    fun b => Lead.maxLength_lt_length_iff.symm.trans (w.maxLength_lt_iff b)
  rw [result_eq_violation_iff]
  constructor
  · rintro ⟨b, hb, hlt, hx⟩
    obtain ⟨hw, hcount⟩ := (hwide b).mp hlt
    exact ⟨hw, b, hb, hcount, hx⟩
  · rintro ⟨hw, b, hb, hcount, hx⟩
    exact ⟨b, hb, (hwide b).mpr ⟨hw, hcount⟩, hx⟩

section Readers

variable {β π κ φ ε ε' : Type} [Buf β] [LawfulBuf β] [Transfer.Producer π φ ε]
  [Transfer.LawfulProducer π φ ε] [Transfer.Consumer κ ε']

open LawfulBuf

theorem Stream.Input.sorted_fails_iff {b : β} {e : Fault} :
    (∃ b', sorted w b = .error e b') ↔ (opening w (view b)).result = .error e := by
  rw [sorted_run]
  cases opening w (view b) <;> simp [Opening.result]

namespace Transfer

theorem decode_ne_violation (p p' : π) (x : Violation) :
    decode w p ≠ .error (.violation x) p' := by
  intro h
  rcases decode_error_cases h with he | he <;> cases he

/-- Canonic decoding adds a format error of its own and no violation. -/
theorem decodeCanonic_ne_violation (p p' : π) (x : Violation) :
    decodeCanonic w p ≠ .error (.violation x) p' := by
  rw [decodeCanonic_eq]
  cases hdecode : decode w p with
  | ok v p₁ =>
      by_cases hall : LawfulProducer.unread p = v.encode ++ LawfulProducer.unread p₁
      · simp only [if_pos hall]
        nofun
      · simp only [if_neg hall]
        nofun
  | error e p₁ =>
      intro h
      cases h
      exact decode_ne_violation p p' x hdecode

end Transfer

/-- Encoding passes all its checks, in whichever cells, and a consumer can only fail for reasons of
its own. Decoding passes all but one: a narrow reader refuses the lead of a wider integer, as a
violation or, from a producer, as a format error. In particular the magnitude bytes are always as
many as their lead announces. -/
theorem only_wide_leads_violate (w : Width) :
    (∀ b : UInt8, Lead.ofByteChecked b = .ok (Lead.ofByte b) ∧
      (Lead.ofByte b).length ≤ Width.w64.maxLength) ∧
    (∀ (v : Signed w) (s : Stage), s.Within w.maxLength 1 → ∃ s', Staging.encode v s = .ok () s' ∧
      s'.Within w.maxLength w.maxLength ∧ Staging.Exact v s') ∧
    (∀ v : Signed w, v.stagedLength = .ok v.encode.length ∧ v.stagedEncode = .ok v.encode ∧
      Buffer.pack [⟨w, v⟩] = .ok ([v.encode.length], v.encode) ∧
      (∀ (γ : Type) [BufMut γ] [LawfulBufMut γ] (b : γ), ∃ b',
        Stream.Output.sorted ⟨w, v⟩ b = .ok () b' ∧
          BufMut.content b' = BufMut.content b ++ v.encode) ∧
      ∀ k : κ, Transfer.encode ⟨w, v⟩ k =
        (Transfer.Consumer.push v.encode).adaptExcept Transfer.EncodeError.refused k) ∧
    (∀ (buf : Bytes) (offset : Nat) (x : Violation),
      Buffer.read w buf offset = .error (.violation x) ↔
        w = .w32 ∧ ∃ b, buf[offset]? = some b ∧ 4 < (Lead.ofByte b).count ∧
          x = .tooManyMagnitudeBytes (Lead.ofByte b).count) ∧
    (∀ (b : β) (x : Violation), (∃ b', Stream.Input.sorted w b = .error (.violation x) b') ↔
      w = .w32 ∧ ∃ y, (view b).head? = some y ∧ 4 < (Lead.ofByte y).count ∧
        x = .tooManyMagnitudeBytes (Lead.ofByte y).count) ∧
    ∀ (p p' : π) (x : Violation), Transfer.decode w p ≠ .error (.violation x) p' ∧
      Transfer.decodeCanonic w p ≠ .error (.violation x) p' := by
  refine ⟨?_, ?_, ?_, ?_, ?_, ?_⟩
  · intro b
    exact ⟨Lead.ofByteChecked_eq b, Nat.add_le_add_left (Lead.count_ofByte_le b) 1⟩
  · intro v s h
    exact Staging.encode_within v h
  · intro v
    refine ⟨v.stagedLength_eq, v.stagedEncode_eq, Buffer.pack_singleton ⟨w, v⟩, ?_,
      Transfer.encode_eq_push ⟨w, v⟩⟩
    intro γ _ _ b
    rw [Stream.Output.sorted_eq_put]
    exact LawfulBufMut.put_ok v.encode b
  · intro buf offset x
    rw [Buffer.read_eq, ← List.head?_drop]
    exact result_eq_violation_iff_narrow
  · intro b x
    exact Stream.Input.sorted_fails_iff.trans result_eq_violation_iff_narrow
  · intro p p' x
    exact ⟨Transfer.decode_ne_violation p p' x, Transfer.decodeCanonic_ne_violation p p' x⟩

/-- The least value has as many magnitude bytes as there are cells, which need not be clear. The
narrow width has no room for five of them. -/
theorem least_value_and_wide_lead :
    (∃ s', Staging.encode (⟨0x80000000⟩ : Signed .w32) ⟨[9, 8, 7, 6, 5], 1⟩ = .ok () s' ∧
      s'.Within 5 5 ∧ Staging.Exact (⟨0x80000000⟩ : Signed .w32) s') ∧
    Buffer.read .w32 [0x7F, 0xFC] 1 = .error (.violation (.tooManyMagnitudeBytes 5)) ∧
    ∀ (p' : Transfer.Source) (x : Violation),
      Transfer.decode .w32 (⟨[0xFC], .final 0⟩ : Transfer.Source) ≠ .error (.violation x) p' := by
  obtain ⟨-, hstage, -, hread, -, hdecode⟩ :=
    only_wide_leads_violate (β := Chain) (π := Transfer.Source) (κ := Transfer.Sink) .w32
  refine ⟨hstage _ _ ⟨rfl, by decide, by decide⟩, ?_, ?_⟩
  · exact (hread _ _ _).mpr ⟨rfl, 0xFC, rfl, by decide, rfl⟩
  · intro p' x
    exact (hdecode _ p' x).1

end Readers

end SortKey
