import SortKey.Proofs.Decoding
import SortKey.Transfer.Source

/-!
# Agreement of the readers on arbitrary bytes

Three readers look at the same bytes and differ only in what they call the same thing. Missing
bytes are an underflow or the end of a producer, and a lead for a wider integer is a violation or a
format error. All three look at the lead first, then at its width, and only then for its bytes.
-/

namespace SortKey

open Transfer

theorem Width.maxLength_lt_iff (w : Width) (b : UInt8) :
    w.maxLength < (Lead.ofByte b).length ↔ w = .w32 ∧ 4 < (Lead.ofByte b).count := by
  have hcount := Lead.count_ofByte_le b
  cases w <;> simp [Width.maxLength, Width.bytes, Lead.length] <;> omega

namespace Buffer

theorem probe_nil {buf : Bytes} {offset : Nat} (h : buf.drop offset = []) :
    probe buf offset = .error .indexOutOfRange := by
  rw [probe, byteAt, List.getElem?_eq_none (List.drop_eq_nil_iff.mp h)]
  rfl

theorem probe_cons {buf bs : Bytes} {b : UInt8} {offset : Nat} (h : buf.drop offset = b :: bs) :
    probe buf offset = .ok (Lead.ofByte b).length := by
  have hb : buf[offset]? = some b := by
    rw [← Nat.add_zero offset, ← List.getElem?_drop, h]
    rfl
  rw [probe, byteAt, hb]
  rfl

end Buffer

variable {β π φ ε : Type} [Buf β] [LawfulBuf β] [Producer π φ ε] [LawfulProducer π φ ε]

open LawfulBuf LawfulProducer

/-- What the length probe says and how many bytes are there settle all three answers. -/
theorem readers_agree (w : Width) (buf : Bytes) (offset : Nat) (b : β) (p : π)
    (hb : view b = buf.drop offset) (hp : unread p = buf.drop offset) :
    match Buffer.probe buf offset with
    | .error _ =>
        buf.drop offset = [] ∧
        Buffer.read w buf offset = .error (.underflow ⟨1, 0⟩) ∧
        Stream.Input.sorted w b = .error (.underflow ⟨1, 0⟩) b ∧
        (outcome (decode w) p).1 = .error (.ended (ending p))
    | .ok n =>
        buf.drop offset ≠ [] ∧
        if w = .w32 ∧ 4 < n - 1 then
          Buffer.read w buf offset = .error (.violation (.tooManyMagnitudeBytes (n - 1))) ∧
          Stream.Input.sorted w b = .error (.violation (.tooManyMagnitudeBytes (n - 1))) b ∧
          (outcome (decode w) p).1 = .error (.format .tooWide)
        else if (buf.drop offset).length < n then
          Buffer.read w buf offset = .error (.underflow ⟨n, (buf.drop offset).length⟩) ∧
          Stream.Input.sorted w b = .error (.underflow ⟨n, (buf.drop offset).length⟩) b ∧
          (outcome (decode w) p).1 = .error (.ended (ending p))
        else ∃ (v : Signed w) (b' : β),
          Buffer.read w buf offset = .ok v ∧
          Stream.Input.sorted w b = .ok ⟨w, v⟩ b' ∧ view b' = (buf.drop offset).drop n ∧
          (outcome (decode w) p).1 = .ok v := by
  have hread := Buffer.read_eq w buf offset
  have hsorted := Stream.Input.sorted_run w b
  obtain ⟨p', hdecode⟩ := decode_run w p
  rw [hb] at hsorted
  rw [hp] at hdecode
  cases hrest : buf.drop offset with
  | nil =>
      rw [hrest, opening_nil] at hread hsorted hdecode
      rw [Buffer.probe_nil hrest, outcome, hdecode.1]
      exact ⟨rfl, hread, hsorted, rfl⟩
  | cons x bs =>
      rw [hrest] at hread hsorted hdecode hb
      have hwide := w.maxLength_lt_iff x
      have hcount : (Lead.ofByte x).length - 1 = (Lead.ofByte x).count :=
        Nat.add_sub_cancel_left 1 _
      rw [Buffer.probe_cons hrest]
      refine ⟨List.cons_ne_nil x bs, ?_⟩
      simp only [hcount, ← hwide, outcome, List.length_cons]
      by_cases h : w.maxLength < (Lead.ofByte x).length
      · rw [opening_wide h] at hread hsorted hdecode
        rw [if_pos h, hdecode.1]
        exact ⟨hread, hsorted, rfl⟩
      · have hfit := Nat.not_lt.mp h
        rw [if_neg h]
        by_cases hcut : bs.length + 1 < (Lead.ofByte x).length
        · rw [opening_cut hfit hcut] at hread hsorted hdecode
          rw [if_pos hcut, hdecode.1]
          exact ⟨hread, hsorted, rfl⟩
        · have hle := Nat.not_lt.mp hcut
          rw [opening_whole hfit hle] at hread hsorted hdecode
          rw [if_neg hcut, hdecode.1]
          have htake : view (Buf.take (Lead.ofByte x).length b).2 =
              (x :: bs).drop (Lead.ofByte x).length := by
            rw [← hb]
            exact (Buf.take_spec (by rwa [hb])).2
          exact ⟨_, _, hread, hsorted, htake, rfl⟩

/-- Two magnitude bytes are announced and one is there, for each reader in a form of its own. -/
theorem truncated_underflows :
    Buffer.read .w32 [0x7F, 0xF9, 0x03] 1 = .error (.underflow ⟨3, 2⟩) ∧
      Stream.Input.sorted .w32 (⟨[[0xF9], [], [0x03]]⟩ : Chain) =
        .error (.underflow ⟨3, 2⟩) ⟨[[0xF9], [], [0x03]]⟩ ∧
      (outcome (decode .w32) (⟨[0xF9, 0x03], .final 0⟩ : Source)).1 =
        .error (.ended (.final 0)) := by
  have h := readers_agree .w32 [0x7F, 0xF9, 0x03] 1 (⟨[[0xF9], [], [0x03]]⟩ : Chain)
    (⟨[0xF9, 0x03], .final 0⟩ : Source) rfl rfl
  have hprobe : Buffer.probe [0x7F, 0xF9, 0x03] 1 = .ok 3 := rfl
  rw [hprobe] at h
  obtain ⟨-, h⟩ := h
  rw [if_neg (by decide), if_pos (by decide)] at h
  exact h

end SortKey
