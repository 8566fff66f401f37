import SortKey.Proofs.Decoding
import SortKey.Transfer.Source

/-!
# Canonic decoding inverts encoding

Decoding accepts padded and wrapped bytes, so it is far from injective. Canonic decoding encodes the
value again and compares: what passes is an encoding, and every encoding passes.
-/

namespace SortKey

theorem Signed.take_encode {w : Width} (v : Signed w) (r : Bytes) :
    (v.encode ++ r).take v.lead.length = v.encode :=
  List.take_left' v.length_encode

theorem Signed.drop_encode {w : Width} (v : Signed w) (r : Bytes) :
    (v.encode ++ r).drop v.lead.length = r :=
  List.drop_left' v.length_encode

/-- The bytes a value was read from are its encoding exactly if the encoding stands in front. -/
theorem take_eq_encode_iff {w : Width} {bs : Bytes} {l : Lead} {v : Signed w}
    (h : opening w bs = .whole l v) :
    v.encode = bs.take l.length ↔ bs = v.encode ++ bs.drop l.length := by
  constructor
  · intro heq
    rw [heq, List.take_append_drop]
  · intro hall
    have hl : l = v.lead := by
      rw [hall, opening_encode_append] at h
      injection h with hl
      exact hl.symm
    rw [hall, hl, v.take_encode]

namespace Transfer

variable {π φ ε : Type} [Producer π φ ε] [LawfulProducer π φ ε] {w : Width} {p : π}

open LawfulProducer

/-- Both ways of decoding read the same frame, and only canonic decoding checks it. -/
theorem decodeCanonic_eq (w : Width) (p : π) :
    decodeCanonic w p = match decode w p with
      | .ok v p' =>
          if unread p = v.encode ++ unread p' then .ok v p' else .error (.format .notMinimal) p'
      | .error e p' => .error e p' := by
  cases hframe : frame w p with
  | error e p' =>
      rw [decode, bind_error hframe]
      exact bind_error hframe _
  | ok r p' =>
      obtain ⟨v, l, cells⟩ := r
      obtain ⟨hopen, hcells, hrest⟩ := opening_of_frame_ok hframe
      have hlen : ((unread p).take l.length).length = l.length :=
        List.length_take_of_le (length_le_of_opening_eq_whole hopen)
      have hgiven : (Range.upTo l.length).slice cells = .ok ((unread p).take l.length) := by
        rw [hcells, Range.slice_upTo (by rw [List.length_append]; omega), List.take_left' hlen]
      have hcanonic : decodeCanonic w p =
          if v.encode = (unread p).take l.length then .ok v p'
          else .error (.format .notMinimal) p' := by
        rw [decodeCanonic, bind_ok hframe]
        change (checked v.stagedEncode >>= fun canonic =>
          checked ((Range.upTo l.length).slice cells) >>= fun given => _) _ = _
        rw [v.stagedEncode_eq, checked_bind_ok, hgiven, checked_bind_ok]
        by_cases heq : v.encode = (unread p).take l.length
        · rw [if_pos heq]
          exact (if_pos heq).symm
        · rw [if_neg heq]
          exact (if_neg heq).symm
      rw [hcanonic, decode, bind_ok hframe]
      simp only [pure_run, hrest, take_eq_encode_iff hopen]

theorem DecodeStep.perform_of_decode_error {step : DecodeStep} {e : DecodeError φ ε} {p' : π}
    (h : decode step.width p = .error e p') : step.perform p = .error e p' := by
  obtain ⟨w, canonic⟩ := step
  cases canonic with
  | false => exact map_error h _
  | true =>
      have hrun := decodeCanonic_eq w p
      rw [h] at hrun
      exact map_error hrun _

/-- Only a step that decodes canonically may refuse a value. -/
theorem DecodeStep.perform_of_decode_ok {step : DecodeStep} {v : Signed step.width} {p' : π}
    (h : decode step.width p = .ok v p') :
    step.perform p = .ok ⟨step.width, v⟩ p' ∨
      step.canonic = true ∧ step.perform p = .error (.format .notMinimal) p' := by
  obtain ⟨w, canonic⟩ := step
  cases canonic with
  | false => exact Or.inl (map_ok h _)
  | true =>
      have hrun := decodeCanonic_eq w p
      rw [h] at hrun
      by_cases heq : unread p = v.encode ++ unread p'
      · simp only [if_pos heq] at hrun
        exact Or.inl (map_ok hrun _)
      · simp only [if_neg heq] at hrun
        exact Or.inr ⟨rfl, map_error hrun _⟩

theorem decode_encode_append {v : Signed w} {r : Bytes} (h : unread p = v.encode ++ r) :
    ∃ p', decode w p = .ok v p' ∧ unread p' = r ∧ ending p' = ending p := by
  obtain ⟨p', hrun⟩ := decode_run w p
  rw [h, opening_encode_append] at hrun
  obtain ⟨hdecode, hrest, hend⟩ := hrun
  exact ⟨p', hdecode, hrest.trans (v.drop_encode r), hend⟩

theorem decodeCanonic_encode_append {v : Signed w} {r : Bytes} (h : unread p = v.encode ++ r) :
    ∃ p', decodeCanonic w p = .ok v p' ∧ unread p' = r ∧ ending p' = ending p := by
  obtain ⟨p', hdecode, hrest, hend⟩ := decode_encode_append h
  refine ⟨p', ?_, hrest, hend⟩
  rw [decodeCanonic_eq, hdecode]
  exact if_pos (by rw [h, hrest])

theorem eq_encode_append_of_decodeCanonic {v : Signed w} {p' : π}
    (h : decodeCanonic w p = .ok v p') : unread p = v.encode ++ unread p' := by
  rw [decodeCanonic_eq] at h
  cases hdecode : decode w p with
  | ok u p₁ =>
      rw [hdecode] at h
      by_cases heq : unread p = u.encode ++ unread p₁
      · simp only [if_pos heq] at h
        cases h
        exact heq
      · simp only [if_neg heq] at h
        cases h
  | error e p₁ =>
      rw [hdecode] at h
      cases h

theorem decode_error_cases {e : DecodeError φ ε} {p' : π} (h : decode w p = .error e p') :
    e = .ended (ending p) ∨ e = .format .tooWide := by
  obtain ⟨p₁, hrun⟩ := decode_run w p
  cases hopen : opening w (unread p) with
  | blank =>
      rw [hopen, h] at hrun
      cases hrun.1
      exact Or.inl rfl
  | wide l =>
      rw [hopen, h] at hrun
      cases hrun.1
      exact Or.inr rfl
  | cut l n =>
      rw [hopen, h] at hrun
      cases hrun.1
      exact Or.inl rfl
  | whole l v =>
      rw [hopen, h] at hrun
      cases hrun.1

/-- Canonic decoding accepts exactly the encodings, and except for what it refuses it does what
decoding does. -/
theorem decodeCanonic_exact (w : Width) (p : π) :
    (∀ v : Signed w, v.stagedEncode = .ok v.encode) ∧
    (∀ (v : Signed w) (r : Bytes), (∃ p', decodeCanonic w p = .ok v p' ∧ unread p' = r) ↔
      unread p = v.encode ++ r) ∧
    match decode w p with
    | .ok v p' => decodeCanonic w p =
        if unread p = v.encode ++ unread p' then .ok v p' else .error (.format .notMinimal) p'
    | .error e p' => decodeCanonic w p = .error e p' ∧
        (e = .ended (ending p) ∨ e = .format .tooWide) := by
  refine ⟨Signed.stagedEncode_eq, fun v r => ⟨?_, ?_⟩, ?_⟩
  · rintro ⟨p', hrun, rfl⟩
    exact eq_encode_append_of_decodeCanonic hrun
  · intro h
    obtain ⟨p', hrun, hrest, -⟩ := decodeCanonic_encode_append h
    exact ⟨p', hrun, hrest⟩
  · have hrun := decodeCanonic_eq w p
    cases h : decode w p with
    | ok v p' =>
        rw [h] at hrun
        exact hrun
    | error e p' =>
        rw [h] at hrun
        exact ⟨hrun, decode_error_cases h⟩

/-- The magnitude 5 is padded to two bytes here, which decoding does not mind. -/
theorem padded_refused :
    decode .w32 (⟨[0xF9, 0x00, 0x05, 0x7F], .final 0⟩ : Source) =
        .ok ⟨126⟩ ⟨[0x7F], .final 0⟩ ∧
      decodeCanonic .w32 (⟨[0xF9, 0x00, 0x05, 0x7F], .final 0⟩ : Source) =
        .error (.format .notMinimal) ⟨[0x7F], .final 0⟩ := by
  have hdecode : decode .w32 (⟨[0xF9, 0x00, 0x05, 0x7F], .final 0⟩ : Source) =
      .ok ⟨126⟩ ⟨[0x7F], .final 0⟩ := rfl
  have h := (decodeCanonic_exact .w32 (⟨[0xF9, 0x00, 0x05, 0x7F], .final 0⟩ : Source)).2.2
  rw [hdecode] at h
  exact ⟨hdecode, h.trans (if_neg (by decide))⟩

end Transfer

end SortKey
