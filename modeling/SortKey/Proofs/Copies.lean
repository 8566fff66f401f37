import SortKey.Proofs.Amendments

/-!
# Copies of a range

With integers a pair of bounds always names a start and a stop. It is refused, before a byte is
copied, if a number behind a bound is no index, if the two are out of order, or if the string ends
before them. Otherwise the bytes between them are what is copied, and they take the place of as many
bytes. So a range that is written and read back into one of the same length is the same there.
-/

namespace SortKey

namespace Bound

/-- The number at which a lower bound begins. -/
def start : Bound → Nat
  | unbounded => 0
  | included n => n
  | excluded n => n + 1

/-- The number at which an upper bound ends a string of length `len`. -/
def stop (len : Nat) : Bound → Nat
  | unbounded => len
  | included n => n + 1
  | excluded n => n

def StartOverflows : Bound → Prop
  | excluded n => indexLimit ≤ n + 1
  | _ => False

def StopOverflows : Bound → Prop
  | included n => indexLimit ≤ n + 1
  | _ => False

instance : (b : Bound) → Decidable b.StartOverflows
  | unbounded => inferInstanceAs (Decidable False)
  | included _ => inferInstanceAs (Decidable False)
  | excluded n => inferInstanceAs (Decidable (indexLimit ≤ n + 1))

instance : (b : Bound) → Decidable b.StopOverflows
  | unbounded => inferInstanceAs (Decidable False)
  | included n => inferInstanceAs (Decidable (indexLimit ≤ n + 1))
  | excluded _ => inferInstanceAs (Decidable False)

variable {b : Bound}

theorem first_ok (h : ¬ b.StartOverflows) : b.first = .ok b.start := by
  cases b with
  | unbounded => rfl
  | included n => rfl
  | excluded n => exact addIndex_ok (Nat.not_le.mp h)

theorem first_error (h : b.StartOverflows) : b.first = .error .overflow := by
  cases b with
  | unbounded => exact h.elim
  | included n => exact h.elim
  | excluded n => exact addIndex_error h

theorem past_ok (h : ¬ b.StopOverflows) (len : Nat) : b.past len = .ok (b.stop len) := by
  cases b with
  | unbounded => rfl
  | included n => exact addIndex_ok (Nat.not_le.mp h)
  | excluded n => rfl

theorem past_error (h : b.StopOverflows) (len : Nat) : b.past len = .error .overflow := by
  cases b with
  | unbounded => exact h.elim
  | included n => exact addIndex_error h
  | excluded n => exact h.elim

end Bound

namespace Range

/-- What a range selects, in integers. -/
def resolved (r : Range) (len : Nat) : Span := ⟨r.lower.start, r.upper.stop len⟩

/-- A range is refused for a bound that overflows, for its order, or for its end. -/
def Refused (r : Range) (len : Nat) : Prop :=
  (r.lower.StartOverflows ∨ r.upper.StopOverflows) ∨
    (r.resolved len).stop < (r.resolved len).start ∨ len < (r.resolved len).stop

instance (r : Range) (len : Nat) : Decidable (r.Refused len) :=
  inferInstanceAs (Decidable ((_ ∨ _) ∨ _ ∨ _))

variable {r : Range} {len : Nat}

theorem span_of_refused (h : r.Refused len) : ∃ v, r.span len = .error v := by
  unfold span
  by_cases hstart : r.lower.StartOverflows
  · rw [Bound.first_error hstart]
    exact ⟨.overflow, rfl⟩
  · rw [Bound.first_ok hstart]
    by_cases hstop : r.upper.StopOverflows
    · rw [Bound.past_error hstop]
      exact ⟨.overflow, rfl⟩
    · rw [Bound.past_ok hstop]
      have hbounds : ¬ (r.lower.start ≤ r.upper.stop len ∧ r.upper.stop len ≤ len) := by
        rcases h with (h | h) | h | h
        · exact absurd h hstart
        · exact absurd h hstop
        · exact fun hin => Nat.not_lt.mpr hin.1 h
        · exact fun hin => Nat.not_lt.mpr hin.2 h
      refine ⟨.indexOutOfRange, ?_⟩
      exact if_neg hbounds

theorem bounds_of_not_refused (h : ¬ r.Refused len) :
    (r.resolved len).start ≤ (r.resolved len).stop ∧ (r.resolved len).stop ≤ len := by
  unfold Refused at h
  omega

theorem span_of_not_refused (h : ¬ r.Refused len) : r.span len = .ok (r.resolved len) := by
  have hbounds := bounds_of_not_refused h
  unfold Refused at h
  rw [not_or, not_or] at h
  rw [span, Bound.first_ok h.1.1, Bound.past_ok h.1.2]
  exact if_pos hbounds

theorem slice_of_not_refused {bs : Bytes} (h : ¬ r.Refused bs.length) :
    r.slice bs = .ok ((r.resolved bs.length).slice bs) := by
  rw [slice, span_of_not_refused h]
  rfl

theorem slice_of_refused {bs : Bytes} (h : r.Refused bs.length) :
    ∃ v, r.slice bs = .error v := by
  obtain ⟨v, hv⟩ := span_of_refused h
  refine ⟨v, ?_⟩
  rw [slice, hv]
  rfl

end Range

namespace Stream

variable {r : Range} {src dst : Bytes}

section Writing

variable {γ : Type} [BufMut γ] [LawfulBufMut γ]

open BufMut LawfulBufMut

theorem Output.bytes_whole (h : ¬ r.Refused src.length) (b : γ) :
    ∃ b', bytes src r b = .ok () b' ∧
      content b' = content b ++ (r.resolved src.length).slice src := by
  rw [bytes_ok (Range.slice_of_not_refused h)]
  exact put_ok _ b

theorem Output.bytes_refused_iff {b : γ} :
    r.Refused src.length ↔ ∃ v, bytes src r b = .error v b := by
  constructor
  · intro h
    obtain ⟨v, hv⟩ := Range.slice_of_refused h
    exact ⟨v, bytes_error hv b⟩
  · rintro ⟨v, hv⟩
    by_contra h
    obtain ⟨b', hrun, -⟩ := bytes_whole h b
    rw [hrun] at hv
    nomatch hv

end Writing

namespace Input

variable {β : Type} [Buf β] {b : β}

theorem fill_of_refused (h : r.Refused dst.length) (b : β) :
    ∃ v, fill r (b, dst) = .error (.violation v) (b, dst) := by
  obtain ⟨v, hv⟩ := Range.span_of_refused h
  refine ⟨v, ?_⟩
  rw [fill, fillRange, hv]
  rfl

variable [LawfulBuf β]

open LawfulBuf

theorem fill_underflow (h : ¬ r.Refused dst.length)
    (hcut : Buf.remaining b < (r.resolved dst.length).length) :
    fill r (b, dst) =
      .error (.underflow ⟨(r.resolved dst.length).length, Buf.remaining b⟩) (b, dst) := by
  rw [remaining_eq] at hcut ⊢
  exact fillRange_error (Range.span_of_not_refused h) (next_error hcut)

theorem fill_whole (h : ¬ r.Refused dst.length)
    (hroom : (r.resolved dst.length).length ≤ Buf.remaining b) :
    ∃ b', fill r (b, dst) = .ok () (b', (r.resolved dst.length).splice dst
        ((view b).take (r.resolved dst.length).length)) ∧
      view b' = (view b).drop (r.resolved dst.length).length := by
  rw [remaining_eq] at hroom
  exact ⟨_, fillRange_ok (Range.span_of_not_refused h) (next_ok hroom), (Buf.take_spec hroom).2⟩

theorem fill_refused_iff :
    r.Refused dst.length ↔ ∃ v, fill r (b, dst) = .error (.violation v) (b, dst) := by
  constructor
  · intro h
    exact fill_of_refused h b
  · rintro ⟨v, hv⟩
    by_contra h
    by_cases hcut : Buf.remaining b < (r.resolved dst.length).length
    · rw [fill_underflow h hcut] at hv
      nomatch hv
    · obtain ⟨b', hrun, -⟩ := fill_whole h (Nat.not_lt.mp hcut)
      rw [hrun] at hv
      nomatch hv

theorem fill_underflow_iff (h : ¬ r.Refused dst.length) :
    Buf.remaining b < (r.resolved dst.length).length ↔ fill r (b, dst) =
      .error (.underflow ⟨(r.resolved dst.length).length, Buf.remaining b⟩) (b, dst) := by
  constructor
  · exact fill_underflow h
  · intro hrun
    by_contra hcut
    obtain ⟨b', hrun', -⟩ := fill_whole h (Nat.not_lt.mp hcut)
    rw [hrun'] at hrun
    nomatch hrun

end Input

open LawfulBuf

/-- A range is refused by both copies on the same terms, and then nothing changes. What is written
is appended; what is read takes the place of as many bytes, if there are as many, and is consumed.
So what is written from one range is read back into another of the same length. -/
theorem range_copies {β γ : Type} [Buf β] [LawfulBuf β] [BufMut γ] [LawfulBufMut γ]
    (r r' : Range) (src dst : Bytes) (buf : γ) :
    (r.Refused src.length ↔ ∃ v, Output.bytes src r buf = .error v buf) ∧
    (¬ r.Refused src.length → ∃ written, Output.bytes src r buf = .ok () written ∧
      BufMut.content written = BufMut.content buf ++ (r.resolved src.length).slice src) ∧
    (∀ b : β,
      (r'.Refused dst.length ↔ ∃ v, Input.fill r' (b, dst) = .error (.violation v) (b, dst)) ∧
      (¬ r'.Refused dst.length →
        let part := r'.resolved dst.length
        (Buf.remaining b < part.length ↔ Input.fill r' (b, dst) =
          .error (.underflow ⟨part.length, Buf.remaining b⟩) (b, dst)) ∧
        (part.length ≤ Buf.remaining b →
          ∃ b' dst', Input.fill r' (b, dst) = .ok () (b', dst') ∧
            view b' = (view b).drop part.length ∧ dst'.length = dst.length ∧
            ∀ i, dst'[i]? =
              if part.start ≤ i ∧ i < part.stop then (view b)[i - part.start]? else dst[i]?))) ∧
    (¬ r.Refused src.length → ¬ r'.Refused dst.length →
      (r.resolved src.length).length = (r'.resolved dst.length).length →
      ∃ written, Output.bytes src r buf = .ok () written ∧
        ∀ (b : β) (rest : Bytes),
          view b = (BufMut.content written).drop (BufMut.content buf).length ++ rest →
          ∃ b' dst', Input.fill r' (b, dst) = .ok () (b', dst') ∧ view b' = rest ∧
            r'.slice dst' = r.slice src) := by
  refine ⟨Output.bytes_refused_iff, fun h => Output.bytes_whole h buf, ?_, ?_⟩
  · intro b
    refine ⟨Input.fill_refused_iff, ?_⟩
    intro h part
    refine ⟨Input.fill_underflow_iff h, ?_⟩
    intro hroom
    obtain ⟨hstart, hstop⟩ := Range.bounds_of_not_refused h
    obtain ⟨b', hrun, hview⟩ := Input.fill_whole h hroom
    have hlen : part.start + ((view b).take part.length).length = part.stop := by
      rw [remaining_eq] at hroom
      rw [List.length_take_of_le hroom]
      exact Span.start_add_length hstart
    refine ⟨b', _, hrun, hview, Span.length_splice hlen hstop, ?_⟩
    intro i
    rw [Span.getElem?_splice hlen hstop]
    by_cases hi : part.start ≤ i ∧ i < part.stop
    · have hlt : i - part.start < part.length := Nat.sub_lt_sub_right hi.1 hi.2
      rw [if_pos hi, if_pos hi, List.getElem?_take_of_lt hlt]
    · rw [if_neg hi, if_neg hi]
  · intro h h' hsame
    obtain ⟨written, hwrite, hwritten⟩ := Output.bytes_whole h buf
    refine ⟨written, hwrite, ?_⟩
    intro b rest hview
    obtain ⟨-, hstop⟩ := Range.bounds_of_not_refused h
    obtain ⟨hstart', hstop'⟩ := Range.bounds_of_not_refused h'
    have hlen := Span.length_slice hstop
    rw [hwritten, List.drop_left] at hview
    obtain ⟨b', hrun, hrest⟩ :=
      Input.fill_append (Range.span_of_not_refused h') (hsame.symm.trans hlen.symm) hview
    refine ⟨b', _, hrun, hrest, ?_⟩
    have hfill : (r'.resolved dst.length).start + ((r.resolved src.length).slice src).length =
        (r'.resolved dst.length).stop := by
      rw [hlen, hsame]
      exact Span.start_add_length hstart'
    have hdst := Span.length_splice hfill hstop'
    rw [Range.slice_of_not_refused h, Range.slice_of_not_refused (by rwa [hdst]), hdst,
      Span.slice_splice hfill (Nat.le_trans hstart' hstop')]

/-- Two bytes behind an excluded start are written and read back between an included start and an
excluded stop, and a range that includes the greatest index is refused. -/
theorem copied_between_bounds :
    (∃ written : Bytes,
      Output.bytes [1, 2, 3, 4] ⟨.excluded 0, .included 2⟩ ([8] : Bytes) = .ok () written ∧
      ∃ (b' : Bytes) (dst' : Bytes), Input.fill ⟨.included 1, .excluded 3⟩
          (written.drop 1 ++ [9], [7, 7, 7, 7]) = .ok () (b', dst') ∧ b' = [9] ∧
        (Range.mk (.included 1) (.excluded 3)).slice dst' = .ok [2, 3]) ∧
      ∃ v, Output.bytes [1, 2, 3, 4] ⟨.unbounded, .included (indexLimit - 1)⟩ ([8] : Bytes) =
        .error v [8] := by
  obtain ⟨-, -, -, hcopy⟩ := range_copies (β := Bytes) ⟨.excluded 0, .included 2⟩
    ⟨.included 1, .excluded 3⟩ [1, 2, 3, 4] [7, 7, 7, 7] ([8] : Bytes)
  obtain ⟨hrefused, -⟩ := range_copies (β := Bytes) ⟨.unbounded, .included (indexLimit - 1)⟩ {}
    [1, 2, 3, 4] [] ([8] : Bytes)
  obtain ⟨written, hwrite, hread⟩ := hcopy (by decide) (by decide) rfl
  exact ⟨⟨written, hwrite, hread _ [9] rfl⟩, hrefused.mp (by decide)⟩

end Stream

end SortKey
