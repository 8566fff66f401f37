import SortKey.Proofs.Ladder
import SortKey.Proofs.Reading
import SortKey.Transfer.Decoding

/-!
# Decoding is settled by the opening

A producer is asked twice, for the lead byte and for what it announces. Together the two fills see
the opening of the unread bytes, which settles the answer and how many of them are gone afterwards.
-/

namespace SortKey

namespace Transfer

variable {π φ ε : Type} [Producer π φ ε] [LawfulProducer π φ ε] {w : Width} {p : π}

open LawfulProducer

theorem fill_ok {r : Range} {span : Span} {cells : Bytes} (hspan : r.span cells.length = .ok span)
    (h : span.length ≤ (unread p).length) :
    ∃ p', fill r (p, cells) = .ok () (p', span.splice cells ((unread p).take span.length)) ∧
      unread p' = (unread p).drop span.length ∧ ending p' = ending p := by
  obtain ⟨p', hpull, hrest⟩ := pull_of_le span.length p h
  refine ⟨p', fillRange_ok hspan ?_, hrest⟩
  rw [EStateM.adaptExcept, hpull]

theorem fill_error {r : Range} {span : Span} {cells : Bytes}
    (hspan : r.span cells.length = .ok span) (h : (unread p).length < span.length) :
    ∃ p', fill r (p, cells) = .error (.ended (ending p)) (p', cells) ∧ unread p' = [] := by
  obtain ⟨p', hpull, hrest⟩ := pull_of_lt span.length p h
  refine ⟨p', fillRange_error hspan ?_, hrest⟩
  rw [EStateM.adaptExcept, hpull]

theorem fillFrame_nil (h : unread p = []) :
    ∃ p', fillFrame w (p, List.replicate w.maxLength 0) =
        .error (.ended (ending p)) (p', List.replicate w.maxLength 0) ∧ unread p' = [] := by
  have hlen : (unread p).length < (Span.mk 0 1).length := by
    rw [h]
    exact Nat.zero_lt_one
  obtain ⟨p', hfill, hrest⟩ := fill_error (span_upTo_cells w.one_le_maxLength) hlen
  exact ⟨p', bind_error hfill _, hrest⟩

/-- The first fill takes the lead byte and nothing else. -/
theorem fillFrame_cons {b : UInt8} {bs : Bytes} (h : unread p = b :: bs) :
    ∃ p', fillFrame w (p, List.replicate w.maxLength 0) =
        (do
          if w.maxLength < (Lead.ofByte b).length then throw (.format .tooWide)
          if 1 < (Lead.ofByte b).length then fill (.between 1 (Lead.ofByte b).length)
          return Lead.ofByte b : EStateM (DecodeError φ ε) (π × Bytes) Lead)
        (p', b :: List.replicate w.bytes 0) ∧
      unread p' = bs ∧ ending p' = ending p := by
  have hlen : (Span.mk 0 1).length ≤ (unread p).length := by
    rw [h]
    exact Nat.le_add_left 1 _
  obtain ⟨p', hfill, hrest, hend⟩ := fill_ok (span_upTo_cells w.one_le_maxLength) hlen
  refine ⟨p', ?_, by rw [hrest, h]; rfl, hend⟩
  have hcells : Span.splice ⟨0, 1⟩ (List.replicate w.maxLength 0) [b] =
      b :: List.replicate w.bytes 0 := by
    simp [Span.splice, Width.maxLength]
  have htake : (unread p).take (Span.mk 0 1).length = [b] := by rw [h]; rfl
  rw [fillFrame, bind_ok hfill, get_bind, htake, hcells]
  rfl

theorem fillFrame_wide {b : UInt8} {bs : Bytes} (h : unread p = b :: bs)
    (hwide : w.maxLength < (Lead.ofByte b).length) :
    ∃ p', fillFrame w (p, List.replicate w.maxLength 0) =
        .error (.format .tooWide) (p', b :: List.replicate w.bytes 0) ∧
      unread p' = bs ∧ ending p' = ending p := by
  obtain ⟨p', hrun, hrest⟩ := fillFrame_cons (w := w) h
  refine ⟨p', ?_, hrest⟩
  rw [hrun, if_pos hwide]
  rfl

theorem span_behind_lead {n : Nat} (h : 1 ≤ n) (hfit : n ≤ w.maxLength) (b : UInt8) :
    (Range.between 1 n).span (b :: List.replicate w.bytes 0).length = .ok ⟨1, n⟩ := by
  rw [Width.maxLength] at hfit
  rw [Range.span_between, List.length_cons, List.length_replicate, if_pos ⟨h, by omega⟩]

theorem fillFrame_cut {b : UInt8} {bs : Bytes} (h : unread p = b :: bs)
    (hfit : (Lead.ofByte b).length ≤ w.maxLength)
    (hcut : bs.length + 1 < (Lead.ofByte b).length) :
    ∃ p', fillFrame w (p, List.replicate w.maxLength 0) =
        .error (.ended (ending p)) (p', b :: List.replicate w.bytes 0) ∧ unread p' = [] := by
  obtain ⟨p₁, hrun, hrest, hend⟩ := fillFrame_cons (w := w) h
  have hlen : (unread p₁).length < (Span.mk 1 (Lead.ofByte b).length).length := by
    rw [hrest]
    exact Nat.lt_sub_of_add_lt hcut
  obtain ⟨p', hfill, hrest'⟩ := fill_error (span_behind_lead (Lead.length_pos _) hfit b) hlen
  refine ⟨p', ?_, hrest'⟩
  rw [hrun, if_neg (Nat.not_lt.mpr hfit), if_pos (by omega), ← hend]
  exact bind_error hfill _

theorem fillFrame_whole {b : UInt8} {bs : Bytes} (h : unread p = b :: bs)
    (hfit : (Lead.ofByte b).length ≤ w.maxLength)
    (hle : (Lead.ofByte b).length ≤ bs.length + 1) :
    ∃ p', fillFrame w (p, List.replicate w.maxLength 0) =
        .ok (Lead.ofByte b) (p', (b :: bs).take (Lead.ofByte b).length ++
          List.replicate (w.maxLength - (Lead.ofByte b).length) 0) ∧
      unread p' = (b :: bs).drop (Lead.ofByte b).length ∧ ending p' = ending p := by
  obtain ⟨p₁, hrun, hrest, hend⟩ := fillFrame_cons (w := w) h
  have hpos := (Lead.ofByte b).length_pos
  rw [hrun, if_neg (Nat.not_lt.mpr hfit)]
  by_cases hone : 1 < (Lead.ofByte b).length
  · have hlen : (Span.mk 1 (Lead.ofByte b).length).length ≤ (unread p₁).length := by
      rw [hrest]
      exact Nat.sub_le_of_le_add hle
    obtain ⟨p', hfill, hrest', hend'⟩ := fill_ok (span_behind_lead hpos hfit b) hlen
    rw [hrest] at hfill hrest'
    refine ⟨p', ?_, ?_, hend'.trans hend⟩
    · rw [if_pos hone]
      refine (bind_ok hfill _).trans ?_
      simp only [Span.splice, Span.length, Lead.length, Width.maxLength, Nat.add_comm 1,
        Nat.add_sub_cancel, Nat.add_sub_add_right, List.take_succ_cons, List.drop_succ_cons,
        List.drop_replicate]
      rfl
    · rw [hrest', Span.length, List.drop_cons hpos]
  · have hlen : (Lead.ofByte b).length = 1 := by omega
    refine ⟨p₁, ?_, by rw [hrest, hlen]; rfl, hend⟩
    rw [if_neg hone, hlen, Width.maxLength, Nat.add_sub_cancel_left]
    rfl

/-- What both fills come to, with the cells as they leave them. -/
theorem frame_run (w : Width) (p : π) : ∃ p', match opening w (unread p) with
    | .blank => frame w p = .error (.ended (ending p)) p' ∧ unread p' = []
    | .wide _ => frame w p = .error (.format .tooWide) p' ∧
        unread p' = (unread p).drop 1 ∧ ending p' = ending p
    | .cut _ _ => frame w p = .error (.ended (ending p)) p' ∧ unread p' = []
    | .whole l v => frame w p = .ok
          (v, l, (unread p).take l.length ++ List.replicate (w.maxLength - l.length) 0) p' ∧
        unread p' = (unread p).drop l.length ∧ ending p' = ending p := by
  cases hunread : unread p with
  | nil =>
      obtain ⟨p', hfill, hrest⟩ := fillFrame_nil (w := w) hunread
      exact ⟨p', bind_error (withBuffer_error hfill) _, hrest⟩
  | cons b bs =>
      rcases opening_cons_cases w b bs with
        ⟨hwide, hopen⟩ | ⟨hfit, hcut, hopen⟩ | ⟨hfit, hle, hopen⟩
      · obtain ⟨p', hfill, hrest⟩ := fillFrame_wide hunread hwide
        rw [hopen]
        exact ⟨p', bind_error (withBuffer_error hfill) _, hrest⟩
      · obtain ⟨p', hfill, hrest⟩ := fillFrame_cut hunread hfit hcut
        rw [hopen]
        exact ⟨p', bind_error (withBuffer_error hfill) _, hrest⟩
      · obtain ⟨p', hfill, hrest⟩ := fillFrame_whole hunread hfit hle
        rw [hopen]
        refine ⟨p', ?_, hrest⟩
        rw [frame, bind_ok (withBuffer_ok hfill)]
        change (checked ((Range.between 1 (Lead.ofByte b).length).slice _) >>= _) _ = _
        rw [Lead.slice_magnitude hle, checked_bind_ok, Lead.decode_take w hle]
        rfl

theorem opening_of_frame_ok {v : Signed w} {l : Lead} {cells : Bytes} {p' : π}
    (h : frame w p = .ok (v, l, cells) p') :
    opening w (unread p) = .whole l v ∧
      cells = (unread p).take l.length ++ List.replicate (w.maxLength - l.length) 0 ∧
      unread p' = (unread p).drop l.length := by
  obtain ⟨p₁, hrun⟩ := frame_run w p
  cases hopen : opening w (unread p) with
  | whole l₁ v₁ =>
      rw [hopen, h] at hrun
      obtain ⟨hframe, hrest, -⟩ := hrun
      cases hframe
      exact ⟨rfl, rfl, hrest⟩
  | _ =>
      rw [hopen, h] at hrun
      cases hrun.1

theorem decode_run (w : Width) (p : π) : ∃ p', match opening w (unread p) with
    | .blank => decode w p = .error (.ended (ending p)) p' ∧ unread p' = []
    | .wide _ => decode w p = .error (.format .tooWide) p' ∧
        unread p' = (unread p).drop 1 ∧ ending p' = ending p
    | .cut _ _ => decode w p = .error (.ended (ending p)) p' ∧ unread p' = []
    | .whole l v => decode w p = .ok v p' ∧
        unread p' = (unread p).drop l.length ∧ ending p' = ending p := by
  obtain ⟨p', h⟩ := frame_run w p
  refine ⟨p', ?_⟩
  cases hopen : opening w (unread p) with
  | blank => rw [hopen] at h; exact ⟨bind_error h.1 _, h.2⟩
  | wide l => rw [hopen] at h; exact ⟨bind_error h.1 _, h.2⟩
  | cut l n => rw [hopen] at h; exact ⟨bind_error h.1 _, h.2⟩
  | whole l v => rw [hopen] at h; exact ⟨bind_ok h.1 _, h.2⟩

end Transfer

end SortKey
