import SortKey.Proofs.Amendments

/-!
# Patches of a buffer

A patch puts four bytes over those at an offset and touches nothing else. So of the patches that
reach a place the last one says which byte is there, and if there is none the byte is as it was
written. Steps that append do not see whether a patch was made before them.
-/

namespace SortKey.Stream

/-- The buffer with a 32-bit field over the four bytes at an offset. -/
def patched (o : Nat) (x : Int32) (buf : Bytes) : Bytes :=
  (Span.mk o (o + 4)).splice buf (Field.int32 x).bytes

section Patched

variable {o o' : Nat} {x x' : Int32} {buf : Bytes}

theorem Output.exists_patched {γ : Type} [BufMut γ] [LawfulBufMut γ] {b : γ} (x : Int32)
    (h : o + 4 ≤ (BufMut.content b).length) (hend : o + 4 < indexLimit) :
    ∃ b', patch o x b = .ok () b' ∧ BufMut.content b' = patched o x (BufMut.content b) :=
  (seenAs_patch o x).exists_ok (patch_ok x h hend)

theorem length_patched (h : o + 4 ≤ buf.length) : (patched o x buf).length = buf.length :=
  Span.length_splice rfl h

theorem getElem?_patched (h : o + 4 ≤ buf.length) (i : Nat) :
    (patched o x buf)[i]? =
      if o ≤ i ∧ i < o + 4 then (Field.int32 x).bytes[i - o]? else buf[i]? :=
  Span.getElem?_splice rfl h i

theorem drop_patched (h : o + 4 ≤ buf.length) :
    (patched o x buf).drop o = (Field.int32 x).bytes ++ buf.drop (o + 4) :=
  Span.drop_splice (s := ⟨o, o + 4⟩) (Nat.le_trans (Nat.le_add_right o 4) h)

theorem patched_append (h : o + 4 ≤ buf.length) (back : Bytes) :
    patched o x (buf ++ back) = patched o x buf ++ back :=
  Span.splice_append_right (Nat.le_add_right o 4) h back

theorem patched_patched_self (h : o + 4 ≤ buf.length) :
    patched o x' (patched o x buf) = patched o x' buf := by
  apply List.ext_getElem?
  intro i
  rw [getElem?_patched (by rwa [length_patched h]), getElem?_patched h, getElem?_patched h]
  by_cases hi : o ≤ i ∧ i < o + 4
  · rw [if_pos hi, if_pos hi]
  · rw [if_neg hi, if_neg hi, if_neg hi]

theorem patched_comm (h : o + 4 ≤ buf.length) (h' : o' + 4 ≤ buf.length)
    (hapart : o + 4 ≤ o' ∨ o' + 4 ≤ o) :
    patched o' x' (patched o x buf) = patched o x (patched o' x' buf) := by
  apply List.ext_getElem?
  intro i
  rw [getElem?_patched (by rwa [length_patched h]), getElem?_patched h,
    getElem?_patched (by rwa [length_patched h']), getElem?_patched h']
  by_cases hi : o ≤ i ∧ i < o + 4
  · have hi' : ¬ (o' ≤ i ∧ i < o' + 4) := by omega
    rw [if_pos hi, if_neg hi', if_pos hi]
  · rw [if_neg hi, if_neg hi]

end Patched

namespace WriteStep

/-- The byte that a step puts over the one at a place, if it patches there. -/
def cover (i : Nat) : WriteStep → Option UInt8
  | patch o x => if o ≤ i ∧ i < o + 4 then (Field.int32 x).bytes[i - o]? else none
  | _ => none

theorem cover_patch_or {o i : Nat} {x : Int32} (y : Option UInt8) :
    ((patch o x).cover i).or y =
      if o ≤ i ∧ i < o + 4 then (Field.int32 x).bytes[i - o]? else y := by
  rw [cover]
  by_cases hi : o ≤ i ∧ i < o + 4
  · have hlt : i - o < (Field.int32 x).bytes.length := Nat.sub_lt_left_of_lt_add hi.1 hi.2
    rw [if_pos hi, if_pos hi, List.getElem?_eq_getElem hlt]
    rfl
  · rw [if_neg hi, if_neg hi]
    rfl

theorem cover_of_not_patch {step : WriteStep} (h : ∀ o x, step ≠ .patch o x) (i : Nat) :
    step.cover i = none := by
  cases step with
  | patch o x => exact absurd rfl (h o x)
  | _ => rfl

/-- What a step covers is as it says. The rest is as it was or is appended, with anything behind. -/
theorem getElem?_of_perform {step : WriteStep} {a : Option Nat} {buf buf' : Bytes}
    (h : step.perform buf = .ok a buf') (back : Bytes) (i : Nat) :
    (buf' ++ back)[i]? = (step.cover i).or ((buf ++ layout step.pushes.toList ++ back)[i]?) := by
  have hrun : step.run buf = (.ok a, buf') := outcome_ok h
  by_cases hpatch : ∃ o x, step = .patch o x
  · obtain ⟨o, x, rfl⟩ := hpatch
    obtain ⟨⟨⟩, _, hpatch, -⟩ := exists_of_bind_eq_ok h
    obtain ⟨hroom, hend⟩ : o + 4 ≤ buf.length ∧ o + 4 < indexLimit := Output.fits_of_patch hpatch
    have hback : o + 4 ≤ (buf ++ back).length := by
      rw [List.length_append]
      omega
    have hbuf : buf' = patched o x buf := by
      rw [run_patch_ok x hroom hend, amend, Nat.zero_add] at hrun
      exact (Prod.mk.inj hrun).2.symm
    have hpush : buf ++ layout (patch o x).pushes.toList = buf := List.append_nil buf
    rw [hbuf, ← patched_append hroom, getElem?_patched hback, cover_patch_or, hpush]
  · have hnot : ∀ o x, step ≠ .patch o x := fun o x hstep => hpatch ⟨o, x, hstep⟩
    rw [cover_of_not_patch hnot, Option.none_or, ← run_of_not_patch hnot, hrun]

/-- A step that appends does the same to a patched buffer, with the same answer. -/
theorem run_patched {step : WriteStep} (h : ∀ o x, step ≠ .patch o x) {o : Nat} (x : Int32)
    {buf : Bytes} (hroom : o + 4 ≤ buf.length) :
    step.run (patched o x buf) = (step.run buf).map id (patched o x) := by
  cases step with
  | offset =>
      rw [run_offset, run_offset, length_patched hroom]
      rfl
  | field f =>
      rw [run_field, run_field, ← patched_append hroom]
      rfl
  | bytes src r =>
      cases hslice : r.slice src with
      | ok bs =>
          rw [run_bytes_ok hslice, run_bytes_ok hslice, ← patched_append hroom]
          rfl
      | error v =>
          rw [run_bytes_error hslice, run_bytes_error hslice]
          rfl
  | patch o' x' => exact absurd rfl (h o' x')

end WriteStep

/-- The byte that the last of some steps to cover a place puts there. -/
def lastCover (i : Nat) (steps : List WriteStep) : Option UInt8 :=
  (steps.filterMap (WriteStep.cover i)).getLast?

theorem lastCover_cons (i : Nat) (step : WriteStep) (steps : List WriteStep) :
    lastCover i (step :: steps) = (lastCover i steps).or (step.cover i) := by
  unfold lastCover
  cases hstep : step.cover i with
  | none => simp [hstep]
  | some b => simp [hstep, List.getLast?_cons]

theorem layout_pushes_cons (step : WriteStep) (steps : List WriteStep) :
    layout ((step :: steps).filterMap WriteStep.pushes) =
      layout step.pushes.toList ++ layout (steps.filterMap WriteStep.pushes) := by
  rw [← layout_append, List.filterMap_cons]
  cases step.pushes <;> rfl

/-- Whatever is written and patched in a run, in any order, a byte in the end is that of the last
patch over it, or else the one that was there or was appended. -/
theorem getElem?_of_mapM_perform {steps : List WriteStep} {as : List (Option Nat)}
    {buf buf' : Bytes} (h : steps.mapM WriteStep.perform buf = .ok as buf') (i : Nat) :
    buf'[i]? = (lastCover i steps).or ((buf ++ layout (steps.filterMap WriteStep.pushes))[i]?) := by
  induction steps generalizing as buf with
  | nil =>
      injection h with _ hbuf
      rw [← hbuf]
      exact congrArg (fun bs : Bytes => bs[i]?) (List.append_nil buf).symm
  | cons step steps ih =>
      -- What the later steps append stands behind all that the first one can patch.
      rw [List.mapM_cons] at h
      obtain ⟨a, s, hstep, h⟩ := exists_of_bind_eq_ok h
      obtain ⟨as', s', hsteps, hreturn⟩ := exists_of_bind_eq_ok h
      injection hreturn with _ hbuf
      rw [hbuf] at hsteps
      rw [ih hsteps, WriteStep.getElem?_of_perform hstep, lastCover_cons, Option.or_assoc,
        layout_pushes_cons, List.append_assoc]

/-- Steps that append do the same to a patched buffer, with the same answers. -/
theorem after_patched {appends : List WriteStep}
    (h : ∀ step ∈ appends, ∀ o x, step ≠ .patch o x) {o : Nat} (x : Int32) {buf : Bytes}
    (hroom : o + 4 ≤ buf.length) :
    o + 4 ≤ (after WriteStep.run appends buf).length ∧
      after WriteStep.run appends (patched o x buf) =
        patched o x (after WriteStep.run appends buf) ∧
      (traceAll WriteStep.run appends (patched o x buf)).map Prod.fst =
        (traceAll WriteStep.run appends buf).map Prod.fst := by
  apply after_intertwined (P := fun s : Bytes => o + 4 ≤ s.length) _ hroom
  intro step hstep s hs
  refine ⟨?_, WriteStep.run_patched (h step hstep) x hs⟩
  rw [WriteStep.run_of_not_patch (h step hstep), List.length_append]
  exact Nat.le_trans hs (Nat.le_add_right _ _)

/-- A patch that is not within the buffer changes nothing, whether or not its end is an index. One
that is can be read where it was made and touches no other byte, and it can as well be made after
any steps that append. Where a second patch overlaps it the second one counts, so that of two at one
offset only the second is left, and two that do not overlap can be made in either order. With any
number of patches and appended items, a byte is that of the last patch over it, or else the one that
was written there. -/
theorem backpatch_laws {γ : Type} [BufMut γ] [LawfulBufMut γ] (o : Nat) (x : Int32) (b : γ)
    (hsize : (BufMut.content b).length < indexLimit) :
    ((BufMut.content b).length < o + 4 → Output.patch o x b =
      .error (.patchOutOfRange o (BufMut.content b).length) b) ∧
    (o + 4 ≤ (BufMut.content b).length → ∃ once, Output.patch o x b = .ok () once ∧
      (BufMut.content once).length = (BufMut.content b).length ∧
      (∀ (β : Type) [Buf β] [LawfulBuf β] (r : β),
        LawfulBuf.view r = (BufMut.content once).drop o →
        ∃ r', Input.field .int32 r = .ok (.int32 x) r' ∧
          LawfulBuf.view r' = (BufMut.content b).drop (o + 4)) ∧
      (∀ i, i < o ∨ o + 4 ≤ i → (BufMut.content once)[i]? = (BufMut.content b)[i]?) ∧
      (∀ o' x', o' + 4 ≤ (BufMut.content b).length → ∃ twice,
        Output.patch o' x' once = .ok () twice ∧
        (∀ i, (BufMut.content twice)[i]? =
          if o' ≤ i ∧ i < o' + 4 then (Field.int32 x').bytes[i - o']?
          else if o ≤ i ∧ i < o + 4 then (Field.int32 x).bytes[i - o]?
          else (BufMut.content b)[i]?) ∧
        (o' = o → ∃ only, Output.patch o x' b = .ok () only ∧
          BufMut.content only = BufMut.content twice) ∧
        (o + 4 ≤ o' ∨ o' + 4 ≤ o → ∃ other swapped, Output.patch o' x' b = .ok () other ∧
          Output.patch o x other = .ok () swapped ∧
          BufMut.content swapped = BufMut.content twice)) ∧
      ∀ appends : List WriteStep, (∀ step ∈ appends, ∀ start y, step ≠ .patch start y) →
        (traceAll WriteStep.run appends once).map Prod.fst =
            (traceAll WriteStep.run appends b).map Prod.fst ∧
          ∃ later, Output.patch o x (after WriteStep.run appends b) = .ok () later ∧
            BufMut.content later = BufMut.content (after WriteStep.run appends once)) ∧
    ∀ (steps : List WriteStep) (as : List (Option Nat)) (b' : γ),
      steps.mapM WriteStep.perform b = .ok as b' →
      ∀ i, (BufMut.content b')[i]? = (lastCover i steps).or
        ((BufMut.content b ++ layout (steps.filterMap WriteStep.pushes))[i]?) := by
  refine ⟨fun h => Output.patch_error x fun _ => h, ?_, ?_⟩
  · intro h
    obtain ⟨once, honce, hheld⟩ := Output.exists_patched x h (Nat.lt_of_le_of_lt h hsize)
    have hlen : (BufMut.content once).length = (BufMut.content b).length := by
      rw [hheld, length_patched h]
    refine ⟨once, honce, hlen, ?_, ?_, ?_, ?_⟩
    · intro β _ _ r hview
      rw [hheld, drop_patched h] at hview
      exact Input.field_bytes_append hview
    · intro i hi
      rw [hheld, getElem?_patched h, if_neg (by omega)]
    · intro o' x' h'
      have hend' := Nat.lt_of_le_of_lt h' hsize
      obtain ⟨twice, htwice, hboth⟩ := Output.exists_patched (b := once) x' (by rwa [hlen]) hend'
      rw [hheld] at hboth
      refine ⟨twice, htwice, ?_, ?_, ?_⟩
      · intro i
        rw [hboth, getElem?_patched (by rwa [length_patched h]), getElem?_patched h]
      · rintro rfl
        obtain ⟨only, honly, hlast⟩ := Output.exists_patched x' h' hend'
        exact ⟨only, honly, by rw [hlast, hboth, patched_patched_self h]⟩
      · intro hapart
        obtain ⟨other, hother, hfirst⟩ := Output.exists_patched x' h' hend'
        obtain ⟨swapped, hswapped, hlast⟩ := Output.exists_patched (b := other) x
          (by rwa [hfirst, length_patched h']) (Nat.lt_of_le_of_lt h hsize)
        refine ⟨other, swapped, hother, hswapped, ?_⟩
        rw [hlast, hfirst, hboth, patched_comm h h' hapart]
    · intro appends happends
      obtain ⟨hroom, hafter, hanswers⟩ := after_patched happends x h
      rw [← hheld, map_fst_traceAll WriteStep.run_content,
        map_fst_traceAll WriteStep.run_content] at hanswers
      rw [← hheld, after_map WriteStep.run_content, after_map WriteStep.run_content] at hafter
      rw [after_map WriteStep.run_content] at hroom
      obtain ⟨later, hlater, hlast⟩ :=
        Output.exists_patched x hroom (Nat.lt_of_le_of_lt h hsize)
      exact ⟨hanswers, later, hlater, hlast.trans hafter.symm⟩
  · intro steps as b' hrun i
    exact getElem?_of_mapM_perform ((SeenAs.mapM WriteStep.seenAs_perform steps).ok hrun) i

/-- Two patches overlap by two bytes, with a byte appended between them, and at the greatest offset
that an index can hold a patch changes nothing. -/
theorem overlapping_patches :
    (∃ once twice later : Bytes,
      Output.patch 1 0x01020304 ([0, 0, 0, 0, 0, 0, 0] : Bytes) = .ok () once ∧
      Output.patch 3 0x05060708 once = .ok () twice ∧ twice[3]? = some 5 ∧
      twice[2]? = some 2 ∧ twice[0]? = some 0 ∧
      Output.patch 1 0x01020304 ([0, 0, 0, 0, 0, 0, 0, 9] : Bytes) = .ok () later ∧
      later = once ++ [9]) ∧
      Output.patch (indexLimit - 1) 7 ([1, 2, 3, 4] : Bytes) =
        .error (.patchOutOfRange (indexLimit - 1) 4) [1, 2, 3, 4] := by
  obtain ⟨-, hlaws, -⟩ := backpatch_laws 1 0x01020304 ([0, 0, 0, 0, 0, 0, 0] : Bytes) (by decide)
  obtain ⟨once, honce, -, -, -, hsecond, happends⟩ := hlaws (by decide)
  obtain ⟨twice, htwice, hbytes, -, -⟩ := hsecond 3 0x05060708 (by decide)
  obtain ⟨-, later, hlater, hsame⟩ := happends [.field (.byte 9)] (by simp)
  obtain ⟨hfar, -, -⟩ := backpatch_laws (indexLimit - 1) 7 ([1, 2, 3, 4] : Bytes) (by decide)
  exact ⟨⟨once, twice, later, honce, htwice, hbytes 3, hbytes 2, hbytes 0, hlater, hsame⟩,
    hfar (by decide)⟩

end SortKey.Stream
