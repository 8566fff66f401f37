import SortKey.Proofs.Canonic

/-!
# What decoding takes from a producer

A step takes the lead byte first. A lead that is too wide ends it there; otherwise it takes what the
lead announces and never a byte more, or all there is if that is less. Step by step a run takes its
pieces off the front of what the producer delivers, also where it goes on in the middle of bytes
that were refused, and only the end of the producer ends it early.
-/

namespace SortKey.Transfer

variable {π φ ε : Type}

/-- How a step may answer where the unread bytes are those given, and how many of them it takes, for
a producer that ends with `e`. -/
inductive DecodeStep.Takes (step : DecodeStep) (e : Ending φ ε) :
    Bytes → Except (DecodeError φ ε) Component → Nat → Prop
  | blank : Takes step e [] (.error (.ended e)) 0
  | wide {b : UInt8} {bs : Bytes} (h : step.width.bytes < (Lead.ofByte b).count) :
      Takes step e (b :: bs) (.error (.format .tooWide)) 1
  | cut {b : UInt8} {bs : Bytes} (h : (Lead.ofByte b).count ≤ step.width.bytes)
      (h' : (b :: bs).length < (Lead.ofByte b).length) :
      Takes step e (b :: bs) (.error (.ended e)) (b :: bs).length
  | value {b : UInt8} {bs : Bytes} (h : (Lead.ofByte b).count ≤ step.width.bytes)
      (h' : (Lead.ofByte b).length ≤ (b :: bs).length) :
      Takes step e (b :: bs)
        (.ok ⟨step.width, (Lead.ofByte b).assemble step.width (bs.take (Lead.ofByte b).count)⟩)
        (Lead.ofByte b).length
  | refused {b : UInt8} {bs : Bytes} (h : (Lead.ofByte b).count ≤ step.width.bytes)
      (h' : (Lead.ofByte b).length ≤ (b :: bs).length) (hcanonic : step.canonic = true) :
      Takes step e (b :: bs) (.error (.format .notMinimal)) (Lead.ofByte b).length

variable [Producer π φ ε] [LawfulProducer π φ ε]

open LawfulProducer

namespace DecodeStep

/-- One step of a run takes a piece off the front. Unless it reports the end of the producer, that
end is still to come. -/
theorem perform_takes (step : DecodeStep) (p : π) :
    ∃ r p' piece, outcome step.perform p = (r, p') ∧ unread p = piece ++ unread p' ∧
      step.Takes (ending p) (unread p) r piece.length ∧
      (isLast r = false ∧ ending p' = ending p ∨
        r = .error (.ended (ending p)) ∧ unread p' = []) := by
  obtain ⟨p', hrun⟩ := decode_run step.width p
  cases hunread : unread p with
  | nil =>
      rw [hunread, opening_nil] at hrun
      exact ⟨_, p', [], outcome_error (perform_of_decode_error hrun.1), hrun.2.symm, .blank,
        Or.inr ⟨rfl, hrun.2⟩⟩
  | cons b bs =>
      rw [hunread] at hrun
      rcases opening_cons_cases step.width b bs with
        ⟨hwide, hopen⟩ | ⟨hfit, hcut, hopen⟩ | ⟨hfit, hle, hopen⟩
      · rw [hopen] at hrun
        obtain ⟨hdecode, hrest, hend⟩ := hrun
        have hsplit : b :: bs = [b] ++ unread p' := by
          rw [hrest]
          rfl
        exact ⟨_, p', [b], outcome_error (perform_of_decode_error hdecode), hsplit,
          .wide (Lead.maxLength_lt_length_iff.mp hwide), Or.inl ⟨rfl, hend⟩⟩
      · rw [hopen] at hrun
        have hsplit : b :: bs = (b :: bs) ++ unread p' := by rw [hrun.2, List.append_nil]
        exact ⟨_, p', b :: bs, outcome_error (perform_of_decode_error hrun.1), hsplit,
          .cut (Lead.length_le_maxLength_iff.mp hfit) hcut, Or.inr ⟨rfl, hrun.2⟩⟩
      · rw [hopen] at hrun
        obtain ⟨hdecode, hrest, hend⟩ := hrun
        have hcount := Lead.length_le_maxLength_iff.mp hfit
        have hpiece : ((b :: bs).take (Lead.ofByte b).length).length = (Lead.ofByte b).length :=
          List.length_take_of_le hle
        have hsplit : b :: bs = (b :: bs).take (Lead.ofByte b).length ++ unread p' := by
          rw [hrest, List.take_append_drop]
        rcases perform_of_decode_ok hdecode with hok | ⟨hcanonic, hrefused⟩
        · refine ⟨_, p', _, outcome_ok hok, hsplit, ?_, Or.inl ⟨rfl, hend⟩⟩
          rw [hpiece]
          exact .value hcount hle
        · refine ⟨_, p', _, outcome_error hrefused, hsplit, ?_, Or.inl ⟨rfl, hend⟩⟩
          rw [hpiece]
          exact .refused hcount hle hcanonic

omit [LawfulProducer π φ ε] in
theorem runAll_cons {step : DecodeStep} {p p' : π} {r : Except (DecodeError φ ε) Component}
    (h : outcome step.perform p = (r, p')) (steps : List DecodeStep) :
    runAll (step :: steps) p = (r, p') :: if isLast r then [] else runAll steps p' := by
  rw [runAll, trace, h]

/-- A run ends with its steps or with the end of the producer. -/
theorem runAll_ends (steps : List DecodeStep) (p : π) :
    (runAll steps p).length = steps.length ∨
      ∃ p', (runAll steps p).getLast? = some (.error (.ended (ending p)), p') ∧ unread p' = [] := by
  induction steps generalizing p with
  | nil => exact Or.inl rfl
  | cons step steps ih =>
      obtain ⟨r, p', piece, hrun, -, -, hend⟩ := step.perform_takes p
      rw [runAll_cons hrun]
      rcases hend with ⟨hmore, hsame⟩ | ⟨rfl, hnil⟩
      · rw [if_neg (Bool.eq_false_iff.mp hmore), List.length_cons, List.length_cons]
        rcases ih p' with hlen | ⟨q, hlast, hq⟩
        · exact Or.inl (congrArg (· + 1) hlen)
        · refine Or.inr ⟨q, ?_, hq⟩
          rw [List.getLast?_cons, hlast, hsame, Option.getD_some]
      · exact Or.inr ⟨p', rfl, hnil⟩

end DecodeStep

/-- A run takes one piece after another off the front, each as long as its step takes from the bytes
it finds, and ends with its steps or with the end of the producer. -/
theorem runs_take_pieces (steps : List DecodeStep) (p : π) :
    ((DecodeStep.runAll steps p).length = steps.length ∨
      ∃ p', (DecodeStep.runAll steps p).getLast? = some (.error (.ended (ending p)), p') ∧
        unread p' = []) ∧
    ∃ pieces : List Bytes, pieces.length = (DecodeStep.runAll steps p).length ∧
      ∀ i step q r p', steps[i]? = some step →
        (p :: (DecodeStep.runAll steps p).map Prod.snd)[i]? = some q →
        (DecodeStep.runAll steps p)[i]? = some (r, p') →
        ∃ piece, pieces[i]? = some piece ∧ unread p = (pieces.take i).flatten ++ unread q ∧
          unread q = piece ++ unread p' ∧ step.Takes (ending p) (unread q) r piece.length := by
  refine ⟨DecodeStep.runAll_ends steps p, ?_⟩
  induction steps generalizing p with
  | nil => exact ⟨[], rfl, nofun⟩
  | cons step steps ih =>
      obtain ⟨r, p', piece, hrun, hsplit, htakes, hend⟩ := step.perform_takes p
      rw [DecodeStep.runAll_cons hrun]
      rcases hend with ⟨hmore, hsame⟩ | ⟨rfl, -⟩
      · obtain ⟨pieces, hlen, hpieces⟩ := ih p'
        rw [if_neg (Bool.eq_false_iff.mp hmore)]
        refine ⟨piece :: pieces, congrArg (· + 1) hlen, ?_⟩
        intro i step' q r' q' hstep hq hr
        cases i with
        | zero =>
            cases hstep
            cases hq
            cases hr
            exact ⟨piece, rfl, rfl, hsplit, htakes⟩
        | succ i =>
            obtain ⟨piece', hpiece, hfront, hsplit', htakes'⟩ := hpieces i step' q r' q' hstep hq hr
            refine ⟨piece', hpiece, ?_, hsplit', hsame ▸ htakes'⟩
            rw [List.take_succ_cons, List.flatten_cons, List.append_assoc, ← hfront, hsplit]
      · refine ⟨[piece], rfl, ?_⟩
        intro i step' q r' q' hstep hq hr
        cases i with
        | zero =>
            cases hstep
            cases hq
            cases hr
            exact ⟨piece, rfl, rfl, hsplit, htakes⟩
        | succ i => cases hr

/-- The lead of the first byte is too wide; the decoding that follows finds a padded encoding behind
it and takes all of it, up to a lead that is cut off. -/
theorem padded_frame_taken :
    ∃ pieces : List Bytes, pieces.length = 3 ∧ ∃ piece, pieces[1]? = some piece ∧
      [0x00, 0xF9, 0x00, 0x05, 0xF8] = (pieces.take 1).flatten ++ [0xF9, 0x00, 0x05, 0xF8] ∧
      [0xF9, 0x00, 0x05, 0xF8] = piece ++ [0xF8] ∧
      DecodeStep.Takes ⟨.w32, true⟩ (.final 7 : Ending) [0xF9, 0x00, 0x05, 0xF8]
        (.error (.format .notMinimal)) piece.length := by
  obtain ⟨-, pieces, hlen, h⟩ := runs_take_pieces [⟨.w32, false⟩, ⟨.w32, true⟩, ⟨.w64, false⟩]
    (⟨[0x00, 0xF9, 0x00, 0x05, 0xF8], .final 7⟩ : Source)
  exact ⟨pieces, hlen, h 1 _ _ _ _ rfl rfl rfl⟩

end SortKey.Transfer
