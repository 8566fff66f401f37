import SortKey.Proofs.Consumption
import SortKey.Proofs.Cuts
import SortKey.Transfer.Sink

/-!
# Encoding where room is short

A consumer with room for so many bytes ends up with as many from the front of the key, wherever that
cuts an encoding. The steps that succeed are those whose encodings fit as a whole, and decoding what
was accepted returns their values and no other.
-/

namespace SortKey

namespace Key

/-- A key that is cut off twice, behind a component and behind a byte, is cut off behind whichever
comes first. -/
theorem take_encode_take (k n : Nat) (cs : List Component) :
    (encode (cs.take n)).take k =
      (encode cs).take (min k ((cs.map fun c => c.encode.length).take n).sum) := by
  rw [← List.map_take, ← length_encode, ← List.take_take,
    ← List.prefix_iff_eq_take.mp (encode_take_isPrefix n cs)]

/-- A component fits if the key that ends with it does. -/
theorem lt_length_fitting_iff {k i : Nat} {cs : List Component} (hi : i < cs.length) :
    i < (fitting k cs).length ↔ (encode (cs.take (i + 1))).length ≤ k := by
  induction cs generalizing k i with
  | nil => exact absurd hi (Nat.not_lt_zero i)
  | cons c cs ih =>
      rw [List.take_succ_cons, encode_cons, List.length_append, fitting]
      by_cases hfit : c.encode.length ≤ k
      · rw [if_pos hfit, List.length_cons]
        cases i with
        | zero =>
            rw [List.take_zero, encode_nil, List.length_nil]
            omega
        | succ i =>
            have hrest := ih (k := k - c.encode.length) (Nat.lt_of_succ_lt_succ hi)
            omega
      · rw [if_neg hfit, List.length_nil]
        omega

end Key

namespace Transfer

section Encoding

variable {κ ε : Type} [Consumer κ ε]

theorem encodeAll_cons_ok {c : Component} {k k' : κ} (h : encode c k = .ok () k')
    (cs : List Component) : encodeAll (c :: cs) k = (.ok (), k') :: encodeAll cs k' := by
  rw [encodeAll, trace, outcome_ok h]
  rfl

theorem encodeAll_cons_error {c : Component} {k k' : κ} {e : EncodeError ε}
    (h : encode c k = .error e k') (cs : List Component) :
    encodeAll (c :: cs) k = [(.error e, k')] := by
  rw [encodeAll, trace, outcome_error h]
  rfl

variable [LawfulConsumer κ ε]

open LawfulConsumer

/-- One step of a run uses up room for a whole encoding, or all the room there is and ends the
run. -/
theorem encodeAll_cons_cases (c : Component) (cs : List Component) (k : κ) :
    (c.encode.length ≤ room k ∧ ∃ k', encodeAll (c :: cs) k = (.ok (), k') :: encodeAll cs k' ∧
        accepted k' = accepted k ++ c.encode ∧ room k' = room k - c.encode.length ∧
        code k' = code k) ∨
      (room k < c.encode.length ∧ ∃ k',
        encodeAll (c :: cs) k = [(.error (.refused (code k)), k')] ∧
        accepted k' = accepted k ++ c.encode.take (room k)) := by
  by_cases hfit : c.value.encode.length ≤ room k
  · obtain ⟨k', hpush, hrest⟩ := push_of_le c.value.encode k hfit
    have hrun : encode c k = .ok () k' := by
      rw [encode_eq_push, EStateM.adaptExcept, Component.encode, hpush]
    exact Or.inl ⟨hfit, k', encodeAll_cons_ok hrun cs, hrest⟩
  · have hlt := Nat.not_le.mp hfit
    obtain ⟨k', hpush, hrest⟩ := push_of_lt c.value.encode k hlt
    have hrun : encode c k = .error (.refused (code k)) k' := by
      rw [encode_eq_push, EStateM.adaptExcept, Component.encode, hpush]
    exact Or.inr ⟨hlt, k', encodeAll_cons_error hrun cs, hrest⟩

/-- A run answers for the components that fit, and ends with a refusal if those are not all. -/
theorem map_fst_encodeAll (cs : List Component) (k : κ) :
    (encodeAll cs k).map Prod.fst = (Key.fitting (room k) cs).map (fun _ => .ok ()) ++
      if (Key.encode cs).length ≤ room k then [] else [.error (.refused (code k))] := by
  induction cs generalizing k with
  | nil => rfl
  | cons c cs ih =>
      rw [Key.fitting, Key.encode_cons, List.length_append]
      rcases encodeAll_cons_cases c cs k with ⟨hfit, k', hrun, -, hroom, hcode⟩ | ⟨hlt, k', hrun, -⟩
      · have hiff : (Key.encode cs).length ≤ room k' ↔
            c.encode.length + (Key.encode cs).length ≤ room k := by omega
        rw [hrun, List.map_cons, ih, hcode, if_congr hiff rfl rfl, hroom, if_pos hfit]
        rfl
      · rw [hrun, if_neg (Nat.not_le.mpr hlt), if_neg (by omega)]
        rfl

theorem fst_getElem?_encodeAll_iff {cs : List Component} {k : κ} {i : Nat} :
    (encodeAll cs k)[i]?.map Prod.fst = some (.ok ()) ↔ i < (Key.fitting (room k) cs).length := by
  rw [← List.getElem?_map, map_fst_encodeAll, List.getElem?_append, List.length_map]
  by_cases h : i < (Key.fitting (room k) cs).length
  · rw [if_pos h]
    simp [h]
  · rw [if_neg h]
    split <;> simp [h, List.getElem?_singleton]

theorem take_countP_encodeAll (cs : List Component) (k : κ) :
    cs.take ((encodeAll cs k).countP fun x => !isFailure x.1) = Key.fitting (room k) cs := by
  have hcount : ((encodeAll cs k).countP fun x => !isFailure x.1) =
      (Key.fitting (room k) cs).length := by
    calc ((encodeAll cs k).countP fun x => !isFailure x.1)
        = ((encodeAll cs k).map Prod.fst).countP fun r => !isFailure r := by
          rw [List.countP_map]
          rfl
      _ = (Key.fitting (room k) cs).length + 0 := by
          rw [map_fst_encodeAll, List.countP_append, List.countP_map]
          congr 1
          · exact List.countP_eq_length.mpr fun _ _ => rfl
          · split <;> rfl
  rw [hcount]
  exact (List.prefix_iff_eq_take.mp (Key.fitting_isPrefix (room k) cs)).symm

/-- What is accepted by the time a step has answered is the front of the key that ends with the
step, or as much of it as there was room for. -/
theorem accepted_of_getElem? {cs : List Component} {k : κ} {i : Nat}
    {x : Except (EncodeError ε) Unit × κ} (hx : (encodeAll cs k)[i]? = some x) :
    accepted x.2 = accepted k ++ (Key.encode (cs.take (i + 1))).take (room k) := by
  induction cs generalizing k i with
  | nil => cases hx
  | cons c cs ih =>
      rw [List.take_succ_cons, Key.encode_cons, List.take_append]
      rcases encodeAll_cons_cases c cs k with
        ⟨hfit, k', hrun, haccepted, hroom, -⟩ | ⟨hlt, k', hrun, haccepted⟩
      · rw [hrun] at hx
        rw [List.take_of_length_le hfit, ← List.append_assoc, ← haccepted, ← hroom]
        cases i with
        | zero =>
            cases hx
            simp
        | succ i => exact ih hx
      · rw [hrun] at hx
        obtain ⟨rfl, rfl⟩ : i = 0 ∧ (.error (.refused (code k)), k') = x := by
          cases i with
          | zero => exact ⟨rfl, Option.some.inj hx⟩
          | succ i => cases hx
        rw [haccepted, Nat.sub_eq_zero_of_le (Nat.le_of_lt hlt), List.take_zero, List.append_nil]

/-- In the end the front of the whole key is accepted for which there was room. -/
theorem accepted_getLast? (cs : List Component) (k : κ) :
    accepted (((encodeAll cs k).getLast?.map Prod.snd).getD k) =
      accepted k ++ (Key.encode cs).take (room k) := by
  induction cs generalizing k with
  | nil =>
      rw [Key.encode_nil, List.take_nil, List.append_nil]
      rfl
  | cons c cs ih =>
      rw [Key.encode_cons, List.take_append]
      rcases encodeAll_cons_cases c cs k with
        ⟨hfit, k', hrun, haccepted, hroom, -⟩ | ⟨hlt, k', hrun, haccepted⟩
      · have hrest := ih k'
        rw [haccepted, hroom, List.append_assoc] at hrest
        rw [hrun, List.getLast?_cons, List.take_of_length_le hfit, ← hrest]
        cases (encodeAll cs k').getLast? <;> rfl
      · rw [hrun, Nat.sub_eq_zero_of_le (Nat.le_of_lt hlt), List.take_zero, List.append_nil]
        exact haccepted

end Encoding

section Decoding

variable {π φ ε : Type} [Producer π φ ε] [LawfulProducer π φ ε] {p : π}

open LawfulProducer

namespace DecodeStep

theorem runAll_encode_append {steps : List DecodeStep} {cs : List Component} {post : Bytes}
    (h : steps.map width = cs.map Component.width) (hp : unread p = Key.encode cs ++ post)
    (more : List DecodeStep) : ∃ p' : π,
      (runAll (steps ++ more) p).map Prod.fst = cs.map .ok ++ (runAll more p').map Prod.fst ∧
        unread p' = post ∧ ending p' = ending p := by
  induction cs generalizing steps p with
  | nil =>
      have hsteps : steps = [] := by simpa using h
      rw [hsteps]
      exact ⟨p, rfl, hp, rfl⟩
  | cons c cs ih =>
      cases steps with
      | nil => cases h
      | cons step steps =>
          rw [List.map_cons, List.map_cons, List.cons.injEq] at h
          rw [Key.encode_cons, List.append_assoc] at hp
          obtain ⟨p₁, hfirst, hview, hend⟩ := perform_encode_append h.1 hp
          obtain ⟨p₂, hrest, hview', hend'⟩ := ih h.2 hview
          refine ⟨p₂, ?_, hview', hend'.trans hend⟩
          rw [List.cons_append, runAll_cons (outcome_ok hfirst)]
          exact congrArg (List.cons (.ok c)) hrest

theorem runAll_of_underflow {step : DecodeStep} {u : Underflow}
    (h : (opening step.width (unread p)).result = .error (.underflow u))
    (more : List DecodeStep) :
    (runAll (step :: more) p).map Prod.fst = [.error (.ended (ending p))] := by
  obtain ⟨p', hrun, -⟩ := perform_of_underflow h
  rw [runAll_cons (outcome_error hrun)]
  rfl

/-- From the front of a key the components come back that it holds as a whole, and then the end of
the producer. -/
theorem runAll_take_encode {cs : List Component} {n : Nat} {steps : List DecodeStep}
    {last : DecodeStep} (hp : unread p = (Key.encode cs).take n)
    (hsteps : steps.map width = (Key.fitting n cs).map Component.width)
    (hlast : ∀ d ∈ cs[(Key.fitting n cs).length]?, d.width = last.width)
    (more : List DecodeStep) :
    (runAll (steps ++ last :: more) p).map Prod.fst =
      (Key.fitting n cs).map .ok ++ [.error (.ended (ending p))] := by
  obtain ⟨rest, cut, hcs, hbytes, hcut⟩ := Key.take_encode n cs
  obtain ⟨p', hrun, hrest, hend⟩ :=
    runAll_encode_append hsteps (hp.trans hbytes) (last :: more)
  have hdrop : cs.drop (Key.fitting n cs).length = rest :=
    (congrArg (List.drop (Key.fitting n cs).length) hcs).trans List.drop_left
  rw [← List.head?_drop, hdrop] at hlast
  have hopen := result_opening_cut hcut hlast
  rw [← hrest] at hopen
  rw [hrun, runAll_of_underflow hopen, hend]

end DecodeStep

end Decoding

variable {κ ε : Type} [Consumer κ ε] [LawfulConsumer κ ε]

open LawfulConsumer

/-- The steps that succeed are those up to which the lengths add up to no more than the room; the
next one is refused and ends the run. Whatever the room, the bytes accepted are the front of those
that every other way of writing produces, and decoding them returns the values of the steps that
succeeded and then the end. -/
theorem room_cuts_keys (cs : List Component) (k : κ) :
    let answers := encodeAll cs k
    let final := (answers.getLast?.map Prod.snd).getD k
    let done := cs.take (answers.countP fun x => !isFailure x.1)
    ∃ lens : List Nat, cs.mapM (fun c => c.value.stagedLength) = .ok lens ∧
      (∀ i < cs.length,
        (answers[i]?.map Prod.fst = some (.ok ()) ↔ (lens.take (i + 1)).sum ≤ room k)) ∧
      answers.map Prod.fst = done.map (fun _ => .ok ()) ++
        (if lens.sum ≤ room k then [] else [.error (.refused (code k))]) ∧
      (∀ i x, answers[i]? = some x → accepted x.2 =
        accepted k ++ (Key.encode cs).take (min (room k) (lens.take (i + 1)).sum)) ∧
      accepted final = accepted k ++ (Key.encode cs).take (min (room k) lens.sum) ∧
      Buffer.pack cs = (if (Key.encode cs).length < indexLimit then
        .ok (Key.ends 0 cs, Key.encode cs) else .error .overflow) ∧
      (∀ (γ : Type) [BufMut γ] [LawfulBufMut γ] (b : γ), BufMut.content b = [] →
        ∃ b', cs.forM Stream.Output.sorted b = .ok ⟨⟩ b' ∧
          BufMut.content b' = Key.encode cs) ∧
      ∀ (π φ ψ : Type) [Producer π φ ψ] [LawfulProducer π φ ψ] (p : π) (steps : List DecodeStep)
        (last : DecodeStep) (more : List DecodeStep),
        accepted k ++ LawfulProducer.unread p = accepted final →
        steps.map DecodeStep.width = done.map Component.width →
        (∀ c ∈ cs[done.length]?, c.width = last.width) →
        (DecodeStep.runAll (steps ++ last :: more) p).map Prod.fst =
          done.map .ok ++ [.error (.ended (LawfulProducer.ending p))] := by
  intro answers final done
  have hdone : done = Key.fitting (room k) cs := take_countP_encodeAll cs k
  refine ⟨_, Key.mapM_stagedLength cs, ?_, ?_, ?_, ?_, Buffer.pack_eq cs, ?_, ?_⟩
  · intro i hi
    rw [← List.map_take, ← Key.length_encode, ← Key.lt_length_fitting_iff hi]
    exact fst_getElem?_encodeAll_iff
  · rw [← Key.length_encode, hdone]
    exact map_fst_encodeAll cs k
  · intro i x hx
    rw [accepted_of_getElem? hx, Key.take_encode_take]
  · rw [← Key.length_encode, ← List.take_eq_take_min]
    exact accepted_getLast? cs k
  · intro γ _ _ b hempty
    obtain ⟨b', hrun, hheld⟩ := Stream.Output.forM_sorted cs b
    refine ⟨b', hrun, ?_⟩
    rw [hheld, hempty, List.nil_append]
  · intro π φ ψ _ _ p steps last more hp hsteps hlast
    have hunread := List.append_cancel_left (hp.trans (accepted_getLast? cs k))
    rw [hdone] at hsteps hlast ⊢
    exact DecodeStep.runAll_take_encode hunread hsteps hlast more

/-- There is room for the first value and for the lead byte of the second. -/
theorem second_value_refused :
    (encodeAll [⟨.w32, ⟨200⟩⟩, ⟨.w64, .ofInt .w64 (-70000)⟩] (Sink.ofRoom 3 7)).map Prod.fst =
        [.ok (), .error (.refused 7)] ∧
      (DecodeStep.runAll [⟨.w32, true⟩, ⟨.w64, false⟩, ⟨.w32, true⟩]
          (⟨[0xF8, 0x4F, 0x05], .final 0⟩ : Source)).map Prod.fst =
        [.ok ⟨.w32, ⟨200⟩⟩, .error (.ended (.final 0))] := by
  obtain ⟨lens, -, -, -, -, -, -, -, hdecode⟩ :=
    room_cuts_keys [⟨.w32, ⟨200⟩⟩, ⟨.w64, .ofInt .w64 (-70000)⟩] (Sink.ofRoom 3 (7 : Int))
  have hdone := hdecode Source Int Int ⟨[0xF8, 0x4F, 0x05], .final 0⟩ [⟨.w32, true⟩] ⟨.w64, false⟩
    [⟨.w32, true⟩] rfl rfl (by decide)
  exact ⟨rfl, hdone⟩

end Transfer

end SortKey
