import SortKey.Proofs.Agreement
import SortKey.Proofs.Canonic
import SortKey.Proofs.Writing
import SortKey.Stream.Output

/-!
# Encodings back to back

The length of an encoding shows in its first byte, so encodings follow one another with nothing
between them. Each way of reading takes off the front encoding and stands at the next one, and the
list of values comes back by induction, whatever stands before and behind.
-/

namespace SortKey

namespace Buffer

theorem read_encode_append {w : Width} (v : Signed w) (pre r : Bytes) :
    read w (pre ++ (v.encode ++ r)) pre.length = .ok v := by
  rw [read_eq, List.drop_left, opening_encode_append]
  rfl

theorem probe_encode_append {w : Width} (v : Signed w) (pre r : Bytes) :
    probe (pre ++ (v.encode ++ r)) pre.length = .ok v.encode.length := by
  have hdrop : (pre ++ (v.encode ++ r)).drop pre.length =
      v.lead.toByte :: (BigEndian.digits v.lead.count (v.lead.magnitude v.toInt) ++ r) :=
    List.drop_left
  rw [probe_cons hdrop, v.ofByte_lead, v.length_encode]
  rfl

theorem next_encode_append {w : Width} (v : Signed w) (pre r : Bytes) :
    next w (pre ++ (v.encode ++ r)) pre.length = .ok v (pre.length + v.encode.length) := by
  rw [next, read_encode_append, probe_encode_append]

theorem readAll_encode_append (cs : List Component) (ws : List Width) (pre post : Bytes) :
    readAll (pre ++ Key.encode cs ++ post) (cs.map Component.width ++ ws) pre.length =
      (cs.map Except.ok).zip (Key.ends pre.length cs) ++
        readAll (pre ++ Key.encode cs ++ post) ws (pre.length + (Key.encode cs).length) := by
  -- What has been read joins the front part, so that the rest starts behind a front part again.
  induction cs generalizing pre with
  | nil => rfl
  | cons c cs ih =>
      have hnext := next_encode_append c.value pre (Key.encode cs ++ post)
      have hrest := ih (pre ++ c.encode)
      rw [List.length_append] at hrest
      have hbuf : pre ++ Key.encode (c :: cs) ++ post =
          pre ++ (c.value.encode ++ (Key.encode cs ++ post)) := by
        simp only [Key.encode_cons, Component.encode, List.append_assoc]
      have hbuf' : pre ++ (c.value.encode ++ (Key.encode cs ++ post)) =
          pre ++ c.encode ++ Key.encode cs ++ post := by
        simp only [Component.encode, List.append_assoc]
      rw [hbuf, readAll, List.map_cons, List.cons_append, trace, outcome_ok (map_ok hnext _)]
      rw [hbuf', ← readAll, Key.encode_cons, List.length_append, ← Nat.add_assoc]
      exact congrArg _ hrest

theorem readAll_encode (cs : List Component) (pre post : Bytes) :
    readAll (pre ++ Key.encode cs ++ post) (cs.map Component.width) pre.length =
      (cs.map Except.ok).zip (Key.ends pre.length cs) := by
  have h := readAll_encode_append cs [] pre post
  rwa [List.append_nil, readAll, trace, List.append_nil, ← readAll] at h

end Buffer

namespace Stream

theorem Output.forM_sorted {γ : Type} [BufMut γ] [LawfulBufMut γ] (cs : List Component) (b : γ) :
    ∃ b', cs.forM Output.sorted b = .ok ⟨⟩ b' ∧
      BufMut.content b' = BufMut.content b ++ Key.encode cs := by
  induction cs generalizing b with
  | nil => exact ⟨b, rfl, (List.append_nil _).symm⟩
  | cons c cs ih =>
      obtain ⟨b₁, hput, hfirst⟩ := LawfulBufMut.put_ok c.encode b
      obtain ⟨b₂, hrest, hall⟩ := ih b₁
      refine ⟨b₂, ?_, ?_⟩
      · rw [← sorted_eq_put] at hput
        exact (bind_ok hput _).trans hrest
      · rw [hall, hfirst, Key.encode_cons, List.append_assoc]

variable {β : Type} [Buf β] [LawfulBuf β]

open LawfulBuf

theorem Input.sorted_encode_append {c : Component} {b : β} {r : Bytes}
    (h : view b = c.encode ++ r) :
    ∃ b', Input.sorted c.width b = .ok c b' ∧ view b' = r := by
  have hopen : opening c.width (view b) = .whole c.value.lead c.value := by
    rw [h, Component.encode, opening_encode_append]
  obtain ⟨b', hrun, hrest⟩ := sorted_of_opening_eq_whole hopen
  rw [h, Component.encode, c.value.drop_encode] at hrest
  exact ⟨b', hrun, hrest⟩

theorem Input.mapM_sorted (cs : List Component) {b : β} {post : Bytes}
    (h : view b = Key.encode cs ++ post) :
    ∃ b', (cs.map Component.width).mapM Input.sorted b = .ok cs b' ∧ view b' = post := by
  induction cs generalizing b with
  | nil => exact ⟨b, rfl, h⟩
  | cons c cs ih =>
      rw [Key.encode_cons, List.append_assoc] at h
      obtain ⟨b₁, hfirst, hview⟩ := sorted_encode_append h
      obtain ⟨b₂, hrest, hview'⟩ := ih hview
      refine ⟨b₂, ?_, hview'⟩
      rw [List.map_cons, List.mapM_cons, bind_ok hfirst, bind_ok hrest]
      rfl

end Stream

namespace Transfer

variable {π φ ε : Type} [Producer π φ ε] [LawfulProducer π φ ε] {p : π}

open LawfulProducer

theorem DecodeStep.perform_encode_append {step : DecodeStep} {c : Component} {r : Bytes}
    (h : step.width = c.width) (hp : unread p = c.encode ++ r) :
    ∃ p', step.perform p = .ok c p' ∧ unread p' = r ∧ ending p' = ending p := by
  obtain ⟨w, v⟩ := c
  obtain ⟨w', canonic⟩ := step
  cases h
  cases canonic with
  | false =>
      obtain ⟨p', hrun, hrest⟩ := decode_encode_append hp
      exact ⟨p', map_ok hrun _, hrest⟩
  | true =>
      obtain ⟨p', hrun, hrest⟩ := decodeCanonic_encode_append hp
      exact ⟨p', map_ok hrun _, hrest⟩

theorem DecodeStep.mapM_perform {steps : List DecodeStep} {cs : List Component} {post : Bytes}
    (h : steps.map DecodeStep.width = cs.map Component.width)
    (hp : unread p = Key.encode cs ++ post) :
    ∃ p', steps.mapM DecodeStep.perform p = .ok cs p' ∧
      unread p' = post ∧ ending p' = ending p := by
  induction cs generalizing steps p with
  | nil =>
      have hsteps : steps = [] := by simpa using h
      rw [hsteps]
      exact ⟨p, rfl, hp, rfl⟩
  | cons c cs ih =>
      cases steps with
      | nil => cases h
      | cons step steps =>
          rw [List.map_cons, List.map_cons, List.cons.injEq] at h
          rw [Key.encode_cons, List.append_assoc] at hp
          obtain ⟨p₁, hfirst, hview, hend⟩ := perform_encode_append h.1 hp
          obtain ⟨p₂, hrest, hview', hend'⟩ := ih h.2 hview
          refine ⟨p₂, ?_, hview', hend'.trans hend⟩
          rw [List.mapM_cons, bind_ok hfirst, bind_ok hrest]
          rfl

end Transfer

open Transfer

/-- What is written back to back is read back by every reader, and each stops where the next
component starts. -/
theorem chains_round_trip (cs : List Component) (pre post : Bytes) :
    (∃ ends : List Nat, ends.length = cs.length ∧
      ends.getLast?.getD pre.length = pre.length + (Key.encode cs).length ∧
      (∀ gap : Bytes, gap.length = (Key.encode cs).length → pre.length + gap.length < indexLimit →
        Buffer.writeAll cs pre.length (pre ++ gap ++ post) =
          .ok ends (pre ++ Key.encode cs ++ post)) ∧
      Buffer.readAll (pre ++ Key.encode cs ++ post) (cs.map Component.width) pre.length =
        (cs.map Except.ok).zip ends) ∧
    (∀ (γ : Type) [BufMut γ] [LawfulBufMut γ] (b : γ), BufMut.content b = pre →
      ∃ b', cs.forM Stream.Output.sorted b = .ok ⟨⟩ b' ∧
        BufMut.content b' = pre ++ Key.encode cs) ∧
    (∀ (β : Type) [Buf β] [LawfulBuf β] (b : β), LawfulBuf.view b = Key.encode cs ++ post →
      ∃ b', (cs.map Component.width).mapM Stream.Input.sorted b = .ok cs b' ∧
        LawfulBuf.view b' = post) ∧
    (∀ (π φ ε : Type) [Producer π φ ε] [LawfulProducer π φ ε] (p : π) (steps : List DecodeStep),
      LawfulProducer.unread p = Key.encode cs ++ post →
      steps.map DecodeStep.width = cs.map Component.width →
      ∃ p', steps.mapM DecodeStep.perform p = .ok cs p' ∧ LawfulProducer.unread p' = post ∧
        LawfulProducer.ending p' = LawfulProducer.ending p) := by
  refine ⟨⟨Key.ends pre.length cs, Key.length_ends _ cs, Key.getLast_ends _ cs, ?_, ?_⟩, ?_, ?_, ?_⟩
  · intro gap hgap hend
    exact Buffer.writeAll_gap cs pre post hgap (by rwa [← hgap])
  · exact Buffer.readAll_encode cs pre post
  · rintro γ _ _ b rfl
    exact Stream.Output.forM_sorted cs b
  · intro β _ _ b hview
    exact Stream.Input.mapM_sorted cs hview
  · intro π φ ε _ _ p steps hunread hsteps
    exact DecodeStep.mapM_perform hsteps hunread

/-- One value of each width, the first decoded canonically, with one byte left over. -/
theorem two_widths_decoded :
    ∃ p', [DecodeStep.mk .w32 true, ⟨.w64, false⟩].mapM DecodeStep.perform
        (⟨[0xF8, 0x05, 0x07, 0xFF, 0x2A], .final 0⟩ : Source) =
          .ok [⟨.w32, ⟨126⟩⟩, ⟨.w64, ⟨-120⟩⟩] p' ∧
      LawfulProducer.unread p' = [0x2A] ∧ LawfulProducer.ending p' = .final 0 := by
  exact (chains_round_trip [⟨.w32, ⟨126⟩⟩, ⟨.w64, ⟨-120⟩⟩] [] [0x2A]).2.2.2 Source Int Int _ _
    (by decide) rfl

end SortKey
