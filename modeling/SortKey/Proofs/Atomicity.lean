import SortKey.Proofs.Demands
import SortKey.Proofs.Runs

/-!
# Reads that fail take nothing

Along every run of reads the bytes consumed and the bytes unread make up the bytes that were there.
A read that fails takes no part in this: without it, the others answer the same. An underflow says
how many bytes are needed, which more bytes at the end do not change, so the read succeeds once they
are there. Only a sorted integer of which nothing is there asks for its lead byte first.
-/

namespace SortKey.Stream

variable {β : Type} [Buf β] [LawfulBuf β]

open LawfulBuf

/-- The bytes that a step takes off the front. -/
def ReadStep.taken (step : ReadStep) (b : β) : Bytes :=
  (view b).take ((view b).length - (view (step.run b).2).length)

/-- The bytes that a run takes off the front. -/
def consumed : List ReadStep → β → Bytes
  | [], _ => []
  | step :: steps, b => step.taken b ++ consumed steps (step.run b).2

namespace ReadStep

theorem taken_of_fails {step : ReadStep} {b : β} {e : Fault} (h : step.Fails b e) :
    step.taken b = [] := by
  rw [taken, h.stays, Nat.sub_self, List.take_zero]

theorem taken_of_succeeds {step : ReadStep} {b : β} {n : Nat} (h : step.Succeeds b n) :
    step.taken b = (view b).take n := by
  have hlen : (view b).length - ((view b).length - n) = min n (view b).length := by omega
  rw [taken, h.view, List.length_drop, hlen, List.take_eq_take_iff]
  omega

theorem taken_append_view (step : ReadStep) (b : β) :
    step.taken b ++ view (step.run b).2 = view b := by
  rcases step.settled_cases b with ⟨n, -, -, h⟩ | ⟨n, -, -, h⟩ | ⟨v, -, h⟩
  · rw [taken_of_succeeds h, h.view, List.take_append_drop]
  · rw [taken_of_fails h, h.stays, List.nil_append]
  · rw [taken_of_fails h, h.stays, List.nil_append]

theorem view_of_not_consumes {step : ReadStep} (h : step.consumes = false) (b : β) :
    view (step.run b).2 = view b := by
  rcases step.settled_cases b with ⟨n, -, -, h'⟩ | ⟨n, -, -, h'⟩ | ⟨v, -, h'⟩
  · rw [h'.view, takes, h]
    rfl
  · rw [h'.stays]
  · rw [h'.stays]

theorem fails_of_fault {step : ReadStep} {b : β} {e : Fault} (h : (step.run b).1.fault = some e) :
    step.Fails b e := by
  rcases step.settled_cases b with ⟨n, -, -, h'⟩ | ⟨n, -, -, h'⟩ | ⟨v, -, h'⟩
  · rw [h'.fault] at h
    cases h
  · rw [h'.fault, Option.some.injEq] at h
    exact h ▸ h'
  · rw [h'.fault, Option.some.injEq] at h
    exact h ▸ h'

theorem exists_succeeds {step : ReadStep} {b : β} (h : (step.run b).1.fault = none) :
    ∃ n, step.demand (view b) = .ok n ∧ n ≤ (view b).length ∧ step.Succeeds b (step.takes n) := by
  rcases step.settled_cases b with ⟨n, hdemand, hle, h'⟩ | ⟨n, -, -, h'⟩ | ⟨v, -, h'⟩
  · exact ⟨n, hdemand, hle, h'⟩
  · rw [h'.fault] at h
    cases h
  · rw [h'.fault] at h
    cases h

/-- An underflow names what the step needs and what is there. -/
theorem demand_of_underflow {step : ReadStep} {b : β} {u : Underflow}
    (h : (step.run b).1.fault = some (.underflow u)) :
    step.demand (view b) = .ok u.requested ∧ u.available = (view b).length ∧
      u.available < u.requested := by
  rcases step.settled_cases b with ⟨n, -, -, h'⟩ | ⟨n, hdemand, hlt, h'⟩ | ⟨v, -, h'⟩
  · rw [h'.fault] at h
    cases h
  · rw [h'.fault] at h
    cases h
    exact ⟨hdemand, rfl, hlt⟩
  · rw [h'.fault] at h
    cases h

theorem succeeds_iff {step : ReadStep} {b : β} {n : Nat} (h : step.demand (view b) = .ok n) :
    (step.run b).1.fault = none ↔ n ≤ (view b).length := by
  rcases step.settled_cases b with ⟨m, hdemand, hle, h'⟩ | ⟨m, hdemand, hlt, h'⟩ | ⟨v, hdemand, -⟩
  · rw [h] at hdemand
    cases hdemand
    exact iff_of_true h'.fault hle
  · rw [h] at hdemand
    cases hdemand
    rw [h'.fault]
    exact iff_of_false nofun (Nat.not_le.mpr hlt)
  · rw [h] at hdemand
    cases hdemand

/-- More bytes at the end do not change what a step needs, unless it has yet to see a lead byte. -/
theorem demand_append {step : ReadStep} {u : Bytes}
    (h : u = [] → ∀ w, step ≠ .field (.sorted w)) (more : Bytes) :
    step.demand (u ++ more) = step.demand u := by
  cases step with
  | field k =>
      cases k with
      | sorted w =>
          cases u with
          | nil => exact absurd rfl (h rfl w)
          | cons b bs => rfl
      | _ => rfl
  | _ => rfl

end ReadStep

theorem consumed_append_view (steps : List ReadStep) (b : β) :
    consumed steps b ++ view (after ReadStep.run steps b) = view b := by
  induction steps generalizing b with
  | nil => rfl
  | cons step steps ih =>
      rw [consumed, after_cons, List.append_assoc, ih, step.taken_append_view]

/-- At every moment of a run nothing is lost. A step that succeeds takes the bytes it asks for, or
none if it only looks. One that fails changes nothing and could be left out, and one that underflows
succeeds on more bytes exactly if they are as many as it asked for. -/
theorem failed_reads_take_nothing (steps : List ReadStep) (b : β) :
    let now := after ReadStep.run steps b
    let kept := passing (fun reply => reply.fault.isNone) ReadStep.run steps b
    consumed steps b ++ view now = view b ∧
    traceAll ReadStep.run kept b =
      (traceAll ReadStep.run steps b).filter (fun x => x.1.fault.isNone) ∧
    after ReadStep.run kept b = now ∧
    (∀ step : ReadStep, (step.run now).1.fault = none →
      ∃ n, step.demand (view now) = .ok n ∧ n ≤ (view now).length ∧
        step.taken now = (view now).take (step.takes n)) ∧
    ∀ (step : ReadStep) (e : Fault), (step.run now).1.fault = some e →
      (step.run now).2 = now ∧ step.taken now = [] ∧
      (step.run now).1.destination = step.destination ∧
      ∀ u, e = .underflow u →
        u.available = Buf.remaining now ∧ u.available < u.requested ∧
        (view now = [] → (∃ w, step = .field (.sorted w)) → u.requested = 1) ∧
        ((view now = [] → ∀ w, step ≠ .field (.sorted w)) →
          ∀ (γ : Type) [Buf γ] [LawfulBuf γ] (b' : γ) (more : Bytes),
            view b' = view now ++ more →
            ((step.run b').1.fault = none ↔ u.requested ≤ Buf.remaining b')) := by
  intro now kept
  have hstays : ∀ (step : ReadStep) (b : β), (step.run b).1.fault.isNone = false →
      (step.run b).2 = b := by
    intro step b h
    obtain ⟨e, he⟩ := Option.isSome_iff_exists.mp (Option.isNone_eq_false_iff.mp h)
    exact (ReadStep.fails_of_fault he).stays
  refine ⟨consumed_append_view steps b, traceAll_passing hstays steps b,
    after_passing hstays steps b, ?_, ?_⟩
  · intro step hok
    obtain ⟨n, hdemand, hle, hsucceeds⟩ := ReadStep.exists_succeeds hok
    exact ⟨n, hdemand, hle, ReadStep.taken_of_succeeds hsucceeds⟩
  · intro step e he
    have hfails := ReadStep.fails_of_fault he
    refine ⟨hfails.stays, ReadStep.taken_of_fails hfails, hfails.untouched, ?_⟩
    rintro u rfl
    obtain ⟨hdemand, havailable, hlt⟩ := ReadStep.demand_of_underflow he
    refine ⟨by rw [havailable, remaining_eq], hlt, ?_, ?_⟩
    · rintro hnil ⟨w, rfl⟩
      rw [hnil] at hdemand
      exact (Except.ok.inj hdemand).symm
    · intro hlead γ _ _ b' more hview
      rw [remaining_eq]
      apply ReadStep.succeeds_iff
      rw [hview, ReadStep.demand_append hlead, hdemand]

/-- A cut encoding at the end of a chain is refused after a range is, and read once it is whole. -/
theorem cut_encoding_retried :
    let now := after ReadStep.run [.field (.sorted .w64), .fill [9] (.upTo 5)]
      (⟨[[0x7F], [], [0xFA, 0x01], [0x02]]⟩ : Chain)
    ((ReadStep.field (.sorted .w32)).run now).2 = now ∧
      ((ReadStep.field (.sorted .w32)).run ([0xFA, 0x01, 0x02, 0x03] : Bytes)).1.fault = none := by
  intro now
  have hfault : ((ReadStep.field (.sorted .w32)).run now).1.fault =
      some (.underflow ⟨4, 3⟩) := rfl
  obtain ⟨-, -, -, -, h⟩ := failed_reads_take_nothing
    [.field (.sorted .w64), .fill [9] (.upTo 5)]
    (⟨[[0x7F], [], [0xFA, 0x01], [0x02]]⟩ : Chain)
  obtain ⟨hstays, -, -, hretry⟩ := h _ _ hfault
  obtain ⟨-, -, -, hmore⟩ := hretry _ rfl
  refine ⟨hstays, (hmore ?_ Bytes [0xFA, 0x01, 0x02, 0x03] [0x03] rfl).mpr (by decide)⟩
  intro hnil
  cases hnil

end SortKey.Stream
