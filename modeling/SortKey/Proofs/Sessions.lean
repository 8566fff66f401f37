import SortKey.Proofs.Amendments
import SortKey.Proofs.Atomicity
import SortKey.Proofs.Parts

/-!
# Sessions at both ends of a buffer

A session writes behind a buffer and reads from its front. A ledger keeps the bytes that were
consumed beside those that are unread: put together they are all that was ever appended, each patch
at the place it had when it was made. Patches never reach the consumed bytes. So if nothing is
patched and every read goes with the append that comes to the front, reads return what was appended.
-/

namespace SortKey.Stream

open LawfulBuf LawfulQueue

variable {β : Type} [Buf β] [LawfulBuf β] [BufMut β]

/-- An account of a session: the bytes consumed so far, the buffer with the bytes that are unread,
and what all writes made of the bytes it began with. -/
structure Ledger (β : Type) where
  consumed : Bytes
  buffer : β
  whole : Bytes
  deriving DecidableEq, Repr

namespace Ledger

/-- Enters what a step took from the front of the buffer or what it wrote, if it succeeded. -/
def enter (l : Ledger β) : SessionStep → Ledger β
  | .write step =>
      { l with
        buffer := (step.run l.buffer).2
        whole := if isFailure (step.run l.buffer).1 then l.whole
          else step.amend l.consumed.length l.whole }
  | .read step =>
      { l with
        consumed := l.consumed ++ step.taken l.buffer
        buffer := (step.run l.buffer).2 }

def Balanced (l : Ledger β) : Prop := l.consumed ++ view l.buffer = l.whole

end Ledger

def SessionReply.failed : SessionReply → Bool
  | written r => isFailure r
  | read reply => reply.fault.isSome

def ledger (init : β) (steps : List SessionStep) : Ledger β :=
  steps.foldl Ledger.enter ⟨[], init, view init⟩

theorem ledger_append (init : β) (steps more : List SessionStep) :
    ledger init (steps ++ more) = more.foldl Ledger.enter (ledger init steps) :=
  List.foldl_append

theorem buffer_ledger (init : β) (steps : List SessionStep) :
    (ledger init steps).buffer = after SessionStep.run steps init := by
  induction steps using List.reverseRecOn with
  | nil => rfl
  | append_singleton steps step ih =>
      rw [ledger_append, after_concat, ← ih]
      cases step <;> rfl

theorem Ledger.consumed_isPrefix_foldl (l : Ledger β) (steps : List SessionStep) :
    l.consumed <+: (steps.foldl enter l).consumed := by
  induction steps generalizing l with
  | nil => exact List.prefix_refl _
  | cons step steps ih =>
      refine List.IsPrefix.trans ?_ (ih (l.enter step))
      cases step with
      | write step => exact List.prefix_refl _
      | read step => exact List.prefix_append _ _

section Queue

variable [LawfulQueue β]

theorem WriteStep.run_cases_view (step : WriteStep) (b : β) :
    (∃ a b', step.run b = (.ok a, b') ∧ view b' = step.amend 0 (view b)) ∨
      ∃ v, step.run b = (.error v, b) := by
  have h := step.run_cases b
  simpa only [content_eq_view] using h

/-- A step answers a buffer as it answers the view, and leaves the same bytes unread. -/
theorem SessionStep.run_view (step : SessionStep) (b : β) :
    step.run (view b) = (step.run b).map id view := by
  cases step with
  | write step =>
      have hrun := step.run_content b
      rw [content_eq_view] at hrun
      rw [run, run, hrun]
      exact Prod.ext rfl (content_eq_view _)
  | read step =>
      rw [run, run, step.run_view b]
      rfl

namespace Ledger

theorem Balanced.enter {l : Ledger β} (h : l.Balanced) (step : SessionStep) :
    (l.enter step).Balanced := by
  cases step with
  | write step =>
      rcases step.run_cases_view l.buffer with ⟨a, b', hrun, hview⟩ | ⟨v, hrun⟩
      · simp only [Balanced, Ledger.enter, hrun, isFailure]
        rw [← h, step.amend_append_left, hview]
        rfl
      · simp only [Balanced, Ledger.enter, hrun, isFailure]
        exact h
  | read step =>
      simp only [Balanced, Ledger.enter]
      rw [List.append_assoc, ← h]
      exact congrArg (l.consumed ++ ·) (step.taken_append_view l.buffer)

theorem Balanced.foldl {l : Ledger β} (h : l.Balanced) (steps : List SessionStep) :
    (steps.foldl Ledger.enter l).Balanced := by
  induction steps generalizing l with
  | nil => exact h
  | cons step steps ih => exact ih (h.enter step)

theorem enter_of_failed {l : Ledger β} {step : SessionStep}
    (h : (step.run l.buffer).1.failed = true) : l.enter step = l := by
  cases step with
  | write step =>
      rcases step.run_cases_view l.buffer with ⟨a, b', hrun, -⟩ | ⟨v, hrun⟩
      · rw [SessionStep.run, hrun] at h
        cases h
      · simp only [enter, hrun, isFailure]
        rfl
  | read step =>
      obtain ⟨e, he⟩ := Option.isSome_iff_exists.mp h
      have hfails := ReadStep.fails_of_fault he
      simp only [enter, ReadStep.taken_of_fails hfails, List.append_nil, hfails.stays]

end Ledger

theorem ledger_balanced (init : β) (steps : List SessionStep) : (ledger init steps).Balanced :=
  Ledger.Balanced.foldl (l := ⟨[], init, view init⟩) rfl steps

end Queue

/-- The item that a step appends. -/
def SessionStep.push : SessionStep → Option Item
  | write step => step.pushes
  | read _ => none

/-- The step itself if it consumes what it reads. -/
def SessionStep.pull : SessionStep → Option ReadStep
  | write _ => none
  | read step => if step.consumes then some step else none

def pushed (steps : List SessionStep) : List Item := steps.filterMap SessionStep.push

def pulls (steps : List SessionStep) : List ReadStep := steps.filterMap SessionStep.pull

theorem pushed_concat (steps : List SessionStep) (step : SessionStep) :
    pushed (steps ++ [step]) = pushed steps ++ step.push.toList := by
  cases h : step.push <;> simp [pushed, h]

theorem pulls_concat (steps : List SessionStep) (step : SessionStep) :
    pulls (steps ++ [step]) = pulls steps ++ step.pull.toList := by
  cases h : step.pull <;> simp [pulls, h]

/-- Nothing is patched, and each read that consumes comes after the append whose turn it is, and
reads an item of its kind. -/
structure Paired (steps : List SessionStep) : Prop where
  unpatched : ∀ start x, .write (.patch start x) ∉ steps
  aligned : ∀ before step rest, steps = before ++ .read step :: rest → step.consumes = true →
    ∃ it, (pushed before)[(pulls before).length]? = some it ∧ it.ReadBy step

namespace Paired

theorem of_append {steps more : List SessionStep} (h : Paired (steps ++ more)) : Paired steps where
  unpatched start x hmem := h.unpatched start x (List.mem_append_left _ hmem)
  aligned before step rest hsteps := by
    apply h.aligned before step (rest ++ more)
    rw [hsteps, List.append_assoc, List.cons_append]

/-- The item whose turn it is stands at the front of the buffer, and is what is read. -/
theorem run_front {its : List Item} {k : Nat} {it : Item} {step : ReadStep}
    (hit : its[k]? = some it) (hread : it.ReadBy step) :
    step.run (layout (its.drop k)) = (it.reply, layout (its.drop (k + 1))) := by
  obtain ⟨hlt, hget⟩ := List.getElem?_eq_some_iff.mp hit
  have hfront : layout (its.drop k) = it.encode ++ layout (its.drop (k + 1)) := by
    rw [List.drop_eq_getElem_cons hlt, hget, layout_cons]
  obtain ⟨buf, hrun, hview⟩ := hread.goesWith.run_append (b := layout (its.drop k)) hfront
  rw [hrun, ← hview]
  rfl

/-- The buffer holds the items whose turn has not come. -/
theorem buffer_eq {steps : List SessionStep} (h : Paired steps) :
    (pulls steps).length ≤ (pushed steps).length ∧
      after SessionStep.run steps ([] : Bytes) =
        layout ((pushed steps).drop (pulls steps).length) := by
  induction steps using List.reverseRecOn with
  | nil => exact ⟨Nat.le_refl 0, rfl⟩
  | append_singleton steps step ih =>
      obtain ⟨hle, hbuf⟩ := ih h.of_append
      rw [after_concat]
      cases step with
      | write step =>
          have hpatch : ∀ start x, step ≠ .patch start x := by
            rintro start x rfl
            exact h.unpatched start x (List.mem_append_right _ (List.mem_singleton_self _))
          rw [pushed_concat, pulls_concat, SessionStep.pull, Option.toList_none, List.append_nil,
            List.drop_append_of_le_length hle, layout_append, ← hbuf, List.length_append]
          exact ⟨Nat.le_add_right_of_le hle, WriteStep.run_of_not_patch hpatch _⟩
      | read step =>
          rw [pushed_concat, pulls_concat, SessionStep.push, SessionStep.pull, Option.toList_none,
            List.append_nil]
          cases hstep : step.consumes with
          | false =>
              have hview := ReadStep.view_of_not_consumes hstep
                (after SessionStep.run steps ([] : Bytes))
              rw [if_neg Bool.false_ne_true, Option.toList_none, List.append_nil, ← hbuf]
              exact ⟨hle, hview⟩
          | true =>
              obtain ⟨it, hit, hread⟩ := h.aligned steps step [] rfl hstep
              have hrun := run_front hit hread
              rw [← hbuf] at hrun
              rw [if_pos rfl, Option.toList_some, List.length_append, List.length_singleton]
              exact ⟨(List.getElem?_eq_some_iff.mp hit).1, congrArg Prod.snd hrun⟩

end Paired

/-- However a session goes, its ledger is balanced, what was consumed stays as it is, both questions
for a length are answered by the unread bytes, and a step that fails makes no entry. If nothing is
there at first, reads that are paired with the appends return what was appended. -/
theorem sessions_balance [LawfulQueue β] (init : β) (steps : List SessionStep) :
    let l := ledger init steps
    l.buffer = after SessionStep.run steps init ∧
    l.consumed ++ view l.buffer = l.whole ∧
    (∀ more, l.consumed <+: (ledger init (steps ++ more)).consumed ∧
      l.consumed <+: (ledger init (steps ++ more)).whole) ∧
    (SessionStep.write .offset).run l.buffer =
      (.written (.ok (some (view l.buffer).length)), l.buffer) ∧
    (SessionStep.read .remaining).run l.buffer =
      (.read (.value (.ok (.remaining (view l.buffer).length))), l.buffer) ∧
    (∀ step : SessionStep, (step.run l.buffer).1.failed = true → l.enter step = l) ∧
    (view init = [] → Paired steps → ∀ before step rest, steps = before ++ .read step :: rest →
      step.consumes = true → ∃ it, (pushed before)[(pulls before).length]? = some it ∧
        ((traceAll SessionStep.run steps init)[before.length]?).map Prod.fst =
          some (.read it.reply)) := by
  intro l
  refine ⟨buffer_ledger init steps, ledger_balanced init steps, ?_, ?_, ?_,
    fun step => Ledger.enter_of_failed, ?_⟩
  · intro more
    have hlater : l.consumed <+: (ledger init (steps ++ more)).consumed := by
      rw [ledger_append]
      exact Ledger.consumed_isPrefix_foldl l more
    refine ⟨hlater, hlater.trans ?_⟩
    rw [← ledger_balanced init (steps ++ more)]
    exact List.prefix_append _ _
  · rw [← content_eq_view]
    rfl
  · rw [← remaining_eq]
    rfl
  · rintro hempty hpaired before step rest rfl hconsumes
    obtain ⟨it, hit, hread⟩ := hpaired.aligned before step rest rfl hconsumes
    refine ⟨it, hit, ?_⟩
    rw [← List.getElem?_map, ← map_fst_traceAll SessionStep.run_view, hempty, List.getElem?_map,
      traceAll_middle, hpaired.of_append.buffer_eq.2, Option.map_some, SessionStep.run,
      Paired.run_front hit hread]
    rfl

/-- A sorted integer and part of an array are read back, with looks at the buffer in between. -/
theorem array_read_behind_sorted :
    let steps : List SessionStep := [.write (.field (.sorted ⟨.w32, ⟨200⟩⟩)), .read .peek,
      .write (.bytes [1, 2, 3] (.between 1 3)), .read (.field (.sorted .w32)), .write .offset,
      .read (.fill [0, 0] {})]
    Paired steps ∧ ((traceAll SessionStep.run steps ([] : Bytes))[5]?).map Prod.fst =
      some (.read (.filled (.ok ()) [2, 3])) := by
  intro steps
  have hpaired : Paired steps := by
    refine ⟨by simp [steps], ?_⟩
    intro before step rest hsteps hconsumes
    rcases before with _ | ⟨_, _ | ⟨_, _ | ⟨_, _ | ⟨_, _ | ⟨_, _ | ⟨_, before⟩⟩⟩⟩⟩⟩ <;>
      simp only [steps, List.nil_append, List.cons_append, List.cons.injEq, reduceCtorEq, false_and,
        and_false, SessionStep.read.injEq, List.nil_eq, List.append_eq_nil_iff] at hsteps
    · obtain ⟨-, rfl, -⟩ := hsteps
      cases hconsumes
    · obtain ⟨rfl, rfl, rfl, rfl, -⟩ := hsteps
      exact ⟨.field (.sorted ⟨.w32, ⟨200⟩⟩), rfl, rfl⟩
    · obtain ⟨rfl, rfl, rfl, rfl, rfl, rfl, -⟩ := hsteps
      exact ⟨.bytes [2, 3], rfl, ⟨[0, 0], rfl, rfl⟩⟩
  obtain ⟨-, -, -, -, -, -, h⟩ := sessions_balance ([] : Bytes) steps
  obtain ⟨it, hit, hreply⟩ := h rfl hpaired (steps.take 5) (.fill [0, 0] {}) [] rfl rfl
  obtain rfl : .bytes [2, 3] = it := Option.some.inj hit
  exact ⟨hpaired, hreply⟩

end SortKey.Stream
