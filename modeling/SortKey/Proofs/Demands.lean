import SortKey.Proofs.Reading

/-!
# What a read asks for

The step alone says how many bytes a read needs, except that a sorted integer is asked for by its
lead byte. A read whose range or lead is refused, and one that finds too few bytes, fails and leaves
everything as it was. With enough bytes it succeeds, and takes as many as it needs or, if it only
looks, none.
-/

namespace SortKey.Stream

/-- How many bytes a field needs where the unread bytes are `u`. -/
def Kind.demand (u : Bytes) : Kind → Except Violation Nat
  | boolean => .ok 1
  | byte => .ok 1
  | int16 => .ok 2
  | int32 => .ok 4
  | int64 => .ok 8
  | float64 => .ok 8
  | sorted w =>
      match u with
      | [] => .ok 1
      | b :: _ => ((Lead.ofByte b).require w).map fun _ => (Lead.ofByte b).length

namespace ReadStep

def demand (u : Bytes) : ReadStep → Except Violation Nat
  | remaining => .ok 0
  | peek => .ok 1
  | field k => k.demand u
  | fill dst r => (r.span dst.length).map Span.length

/-- Whether a step consumes what it needs. -/
def consumes : ReadStep → Bool
  | remaining => false
  | peek => false
  | _ => true

/-- How many bytes a step takes if it needs `n` and has them. -/
def takes (step : ReadStep) (n : Nat) : Nat := if step.consumes then n else 0

/-- The destination that a step is to fill. -/
def destination : ReadStep → Option Bytes
  | fill dst _ => some dst
  | _ => none

end ReadStep

namespace ReadReply

def fault : ReadReply → Option Fault
  | value (.error e) => some e
  | filled (.error e) _ => some e
  | _ => none

/-- What the destination holds afterwards. -/
def destination : ReadReply → Option Bytes
  | filled _ dst => some dst
  | _ => none

end ReadReply

section Meeting

variable {β : Type} [Buf β] [LawfulBuf β] {b : β} {α γ : Type}

open LawfulBuf

/-- A read that needs `demand` bytes and takes `taken` of them does so, or fails and takes none. -/
def Input.Meets (x : Input β α) (b : β) (demand : Except Violation Nat) (taken : Nat → Nat) :
    Prop :=
  match demand with
  | .error v => x b = .error (.violation v) b
  | .ok n =>
      if n ≤ (view b).length then ∃ a b', x b = .ok a b' ∧ view b' = (view b).drop (taken n)
      else x b = .error (.underflow ⟨n, (view b).length⟩) b

namespace Input

theorem Meets.map {x : Input β α} {demand : Except Violation Nat} {taken : Nat → Nat}
    (h : Meets x b demand taken) (f : α → γ) : Meets (f <$> x) b demand taken := by
  cases demand with
  | error v => exact map_error h f
  | ok n =>
      by_cases hn : n ≤ (view b).length
      · simp only [Meets, if_pos hn] at h ⊢
        obtain ⟨a, b', hrun, hview⟩ := h
        exact ⟨f a, b', map_ok hrun f, hview⟩
      · simp only [Meets, if_neg hn] at h ⊢
        exact map_error h f

theorem meets_next (n : Nat) (b : β) : Meets (next n) b (.ok n) id := by
  by_cases hn : n ≤ (view b).length
  · simp only [Meets, if_pos hn]
    exact ⟨_, _, next_ok hn, (Buf.take_spec hn).2⟩
  · simp only [Meets, if_neg hn]
    exact next_error (Nat.not_le.mp hn)

/-- A field of fixed width is made of the number that its bytes are. -/
theorem meets_natural (n : Nat) (f : Nat → γ) (b : β) :
    Meets (do return f (← natural n)) b (.ok n) id :=
  ((meets_next n b).map BigEndian.value).map f

theorem meets_remaining (b : β) : Meets remaining b (.ok 0) fun _ => 0 := by
  simp only [Meets, if_pos (Nat.zero_le _)]
  exact ⟨_, b, remaining_run b, rfl⟩

theorem meets_peek (b : β) : Meets peek b (.ok 1) fun _ => 0 := by
  cases hview : view b with
  | nil => simpa [Meets, hview] using peek_nil hview
  | cons x bs =>
      rw [Meets, if_pos (by rw [hview]; exact Nat.le_add_left 1 bs.length)]
      exact ⟨x, b, peek_cons hview, rfl⟩

theorem meets_sorted (w : Width) (b : β) :
    Meets (sorted w) b ((Kind.sorted w).demand (view b)) id := by
  have hrun := sorted_run w b
  cases hview : view b with
  | nil =>
      rw [hview] at hrun
      simpa [Meets, Kind.demand, hview] using hrun
  | cons x bs =>
      rw [hview] at hrun
      rw [Kind.demand]
      rcases opening_cons_cases w x bs with
        ⟨hwide, hopen⟩ | ⟨hfit, hcut, hopen⟩ | ⟨hfit, hle, hopen⟩
      · rw [hopen] at hrun
        rw [Lead.require_error hwide]
        exact hrun
      · rw [hopen] at hrun
        simp only [Lead.require_ok hfit, Except.map, Meets, hview, List.length_cons,
          if_neg (Nat.not_le.mpr hcut)]
        exact hrun
      · rw [hopen] at hrun
        have htake := (Buf.take_spec (b := b) (n := (Lead.ofByte x).length) (by rwa [hview])).2
        simp only [Lead.require_ok hfit, Except.map, Meets, hview, List.length_cons, if_pos hle]
        exact ⟨_, _, hrun, by rw [htake, hview]; rfl⟩

theorem meets_field (k : Kind) (b : β) : Meets (field k) b (k.demand (view b)) id := by
  cases k with
  | sorted w => exact (meets_sorted w b).map Reading.sorted
  | boolean => exact (meets_natural 1 _ b).map Reading.boolean
  | byte => exact (meets_natural 1 _ b).map Reading.byte
  | int16 => exact (meets_natural 2 _ b).map Reading.int16
  | int32 => exact (meets_natural 4 _ b).map Reading.int32
  | int64 => exact (meets_natural 8 _ b).map Reading.int64
  | float64 => exact (meets_natural 8 _ b).map Reading.float64

end Input

namespace ReadStep

/-- A step fails with a fault and changes neither the buffer nor its destination. -/
structure Fails (step : ReadStep) (b : β) (e : Fault) : Prop where
  fault : (step.run b).1.fault = some e
  stays : (step.run b).2 = b
  untouched : (step.run b).1.destination = step.destination

/-- A step succeeds and takes `n` bytes. -/
structure Succeeds (step : ReadStep) (b : β) (n : Nat) : Prop where
  fault : (step.run b).1.fault = none
  view : view (step.run b).2 = (view b).drop n

/-- What a step does is settled by what it asks for and by how many bytes are there. -/
def Settled (step : ReadStep) (b : β) : Prop :=
  match step.demand (LawfulBuf.view b) with
  | .error v => step.Fails b (.violation v)
  | .ok n =>
      if n ≤ (LawfulBuf.view b).length then step.Succeeds b (step.takes n)
      else step.Fails b (.underflow ⟨n, (LawfulBuf.view b).length⟩)

/-- A step that only asks and answers does what its computation does. -/
theorem settled_of_meets {step : ReadStep} {x : Input β Reading}
    (hrun : step.run b = (outcome x b).map .value id) (hdst : step.destination = none)
    (h : Input.Meets x b (step.demand (view b)) step.takes) : step.Settled b := by
  have hfails : ∀ e : Fault, x b = .error e b → step.Fails b e := by
    intro e he
    rw [outcome_error he] at hrun
    exact ⟨by rw [hrun]; rfl, by rw [hrun]; rfl, by rw [hrun, hdst]; rfl⟩
  rw [Settled]
  cases hdemand : step.demand (view b) with
  | error v =>
      rw [hdemand] at h
      exact hfails _ h
  | ok n =>
      rw [hdemand] at h
      by_cases hn : n ≤ (view b).length
      · simp only [Input.Meets, if_pos hn] at h ⊢
        obtain ⟨a, b', hok, hview⟩ := h
        rw [outcome_ok hok] at hrun
        exact ⟨by rw [hrun]; rfl, by rw [hrun]; exact hview⟩
      · simp only [Input.Meets, if_neg hn] at h ⊢
        exact hfails _ h

/-- The range of a destination is resolved before the buffer is asked for anything. -/
theorem settled_fill (dst : Bytes) (r : Range) (b : β) : (fill dst r).Settled b := by
  rw [Settled, demand]
  cases hspan : r.span dst.length with
  | error v =>
      have hrun : Input.fill r (b, dst) = .error (.violation v) (b, dst) := by
        rw [Input.fill, fillRange, hspan]
        rfl
      have hstep : (fill dst r).run b = (.filled (.error (.violation v)) dst, b) := by
        rw [run, outcome_error hrun]
      exact ⟨by rw [hstep]; rfl, by rw [hstep], by rw [hstep]; rfl⟩
  | ok span =>
      simp only [Except.map]
      by_cases hn : span.length ≤ (view b).length
      · have hrun : Input.fill r (b, dst) =
            .ok () ((Buf.take span.length b).2, span.splice dst ((view b).take span.length)) :=
          fillRange_ok hspan (Input.next_ok hn)
        have hstep : (fill dst r).run b =
            (.filled (.ok ()) (span.splice dst ((view b).take span.length)),
              (Buf.take span.length b).2) := by
          rw [run, outcome_ok hrun]
        rw [if_pos hn]
        exact ⟨by rw [hstep]; rfl, by rw [hstep]; exact (Buf.take_spec hn).2⟩
      · have hrun : Input.fill r (b, dst) =
            .error (.underflow ⟨span.length, (view b).length⟩) (b, dst) :=
          fillRange_error hspan (Input.next_error (Nat.not_le.mp hn))
        have hstep : (fill dst r).run b =
            (.filled (.error (.underflow ⟨span.length, (view b).length⟩)) dst, b) := by
          rw [run, outcome_error hrun]
        rw [if_neg hn]
        exact ⟨by rw [hstep]; rfl, by rw [hstep], by rw [hstep]; rfl⟩

theorem settled (step : ReadStep) (b : β) : step.Settled b := by
  cases step with
  | remaining => exact settled_of_meets rfl rfl ((Input.meets_remaining b).map Reading.remaining)
  | peek => exact settled_of_meets rfl rfl ((Input.meets_peek b).map Reading.peeked)
  | field k => exact settled_of_meets rfl rfl (Input.meets_field k b)
  | fill dst r => exact settled_fill dst r b

theorem settled_cases (step : ReadStep) (b : β) :
    (∃ n, step.demand (view b) = .ok n ∧ n ≤ (view b).length ∧ step.Succeeds b (step.takes n)) ∨
      (∃ n, step.demand (view b) = .ok n ∧ (view b).length < n ∧
        step.Fails b (.underflow ⟨n, (view b).length⟩)) ∨
      ∃ v, step.demand (view b) = .error v ∧ step.Fails b (.violation v) := by
  have h := step.settled b
  rw [Settled] at h
  cases hdemand : step.demand (view b) with
  | error v =>
      rw [hdemand] at h
      exact Or.inr (Or.inr ⟨v, rfl, h⟩)
  | ok n =>
      rw [hdemand] at h
      by_cases hn : n ≤ (view b).length
      · simp only [if_pos hn] at h
        exact Or.inl ⟨n, rfl, hn, h⟩
      · simp only [if_neg hn] at h
        exact Or.inr (Or.inl ⟨n, rfl, Nat.not_le.mp hn, h⟩)

end ReadStep

end Meeting

end SortKey.Stream
