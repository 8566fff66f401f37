import SortKey.Bytes.Fill
import SortKey.Run

/-!
# Computations step by step

What a computation does from a given state is known once its steps are, so each lemma here takes one
step off the front. Those for ranges say what a resolved range selects.
-/

namespace SortKey

section Steps

variable {ε σ α β : Type}

theorem bind_ok {x : EStateM ε σ α} {s s' : σ} {a : α} (h : x s = .ok a s')
    (f : α → EStateM ε σ β) : (x >>= f) s = f a s' := by
  change EStateM.bind x f s = f a s'
  unfold EStateM.bind
  rw [h]

theorem bind_error {x : EStateM ε σ α} {s s' : σ} {e : ε} (h : x s = .error e s')
    (f : α → EStateM ε σ β) : (x >>= f) s = .error e s' := by
  change EStateM.bind x f s = .error e s'
  unfold EStateM.bind
  rw [h]

theorem exists_of_bind_eq_ok {x : EStateM ε σ α} {f : α → EStateM ε σ β} {s s'' : σ} {b : β}
    (h : (x >>= f) s = .ok b s'') : ∃ a s', x s = .ok a s' ∧ f a s' = .ok b s'' := by
  cases hx : x s with
  | ok a s' =>
      rw [bind_ok hx] at h
      exact ⟨a, s', rfl, h⟩
  | error e s' =>
      rw [bind_error hx] at h
      nomatch h

theorem map_ok {x : EStateM ε σ α} {s s' : σ} {a : α} (h : x s = .ok a s') (f : α → β) :
    (f <$> x) s = .ok (f a) s' := by
  change EStateM.map f x s = .ok (f a) s'
  unfold EStateM.map
  rw [h]

theorem map_error {x : EStateM ε σ α} {s s' : σ} {e : ε} (h : x s = .error e s') (f : α → β) :
    (f <$> x) s = .error e s' := by
  change EStateM.map f x s = .error e s'
  unfold EStateM.map
  rw [h]

theorem outcome_ok {x : EStateM ε σ α} {s s' : σ} {a : α} (h : x s = .ok a s') :
    outcome x s = (.ok a, s') := by
  rw [outcome, h]

theorem outcome_error {x : EStateM ε σ α} {s s' : σ} {e : ε} (h : x s = .error e s') :
    outcome x s = (.error e, s') := by
  rw [outcome, h]

theorem traceAll_cons {ι ρ : Type} (step : ι → σ → ρ × σ) (i : ι) (is : List ι) (s : σ) :
    traceAll step (i :: is) s = step i s :: traceAll step is (step i s).2 := rfl

@[simp] theorem get_bind (f : σ → EStateM ε σ β) (s : σ) : (get >>= f) s = f s s := rfl

@[simp] theorem set_run (s s' : σ) : (set s' : EStateM ε σ PUnit) s = .ok ⟨⟩ s' := rfl

@[simp] theorem pure_run (a : α) (s : σ) : (pure a : EStateM ε σ α) s = .ok a s := rfl

theorem checked_bind_ok [OfViolation ε] (a : α) (f : α → EStateM ε σ β) (s : σ) :
    (checked (.ok a) >>= f) s = f a s := rfl

end Steps

namespace Range

theorem span_upTo (n len : Nat) :
    (upTo n).span len = if n ≤ len then .ok ⟨0, n⟩ else .error .indexOutOfRange := by
  by_cases h : n ≤ len <;>
    simp [upTo, span, Bound.first, Bound.past, bind, Except.bind, h, pure, Except.pure, throw,
      throwThe, MonadExceptOf.throw]

theorem span_between (start stop len : Nat) :
    (between start stop).span len =
      if start ≤ stop ∧ stop ≤ len then .ok ⟨start, stop⟩ else .error .indexOutOfRange := by
  by_cases h : start ≤ stop ∧ stop ≤ len <;>
    simp [between, span, Bound.first, Bound.past, bind, Except.bind, h, pure, Except.pure, throw,
      throwThe, MonadExceptOf.throw]

theorem span_all (len : Nat) : span {} len = .ok ⟨0, len⟩ := by
  rw [span]
  simp [Bound.first, Bound.past, bind, Except.bind, pure, Except.pure]

theorem slice_all (bs : Bytes) : slice {} bs = .ok bs := by
  rw [slice, span_all]
  simp [bind, Except.bind, pure, Except.pure, Span.slice]

theorem slice_upTo {n : Nat} {bs : Bytes} (h : n ≤ bs.length) :
    (upTo n).slice bs = .ok (bs.take n) := by
  rw [slice, span_upTo, if_pos h]
  simp [bind, Except.bind, pure, Except.pure, Span.slice]

theorem slice_between {start stop : Nat} {bs : Bytes} (h : start ≤ stop) (h' : stop ≤ bs.length) :
    (between start stop).slice bs = .ok ((bs.take stop).drop start) := by
  rw [slice, span_between, if_pos ⟨h, h'⟩]
  simp [bind, Except.bind, pure, Except.pure, Span.slice]

end Range

section Filling

variable {ε σ α : Type}

theorem fillRange_ok [OfViolation ε] {next : Nat → EStateM ε σ Bytes} {r : Range} {span : Span}
    {s s' : σ} {bs dst : Bytes} (hspan : r.span dst.length = .ok span)
    (h : next span.length s = .ok bs s') :
    fillRange next r (s, dst) = .ok () (s', span.splice dst bs) := by
  rw [fillRange, hspan]
  simp only [h]

theorem fillRange_error [OfViolation ε] {next : Nat → EStateM ε σ Bytes} {r : Range} {span : Span}
    {s s' : σ} {e : ε} {dst : Bytes} (hspan : r.span dst.length = .ok span)
    (h : next span.length s = .error e s') :
    fillRange next r (s, dst) = .error e (s', dst) := by
  rw [fillRange, hspan]
  simp only [h]

theorem withBuffer_ok {size : Nat} {x : EStateM ε (σ × Bytes) α} {a : α} {s s' : σ} {buf : Bytes}
    (h : x (s, List.replicate size 0) = .ok a (s', buf)) :
    withBuffer size x s = .ok (a, buf) s' := by
  rw [withBuffer, h]

theorem withBuffer_error {size : Nat} {x : EStateM ε (σ × Bytes) α} {e : ε} {s s' : σ}
    {buf : Bytes} (h : x (s, List.replicate size 0) = .error e (s', buf)) :
    withBuffer size x s = .error e s' := by
  rw [withBuffer, h]

end Filling

end SortKey
