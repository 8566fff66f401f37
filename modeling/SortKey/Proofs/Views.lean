import SortKey.Proofs.Runs

/-!
# Computations seen through a view

A state may have more to it than what is shown of it. Where a computation does to the whole state
what another does to the part that is shown, their runs tell the same: the same answers, and the
same shown of what is left. It is enough that the steps do, since whatever is made of such
computations is one of them.
-/

namespace SortKey

variable {ε σ τ α γ ι ρ : Type} {f : σ → τ}

/-- A result, with what `f` shows of the state that is left. -/
def seen (f : σ → τ) : EStateM.Result ε σ α → EStateM.Result ε τ α
  | .ok a s => .ok a (f s)
  | .error e s => .error e (f s)

/-- What `x` does to a state, `y` does to what `f` shows of it. -/
def SeenAs (f : σ → τ) (x : EStateM ε σ α) (y : EStateM ε τ α) : Prop :=
  ∀ s, y (f s) = seen f (x s)

theorem seenAs_pure (a : α) : SeenAs f (pure a : EStateM ε σ α) (pure a) := fun _ => rfl

theorem seenAs_throw (e : ε) : SeenAs f (throw e : EStateM ε σ α) (throw e) := fun _ => rfl

theorem seenAs_checked [OfViolation ε] (r : Except Violation α) :
    SeenAs f (checked r : EStateM ε σ α) (checked r) := by
  intro s
  cases r with
  | ok a => rfl
  | error v => rfl

namespace SeenAs

variable {x : EStateM ε σ α} {y : EStateM ε τ α}

theorem ok (h : SeenAs f x y) {s s' : σ} {a : α} (hx : x s = .ok a s') :
    y (f s) = .ok a (f s') := by
  rw [h s, hx, seen]

theorem exists_ok (h : SeenAs f x y) {s : σ} {t : τ} {a : α} (hy : y (f s) = .ok a t) :
    ∃ s', x s = .ok a s' ∧ f s' = t := by
  rw [h s] at hy
  cases hrun : x s with
  | ok a' s' =>
      rw [hrun] at hy
      cases hy
      exact ⟨s', rfl, rfl⟩
  | error e s' =>
      rw [hrun] at hy
      cases hy

theorem bind (h : SeenAs f x y) {g : α → EStateM ε σ γ} {g' : α → EStateM ε τ γ}
    (hg : ∀ a, SeenAs f (g a) (g' a)) : SeenAs f (x >>= g) (y >>= g') := by
  intro s
  have hs := h s
  cases hrun : x s with
  | ok a s' =>
      rw [hrun] at hs
      rw [bind_ok hrun, bind_ok hs, hg]
  | error e s' =>
      rw [hrun] at hs
      rw [bind_error hrun, bind_error hs, seen]

theorem map (h : SeenAs f x y) (g : α → γ) : SeenAs f (g <$> x) (g <$> y) := by
  intro s
  have hs := h s
  cases hrun : x s with
  | ok a s' =>
      rw [hrun] at hs
      rw [map_ok hrun, map_ok hs, seen]
  | error e s' =>
      rw [hrun] at hs
      rw [map_error hrun, map_error hs, seen]

theorem mapM {x : ι → EStateM ε σ α} {y : ι → EStateM ε τ α} (h : ∀ i, SeenAs f (x i) (y i))
    (is : List ι) : SeenAs f (is.mapM x) (is.mapM y) := by
  induction is with
  | nil => exact seenAs_pure []
  | cons i is ih =>
      rw [List.mapM_cons, List.mapM_cons]
      exact (h i).bind fun a => ih.bind fun as => seenAs_pure (a :: as)

theorem outcome_eq (h : SeenAs f x y) (s : σ) : outcome y (f s) = (outcome x s).map id f := by
  have hs := h s
  cases hrun : x s with
  | ok a s' =>
      rw [hrun] at hs
      rw [outcome_ok hrun, outcome_ok hs]
      rfl
  | error e s' =>
      rw [hrun] at hs
      rw [outcome_error hrun, outcome_error hs]
      rfl

/-- What is filled is not part of what `f` shows, and stays as it is. -/
theorem fillRange [OfViolation ε] {next : Nat → EStateM ε σ Bytes} {next' : Nat → EStateM ε τ Bytes}
    (h : ∀ n, SeenAs f (next n) (next' n)) (r : Range) :
    SeenAs (Prod.map f id) (fillRange next r) (fillRange next' r) := by
  rintro ⟨s, dst⟩
  cases hspan : r.span dst.length with
  | error v => simp only [SortKey.fillRange, Prod.map, id, hspan, seen]
  | ok span =>
      have hs := h span.length s
      cases hrun : next span.length s with
      | ok bs s' =>
          rw [hrun] at hs
          rw [fillRange_ok hspan hrun]
          exact fillRange_ok hspan hs
      | error e s' =>
          rw [hrun] at hs
          rw [fillRange_error hspan hrun]
          exact fillRange_error hspan hs

theorem withBuffer {x : EStateM ε (σ × Bytes) α} {y : EStateM ε (τ × Bytes) α}
    (h : SeenAs (Prod.map f id) x y) (size : Nat) :
    SeenAs f (withBuffer size x) (withBuffer size y) := by
  intro s
  have hs := h (s, List.replicate size 0)
  cases hrun : x (s, List.replicate size 0) with
  | ok a s' =>
      rw [hrun] at hs
      rw [withBuffer_ok hrun]
      exact withBuffer_ok hs
  | error e s' =>
      rw [hrun] at hs
      rw [withBuffer_error hrun]
      exact withBuffer_error hs

end SeenAs

/-- Where each step does to what is shown what it does to the state, so does a run. -/
theorem traceAll_map {step : ι → σ → ρ × σ} {step' : ι → τ → ρ × τ}
    (h : ∀ i s, step' i (f s) = (step i s).map id f) (is : List ι) (s : σ) :
    traceAll step' is (f s) = (traceAll step is s).map (Prod.map id f) := by
  induction is generalizing s with
  | nil => rfl
  | cons i is ih =>
      rw [traceAll_cons, traceAll_cons, List.map_cons, h]
      exact congrArg (List.cons _) (ih (step i s).2)

theorem map_fst_traceAll {step : ι → σ → ρ × σ} {step' : ι → τ → ρ × τ}
    (h : ∀ i s, step' i (f s) = (step i s).map id f) (is : List ι) (s : σ) :
    (traceAll step' is (f s)).map Prod.fst = (traceAll step is s).map Prod.fst := by
  rw [traceAll_map h, List.map_map]
  rfl

theorem after_map {step : ι → σ → ρ × σ} {step' : ι → τ → ρ × τ}
    (h : ∀ i s, step' i (f s) = (step i s).map id f) (is : List ι) (s : σ) :
    after step' is (f s) = f (after step is s) := by
  induction is generalizing s with
  | nil => rfl
  | cons i is ih =>
      rw [after_cons, after_cons, h]
      exact ih (step i s).2

end SortKey
