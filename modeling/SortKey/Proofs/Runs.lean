import SortKey.Proofs.Steps

/-!
# Where a run has come to

A run in which every step is carried out leaves a state, which is the fold of its steps. The answer
of a step is what it says in the state that the steps before it have left. Steps that leave the
state as it was can be dropped from a run, and the others say what they said before.
-/

namespace SortKey

variable {ι ρ σ : Type}

/-- The state that a run leaves. -/
def after (step : ι → σ → ρ × σ) (is : List ι) (s : σ) : σ :=
  is.foldl (fun s i => (step i s).2) s

/-- The steps of a run whose answers pass. -/
def passing (pass : ρ → Bool) (step : ι → σ → ρ × σ) : List ι → σ → List ι
  | [], _ => []
  | i :: is, s =>
      if pass (step i s).1 then i :: passing pass step is (step i s).2
      else passing pass step is (step i s).2

variable (step : ι → σ → ρ × σ)

theorem after_cons (i : ι) (is : List ι) (s : σ) :
    after step (i :: is) s = after step is (step i s).2 := rfl

theorem after_concat (is : List ι) (i : ι) (s : σ) :
    after step (is ++ [i]) s = (step i (after step is s)).2 := by
  rw [after, List.foldl_append]
  rfl

theorem traceAll_append (is js : List ι) (s : σ) :
    traceAll step (is ++ js) s = traceAll step is s ++ traceAll step js (after step is s) := by
  induction is generalizing s with
  | nil => rfl
  | cons i is ih =>
      rw [List.cons_append, traceAll_cons, traceAll_cons, ih, after_cons, List.cons_append]

theorem traceAll_middle (before : List ι) (i : ι) (rest : List ι) (s : σ) :
    (traceAll step (before ++ i :: rest) s)[before.length]? =
      some (step i (after step before s)) := by
  induction before generalizing s with
  | nil => rfl
  | cons j before ih => exact ih (step j s).2

/-- Where a change of the state shows in no answer and can be made after each step as well as before
it, it can be made after the run as well as before it. -/
theorem after_intertwined {step : ι → σ → ρ × σ} {P : σ → Prop} {f : σ → σ} {is : List ι}
    (h : ∀ i ∈ is, ∀ s, P s → P (step i s).2 ∧ step i (f s) = (step i s).map id f) {s : σ}
    (hs : P s) :
    P (after step is s) ∧ after step is (f s) = f (after step is s) ∧
      (traceAll step is (f s)).map Prod.fst = (traceAll step is s).map Prod.fst := by
  induction is generalizing s with
  | nil => exact ⟨hs, rfl, rfl⟩
  | cons i is ih =>
      obtain ⟨hhead, htail⟩ := List.forall_mem_cons.mp h
      obtain ⟨hkeep, hstep⟩ := hhead s hs
      obtain ⟨hP, hafter, hanswers⟩ := ih htail hkeep
      rw [after_cons, after_cons, traceAll_cons, traceAll_cons, hstep]
      exact ⟨hP, hafter, congrArg (List.cons _) hanswers⟩

section Passing

variable {step} {pass : ρ → Bool}

theorem traceAll_passing (h : ∀ i s, pass (step i s).1 = false → (step i s).2 = s) (is : List ι)
    (s : σ) :
    traceAll step (passing pass step is s) s =
      (traceAll step is s).filter fun x => pass x.1 := by
  induction is generalizing s with
  | nil => rfl
  | cons i is ih =>
      rw [passing, traceAll_cons, List.filter_cons]
      by_cases hpass : pass (step i s).1 = true
      · rw [if_pos hpass, if_pos hpass, traceAll_cons, ih]
      · have hstay := h i s (Bool.eq_false_iff.mpr hpass)
        rw [if_neg hpass, if_neg hpass, hstay, ih]

theorem after_passing (h : ∀ i s, pass (step i s).1 = false → (step i s).2 = s) (is : List ι)
    (s : σ) : after step (passing pass step is s) s = after step is s := by
  induction is generalizing s with
  | nil => rfl
  | cons i is ih =>
      rw [passing, after_cons]
      by_cases hpass : pass (step i s).1 = true
      · rw [if_pos hpass, after_cons, ih]
      · have hstay := h i s (Bool.eq_false_iff.mpr hpass)
        rw [if_neg hpass, hstay, ih]

end Passing

end SortKey
