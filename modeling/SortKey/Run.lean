/-!
# Runs of steps

A computation with a state answers a value or an error and leaves a state behind in either case. A
run of steps lists every answer together with the state after it, and ends early after an answer
that the run does not survive.
-/

namespace SortKey

variable {ε σ α ι ρ : Type}

/-- The answer of a computation and the state it leaves behind. -/
def outcome (x : EStateM ε σ α) (s : σ) : Except ε α × σ :=
  match x s with
  | .ok a s' => (.ok a, s')
  | .error e s' => (.error e, s')

def isFailure : Except ε α → Bool
  | .ok _ => false
  | .error _ => true

/-- Runs steps one after another, up to the first answer that stops the run. -/
def trace (stop : ρ → Bool) (step : ι → σ → ρ × σ) : List ι → σ → List (ρ × σ)
  | [], _ => []
  | i :: is, s =>
      let (r, s') := step i s
      (r, s') :: if stop r then [] else trace stop step is s'

def traceAll (step : ι → σ → ρ × σ) : List ι → σ → List (ρ × σ) := trace (fun _ => false) step

end SortKey
