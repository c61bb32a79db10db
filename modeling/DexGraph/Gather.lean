/-!
# Running an action several times

Counted lists are read by running one action as often as the count says. `gather` keeps the
results in order; the first failure ends it.
-/

namespace DexGraph

variable {m : Type → Type} {α : Type}

/-- Runs an action `n` times and puts its results behind those of `done`. -/
@[specialize] def gatherFrom [Monad m] (done : Array α) : (n : Nat) → m α → m (Array α)
  | 0, _ => pure done
  | n + 1, action => do
    let a ← action
    gatherFrom (done.push a) n action

/-- Runs an action `n` times and gives its results in order. -/
@[inline] def gather [Monad m] (n : Nat) (action : m α) : m (Array α) :=
  gatherFrom #[] n action

/-- Runs an action `n` times. -/
@[specialize] def times [Monad m] : (n : Nat) → m Unit → m Unit
  | 0, _ => pure ()
  | n + 1, action => do
    action
    times n action

end DexGraph
