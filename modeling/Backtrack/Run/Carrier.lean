import Backtrack.Run.Basic

/-!
# Carriers of Runs

A combinator says in which order its parts are run and what is done between them. It does not
say what else is kept on the way, so it is written once for every monad that can carry runs:
runs themselves, runs that keep a ledger, and runs that are watched.

A carrier is also told what is done inside a reference. A run makes nothing of it.
-/

namespace Backtrack

/-- A monad that **carries runs**. -/
class Carrier (τ : outParam Type) (m : Type → Type) where
  /-- Carries a run out. -/
  carry {α : Type} : Run τ α → m α
  /-- What is done inside a reference. -/
  inside {α : Type} : m α → m α

/-- A run carries itself, and does the same inside a reference and outside. -/
@[always_inline]
instance Run.carrier (τ : Type) : Carrier τ (Run τ) where
  carry r := r
  inside r := r

/-- Runs that keep a state carry runs, which leave the state alone. -/
instance StateT.carrier {τ : Type} {m : Type → Type} [Monad m] [Carrier τ m] (ρ : Type) :
    Carrier τ (StateT ρ m) where
  carry r := StateT.lift (Carrier.carry r)
  inside r := fun state => Carrier.inside (r state)

namespace Run

variable {τ α : Type}

@[simp]
theorem carry_eq (r : Run τ α) : (Carrier.carry r : Run τ α) = r := rfl

@[simp]
theorem inside_eq (r : Run τ α) : Carrier.inside r = r := rfl

end Run

end Backtrack
