import Backtrack.Parser.Basic

/-!
# Nesting of References

A reference to a rule is entered one level deeper than the parser that makes it, and the
level is given back when the rule ends, however it ends. The settings may limit the
number of levels; a reference past the limit is refused with a fatal error, so that a
grammar that never stops referring to itself ends.
-/

namespace Backtrack.Parser

open Carrier (carry)

variable {τ α : Type} {m : Type → Type} [Monad m] [Carrier τ m]

/-- The refusal of a reference while `limit` of them are active. -/
def refuse (limit : Nat) (s : Stream) : Act τ (Outcome τ α) := do
  Act.emit (.refused s limit)
  return .error (← Failure.here (Message.recursionLimit limit) s)

/-- The parser `p` as what a reference leads to, which its carrier may take note of. -/
def inside (p : Parser τ α m) : Parser τ α m := fun s => Carrier.inside (p s)

/-- A run makes nothing of it. -/
@[simp]
theorem inside_eq (p : Parser τ α) : p.inside = p := rfl

/-- Runs `p` **one level deeper**, or refuses to. -/
def nested (p : Parser τ α m) : Parser τ α m := fun s => do
  match ← carry s.descend.toRun with
  | .error limit => carry (refuse limit s).toRun
  | .ok () =>
    let outcome ← p s
    carry s.ascend.toRun
    return outcome

/-- A rule that is built anew each time it is referred to. -/
def deferred (p : Parser τ α m) : Parser τ α m :=
  nested (calling .thunk p).inside

/-- The use of a rule that has no body. -/
def unusable (phase : Phase) (message : String) : Parser τ α m := fun s => do
  carry (Run.emit (.unusable s phase))
  return .error (← carry (Failure.here message s).toRun)

/-- The **handle** of a rule with the body `p`. In the phase `defined` it runs the body one
level deeper. Before, it is entered like any reference and finds no body; afterwards, it
is an error at once, whatever the level. -/
def handle (phase : Phase) (p : Parser τ α m) : Parser τ α m :=
  match phase with
  | .undefined => nested (unusable .undefined Message.undefinedRule).inside
  | .defined => nested p.inside
  | .dropped => unusable .dropped Message.droppedRule

end Backtrack.Parser
