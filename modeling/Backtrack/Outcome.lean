import Backtrack.Failure
import Backtrack.Stream.Basic

/-!
# Three-Way Outcomes

Running a parser ends in one of three ways. Success carries a value and the rest of the
input. A recoverable failure says that this alternative did not match, and an enclosing
choice may try another. A fatal error says that the parse cannot succeed from here, and
no combinator catches it.
-/

namespace Backtrack

/-- The result of running a parser over tokens `τ`. -/
inductive Outcome (τ α : Type) where
  /-- Success, with the value and the position to go on from. -/
  | ok (value : α) (rest : Stream)
  /-- A recoverable failure. -/
  | fail (failure : Failure τ)
  /-- A fatal error. -/
  | error (failure : Failure τ)
  deriving DecidableEq

namespace Outcome

variable {τ α β : Type}

/-- Whether the outcome is a success. -/
def isOk : Outcome τ α → Bool
  | .ok .. => true
  | _ => false

/-- Whether the outcome is a recoverable failure. -/
def isFail : Outcome τ α → Bool
  | .fail _ => true
  | _ => false

/-- Whether the outcome is a fatal error. -/
def isError : Outcome τ α → Bool
  | .error _ => true
  | _ => false

/-- The value of a success. -/
def value? : Outcome τ α → Option α
  | .ok value _ => some value
  | _ => none

/-- The rest of the input after a success. -/
def remaining? : Outcome τ α → Option Stream
  | .ok _ rest => some rest
  | _ => none

/-- The failure of either kind. -/
def failure? : Outcome τ α → Option (Failure τ)
  | .ok .. => none
  | .fail failure | .error failure => some failure

/-- The position reached: behind the consumed input after a success, at the offending
token otherwise. -/
def position : Outcome τ α → Nat
  | .ok _ rest => rest.position
  | .fail failure | .error failure => failure.position

/-- Transforms the value of a success and leaves failures as they are. -/
def map (f : α → β) : Outcome τ α → Outcome τ β
  | .ok value rest => .ok (f value) rest
  | .fail failure => .fail failure
  | .error failure => .error failure

/-- Forgets the value. -/
def forget (o : Outcome τ α) : Outcome τ Unit :=
  o.map fun _ => ()

/-- Goes on after a success, in any monad, and forwards failures unchanged. -/
def andThen {m : Type → Type} [Monad m] (o : Outcome τ α)
    (next : α → Stream → m (Outcome τ β)) : m (Outcome τ β) :=
  match o with
  | .ok value rest => next value rest
  | .fail failure => pure (.fail failure)
  | .error failure => pure (.error failure)

/-- The value and the rest of a success, or the failure as a parse error. -/
def toExcept [Quote τ] : Outcome τ α → Except ParseError (α × Stream)
  | .ok value rest => .ok (value, rest)
  | .fail failure => .error failure.toFailed
  | .error failure => .error failure.toFatal

/-- The text of an outcome: the value in its diagnostic form, or the message. -/
instance [Quote α] : ToString (Outcome τ α) where
  toString
    | .ok value _ => quote value
    | .fail failure => "Fail: " ++ toString failure
    | .error failure => "Error: " ++ toString failure

instance [Quote τ] [Quote α] : Quote (Outcome τ α) where
  quote
    | .ok value rest => Quote.variant "Ok" (quote value ++ ", " ++ quote rest)
    | .fail failure => Quote.variant "Fail" (quote failure)
    | .error failure => Quote.variant "Error" (quote failure)

@[simp]
theorem map_id (o : Outcome τ α) : o.map id = o := by
  cases o <;> rfl

@[simp]
theorem map_map {γ : Type} (o : Outcome τ α) (f : α → β) (g : β → γ) :
    (o.map f).map g = o.map (g ∘ f) := by
  cases o <;> rfl

end Outcome

end Backtrack
