import Backtrack.Text.Quote

/-!
# Stream Positions

A stream is an immutable position in a token source. Advancing builds a new position and
leaves the old one as it was, so any position can be handed to as many attempts as
needed, and backtracking is to go on using the position one already has.
-/

namespace Backtrack

/-- A **position in a token source**. Two streams are equal exactly when they view the same
source at the same position. -/
structure Stream where
  /-- The name of the source in the store of the run. -/
  source : Nat
  /-- The index of the current token; at the end of input, the number of tokens. -/
  position : Nat := 0
  deriving DecidableEq, Inhabited

namespace Stream

/-- The position after this one, whether or not there is a token here. -/
def advance (s : Stream) : Stream :=
  { s with position := s.position + 1 }

/-- The diagnostic form tells the position and leaves the source out. -/
instance : Quote Stream where
  quote s := Quote.openRecord "Stream" [("position", quote s.position)]

end Stream

end Backtrack
