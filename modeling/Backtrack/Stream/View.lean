import Backtrack.Stream.Inspect

/-!
# Views of a Stream

A view gathers what there is to be seen at a position. Taking it looks at the token there,
which a lazy source may have to ask for.
-/

namespace Backtrack

/-- What there is to be seen at a position. -/
structure View (τ : Type) where
  /-- The index of the position. -/
  position : Nat
  /-- The token there. -/
  head : Option τ
  /-- Whether the input is over there. -/
  atEnd : Bool
  /-- The text of the stream. -/
  text : String

/-- Takes the view at `s`. -/
def Stream.view {τ : Type} [ToString τ] (s : Stream) : Act τ (View τ) := do
  let head ← s.head
  let atEnd ← s.isEnd
  let text ← s.display
  return { position := s.position, head, atEnd, text }

end Backtrack
