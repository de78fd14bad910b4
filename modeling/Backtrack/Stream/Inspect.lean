import Backtrack.Run.Basic

/-!
# Looking at a Stream

Looking at a position of a lazy source may ask its supply for tokens, so every operation
that depends on the token there is a computation. Position, equality and diagnostic form
of a stream ask for nothing.

## Main definitions

* `Stream.head`, `Stream.isEnd`, `Stream.tail`: the token here, whether there is none, and
  the position behind it.
* `Stream.descend`, `Stream.ascend`: entering and leaving a level of rule references.
* `Failure.here`: a failure at a position.
-/

namespace Backtrack

variable {τ : Type}

namespace Stream

/-- The token at this position, or `none` at the end of input. -/
def head (s : Stream) : Act τ (Option τ) := fun sources =>
  let looked := sources.modify s.source (·.look s.position)
  ⟨(looked.get s.source).tape.token? s.position, looked, [.inspected s]⟩

/-- Whether the input is over here. -/
def isEnd (s : Stream) : Act τ Bool := do
  return (← s.head).isNone

/-- The position behind the current token; at the end of input, the same position. -/
def tail (s : Stream) : Act τ Stream := do
  if ← s.isEnd then return s else return s.advance

/-- The loop of `skip`: `past` is what happened so far, newest first. -/
def skipBehind : (n : Nat) → (s : Stream) → (past : List (Event τ)) → Sources τ →
    Progress τ Stream
  | 0, s, past, sources => ⟨s, sources, past⟩
  | n + 1, s, past, sources =>
    match s.tail.run sources with
    | ⟨rest, sources, events⟩ =>
      if rest = s then ⟨s, sources, events.reverseAux past⟩
      else skipBehind n rest (events.reverseAux past) sources

/-- The position behind `n` tokens, or the end of input if it comes before. -/
def skip (s : Stream) (n : Nat) : Act τ Stream := fun sources =>
  let last := skipBehind n s [] sources
  ⟨last.value, last.sources, last.past.reverse⟩

/-- The settings of the source. -/
def config (s : Stream) : Act τ Config := fun sources =>
  ⟨(sources.get s.source).config, sources, []⟩

/-- The number of requests that the source has made of its supply. -/
def requests (s : Stream) : Act τ Nat := fun sources =>
  ⟨(sources.get s.source).tape.requests, sources, []⟩

/-- Whether the source has let go of its supply. -/
def released (s : Stream) : Act τ Bool := fun sources =>
  ⟨(sources.get s.source).tape.released, sources, []⟩

/-- **Enters one level** of rule references, or gives the limit that forbids it. -/
def descend (s : Stream) : Act τ (Except Nat Unit) := fun sources =>
  let source := sources.get s.source
  match source.config.admits source.depth with
  | .error limit => ⟨.error limit, sources, []⟩
  | .ok () =>
    ⟨.ok (), sources.modify s.source .enter, [.descended s (source.depth + 1)]⟩

/-- Leaves one level of rule references. -/
def ascend (s : Stream) : Act τ Unit := fun sources =>
  let left := sources.modify s.source .leave
  ⟨(), left, [.ascended s (left.get s.source).depth]⟩

/-- The text of a stream: its current token, or the mark of the end. -/
def display [ToString τ] (s : Stream) : Act τ String := do
  match ← s.head with
  | some token => return "[" ++ toString token ++ ", ...]"
  | none => return "[END]"

end Stream

/-- A failure at the position `s`, about the token there. -/
def Failure.here (message : String) (s : Stream) : Act τ (Failure τ) := do
  return { message, found := ← s.head, position := s.position }

end Backtrack
