import Backtrack.Parser.Basic

/-!
# Whole Parses

The ways to use a parser from outside. A whole parse announces where it begins and where
it stopped, and gives a value or a parse error; it either insists on the end of input or
gives back what it left over.

## Main definitions

* `Parser.parseFrom`: from a position, with the rest of the input.
* `Parser.parseToEnd`: from a position to the end of input.
* `Parser.parse`, `Parser.parseLeading`: the same over a list of tokens, with the default
  settings.
-/

namespace Backtrack

variable {τ α : Type}

/-- The store whose only source is `source`. -/
def Sources.single (source : Source τ) : Sources τ where
  entries := #[source]

/-- The position at the start of the only source of a store. -/
def Stream.start : Stream where
  source := 0

namespace Parser

/-- A parse from `s` that may leave input over. -/
def parseFrom [Quote τ] (p : Parser τ α) (s : Stream) :
    Run τ (Except ParseError (α × Stream)) := do
  Run.emit (.started s.position)
  let outcome ← p s
  Run.emit (.finished outcome.position)
  return outcome.toExcept

/-- A parse from `s` to the **end of input**. -/
def parseToEnd [Quote τ] (p : Parser τ α) (s : Stream) : Run τ (Except ParseError α) := do
  match ← p.parseFrom s with
  | .error e => return .error e
  | .ok (value, rest) =>
    match ← rest.head.toRun with
    | none => return .ok value
    | some token => return .error (.trailingInput (quote token) rest.position)

/-- A parse of all of `tokens`. -/
def parse [Quote τ] (p : Parser τ α) (tokens : List τ) :
    Option (Step τ (Except ParseError α)) :=
  (p.parseToEnd .start).run (.single (.buffered tokens .standard))

/-- A parse of the first part of `tokens`, with the rest. -/
def parseLeading [Quote τ] (p : Parser τ α) (tokens : List τ) :
    Option (Step τ (Except ParseError (α × Stream))) :=
  (p.parseFrom .start).run (.single (.buffered tokens .standard))

end Parser

end Backtrack
