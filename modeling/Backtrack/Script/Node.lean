import Backtrack.Script.Function
import Backtrack.Script.Predicate

/-!
# Scripts

A script is a grammar as plain data, with the functions, predicates and continuations that
its nodes need given by name. It can be read from a file, kept in a register, and compiled
to a grammar any number of times.

## Main definitions

* `Node`: the nodes of a script.
* `Continuation`: what may follow a node, depending on its value.
* `Branches`: the cases of a continuation.
-/

namespace Backtrack.Script

mutual

/-- The **nodes of a script** over tokens `τ`. -/
inductive Node (τ : Type) where
  /-- Success with a value. -/
  | succeed (value : Value τ)
  /-- Failure with a message. -/
  | fail (message : String)
  /-- Any token. -/
  | anyToken (expected : String)
  /-- The end of input. -/
  | eof
  /-- A given token. -/
  | token (token : τ)
  /-- A token with a given text. -/
  | text (text : String)
  /-- A token that passes a test. -/
  | satisfy (expected : String) (predicate : Predicate τ)
  /-- One after another, with both values. -/
  | pair (p q : Node τ)
  /-- One after another, with the second value. -/
  | keepRight (p q : Node τ)
  /-- One after another, with the first value. -/
  | keepLeft (p q : Node τ)
  /-- The first or, where it fails, the second. -/
  | orElse (p q : Node τ)
  /-- The value transformed. -/
  | map (p : Node τ) (f : Function)
  /-- A node, then what its value asks for. -/
  | bind (p : Node τ) (next : Continuation τ)
  /-- The value replaced. -/
  | replace (p : Node τ) (value : Value τ)
  /-- The expectation renamed. -/
  | label (name : String) (p : Node τ)
  /-- Failures made fatal. -/
  | commit (p : Node τ)
  /-- May match or not. -/
  | optional (p : Node τ)
  /-- Whether it matched. -/
  | matched (p : Node τ)
  /-- Zero or more. -/
  | many (p : Node τ)
  /-- One or more. -/
  | many1 (p : Node τ)
  /-- One or more with separators between. -/
  | sepBy1 (p separator : Node τ)
  /-- A rule of the table, compiled anew each time. -/
  | deferred (rule : String)
  /-- A rule defined here. -/
  | recursive (name : String) (p : Node τ)
  /-- The handle of a rule defined around. -/
  | handle (name : String)
  /-- The handle of a rule that is still being defined. -/
  | early (name : String) (p : Node τ)
  /-- The handle of a rule that nobody holds. -/
  | orphan (name : String) (p : Node τ)
  /-- A node with nothing consumed. -/
  | peek (p : Node τ)
  /-- A node with notes of its beginning and end. -/
  | spy (name : String) (p : Node τ)
  /-- A fatal error. -/
  | raise (message : String)
  /-- The current position. -/
  | here
  /-- Going on in another source. -/
  | splice (tokens : List τ)
  /-- A node over another source. -/
  | sub (tokens : List τ) (p : Node τ)

/-- What may follow a node, depending on its value. -/
inductive Continuation (τ : Type) where
  /-- A token with the text of the value. -/
  | echo
  /-- Success with a function of the value. -/
  | give (f : Function)
  /-- Failure with a message that ends in the text of the value. -/
  | fail (message : String)
  /-- The branch that the text of the value selects. -/
  | select (branches : Branches τ) (otherwise : Node τ)
  /-- As many times as the value, which is a number, says. -/
  | times (p : Node τ)

/-- Nodes by the text that selects them; the first match counts. -/
inductive Branches (τ : Type) where
  /-- No branch. -/
  | none
  /-- A branch before others. -/
  | cons (key : String) (p : Node τ) (rest : Branches τ)

end

end Backtrack.Script
