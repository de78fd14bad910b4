import Backtrack.Run.Carrier
import Backtrack.Stream.Inspect

/-!
# Parsers

A parser is a function from a position to a run that ends in an outcome, or to a computation of
another carrier of runs. This module holds the parsers that look at one token at most and the
combinators for sequence, choice, labels and commitment.

Every combinator passes a fatal error on unchanged. Only `orElse` and `optional` react to a
recoverable failure by going on, both from the position they were given, and only
`commit` makes it fatal.

## Main definitions

* `Test`: a predicate on tokens that may leave notes when it is evaluated.
* `Parser.satisfy`, `Parser.eof`, `Parser.succeed`, `Parser.fail`: the primitives.
* `Parser.bind`, `Parser.map`, `Parser.pair`, `Parser.keepRight`, `Parser.keepLeft`,
  `Parser.orElse`, `Parser.optional`, `Parser.label`, `Parser.commit`: the combinators.
* `Parser.calling`: a parser behind a call of something that the grammar brought along.
* `Parser.around`: a parser with a computation before and after it.
* `Parser.observed`: the same parser with its beginning and end among the events.
-/

namespace Backtrack

/-- A **predicate on tokens**, with the notes that evaluating it leaves. -/
structure Test (τ : Type) where
  /-- Whether the token is accepted. -/
  accepts : τ → Bool
  /-- The notes left when the token is tested. -/
  notes : τ → List String := fun _ => []

namespace Test

variable {τ : Type}

/-- Accepts every token. -/
def any : Test τ where
  accepts _ := true

/-- Accepts the tokens equal to `token`. -/
def equals [DecidableEq τ] (token : τ) : Test τ where
  accepts t := t = token

/-- Accepts the tokens whose bare text is `text`. -/
def hasText [ToString τ] (text : String) : Test τ where
  accepts t := toString t = text

end Test

/-- A **parser** over tokens `τ` with values `α`, whose computations are runs unless another
carrier is named. -/
def Parser (τ α : Type) (m : Type → Type := Run τ) : Type := Stream → m (Outcome τ α)

namespace Parser

open Carrier (carry)

variable {τ α β : Type} {m : Type → Type} [Monad m] [Carrier τ m]

/-- Succeeds with `value`, consuming nothing. -/
def succeed (value : α) : Parser τ α m := fun s => return .ok value s

/-- Fails with `message` at the current token. -/
def fail (message : String) : Parser τ α m := fun s => do
  return .fail (← carry (Failure.here message s).toRun)

/-- **One token** that the test accepts. The end of input always fails, and the test is not
evaluated there. -/
def satisfy [Quote τ] (expected : String) (test : Test τ) : Parser τ τ m := fun s => do
  match ← carry s.head.toRun with
  | none =>
    return .fail
      { message := Message.unexpectedEnd expected, found := none, position := s.position }
  | some token =>
    carry (Run.emit (.called .predicate))
    carry (Run.note (test.notes token))
    if test.accepts token then
      let rest ← carry s.tail.toRun
      return .ok token rest
    else
      return .fail
        { message := Message.mismatch expected token, found := some token,
          position := s.position }

/-- Succeeds only at the end of input, consuming nothing. -/
def eof [Quote τ] : Parser τ Unit m := fun s => do
  match ← carry s.head.toRun with
  | none => return .ok () s
  | some token =>
    return .fail
      { message := Message.mismatch Message.endOfInput token, found := some token,
        position := s.position }

/-- The parser `p` after a call of something that the grammar brought along. -/
def calling (callee : Callee) (p : Parser τ α m) : Parser τ α m := fun s => do
  carry (Run.emit (.called callee))
  p s

/-- Runs `p` and then the parser chosen from its value. -/
def bind (p : Parser τ α m) (next : α → Parser τ β m) : Parser τ β m := fun s => do
  (← p s).andThen fun a => calling .continuation (next a)

/-- Transforms the value. -/
def map (f : α → β) (p : Parser τ α m) : Parser τ β m := fun s => do
  (← p s).andThen fun a => calling .function (succeed (f a))

/-- Runs `p`, then `q`, and keeps both values. -/
def pair (p : Parser τ α m) (q : Parser τ β m) : Parser τ (α × β) m := fun s => do
  (← p s).andThen fun a rest => do
    return (← q rest).map fun b => (a, b)

/-- Runs `p`, then `q`, and keeps the value of `q`. -/
def keepRight (p : Parser τ α m) (q : Parser τ β m) : Parser τ β m := fun s => do
  (← p s).andThen fun _ rest => q rest

/-- Runs `p`, then `q`, and keeps the value of `p`. -/
def keepLeft (p : Parser τ α m) (q : Parser τ β m) : Parser τ α m := fun s => do
  (← p s).andThen fun a rest => do
    return (← q rest).map fun _ => a

/-- **Ordered choice**: if `p` fails, runs `q` from the same position. A fatal error of `p`
is the result without a try of `q`. -/
def orElse (p q : Parser τ α m) : Parser τ α m := fun s => do
  match ← p s with
  | .fail _ => q s
  | outcome => return outcome

/-- Runs `p`, if it matches. -/
def optional (p : Parser τ α m) : Parser τ (Option α) m := fun s => do
  match ← p s with
  | .ok a rest => return .ok (some a) rest
  | .fail _ => return .ok none s
  | .error failure => return .error failure

/-- Renames what a recoverable failure of `p` says was expected. -/
def label [Quote τ] (name : String) (p : Parser τ α m) : Parser τ α m := fun s => do
  match ← p s with
  | .fail failure => return .fail (failure.relabel name)
  | outcome => return outcome

/-- **Commitment**: a recoverable failure of `p` becomes fatal. -/
def commit (p : Parser τ α m) : Parser τ α m := fun s => do
  match ← p s with
  | .fail failure =>
    carry (Run.emit (.committed failure))
    return .error failure
  | outcome => return outcome

/-- Runs `p` where `before` says and gives what `after` makes of the outcome; both know the
position at which the whole is run. -/
def around (before : Stream → Act τ Stream)
    (after : Stream → Outcome τ α → Act τ (Outcome τ β)) (p : Parser τ α m) : Parser τ β m :=
  fun s => do
    let start ← carry (before s).toRun
    let outcome ← p start
    carry (after s outcome).toRun

/-- The same parser, leaving an event when it begins and one with its outcome when it
ends. -/
def observed (p : Parser τ α m) : Parser τ α m := fun s => do
  carry (Run.emit (.entered s))
  let outcome ← p s
  carry (Run.emit (.returned outcome.forget))
  return outcome

end Parser

end Backtrack
