import Backtrack.Parser.Basic

/-!
# Predicates of Scripts

The tests of a token that a script can name. A test by text looks at the bare text of the
token and knows ASCII digits and letters only.
-/

namespace Backtrack.Script

/-- The tests of a token that a script can name. -/
inductive Predicate (τ : Type) where
  /-- Every token. -/
  | anything
  /-- No token. -/
  | nothing
  /-- A token whose text is one or more digits. -/
  | digits
  /-- A token whose text is one or more letters. -/
  | letters
  /-- One of the given tokens. -/
  | oneOf (tokens : List τ)
  /-- A token that fails another test. -/
  | negated (p : Predicate τ)
  /-- Another test, with a note of each answer. -/
  | spied (name : String) (p : Predicate τ)

namespace Predicate

variable {τ : Type}

/-- Whether the text of a token is not empty and made of characters of one class. -/
def madeOf [ToString τ] (p : Char → Bool) (token : τ) : Bool :=
  let text := (toString token).toList
  !text.isEmpty && text.all p

/-- The test that a predicate names. -/
def test [DecidableEq τ] [ToString τ] : Predicate τ → Test τ
  | .anything => .any
  | .nothing => { accepts := fun _ => false }
  | .digits => { accepts := madeOf Char.isDigit }
  | .letters => { accepts := madeOf Char.isAlpha }
  | .oneOf tokens => { accepts := fun t => decide (t ∈ tokens) }
  | .negated p =>
    let inner := p.test
    { accepts := fun t => !inner.accepts t, notes := inner.notes }
  | .spied name p =>
    let inner := p.test
    { accepts := inner.accepts
      notes := fun t => inner.notes t ++
        ["?" ++ name ++ " " ++ toString t ++ " " ++ quote (inner.accepts t)] }

end Predicate

end Backtrack.Script
