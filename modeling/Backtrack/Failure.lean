import Backtrack.Message
import Backtrack.ParseError

/-!
# Failures

Inside a parse, failure is plain data: what went wrong, the token that was found there,
and where. Whether it can be recovered from is told by the outcome that carries it and
not by the failure, so that to commit to a branch is only to move a failure from one kind
of outcome to the other.
-/

namespace Backtrack

/-- The diagnostic that a failed outcome carries. -/
structure Failure (τ : Type) where
  /-- What went wrong. -/
  message : String
  /-- The offending token; `none` at the end of input. -/
  found : Option τ
  /-- The index of the offending token. -/
  position : Nat
  deriving DecidableEq

namespace Failure

variable {τ : Type}

/-- The bare text of a failure is its message. -/
instance : ToString (Failure τ) where
  toString := Failure.message

instance [Quote τ] : Quote (Failure τ) where
  quote f := Quote.record "Failure"
    [("message", quote f.message), ("found", quote f.found), ("position", quote f.position)]

/-- The offending token in its diagnostic form. -/
def foundText [Quote τ] (f : Failure τ) : Option String :=
  f.found.map quote

/-- The failure as a recoverable parse error. -/
def toFailed [Quote τ] (f : Failure τ) : ParseError :=
  .failed f.message f.foundText f.position

/-- The failure as a fatal parse error. -/
def toFatal [Quote τ] (f : Failure τ) : ParseError :=
  .fatal f.message f.foundText f.position

/-- The same failure with the text that asks for `expected` where this one was found. -/
def relabel [Quote τ] (f : Failure τ) (expected : String) : Failure τ :=
  { f with message := Message.wanted expected f.found }

end Failure

end Backtrack
