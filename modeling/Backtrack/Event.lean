import Backtrack.Config
import Backtrack.Outcome
import Backtrack.Rule.Phase

/-!
# What Happens in a Run

A run does more than give an outcome: it enters and leaves parsers, looks at tokens, calls
what the grammar brought along, nests references, and meets limits. Each of these is an
event, and a run carries the list of its events in order. The log of a parse and the notes
of a grammar are read off this list.

## Main definitions

* `Event`: one thing that happened.
* `Record`: a line of the log, with its level.
* `Event.record?`: the line that an event leaves in the log, if any.
* `Event.note?`: the note that an event is, if it is one.
-/

namespace Backtrack

/-- What a run can call that the grammar brought along. -/
inductive Callee where
  /-- The test of a token. -/
  | predicate
  /-- The function of a mapping. -/
  | function
  /-- What chooses the parser to go on with. -/
  | continuation
  /-- What builds a deferred rule. -/
  | thunk
  deriving DecidableEq

/-- One thing that happened in a run. -/
inductive Event (τ : Type) where
  /-- A parser was run at `start`. -/
  | entered (start : Stream)
  /-- A parser gave an outcome. -/
  | returned (outcome : Outcome τ Unit)
  /-- Something the grammar brought along was called. -/
  | called (callee : Callee)
  /-- The token at `place` was looked at. -/
  | inspected (place : Stream)
  /-- A reference at `place` became active; `depth` of them are active on its source now. -/
  | descended (place : Stream) (depth : Nat)
  /-- The reference at `place` ended; `depth` of them are left active on its source. -/
  | ascended (place : Stream) (depth : Nat)
  /-- A reference at `place` was refused because `limit` of them were active. -/
  | refused (place : Stream) (limit : Nat)
  /-- A repetition with `items` items so far met a success without progress at `place`. -/
  | stalled (place : Stream) (items : Nat) (policy : RepeatPolicy)
  /-- A commitment made a recoverable failure fatal. -/
  | committed (failure : Failure τ)
  /-- A handle was used at `place` whose rule is not in the phase `defined`. -/
  | unusable (place : Stream) (phase : Phase)
  /-- A whole parse began at a position. -/
  | started (position : Nat)
  /-- A whole parse ended at a position. -/
  | finished (position : Nat)
  /-- The grammar left a note. -/
  | noted (text : String)
  deriving DecidableEq

/-- How much a line of the log matters. -/
inductive Level where
  | trace
  | debug
  | warn
  deriving DecidableEq

instance : ToString Level where
  toString
    | .trace => "TRACE"
    | .debug => "DEBUG"
    | .warn => "WARN"

/-- A line of the log. -/
structure Record where
  /-- How much it matters. -/
  level : Level
  /-- What it says. -/
  message : String
  deriving DecidableEq

/-- A line is written as its level and its message. -/
instance : ToString Record where
  toString r := toString r.level ++ " " ++ r.message

namespace Event

variable {τ : Type}

/-- The line that an event leaves in the log. A stall under the policy `error` leaves none,
as the outcome tells of it. -/
def record? : Event τ → Option Record
  | .started position => some ⟨.trace, "parsing from token " ++ toString position⟩
  | .finished position => some ⟨.trace, "parse stopped at token " ++ toString position⟩
  | .committed failure => some
    ⟨.debug, "committed parse failed at token " ++ toString failure.position ++ ": " ++
      failure.message⟩
  | .stalled place items .stop => some
    ⟨.debug, "repetition stopped without progress at token " ++ toString place.position ++
      " after " ++ toString items ++ " items"⟩
  | .refused place limit => some
    ⟨.warn, Message.recursionLimit limit ++ " at token " ++ toString place.position⟩
  | _ => none

/-- The note of the grammar that an event is. -/
def note? : Event τ → Option String
  | .noted text => some text
  | _ => none

/-- The log of a list of events. -/
def log (events : List (Event τ)) : List Record :=
  events.filterMap record?

/-- The notes among a list of events. -/
def notes (events : List (Event τ)) : List String :=
  events.filterMap note?

@[simp]
theorem log_append (xs ys : List (Event τ)) : log (xs ++ ys) = log xs ++ log ys := by
  simp [log]

end Event

end Backtrack
