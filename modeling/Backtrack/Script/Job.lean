import Backtrack.Grammar.Interpret
import Backtrack.Parser.Entry
import Backtrack.Script.Compile
import Backtrack.Script.Feed
import Backtrack.Stream.View

/-!
# Jobs

A job runs one script over one source and reports. It ends either with the outcome of the
script at a position, or with the result of a whole parse.

## Main definitions

* `Node.parser`: the parser of a script, with fuel for any practical nesting.
* `Job`: a script, its table of rules, a feed and a start.
* `Job.outcome`, `Job.result`: the two ways to run it.
-/

namespace Backtrack.Script

variable {τ : Type} [DecidableEq τ] [Quote τ] [ToString τ]

/-- Fuel beyond what any stack of references or repetition reaches in practice. -/
def ample : Nat := Nat.pow 2 48

/-- The parser of a grammar of a script outside all rules. -/
def parserOf (table : Table τ) (g : Compiled τ) : Parser τ (Value τ) :=
  Grammar.parser table.rules ample .empty g

/-- The ways in which a job can do a whole parse. -/
inductive Entry where
  /-- All of the tokens, under the default settings. -/
  | all
  /-- The first part of the tokens, under the default settings. -/
  | leading
  /-- From the start of the job to the end of its source. -/
  | stream
  deriving DecidableEq

/-- One script to be run over one source. -/
structure Job (τ : Type) where
  /-- The deferred rules. -/
  table : Table τ
  /-- The script. -/
  node : Node τ
  /-- The tokens. -/
  feed : Feed τ
  /-- The number of tokens to skip before the start. -/
  start : Nat := 0

/-- What is told of a script that was run at a position. -/
structure OutcomeReport (τ : Type) where
  /-- The outcome. -/
  outcome : Outcome τ (Value τ)
  /-- The number of requests made of the supply by then. -/
  requests : Nat
  /-- What there is behind the consumed input, looked at afterwards. -/
  rest : Option (View τ)

/-- What is told of a whole parse: the value, with the rest if the parse may leave one. -/
abbrev ParseReport (τ : Type) : Type := Except ParseError (Value τ × Option (View τ))

namespace Job

/-- The parser of the job. -/
def parser (job : Job τ) : Parser τ (Value τ) := parserOf job.table job.node.compile

/-- The position at which the job starts. -/
def origin (job : Job τ) : Act τ Stream := do
  (← Act.openSource job.feed.source).skip job.start

/-- Runs the script at its start and looks at what is left. -/
def outcome (job : Job τ) : Run τ (OutcomeReport τ) := do
  let s ← job.origin.toRun
  let outcome ← job.parser s
  let requests ← s.requests.toRun
  match outcome with
  | .ok _ rest => return { outcome, requests, rest := some (← rest.view.toRun) }
  | _ => return { outcome, requests, rest := none }

/-- Does a whole parse. -/
def result (job : Job τ) (entry : Entry) : Run τ (ParseReport τ) := do
  let buffered := { job with feed := { job.feed with onDemand := false, config := {} }, start := 0 }
  match entry with
  | .stream =>
    let s ← job.origin.toRun
    return (← job.parser.parseToEnd s).map fun value => (value, none)
  | .all =>
    let s ← buffered.origin.toRun
    return (← job.parser.parseToEnd s).map fun value => (value, none)
  | .leading =>
    let s ← buffered.origin.toRun
    match ← job.parser.parseFrom s with
    | .ok (value, rest) => return .ok (value, some (← rest.view.toRun))
    | .error e => return .error e

end Job

end Backtrack.Script
