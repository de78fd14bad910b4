import Backtrack.Rule.Shelf
import Backtrack.Script.Job

/-!
# Sessions

A session keeps streams, parsers, outcomes and settings in registers, and carries out
commands on them one at a time. The sources that the streams view belong to the run, so
what one command asks of a lazy supply is there for the next.

A supply is watched through the registers that its stream, or a stream made from that one,
went into, even where a parse went on in another source meanwhile. It is let go when it has
answered `none`, and also when no register holds a position in its source any more.

## Main definitions

* `Session`: the registers.
* `Session.views`: whether a source can still be read.
* `Command`, `Answer`: what can be asked, and what is told.
* `Session.perform`: one command.
-/

namespace Backtrack.Script

/-- What a parser register holds. -/
inductive Item (τ : Type) where
  /-- A parser from a script. -/
  | script (node : Node τ)
  /-- A rule, known as `name` in its body. -/
  | rule (name : String) (body : Node τ)
  /-- The handle of the rule with that number. -/
  | handle (number : Nat) (name : String) (body : Node τ)

/-- What a stream register holds. -/
structure Track where
  /-- The stream. -/
  stream : Stream
  /-- The start of the source whose supply is watched through this register. -/
  origin : Stream

/-- The registers of a session. -/
structure Session (τ : Type) where
  /-- The deferred rules of all scripts. -/
  table : Table τ
  /-- The streams. -/
  streams : Registers Track := {}
  /-- The parsers. -/
  parsers : Shelf (Item τ) := {}
  /-- The outcomes. -/
  outcomes : Registers (Outcome τ (Value τ)) := {}
  /-- The settings. -/
  configs : Registers Config := {}

/-- Where a failure made by hand is placed. -/
inductive Site (τ : Type) where
  /-- At the current token of a stream. -/
  | stream (register : String)
  /-- At a position and token given. -/
  | given (found : Option τ) (position : Nat)

/-- A change of settings. -/
inductive ConfigCall where
  /-- A nesting limit. -/
  | maxDepth (limit : Nat)
  /-- No nesting limit. -/
  | noLimit
  /-- A repetition policy. -/
  | repetition (policy : RepeatPolicy)

/-- The settings after a change. -/
def ConfigCall.apply (config : Config) : ConfigCall → Config
  | .maxDepth limit => config.withMaxDepth limit
  | .noLimit => config.withoutDepthLimit
  | .repetition policy => config.withRepeatPolicy policy

/-- What a session can be asked to do. A result goes into the register `into`, if one is
named. -/
inductive Command (τ : Type) where
  /-- Opens a source. -/
  | stream (into : Option String) (feed : Feed τ)
  /-- The position behind the current token. -/
  | tail (on : String) (into : Option String)
  /-- Copies a stream. -/
  | clone (on : String) (into : Option String)
  /-- The current token. -/
  | head (on : String)
  /-- Whether the input is over. -/
  | isEnd (on : String)
  /-- The position of a stream. -/
  | position (on : String)
  /-- The text of a stream. -/
  | text (on : String)
  /-- The diagnostic form of a stream. -/
  | form (on : String)
  /-- The settings of a stream. -/
  | streamConfig (on : String)
  /-- What was asked of the supply of a stream. -/
  | requests (on : String)
  /-- Whether two streams are equal. -/
  | sameStream (a b : String)
  /-- Makes settings from those in a register, or from the default ones. -/
  | config (into base : Option String) (calls : List ConfigCall)
  /-- Whether two settings are equal. -/
  | sameConfig (a b : String)
  /-- Builds a parser. -/
  | parser (into : Option String) (node : Node τ)
  /-- Builds a rule and keeps it and its handle. -/
  | recursive (into handle : Option String) (name : String) (body : Node τ)
  /-- Copies a parser. -/
  | copy (on : String) (into : Option String)
  /-- Drops a parser. -/
  | drop (on : String)
  /-- Runs a parser. -/
  | run (on parser : String) (into rest : Option String)
  /-- Does a whole parse. -/
  | parse (on parser : String)
  /-- Makes a success by hand. -/
  | makeOk (on : String) (value : Value τ) (into : Option String)
  /-- Makes a recoverable failure by hand. -/
  | makeFail (message : String) (site : Site τ) (into : Option String)
  /-- Makes a fatal error by hand. -/
  | makeError (message : String) (site : Site τ) (into : Option String)
  /-- Transforms the value of an outcome. -/
  | mapValue (on : String) (f : Function) (into : Option String)
  /-- Goes on with a parser after an outcome. -/
  | andThen (on parser : String) (into : Option String)
  /-- The value of an outcome. -/
  | value (on : String)
  /-- The value and rest of an outcome, or its parse error. -/
  | result (on : String)
  /-- The rest of an outcome. -/
  | remaining (on : String)
  /-- The diagnostic form of an outcome. -/
  | outcomeForm (on : String)
  /-- Whether two outcomes are equal. -/
  | sameOutcome (a b : String)
  /-- Makes a failure and shows it. -/
  | failure (message : String) (site : Site τ)

/-- What a session tells. -/
inductive Answer (τ : Type) where
  /-- Nothing. -/
  | nothing
  /-- A number. -/
  | number (n : Nat)
  /-- A truth value. -/
  | flag (b : Bool)
  /-- A text. -/
  | text (s : String)
  /-- A token, if there is one. -/
  | token (t : Option τ)
  /-- The settings of a stream. -/
  | streamConfig (config : Config)
  /-- Settings that were made. -/
  | config (config : Config)
  /-- The requests made of a supply, and whether it was let go. -/
  | requests (calls : Nat) (released : Bool)
  /-- An outcome. -/
  | outcome (outcome : Outcome τ (Value τ))
  /-- The result of a whole parse. -/
  | parsed (result : Except ParseError (Value τ))
  /-- A value, if there is one. -/
  | value (value : Option (Value τ))
  /-- A value and what is left, or a parse error. -/
  | result (result : Except ParseError (Value τ × View τ))
  /-- What is left, if anything can be. -/
  | remaining (rest : Option (View τ))
  /-- A failure. -/
  | failure (failure : Failure τ)
  /-- A register that holds nothing was named. -/
  | missing (register : String)

namespace Session

variable {τ : Type} [DecidableEq τ] [Quote τ] [ToString τ]

/-- The parser that an item stands for, given the phases of the rules. -/
def itemParser (session : Session τ) : Item τ → Parser τ (Value τ)
  | .script node => parserOf session.table node.compile
  | .rule name body => parserOf session.table (Grammar.recursive name body.compile)
  | .handle number name body =>
    let g : Compiled τ :=
      .withRule name (session.parsers.phase number) body.compile (.handle name)
    parserOf session.table g

/-- **Whether a source can still be read**: some register holds a position in it, as a stream
or as the rest of an outcome. -/
def views (session : Session τ) (source : Nat) : Bool :=
  session.streams.any (fun track => decide (track.stream.source = source)) ||
    session.outcomes.any fun o => o.remaining?.any fun s => decide (s.source = source)

/-- Keeps a stream that was made from the one of `track`. -/
def follow (session : Session τ) (into : Option String) (track : Track) (s : Stream) :
    Session τ :=
  { session with streams := session.streams.put? into { track with stream := s } }

/-- Goes on with what a stream register holds. -/
def withTrack (session : Session τ) (register : String)
    (next : Track → Run τ (Session τ × Answer τ)) : Run τ (Session τ × Answer τ) :=
  match session.streams.get? register with
  | some track => next track
  | none => return (session, .missing register)

/-- Goes on with the stream in a register. -/
def withStream (session : Session τ) (register : String)
    (next : Stream → Run τ (Session τ × Answer τ)) : Run τ (Session τ × Answer τ) :=
  session.withTrack register fun track => next track.stream

/-- Goes on with the parser in a register. -/
def withParser (session : Session τ) (register : String)
    (next : Parser τ (Value τ) → Run τ (Session τ × Answer τ)) : Run τ (Session τ × Answer τ) :=
  match session.parsers.get? register with
  | some item => next (session.itemParser item)
  | none => return (session, .missing register)

/-- Goes on with the outcome in a register. -/
def withOutcome (session : Session τ) (register : String)
    (next : Outcome τ (Value τ) → Run τ (Session τ × Answer τ)) : Run τ (Session τ × Answer τ) :=
  match session.outcomes.get? register with
  | some o => next o
  | none => return (session, .missing register)

/-- Tells an outcome and keeps it, if a register is named. -/
def tell (session : Session τ) (into : Option String) (o : Outcome τ (Value τ)) :
    Session τ × Answer τ :=
  ({ session with outcomes := session.outcomes.put? into o }, .outcome o)

/-- Goes on with the failure that has the given message at the given site. -/
def withFailure (session : Session τ) (message : String) (site : Site τ)
    (next : Failure τ → Run τ (Session τ × Answer τ)) : Run τ (Session τ × Answer τ) :=
  match site with
  | .given found position => next { message, found, position }
  | .stream register => session.withStream register fun s => do
    next (← (Failure.here message s).toRun)

/-- **One command.** -/
def perform (session : Session τ) : Command τ → Run τ (Session τ × Answer τ)
  | .stream into feed => do
    let s ← (Act.openSource feed.source).toRun
    return (session.follow into ⟨s, s⟩ s, .nothing)
  | .tail on into => session.withTrack on fun track => do
    let rest ← track.stream.tail.toRun
    return (session.follow into track rest, .number rest.position)
  | .clone on into => session.withTrack on fun track =>
    return (session.follow into track track.stream, .nothing)
  | .head on => session.withStream on fun s => do
    return (session, .token (← s.head.toRun))
  | .isEnd on => session.withStream on fun s => do
    return (session, .flag (← s.isEnd.toRun))
  | .position on => session.withStream on fun s => return (session, .number s.position)
  | .text on => session.withStream on fun s => do
    return (session, .text (← s.display.toRun))
  | .form on => session.withStream on fun s => return (session, .text (quote s))
  | .streamConfig on => session.withStream on fun s => do
    return (session, .streamConfig (← s.config.toRun))
  | .requests on => session.withTrack on fun track => do
    let calls ← track.origin.requests.toRun
    let released ← track.origin.released.toRun
    return (session, .requests calls (released || !session.views track.origin.source))
  | .sameStream a b => session.withStream a fun s => session.withStream b fun t =>
    return (session, .flag (s = t))
  | .config into base calls =>
    let start := (base.bind session.configs.get?).getD .standard
    let config := calls.foldl ConfigCall.apply start
    return ({ session with configs := session.configs.put? into config }, .config config)
  | .sameConfig a b =>
    match session.configs.get? a, session.configs.get? b with
    | some x, some y => return (session, .flag (x = y))
    | none, _ => return (session, .missing a)
    | _, none => return (session, .missing b)
  | .parser into node =>
    return ({ session with parsers := session.parsers.put into (.script node) [] },
      .text (Quote.openRecord "Parser" []))
  | .recursive into handle name body =>
    let (number, declared) := session.parsers.declare
    let parsers := (declared.define number into (.rule name body) []).put handle
      (.handle number name body) []
    return ({ session with parsers }, .nothing)
  | .copy on into =>
    match session.parsers.get? on with
    | some _ => return ({ session with parsers := session.parsers.copy on into }, .nothing)
    | none => return (session, .missing on)
  | .drop on =>
    return ({ session with parsers := session.parsers.drop on },
      .flag (session.parsers.get? on).isSome)
  | .run on parser into rest => session.withTrack on fun track =>
    session.withParser parser fun p => do
      let o ← p track.stream
      let after :=
        match o.remaining? with
        | some r => session.follow rest track r
        | none => session
      return after.tell into o
  | .parse on parser => session.withStream on fun s => session.withParser parser fun p => do
    return (session, .parsed (← p.parseToEnd s))
  | .makeOk on value into => session.withStream on fun s =>
    return session.tell into (.ok value s)
  | .makeFail message site into => session.withFailure message site fun f =>
    return session.tell into (.fail f)
  | .makeError message site into => session.withFailure message site fun f =>
    return session.tell into (.error f)
  | .mapValue on f into => session.withOutcome on fun o =>
    return session.tell into (o.map f.apply)
  | .andThen on parser into => session.withOutcome on fun o => session.withParser parser fun p => do
    return session.tell into (← o.andThen fun v rest => do
      return (← p rest).map fun w => Value.pair v w)
  | .value on => session.withOutcome on fun o => return (session, .value o.value?)
  | .result on => session.withOutcome on fun o => do
    match o.toExcept with
    | .ok (v, rest) => return (session, .result (.ok (v, ← rest.view.toRun)))
    | .error e => return (session, .result (.error e))
  | .remaining on => session.withOutcome on fun o => do
    match o.remaining? with
    | some rest => return (session, .remaining (some (← rest.view.toRun)))
    | none => return (session, .remaining none)
  | .outcomeForm on => session.withOutcome on fun o => return (session, .text (quote o))
  | .sameOutcome a b => session.withOutcome a fun o => session.withOutcome b fun p =>
    return (session, .flag (o = p))
  | .failure message site => session.withFailure message site fun f =>
    return (session, .failure f)

/-- All commands in order, with their answers. -/
def performAll (session : Session τ) : List (Command τ) → Run τ (List (Answer τ))
  | [] => return []
  | command :: rest => do
    let (session, answer) ← session.perform command
    return answer :: (← session.performAll rest)

end Session

end Backtrack.Script
