import Backtrack.Stream.Inspect

/-!
# Feeds

A feed describes where the tokens of a source come from: a row of answers, given a number of
times or, whatever that number is, for ever. An answer may be `none` in the middle of the
row, which ends a source that asks there, although the feed would have more to give.

## Main definitions

* `Feed`: the description.
* `Feed.answer`: the answer to each request.
* `Feed.opening`, `Feed.tokens`: the tokens of one round and of all rounds before the first
  answer of `none`.
* `Feed.source`: the source fed.
-/

namespace Backtrack.Script

/-- Where the tokens of a source come from. -/
structure Feed (τ : Type) where
  /-- The answers of one round, in order. -/
  round : Array (Option τ)
  /-- The number of rounds. -/
  rounds : Nat := 1
  /-- Whether the rounds go on for ever; their number does not count then. -/
  endless : Bool := false
  /-- Whether tokens are asked for on demand. -/
  onDemand : Bool := false
  /-- The settings of the source. -/
  config : Config := {}

namespace Feed

variable {τ : Type}

/-- The **answer** to the request before which `n` others were made. -/
def answer (feed : Feed τ) (n : Nat) : Option τ :=
  let size := feed.round.size
  if n < size * feed.rounds ∨ feed.endless = true then
    (feed.round[n % size]?).join
  else none

/-- The tokens of one round before its first answer of `none`. -/
def opening (feed : Feed τ) : List τ :=
  (feed.round.toList.takeWhile Option.isSome).filterMap id

/-- The tokens before the first answer of `none`. All rounds are alike, so where one round
holds a `none`, or holds nothing, later rounds add no token. An endless feed of tokens only
has no such answer; the tokens of one round stand for it. -/
def tokens (feed : Feed τ) : List τ :=
  if feed.endless then feed.opening
  else if feed.rounds = 0 then []
  else if feed.opening.isEmpty ∨ feed.opening.length < feed.round.size then feed.opening
  else (List.replicate feed.rounds feed.opening).flatten

/-- The source that the feed fills. -/
def source (feed : Feed τ) : Source τ :=
  if feed.onDemand then .lazy feed.answer feed.config else .buffered feed.tokens feed.config

end Feed

end Backtrack.Script
