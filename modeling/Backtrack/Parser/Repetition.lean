import Backtrack.Parser.Basic

/-!
# Repetition

`Parser.many` runs a parser again and again, each time where the last success ended, and
collects the values. It ends at the first recoverable failure, leaving the input of that
attempt unconsumed. A success that does not advance would repeat for ever, so it is a
stall, and the settings of the source decide what a stall means.

The loop carries the values so far, newest first, and calls itself last, so long repetitions
need no stack.
-/

namespace Backtrack.Parser

open Carrier (carry)

variable {τ α : Type} {m : Type → Type} [Monad m] [Carrier τ m]

/-- What becomes of a repetition with `items` so far that stalled at `cursor`: it ends there
without the value of the stalled attempt, or the parse is aborted. -/
def stall (items : List α) (cursor : Stream) : Act τ (Outcome τ (List α)) := do
  let config ← cursor.config
  Act.emit (.stalled cursor items.length config.repetition)
  match config.repetition with
  | .stop => return .ok items cursor
  | .error => return .error (← Failure.here Message.noProgress cursor)

/-- **The loop** of a repetition at `cursor`, for at most `turns` attempts: `items` are the
values of the attempts made so far, newest first. -/
def attempts (p : Parser τ α m) : (turns : Nat) → (cursor : Stream) → (items : List α) →
    m (Outcome τ (List α))
  | 0, _, _ => carry Run.exhausted
  | turns + 1, cursor, items => do
    match ← p cursor with
    | .ok item rest =>
      if rest.position = cursor.position then carry (stall items.reverse cursor).toRun
      else attempts p turns rest (item :: items)
    | .fail _ => return .ok items.reverse cursor
    | .error failure => return .error failure

/-- Zero or more occurrences of `p`, by at most `turns` attempts. -/
def many (turns : Nat) (p : Parser τ α m) : Parser τ (List α) m :=
  fun s => attempts p turns s []

end Backtrack.Parser
