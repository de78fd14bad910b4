import Backtrack.Text.Quote

/-!
# Parse Errors

What a caller of a whole parse is told when it does not succeed. A parse error holds only
texts and positions, so it outlives the parse and its tokens.
-/

namespace Backtrack

/-- Why a whole parse gave no value. -/
inductive ParseError where
  /-- No alternative matched. -/
  | failed (message : String) (found : Option String) (position : Nat)
  /-- A committed branch failed. -/
  | fatal (message : String) (found : Option String) (position : Nat)
  /-- The parse succeeded and left input over. -/
  | trailingInput (found : String) (position : Nat)
  deriving DecidableEq

namespace ParseError

/-- The index of the token at which the parse stopped. -/
def position : ParseError → Nat
  | .failed _ _ position | .fatal _ _ position | .trailingInput _ position => position

/-- Whether a committed branch failed. -/
def isFatal : ParseError → Bool
  | .fatal .. => true
  | _ => false

/-- The message of the failure; a parse that left input over has none. -/
def message? : ParseError → Option String
  | .failed message .. | .fatal message .. => some message
  | .trailingInput .. => none

/-- The diagnostic form of the offending token, unless the input was over. -/
def found? : ParseError → Option String
  | .failed _ found _ | .fatal _ found _ => found
  | .trailingInput found _ => some found

instance : ToString ParseError where
  toString
    | .failed message _ position =>
      "parse failed at token " ++ toString position ++ ": " ++ message
    | .fatal message _ position =>
      "parse error at token " ++ toString position ++ ": " ++ message
    | .trailingInput found position =>
      "unexpected trailing input at token " ++ toString position ++ ": " ++ found

instance : Quote ParseError where
  quote
    | .failed message found position => Quote.record "Failed"
      [("message", quote message), ("found", quote found), ("position", quote position)]
    | .fatal message found position => Quote.record "Fatal"
      [("message", quote message), ("found", quote found), ("position", quote position)]
    | .trailingInput found position => Quote.record "TrailingInput"
      [("found", quote found), ("position", quote position)]

/-- The offending token of a parse error is text already, so its diagnostic form is quoted
once more. -/
example : quote (ParseError.trailingInput "'a'" 3) =
    "TrailingInput \x7b found: \"'a'\", position: 3 \x7d" := by
  cbv

end ParseError

end Backtrack
