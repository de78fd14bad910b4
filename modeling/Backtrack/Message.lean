import Backtrack.Text.Quote

/-!
# The Wording of Failures

Every text that the library itself puts into a failure is written here, once. A failure
that a grammar states in its own words, or that a label renames, carries other text.
-/

namespace Backtrack.Message

/-- Something was wanted and the input was over. -/
def unexpectedEnd (expected : String) : String :=
  "unexpected end of input; expected " ++ expected

/-- Something was wanted and `token` stood there. -/
def mismatch {τ : Type} [Quote τ] (expected : String) (token : τ) : String :=
  "expected " ++ expected ++ ", got " ++ quote token

/-- What to say when `expected` was wanted and `found` stood there, if anything. -/
def wanted {τ : Type} [Quote τ] (expected : String) : Option τ → String
  | none => unexpectedEnd expected
  | some token => mismatch expected token

/-- What stands for the end of input in the text of an expectation. -/
def endOfInput : String := "end of input"

/-- A rule reference was made while `limit` of them were active. -/
def recursionLimit (limit : Nat) : String :=
  "recursion limit of " ++ toString limit ++ " exceeded"

/-- A repetition stalled under the policy that forbids it. -/
def noProgress : String := "repetition made no progress"

/-- A rule was used while it was still being defined. -/
def undefinedRule : String := "recursive rule used before it was defined"

/-- A rule was used after the last parser that held it was gone. -/
def droppedRule : String := "recursive rule used after it was dropped"

end Backtrack.Message
