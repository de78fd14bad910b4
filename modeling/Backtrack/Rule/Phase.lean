/-!
# Phases of a Rule

A recursive rule is built in two moves: its handle is given out first, and the body that
may use the handle comes after. The handle works only while the rule behind it has a body
and somebody still holds the rule.
-/

namespace Backtrack

/-- Where a rule is in its life. -/
inductive Phase where
  /-- The handle is out and the body has not come yet. -/
  | undefined
  /-- The body is there and some parser holds the rule. -/
  | defined
  /-- The last parser that held the rule is gone. -/
  | dropped
  deriving DecidableEq, Inhabited

end Backtrack
