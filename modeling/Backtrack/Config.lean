import Backtrack.Text.Quote

/-!
# Parse Settings

The settings that every position of a source shares: how deeply rule references may
nest, and what a repetition does when its inner parser succeeds without consuming.

## Main definitions

* `RepeatPolicy`: what a stalled repetition does.
* `Config`: both settings, with a nesting limit of 128 and the policy `stop` by default.
-/

namespace Backtrack

/-- What a repetition does when its inner parser succeeds without consuming input. -/
inductive RepeatPolicy where
  /-- End the repetition; the match of width zero is not recorded. -/
  | stop
  /-- Abort the parse with a fatal error at the stalled position. -/
  | error
  deriving DecidableEq, Inhabited

instance : Quote RepeatPolicy where
  quote
    | .stop => "Stop"
    | .error => "Error"

/-- The settings of a parse. -/
structure Config where
  /-- The greatest number of rule references active at once; `none` removes the limit. -/
  maxDepth : Option Nat := some 128
  /-- What a repetition without progress does. -/
  repetition : RepeatPolicy := .stop
  deriving DecidableEq, Inhabited

namespace Config

/-- The default settings. -/
def standard : Config := {}

/-- Whether settings are the default ones. -/
def isStandard (config : Config) : Bool := config = standard

/-- The same settings with the nesting limit `limit`. -/
def withMaxDepth (config : Config) (limit : Nat) : Config :=
  { config with maxDepth := some limit }

/-- The same settings without a nesting limit. -/
def withoutDepthLimit (config : Config) : Config :=
  { config with maxDepth := none }

/-- The same settings with the repetition policy `policy`. -/
def withRepeatPolicy (config : Config) (policy : RepeatPolicy) : Config :=
  { config with repetition := policy }

/-- Whether one more level may be entered when `depth` levels are active; if not, the
limit that forbids it. -/
def admits (config : Config) (depth : Nat) : Except Nat Unit :=
  match config.maxDepth with
  | none => .ok ()
  | some limit => if limit ≤ depth then .error limit else .ok ()

/-- Entering is refused exactly when the limit is set and reached. -/
theorem admits_eq_error_iff {config : Config} {depth limit : Nat} :
    config.admits depth = .error limit ↔ config.maxDepth = some limit ∧ limit ≤ depth := by
  unfold admits
  cases h : config.maxDepth with
  | none => simp
  | some n =>
    by_cases hn : n ≤ depth
    · simp only [hn, if_true, Except.error.injEq, Option.some.injEq]
      constructor
      · rintro rfl
        exact ⟨rfl, hn⟩
      · rintro ⟨rfl, -⟩
        rfl
    · simp only [hn, if_false, reduceCtorEq, Option.some.injEq, false_iff, not_and]
      rintro rfl
      exact hn

/-- Entering is allowed exactly when no limit is set or the limit is not yet reached. -/
theorem admits_eq_ok_iff {config : Config} {depth : Nat} :
    config.admits depth = .ok () ↔ ∀ limit, config.maxDepth = some limit → depth < limit := by
  unfold admits
  cases h : config.maxDepth with
  | none => simp
  | some n =>
    by_cases hn : n ≤ depth
    · simp [hn]
    · have : depth < n := by omega
      simp [hn, this]

instance : Quote Config where
  quote c := Quote.record "ParseConfig"
    [("max_depth", quote c.maxDepth), ("repeat", quote c.repetition)]

end Config

end Backtrack
