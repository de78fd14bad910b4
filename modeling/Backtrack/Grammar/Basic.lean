import Backtrack.Parser.Basic
import Backtrack.Rule.Phase

/-!
# Grammars

A grammar is a parser written down: a tree of primitives and combinators, in which rules
refer to rules by name. As a tree it can be taken apart, transformed and compared, which a
parser, being a function, cannot.

Two kinds of names occur. A *deferred* rule is a name of the table of rules that goes with
the grammar; it is looked up each time it is run, so the rules of a table may refer to
each other in any way. A *recursive* rule is defined inside the grammar and its name is
known in its own body only, where it stands for a handle of the rule.

The last two constructors go beyond plain grammars: `withRule` puts a rule in a phase in
which its handle does not work or gives the handle outside its rule, and `around` wraps a
grammar in computations of its own.

## Main definitions

* `Signature`: the names of rules and the type of the value of each.
* `Grammar`: the trees.
* `Rules`: a table of deferred rules.
-/

namespace Backtrack

/-- The **names of rules**, with the type of the values of each. -/
structure Signature where
  /-- The names. -/
  Name : Type
  /-- The type of the values of a rule. -/
  Value : Name → Type
  /-- Names can be compared. -/
  decEq : DecidableEq Name

instance (σ : Signature) : DecidableEq σ.Name := σ.decEq

/-- **Grammars** over tokens `τ` with rules named by `σ`, by the type of their values. -/
inductive Grammar (σ : Signature) (τ : Type) : Type → Type 1 where
  /-- Succeeds with a value, consuming nothing. -/
  | succeed {α : Type} (value : α) : Grammar σ τ α
  /-- Fails with a message. -/
  | fail {α : Type} (message : String) : Grammar σ τ α
  /-- One token that passes a test. -/
  | satisfy (expected : String) (test : Test τ) : Grammar σ τ τ
  /-- The end of input. -/
  | eof : Grammar σ τ Unit
  /-- A grammar, then the one chosen from its value. -/
  | bind {α β : Type} (g : Grammar σ τ α) (next : α → Grammar σ τ β) : Grammar σ τ β
  /-- A grammar with its value transformed. -/
  | map {α β : Type} (f : α → β) (g : Grammar σ τ α) : Grammar σ τ β
  /-- One grammar after another, with both values. -/
  | pair {α β : Type} (g : Grammar σ τ α) (h : Grammar σ τ β) : Grammar σ τ (α × β)
  /-- One grammar after another, with the second value. -/
  | keepRight {α β : Type} (g : Grammar σ τ α) (h : Grammar σ τ β) : Grammar σ τ β
  /-- One grammar after another, with the first value. -/
  | keepLeft {α β : Type} (g : Grammar σ τ α) (h : Grammar σ τ β) : Grammar σ τ α
  /-- The first grammar or, where it fails, the second. -/
  | orElse {α : Type} (g h : Grammar σ τ α) : Grammar σ τ α
  /-- A grammar that may match or not. -/
  | optional {α : Type} (g : Grammar σ τ α) : Grammar σ τ (Option α)
  /-- Zero or more occurrences. -/
  | many {α : Type} (g : Grammar σ τ α) : Grammar σ τ (List α)
  /-- A grammar whose failures say that `name` was expected. -/
  | label {α : Type} (name : String) (g : Grammar σ τ α) : Grammar σ τ α
  /-- A grammar whose failures are fatal. -/
  | commit {α : Type} (g : Grammar σ τ α) : Grammar σ τ α
  /-- A rule of the table, looked up when it is run. -/
  | deferred (name : σ.Name) : Grammar σ τ (σ.Value name)
  /-- A rule defined here, known as `name` in its body. -/
  | recursive (name : σ.Name) (body : Grammar σ τ (σ.Value name)) : Grammar σ τ (σ.Value name)
  /-- The handle of a recursive rule. -/
  | handle (name : σ.Name) : Grammar σ τ (σ.Value name)
  /-- A grammar in which `name` is a rule with the given body, in the given phase. -/
  | withRule {α : Type} (name : σ.Name) (phase : Phase) (body : Grammar σ τ (σ.Value name))
      (g : Grammar σ τ α) : Grammar σ τ α
  /-- A grammar with a computation before and one after it. -/
  | around {α β : Type} (before : Stream → Act τ Stream)
      (after : Stream → Outcome τ α → Act τ (Outcome τ β)) (g : Grammar σ τ α) : Grammar σ τ β

/-- A **table of deferred rules**. -/
def Rules (σ : Signature) (τ : Type) : Type 1 := (name : σ.Name) → Grammar σ τ (σ.Value name)

end Backtrack
