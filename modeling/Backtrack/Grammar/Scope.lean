import Backtrack.Grammar.Basic

/-!
# Scopes of Handles

A scope says what the handles of a grammar stand for: the rules defined around it, the
innermost first. The body of a rule is run in the scope in which the rule was defined,
extended by the rule itself, so a handle means the same rule wherever it is used.

## Main definitions

* `Scope`: the rules around a grammar.
* `Scope.find?`: what a handle stands for.
-/

namespace Backtrack

/-- The rules defined around a grammar. -/
inductive Scope (σ : Signature) (τ : Type) : Type 1 where
  /-- No rule. -/
  | empty
  /-- A rule within an outer scope. -/
  | rule (outer : Scope σ τ) (name : σ.Name) (phase : Phase) (body : Grammar σ τ (σ.Value name))

/-- What a handle stands for: the phase and body of its rule, and the scope to run the body
in. -/
structure Binding (σ : Signature) (τ : Type) (name : σ.Name) : Type 1 where
  /-- Where the rule is in its life. -/
  phase : Phase
  /-- The body of the rule. -/
  body : Grammar σ τ (σ.Value name)
  /-- The scope of the body, the rule itself included. -/
  home : Scope σ τ

namespace Scope

variable {σ : Signature} {τ : Type}

/-- The innermost rule of that name. -/
def find? (scope : Scope σ τ) (name : σ.Name) : Option (Binding σ τ name) :=
  match scope with
  | .empty => none
  | .rule outer other phase body =>
    if h : other = name then
      some ⟨phase, h ▸ body, .rule outer other phase body⟩
    else outer.find? name

@[simp]
theorem find?_rule_self (outer : Scope σ τ) (name : σ.Name) (phase : Phase)
    (body : Grammar σ τ (σ.Value name)) :
    (Scope.rule outer name phase body).find? name =
      some ⟨phase, body, .rule outer name phase body⟩ := by
  simp [find?]

theorem find?_rule_of_ne {outer : Scope σ τ} {other name : σ.Name} {phase : Phase}
    {body : Grammar σ τ (σ.Value other)} (h : other ≠ name) :
    (Scope.rule outer other phase body).find? name = outer.find? name := by
  simp [find?, h]

end Scope

end Backtrack
