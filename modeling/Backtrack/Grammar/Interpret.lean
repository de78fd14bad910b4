import Backtrack.Grammar.Scope
import Backtrack.Parser.Nesting
import Backtrack.Parser.Repetition

/-!
# Running a Grammar

The parser of a grammar is built node by node from the combinators, each node observed. A
reference leads to a grammar that is not part of the tree, so the nesting of references is
bounded by fuel, as are the turns of a repetition. Fuel is not part of the meaning of a
grammar: a run that ends does not depend on it.

## Main definitions

* `Grammar.interpret`: one level of references, with a given parser for the grammars
  referred to.
* `Grammar.carried`: all levels that the fuel allows, over any carrier.
* `Grammar.parser`: the parser of a grammar.
-/

namespace Backtrack

variable {σ : Signature} {τ : Type} {m : Type → Type}

/-- A way to run any grammar in any scope. -/
def Interpreter (σ : Signature) (τ : Type) (m : Type → Type := Run τ) : Type 1 :=
  {α : Type} → Scope σ τ → Grammar σ τ α → Parser τ α m

namespace Grammar

/-- The parser of a grammar in a scope. The grammars behind references are run by `call`, and
repetitions make at most `turns` attempts. -/
def interpret [Quote τ] [Monad m] [Carrier τ m] (rules : Rules σ τ) (call : Interpreter σ τ m)
    (turns : Nat) {α : Type} : Grammar σ τ α → Scope σ τ → Parser τ α m
  | .succeed value, _ => (Parser.succeed value).observed
  | .fail message, _ => (Parser.fail message).observed
  | .satisfy expected test, _ => (Parser.satisfy expected test).observed
  | .eof, _ => Parser.eof.observed
  | .bind g next, scope =>
    (Parser.bind (interpret rules call turns g scope) fun a =>
      interpret rules call turns (next a) scope).observed
  | .map f g, scope => (Parser.map f (interpret rules call turns g scope)).observed
  | .pair g h, scope =>
    (Parser.pair (interpret rules call turns g scope)
      (interpret rules call turns h scope)).observed
  | .keepRight g h, scope =>
    (Parser.keepRight (interpret rules call turns g scope)
      (interpret rules call turns h scope)).observed
  | .keepLeft g h, scope =>
    (Parser.keepLeft (interpret rules call turns g scope)
      (interpret rules call turns h scope)).observed
  | .orElse g h, scope =>
    (Parser.orElse (interpret rules call turns g scope)
      (interpret rules call turns h scope)).observed
  | .optional g, scope => (Parser.optional (interpret rules call turns g scope)).observed
  | .many g, scope => (Parser.many turns (interpret rules call turns g scope)).observed
  | .label name g, scope => (Parser.label name (interpret rules call turns g scope)).observed
  | .commit g, scope => (Parser.commit (interpret rules call turns g scope)).observed
  | .deferred name, scope => (Parser.deferred (call scope (rules name))).observed
  | .recursive name body, scope =>
    (interpret rules call turns body (scope.rule name .defined body)).observed
  | .handle name, scope =>
    match scope.find? name with
    | some rule => (Parser.handle rule.phase (call rule.home rule.body)).observed
    | none => (Parser.unusable .dropped Message.droppedRule).observed
  | .withRule name phase body g, scope =>
    (interpret rules call turns g (scope.rule name phase body)).observed
  | .around before after g, scope =>
    (Parser.around before after (interpret rules call turns g scope)).observed

/-- A handle is run by the rule that it stands for in its scope. -/
theorem interpret_handle [Quote τ] [Monad m] [Carrier τ m] (rules : Rules σ τ)
    (call : Interpreter σ τ m) (turns : Nat) (name : σ.Name) (scope : Scope σ τ) :
    (Grammar.handle name).interpret rules call turns scope =
      match scope.find? name with
      | some rule => (Parser.handle rule.phase (call rule.home rule.body)).observed
      | none => (Parser.unusable .dropped Message.droppedRule).observed := rfl

/-- A grammar with the given fuel, over any carrier: at most that many levels of references and
that many turns of each repetition. -/
def carried [Quote τ] [Monad m] [Carrier τ m] (rules : Rules σ τ) : Nat → Interpreter σ τ m
  | 0, _, _, _ => fun _ => Carrier.carry Run.exhausted
  | fuel + 1, _, scope, g => g.interpret rules (carried rules fuel) (fuel + 1) scope

/-- The **parser of a grammar** with the given fuel. -/
def parser [Quote τ] (rules : Rules σ τ) (fuel : Nat) : Interpreter σ τ :=
  carried rules fuel

section

variable [Quote τ] (rules : Rules σ τ) {α : Type} (scope : Scope σ τ) (g : Grammar σ τ α)

@[simp]
theorem parser_zero : parser rules 0 scope g = fun _ => Run.exhausted := rfl

theorem parser_succ (fuel : Nat) :
    parser rules (fuel + 1) scope g = g.interpret rules (parser rules fuel) (fuel + 1) scope := rfl

end

end Grammar

end Backtrack
