import Backtrack.Grammar.Interpret
import Backtrack.Parser.Entry
import Backtrack.Proofs.Discipline

/-!
# Parsers Made of Combinators

What holds of every parser that can be put together from the primitives and combinators is
proved by induction over the ways to put it together. `Parser.Composed` lists these ways,
few and elementary: the combinators that look at the value of a part before they go on are
all a `sequel`, and each turn of a repetition is an `attempt`.

A grammar is plain when nothing in it goes beyond primitives, combinators and rules. The
parser of a plain grammar is composed, at every fuel and in every scope, so a property that
the fourteen ways keep holds of all plain grammars, without another induction over trees,
turns of repetitions or levels of references.

## Main definitions

* `Parser.Composed`: the parsers put together from primitives and combinators.
* `Parser.Node`: the observed ones among them, as every node of a grammar is.

## Main results

* `Grammar.Plain.composed`: the parser of a plain grammar is composed.
-/

namespace Backtrack

namespace Parser

open Carrier (carry)

variable {τ α β : Type} {m : Type → Type} [Monad m]

/-! ### Elementary combinators -/

/-- Runs `p` and then, if it succeeded, the parser that its value asks for. -/
def sequel (p : Parser τ α m) (next : α → Parser τ β m) : Parser τ β m := fun s => do
  (← p s).andThen next

/-- **One turn of a repetition** that has the values `items` so far, in order. -/
def attempt [Carrier τ m] (p : Parser τ α m) (items : List α)
    (next : α → Parser τ (List α) m) : Parser τ (List α) m := fun s => do
  match ← p s with
  | .ok item rest =>
    if rest.position = s.position then carry (stall items s).toRun else next item rest
  | .fail _ => return .ok items s
  | .error failure => return .error failure

/-- To go on with a success at once is to transform the value. -/
private theorem sequel_succeed (p : Parser τ α m) (f : α → β) :
    sequel p (fun a => succeed (f a)) = fun s => do return (← p s).map f := by
  funext s
  have h : (fun o : Outcome τ α => o.andThen fun a => succeed (f a)) =
      fun o => (pure (o.map f) : m (Outcome τ β)) := by
    funext o
    cases o <;> rfl
  exact congrArg (p s >>= ·) h

/-- `Parser.pair` in elementary terms. -/
theorem pair_eq_sequel (p : Parser τ α m) (q : Parser τ β m) :
    pair p q = sequel p fun a => sequel q fun b => succeed (a, b) := by
  simp only [sequel_succeed]
  rfl

/-- `Parser.keepLeft` in elementary terms. -/
theorem keepLeft_eq_sequel (p : Parser τ α m) (q : Parser τ β m) :
    keepLeft p q = sequel p fun a => sequel q fun _ => succeed a := by
  simp only [sequel_succeed q fun _ => _]
  rfl

/-- `Parser.optional` in elementary terms. -/
theorem optional_eq_orElse [LawfulMonad m] (p : Parser τ α m) :
    optional p = orElse (sequel p fun a => succeed (some a)) (succeed none) := by
  funext s
  rw [sequel_succeed]
  simp only [optional, orElse, bind_assoc, pure_bind]
  congr 1
  funext o
  cases o <;> rfl

/-! ### Composed parsers -/

variable [Quote τ] [Carrier τ m]

/-- The **composed parsers**: those put together from the primitives and the elementary
combinators, with a parser that has run out of fuel wherever the fuel ended. -/
inductive Composed {m : Type → Type} [Monad m] [Carrier τ m] :
    {α : Type} → Parser τ α m → Prop where
  | exhausted {α : Type} : Composed fun _ => carry (Run.exhausted : Run τ (Outcome τ α))
  | succeed {α : Type} (value : α) : Composed (succeed value)
  | fail {α : Type} (message : String) : Composed (fail message : Parser τ α m)
  | satisfy (expected : String) (test : Test τ) : Composed (satisfy expected test)
  | eof : Composed eof
  | unusable {α : Type} (phase : Phase) (message : String) :
      Composed (unusable phase message : Parser τ α m)
  | calling {α : Type} (callee : Callee) {p : Parser τ α m} :
      Composed p → Composed (calling callee p)
  | sequel {α β : Type} {p : Parser τ α m} {next : α → Parser τ β m} :
      Composed p → (∀ a, Composed (next a)) → Composed (sequel p next)
  | orElse {α : Type} {p q : Parser τ α m} : Composed p → Composed q → Composed (orElse p q)
  | label {α : Type} (name : String) {p : Parser τ α m} : Composed p → Composed (label name p)
  | commit {α : Type} {p : Parser τ α m} : Composed p → Composed (commit p)
  | nested {α : Type} {p : Parser τ α m} : Composed p → Composed (nested p.inside)
  | attempt {α : Type} (items : List α) {p : Parser τ α m} {next : α → Parser τ (List α) m} :
      Composed p → (∀ a, Composed (next a)) → Composed (attempt p items next)
  | observed {α : Type} {p : Parser τ α m} : Composed p → Composed p.observed

namespace Composed

variable {p : Parser τ α m} {q : Parser τ β m}

theorem bind (hp : Composed p) {next : α → Parser τ β m} (hnext : ∀ a, Composed (next a)) :
    Composed (Parser.bind p next) :=
  sequel hp fun a => calling .continuation (hnext a)

theorem map (hp : Composed p) (f : α → β) : Composed (Parser.map f p) :=
  sequel hp fun a => calling .function (succeed (f a))

theorem pair (hp : Composed p) (hq : Composed q) : Composed (Parser.pair p q) := by
  rw [pair_eq_sequel]
  exact sequel hp fun a => sequel hq fun b => succeed (a, b)

theorem keepRight (hp : Composed p) (hq : Composed q) : Composed (Parser.keepRight p q) :=
  sequel hp fun _ => hq

theorem keepLeft (hp : Composed p) (hq : Composed q) : Composed (Parser.keepLeft p q) := by
  rw [keepLeft_eq_sequel]
  exact sequel hp fun a => sequel hq fun _ => succeed a

theorem optional [LawfulMonad m] (hp : Composed p) : Composed (Parser.optional p) := by
  rw [optional_eq_orElse]
  exact orElse (sequel hp fun a => succeed (some a)) (succeed none)

/-- The loop of a repetition is composed: each turn is an attempt followed by the loop. -/
theorem attempts (hp : Composed p) (turns : Nat) (items : List α) :
    Composed fun cursor => Parser.attempts p turns cursor items := by
  induction turns generalizing items with
  | zero => exact exhausted
  | succ turns ih => exact attempt items.reverse hp fun item => ih (item :: items)

theorem many (hp : Composed p) (turns : Nat) : Composed (Parser.many turns p) :=
  attempts hp turns []

theorem deferred (hp : Composed p) : Composed (Parser.deferred p) :=
  nested (calling .thunk hp)

theorem handle (hp : Composed p) (phase : Phase) : Composed (Parser.handle phase p) := by
  cases phase with
  | undefined => exact nested (unusable _ _)
  | defined => exact nested hp
  | dropped => exact unusable _ _

end Composed

/-- A **node**: a composed parser, observed. -/
def Node (p : Parser τ α m) : Prop := ∃ q, Composed q ∧ p = q.observed

theorem Node.composed {p : Parser τ α m} (h : Node p) : Composed p := by
  obtain ⟨q, hq, rfl⟩ := h
  exact .observed hq

end Parser

/-! ### Plain grammars -/

variable {σ : Signature} {τ : Type}

namespace Grammar

variable [Quote τ] {m : Type → Type} [Monad m] [Carrier τ m] [LawfulMonad m]

/-- One level of references: if all plain grammars behind references have composed parsers,
every plain grammar is run by a node. -/
theorem node_interpret {rules : Rules σ τ} (hrules : rules.Plain) {call : Interpreter σ τ m}
    (hcall : ∀ {α : Type} {scope : Scope σ τ} {g : Grammar σ τ α}, scope.Plain → g.Plain →
      Parser.Composed (call scope g))
    (turns : Nat) {α : Type} {g : Grammar σ τ α} (hg : g.Plain) {scope : Scope σ τ}
    (hscope : scope.Plain) : Parser.Node (g.interpret rules call turns scope) := by
  induction g generalizing scope with
  | succeed value => exact ⟨_, .succeed value, rfl⟩
  | fail message => exact ⟨_, .fail message, rfl⟩
  | satisfy expected test => exact ⟨_, .satisfy expected test, rfl⟩
  | eof => exact ⟨_, .eof, rfl⟩
  | bind g next ihg ihnext =>
      have hnext := fun a => (ihnext a (hg.2 a) hscope).composed
      exact ⟨_, .bind (ihg hg.1 hscope).composed hnext, rfl⟩
  | map f g ihg => exact ⟨_, .map (ihg hg hscope).composed f, rfl⟩
  | pair g h ihg ihh =>
      exact ⟨_, .pair (ihg hg.1 hscope).composed (ihh hg.2 hscope).composed, rfl⟩
  | keepRight g h ihg ihh =>
      exact ⟨_, .keepRight (ihg hg.1 hscope).composed (ihh hg.2 hscope).composed, rfl⟩
  | keepLeft g h ihg ihh =>
      exact ⟨_, .keepLeft (ihg hg.1 hscope).composed (ihh hg.2 hscope).composed, rfl⟩
  | orElse g h ihg ihh =>
      exact ⟨_, .orElse (ihg hg.1 hscope).composed (ihh hg.2 hscope).composed, rfl⟩
  | optional g ihg => exact ⟨_, .optional (ihg hg hscope).composed, rfl⟩
  | many g ihg => exact ⟨_, .many (ihg hg hscope).composed turns, rfl⟩
  | label name g ihg => exact ⟨_, .label name (ihg hg hscope).composed, rfl⟩
  | commit g ihg => exact ⟨_, .commit (ihg hg hscope).composed, rfl⟩
  | deferred name => exact ⟨_, .deferred (hcall hscope (hrules name)), rfl⟩
  | recursive name body ih =>
      have hinner : (scope.rule name .defined body).Plain := ⟨hscope, hg⟩
      exact ⟨_, (ih hg hinner).composed, rfl⟩
  | handle name =>
      rw [interpret_handle]
      cases h : scope.find? name with
      | none => exact ⟨_, .unusable _ _, rfl⟩
      | some rule =>
          obtain ⟨hhome, hbody⟩ := hscope.find? h
          exact ⟨_, .handle (hcall hhome hbody) rule.phase, rfl⟩
  | withRule name phase body g _ ihg =>
      have hinner : (scope.rule name phase body).Plain := ⟨hscope, hg.1⟩
      exact ⟨_, (ihg hg.2 hinner).composed, rfl⟩
  | around before after g => exact hg.elim

/-- So its parser is composed. -/
theorem composed_interpret {rules : Rules σ τ} (hrules : rules.Plain) {call : Interpreter σ τ m}
    (hcall : ∀ {α : Type} {scope : Scope σ τ} {g : Grammar σ τ α}, scope.Plain → g.Plain →
      Parser.Composed (call scope g))
    (turns : Nat) {α : Type} {g : Grammar σ τ α} (hg : g.Plain) {scope : Scope σ τ}
    (hscope : scope.Plain) : Parser.Composed (g.interpret rules call turns scope) :=
  (node_interpret hrules hcall turns hg hscope).composed

/-- A plain grammar is composed over any carrier, whatever the fuel. -/
theorem Plain.carried {rules : Rules σ τ} (hrules : rules.Plain) (fuel : Nat) {α : Type}
    {scope : Scope σ τ} (hscope : scope.Plain) {g : Grammar σ τ α} (hg : g.Plain) :
    Parser.Composed (m := m) (carried rules fuel scope g) := by
  induction fuel generalizing α scope g with
  | zero => exact .exhausted
  | succ fuel ih =>
      exact composed_interpret hrules (fun hs hp => ih hs hp) (fuel + 1) hg hscope

/-- **The parser of a plain grammar is composed**, whatever the fuel. -/
theorem Plain.composed {rules : Rules σ τ} (hrules : rules.Plain) (fuel : Nat) {α : Type}
    {scope : Scope σ τ} (hscope : scope.Plain) {g : Grammar σ τ α} (hg : g.Plain) :
    Parser.Composed (parser rules fuel scope g) :=
  hg.carried hrules fuel hscope

end Grammar

/-! ### Nested brackets -/

namespace Brackets

/-- One name of a rule, whose values are numbers. -/
def names : Signature where
  Name := Unit
  Value _ := Nat
  decEq := inferInstance

/-- The table has one rule: what stands inside the innermost brackets, which is nothing. -/
def rules : Rules names Bool := fun _ => .succeed (0 : Nat)

/-- **Nested brackets**, `true` opening and `false` closing, with the number of pairs. -/
def grammar : Grammar names Bool Nat :=
  .recursive () (.orElse
    (.map (fun n : Nat => n + 1)
      (.keepRight (.satisfy "an opening bracket" ⟨fun t => t, fun _ => []⟩)
        (.keepLeft (.handle ())
          (.commit (.satisfy "a closing bracket" ⟨fun t => !t, fun _ => []⟩)))))
    (.deferred ()))

/-- A store whose only source holds the text, under the limit. -/
def store (limit : Option Nat) (text : List Bool) : Sources Bool :=
  .single (.buffered text { maxDepth := limit })

theorem plain_rules : rules.Plain := fun _ => trivial

theorem plain_scope : (Scope.empty : Scope names Bool).Plain := trivial

theorem plain_grammar : grammar.Plain := ⟨⟨trivial, trivial, trivial⟩, trivial⟩

end Brackets

end Backtrack
