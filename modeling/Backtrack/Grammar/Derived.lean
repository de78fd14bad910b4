import Backtrack.Grammar.Basic

/-!
# Derived Grammars

Grammars that are built from the constructors: the common tests of one token, constants,
repetitions of at least one, and the grammars that look ahead, take notes, tell where they
are, or read from another source.

## Main definitions

* `Grammar.token`, `Grammar.text`, `Grammar.anyToken`: one token.
* `Grammar.replace`, `Grammar.matched`: forget the value.
* `Grammar.many1`, `Grammar.sepBy1`, `Grammar.times`: at least one, and a given number.
* `Grammar.early`, `Grammar.orphan`: handles that never work.
* `Grammar.peek`, `Grammar.spy`, `Grammar.raise`, `Grammar.here`, `Grammar.splice`,
  `Grammar.sub`: grammars with computations of their own.
-/

namespace Backtrack.Grammar

variable {σ : Signature} {τ α β : Type}

/-- One token equal to `t`. -/
def token [DecidableEq τ] [Quote τ] (t : τ) : Grammar σ τ τ :=
  .satisfy (quote t) (.equals t)

/-- One token with the bare text `text`. -/
def text [ToString τ] (text : String) : Grammar σ τ τ :=
  .satisfy ("'" ++ text ++ "'") (.hasText text)

/-- Any token. -/
def anyToken (expected : String) : Grammar σ τ τ :=
  .satisfy expected .any

/-- A grammar with its value replaced. -/
def replace (g : Grammar σ τ α) (value : β) : Grammar σ τ β :=
  g.map fun _ => value

/-- Whether a grammar that may match or not did. -/
def matched (g : Grammar σ τ α) : Grammar σ τ Bool :=
  g.optional.map Option.isSome

/-- **One or more** occurrences. -/
def many1 (g : Grammar σ τ α) : Grammar σ τ (List α) :=
  (g.pair g.many).map fun p => p.1 :: p.2

/-- **One or more** occurrences with separators between them, keeping the items. A separator
without an item behind it is left in the input. -/
def sepBy1 (g : Grammar σ τ α) (separator : Grammar σ τ β) : Grammar σ τ (List α) :=
  (g.pair (separator.keepRight g).many).map fun p => p.1 :: p.2

/-- Exactly `n` occurrences, whose values follow those in `past`, which is in reverse. -/
def timesOnto (g : Grammar σ τ α) (past : List α) : Nat → Grammar σ τ (List α)
  | 0 => .succeed past.reverse
  | n + 1 => g.bind fun a => g.timesOnto (a :: past) n

/-- **Exactly `n`** occurrences. -/
def times (n : Nat) (g : Grammar σ τ α) : Grammar σ τ (List α) :=
  g.timesOnto [] n

/-- A grammar that leaves a note when it begins. -/
def announced (text : String) (g : Grammar σ τ α) : Grammar σ τ α :=
  g.around (fun s => do Act.note [text]; return s) fun _ outcome => return outcome

/-- The handle of a rule, used while the rule is being defined. -/
def early (name : σ.Name) (body : Grammar σ τ (σ.Value name)) : Grammar σ τ (σ.Value name) :=
  .withRule name .undefined body (.handle name)

/-- The handle of a rule that nobody holds. -/
def orphan (name : σ.Name) (body : Grammar σ τ (σ.Value name)) : Grammar σ τ (σ.Value name) :=
  .withRule name .dropped body (.handle name)

/-- A success as a success at `s`; failures unchanged. -/
def backTo (s : Stream) : Outcome τ α → Outcome τ α
  | .ok value _ => .ok value s
  | outcome => outcome

/-- **Lookahead**: the value of `g`, with nothing consumed. -/
def peek (g : Grammar σ τ α) : Grammar σ τ α :=
  g.around (fun s => return s) fun s outcome => return backTo s outcome

/-- The word for the kind of an outcome in a note. -/
def kindWord : Outcome τ α → String
  | .ok .. => "ok"
  | .fail _ => "fail"
  | .error _ => "error"

/-- A grammar that notes where it begins and how and where it ends. -/
def spy (name : String) (g : Grammar σ τ α) : Grammar σ τ α :=
  g.around
    (fun s => do
      Act.note [">" ++ name ++ " " ++ toString s.position]
      return s)
    fun _ outcome => do
      Act.note ["<" ++ name ++ " " ++ kindWord outcome ++ " " ++ toString outcome.position]
      return outcome

/-- A fatal error at the current token. -/
def raise (message : String) : Grammar σ τ α :=
  (Grammar.succeed ()).around (fun s => return s) fun s _ => do
    return .error (← Failure.here message s)

/-- The current position, consuming nothing. -/
def here : Grammar σ τ Nat :=
  (Grammar.succeed ()).around (fun s => return s) fun s _ => return .ok s.position s

/-- A new source over `tokens`, under the settings of the source of `s`. -/
def beside (tokens : List τ) (s : Stream) : Act τ Stream := do
  let config ← s.config
  Act.openSource (.buffered tokens config)

/-- **Goes on in another source**: the rest of the parse reads `tokens` from their start. -/
def splice (tokens : List τ) : Grammar σ τ Unit :=
  (Grammar.succeed ()).around (fun s => return s) fun s _ => do
    return .ok () (← beside tokens s)

/-- The value of `g` over `tokens`, with nothing consumed here. -/
def sub (tokens : List τ) (g : Grammar σ τ α) : Grammar σ τ α :=
  g.around (beside tokens) fun s outcome => return backTo s outcome

end Backtrack.Grammar
