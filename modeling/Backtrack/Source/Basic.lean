import Backtrack.Config
import Backtrack.Source.Memo

/-!
# Token Sources

A source holds the tokens that a parse reads, the settings of the parse and the number of
rule references now active on it. Its tokens lie either buffered, all at hand, or in the
memory of a lazy supply. A parse may read several sources, so a run carries a store of
them, and a source is named by its place in the store.

## Main definitions

* `Tape`: where the tokens of a source lie.
* `Source`: tape, settings and nesting depth.
* `Sources`: the store, read by `Sources.get` and written by `Sources.modify`.
-/

namespace Backtrack

/-- Where the tokens of a source lie. -/
inductive Tape (τ : Type) where
  /-- All tokens at hand. -/
  | buffered (tokens : Array τ)
  /-- Tokens asked for on demand. -/
  | lazy (memo : Memo τ)

namespace Tape

variable {τ : Type}

/-- **Looking** at position `i`: a lazy tape fills its memory up to there. -/
def look (tape : Tape τ) (i : Nat) : Tape τ :=
  match tape with
  | .buffered tokens => .buffered tokens
  | .lazy memo => .lazy (memo.fill i)

/-- The token known at position `i`. -/
def token? (tape : Tape τ) (i : Nat) : Option τ :=
  match tape with
  | .buffered tokens => tokens[i]?
  | .lazy memo => memo.buffer[i]?

/-- The number of requests made. A buffered tape was filled at once, by one request for
each token and one that was answered `none`. -/
def requests (tape : Tape τ) : Nat :=
  match tape with
  | .buffered tokens => tokens.size + 1
  | .lazy memo => memo.requests

/-- Whether the supply has been let go. -/
def released (tape : Tape τ) : Bool :=
  match tape with
  | .buffered _ => true
  | .lazy memo => memo.released

end Tape

/-- A token source with the state that all its positions share. -/
structure Source (τ : Type) where
  /-- The tokens. -/
  tape : Tape τ
  /-- The settings of parses over this source. -/
  config : Config
  /-- The number of rule references now active on this source. -/
  depth : Nat := 0

namespace Source

variable {τ : Type}

/-- A source of no tokens, with the default settings. -/
def blank : Source τ where
  tape := .buffered #[]
  config := .standard

/-- A source whose tokens are all at hand. -/
def buffered (tokens : List τ) (config : Config) : Source τ where
  tape := .buffered tokens.toArray
  config := config

/-- A source that asks `supply` for its tokens on demand. -/
def lazy (supply : Nat → Option τ) (config : Config) : Source τ where
  tape := .lazy { supply }
  config := config

/-- Looking at position `i`. -/
def look (source : Source τ) (i : Nat) : Source τ :=
  { source with tape := source.tape.look i }

/-- One more active reference. -/
def enter (source : Source τ) : Source τ :=
  { source with depth := source.depth + 1 }

/-- One active reference fewer. -/
def leave (source : Source τ) : Source τ :=
  { source with depth := source.depth - 1 }

end Source

/-- The **store** of the sources of a run. -/
structure Sources (τ : Type) where
  /-- The sources, in the order in which they were opened. -/
  entries : Array (Source τ) := #[]

namespace Sources

variable {τ : Type}

/-- The source named `id`; a name that was never given out stands for the blank source. -/
def get (sources : Sources τ) (id : Nat) : Source τ :=
  sources.entries[id]?.getD .blank

/-- Replaces the source named `id` by its image under `f`. -/
def modify (sources : Sources τ) (id : Nat) (f : Source τ → Source τ) : Sources τ :=
  { entries := sources.entries.modify id f }

/-- The name that the next source will get. -/
def next (sources : Sources τ) : Nat :=
  sources.entries.size

/-- Adds a source under the next name. -/
def add (sources : Sources τ) (source : Source τ) : Sources τ :=
  { entries := sources.entries.push source }

@[simp]
theorem get_add_next (sources : Sources τ) (source : Source τ) :
    (sources.add source).get sources.next = source := by
  simp [Sources.get, add, next]

theorem get_modify_self {sources : Sources τ} {id : Nat} {f : Source τ → Source τ}
    (h : id < sources.next) : (sources.modify id f).get id = f (sources.get id) := by
  simp only [next] at h
  simp [Sources.get, modify, Array.getElem_modify, h]

theorem get_modify_of_ne {sources : Sources τ} {id other : Nat} {f : Source τ → Source τ}
    (h : id ≠ other) : (sources.modify id f).get other = sources.get other := by
  simp [Sources.get, modify, Array.getElem?_modify, h]

end Sources

end Backtrack
