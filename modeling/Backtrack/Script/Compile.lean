import Backtrack.Grammar.Derived
import Backtrack.Script.Node

/-!
# From Scripts to Grammars

Every node of a script compiles to one grammar, built from the grammars of its parts. Rules
are named by strings, and all of them have values of scripts.

## Main definitions

* `names`: the signature of scripts.
* `Node.compile`, `Continuation.compile`, `Branches.compile`: the grammars.
* `Script.Table`: the deferred rules of a script, and `Table.rules`, their grammars.
-/

namespace Backtrack.Script

/-- The rule names of scripts. -/
@[reducible]
def names (τ : Type) : Signature where
  Name := String
  Value _ := Value τ
  decEq := inferInstance

/-- Grammars with the values of scripts. -/
abbrev Compiled (τ : Type) : Type 1 := Grammar (names τ) τ (Value τ)

variable {τ : Type} [DecidableEq τ] [Quote τ] [ToString τ]

mutual

/-- The **grammar of a node**. -/
def Node.compile : Node τ → Compiled τ
  | .succeed value => .succeed value
  | .fail message => .fail message
  | .anyToken expected => (Grammar.anyToken expected).map .token
  | .eof => Grammar.eof.map fun _ => .unit
  | .token t => (Grammar.token t).map .token
  | .text s => (Grammar.text s).map .token
  | .satisfy expected predicate => (Grammar.satisfy expected predicate.test).map .token
  | .pair p q => (p.compile.pair q.compile).map fun v => .pair v.1 v.2
  | .keepRight p q => p.compile.keepRight q.compile
  | .keepLeft p q => p.compile.keepLeft q.compile
  | .orElse p q => p.compile.orElse q.compile
  | .map p f => p.compile.map f.apply
  | .bind p next => p.compile.bind next.compile
  | .replace p value => p.compile.replace value
  | .label name p => p.compile.label name
  | .commit p => p.compile.commit
  | .optional p => p.compile.optional.map fun v => (v.map Value.present).getD .absent
  | .matched p => p.compile.matched.map .bool
  | .many p => p.compile.many.map .list
  | .many1 p => p.compile.many1.map .list
  | .sepBy1 p separator => (p.compile.sepBy1 separator.compile).map .list
  | .deferred rule => Grammar.deferred rule
  | .recursive name p => Grammar.recursive name p.compile
  | .handle name => Grammar.handle name
  | .early name p => Grammar.early name p.compile
  | .orphan name p => Grammar.orphan name p.compile
  | .peek p => p.compile.peek
  | .spy name p => p.compile.spy name
  | .raise message => Grammar.raise message
  | .here => Grammar.here.map fun n => .int (Int64.ofNat n)
  | .splice tokens => (Grammar.splice tokens).map fun _ => .unit
  | .sub tokens p => p.compile.sub tokens

/-- The grammar that follows the value `v`. -/
def Continuation.compile : Continuation τ → Value τ → Compiled τ
  | .echo, v => (Grammar.text v.bareText).map .token
  | .give f, v => .succeed (f.apply v)
  | .fail message, v => .fail (message ++ v.bareText)
  | .select branches otherwise, v => branches.compile v.bareText otherwise.compile
  | .times p, v =>
    let count := (v.int?.map fun n => n.toInt.toNat).getD 0
    (p.compile.times count).map .list

/-- The grammar of the first branch with the given key, or `otherwise`. -/
def Branches.compile (key : String) (otherwise : Compiled τ) : Branches τ → Compiled τ
  | .none => otherwise
  | .cons other p rest => if other = key then p.compile else rest.compile key otherwise

end

/-- The deferred rules of a script by name. -/
abbrev Table (τ : Type) : Type := List (String × Node τ)

/-- The grammars of the deferred rules. A rule notes that it is being built each time; a
name that is not in the table fails. -/
def Table.rules (table : Table τ) : Rules (names τ) τ := fun name =>
  match table.lookup name with
  | some node => node.compile.announced ("!" ++ name)
  | none => .fail ("no rule named " ++ name)

end Backtrack.Script
