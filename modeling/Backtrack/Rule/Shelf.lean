import Backtrack.Registers
import Backtrack.Rule.Phase

/-!
# The Shelf of Parsers

Parsers that are built one after another are kept in registers, copied and dropped. A
parser that is a rule, or was built from one, holds the rule; a handle does not. A rule
lives from the moment its body is given to the moment the last parser that holds it is
dropped, and its handles work during that time only.

## Main definitions

* `Holding`: what a register holds, with the rules that this keeps alive.
* `Shelf`: the registers, the rules declared and the rules given a body.
* `Shelf.phase`: where a rule is in its life.
-/

namespace Backtrack

/-- What a register holds, with the rules that this keeps alive. -/
structure Holding (κ : Type) where
  /-- What is held. -/
  item : κ
  /-- The rules that it keeps alive, by number. -/
  keeps : List Nat

/-- Parsers in registers, described by `κ`, with the rules they hold. -/
structure Shelf (κ : Type) where
  /-- The registers. -/
  slots : Registers (Holding κ) := {}
  /-- The number of rules declared so far. -/
  declared : Nat := 0
  /-- The rules that were given a body. -/
  defined : List Nat := []

namespace Shelf

variable {κ : Type}

/-- **Where a rule is in its life.** -/
def phase (shelf : Shelf κ) (rule : Nat) : Phase :=
  if rule ∈ shelf.defined then
    if shelf.slots.any fun holding => decide (rule ∈ holding.keeps) then .defined else .dropped
  else .undefined

/-- What a register holds. -/
def get? (shelf : Shelf κ) (name : String) : Option κ :=
  (shelf.slots.get? name).map Holding.item

/-- The rules that the parser in a register keeps alive. -/
def keeps (shelf : Shelf κ) (name : String) : List Nat :=
  ((shelf.slots.get? name).map Holding.keeps).getD []

/-- Puts a parser that was built from the parsers in the registers `parts` into a register, if
one is named; it keeps alive what they keep alive. -/
def put (shelf : Shelf κ) (name : Option String) (item : κ) (parts : List String) : Shelf κ :=
  { shelf with slots := shelf.slots.put? name ⟨item, parts.flatMap shelf.keeps⟩ }

/-- Declares a rule and gives its number. -/
def declare (shelf : Shelf κ) : Nat × Shelf κ :=
  (shelf.declared, { shelf with declared := shelf.declared + 1 })

/-- Gives a declared rule its body, once, and puts the rule into a register, if one is named.
What was built from the parsers in the registers `parts` keeps those alive as well. -/
def define (shelf : Shelf κ) (rule : Nat) (name : Option String) (item : κ)
    (parts : List String) : Shelf κ :=
  if rule < shelf.declared ∧ rule ∉ shelf.defined then
    { shelf with
      slots := shelf.slots.put? name ⟨item, rule :: parts.flatMap shelf.keeps⟩
      defined := rule :: shelf.defined }
  else shelf

/-- Copies what a register holds; the copy keeps the same rules alive. -/
def copy (shelf : Shelf κ) (source : String) (target : Option String) : Shelf κ :=
  match shelf.slots.get? source with
  | some holding => { shelf with slots := shelf.slots.put? target holding }
  | none => shelf

/-- Empties a register. -/
def drop (shelf : Shelf κ) (name : String) : Shelf κ :=
  { shelf with slots := shelf.slots.erase name }

end Shelf

end Backtrack
