/-!
# Registers

Named places for values of one type. Writing a register replaces what was there.
-/

namespace Backtrack

/-- Named places for values of type `α`. -/
structure Registers (α : Type) where
  /-- The places in use, the latest written first. -/
  entries : List (String × α) := []

namespace Registers

variable {α : Type}

/-- What a register holds. -/
def get? (r : Registers α) (name : String) : Option α :=
  r.entries.lookup name

/-- Empties a register. -/
def erase (r : Registers α) (name : String) : Registers α where
  entries := r.entries.filter fun entry => entry.1 != name

/-- Writes a register. -/
def put (r : Registers α) (name : String) (value : α) : Registers α where
  entries := (name, value) :: (r.erase name).entries

/-- Writes a register, if one is named. -/
def put? (r : Registers α) (name : Option String) (value : α) : Registers α :=
  match name with
  | some name => r.put name value
  | none => r

/-- Whether a register holds a value with the property `p`. -/
def any (r : Registers α) (p : α → Bool) : Bool :=
  r.entries.any fun entry => p entry.2

@[simp]
theorem get?_put_self (r : Registers α) (name : String) (value : α) :
    (r.put name value).get? name = some value := by
  simp [get?, put]

end Registers

end Backtrack
