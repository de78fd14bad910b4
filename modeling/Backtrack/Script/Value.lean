import Backtrack.Text.Quote

/-!
# Values of Scripts

A script is a grammar given as data, so the values of its parts are of one type: numbers of
64 bits, texts, tokens, and what is built from them.

## Main definitions

* `Value`: the values.
* `Value.text`: the text of a value, for comparison and for messages.
-/

namespace Backtrack.Script

/-- The values that scripts compute, over tokens `τ`. -/
inductive Value (τ : Type) where
  /-- Nothing of interest. -/
  | unit
  /-- A truth value. -/
  | bool (value : Bool)
  /-- A number, computed modulo two to the 64. -/
  | int (value : Int64)
  /-- A text. -/
  | text (value : String)
  /-- A token of the input. -/
  | token (value : τ)
  /-- Two values. -/
  | pair (first second : Value τ)
  /-- Any number of values. -/
  | list (items : List (Value τ))
  /-- A value that was there. -/
  | present (value : Value τ)
  /-- A value that was not there. -/
  | absent
  deriving Inhabited

namespace Value

variable {τ : Type}

mutual

/-- The diagnostic form of a value. -/
def form [Quote τ] : Value τ → String
  | .unit => quote ()
  | .bool b => quote b
  | .int n => quote n.toInt
  | .text s => quote s
  | .token t => quote t
  | .pair a b => "(" ++ form a ++ ", " ++ form b ++ ")"
  | .list items => Quote.bracketed (forms items)
  | .present v => Quote.variant "Some" (form v)
  | .absent => "None"

/-- The diagnostic forms of values in order. -/
def forms [Quote τ] : List (Value τ) → List String
  | [] => []
  | v :: vs => form v :: forms vs

end

instance [Quote τ] : Quote (Value τ) where
  quote := form

mutual

/-- Whether two values are equal. A text is never equal to a token. -/
def same [DecidableEq τ] : Value τ → Value τ → Bool
  | .unit, .unit => true
  | .bool a, .bool b => a = b
  | .int a, .int b => a = b
  | .text a, .text b => a = b
  | .token a, .token b => a = b
  | .pair a c, .pair b d => same a b && same c d
  | .list as, .list bs => sameItems as bs
  | .present a, .present b => same a b
  | .absent, .absent => true
  | _, _ => false

/-- Whether two lists hold equal values in the same order. -/
def sameItems [DecidableEq τ] : List (Value τ) → List (Value τ) → Bool
  | [], [] => true
  | a :: as, b :: bs => same a b && sameItems as bs
  | _, _ => false

end

mutual

theorem same_iff [DecidableEq τ] : ∀ a b : Value τ, same a b = true ↔ a = b
  | .unit, b => by cases b <;> simp [same]
  | .bool _, b => by cases b <;> simp [same]
  | .int _, b => by cases b <;> simp [same]
  | .text _, b => by cases b <;> simp [same]
  | .token _, b => by cases b <;> simp [same]
  | .pair a c, b => by
    cases b with
    | pair b d => simp [same, same_iff a b, same_iff c d]
    | _ => simp [same]
  | .list as, b => by
    cases b with
    | list bs => simp [same, sameItems_iff as bs]
    | _ => simp [same]
  | .present a, b => by
    cases b with
    | present b => simp [same, same_iff a b]
    | _ => simp [same]
  | .absent, b => by cases b <;> simp [same]

theorem sameItems_iff [DecidableEq τ] :
    ∀ as bs : List (Value τ), sameItems as bs = true ↔ as = bs
  | [], bs => by cases bs <;> simp [sameItems]
  | a :: as, bs => by
    cases bs with
    | nil => simp [sameItems]
    | cons b bs => simp [sameItems, same_iff a b, sameItems_iff as bs]

end

instance [DecidableEq τ] : DecidableEq (Value τ) := fun a b =>
  decidable_of_iff (same a b = true) (same_iff a b)

/-- The **text of a value**: texts and tokens stand for themselves, and any other value for
its diagnostic form. -/
def bareText [Quote τ] [ToString τ] : Value τ → String
  | .text s => s
  | .token t => toString t
  | v => v.form

/-- The text of a value that has a text of its own. -/
def text? [ToString τ] : Value τ → Option String
  | .text s => some s
  | .token t => some (toString t)
  | _ => none

/-- The number that a value is. -/
def int? : Value τ → Option Int64
  | .int n => some n
  | _ => none

end Value

end Backtrack.Script
