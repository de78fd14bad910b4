import Backtrack.Script.Value

/-!
# Functions of Scripts

The functions that a script can map over the value of a part. A function applied to a value
of a shape that it is not made for gives the value back unchanged.

## Main definitions

* `Function`: the functions.
* `Function.apply`: their values.
* `decimal?`: the numbers of 64 bits in decimal notation.
-/

namespace Backtrack.Script

/-- The number written by `digits` behind `start`, unless one of them is no digit. -/
def digits? (start : Nat) : List Char → Option Nat
  | [] => some start
  | c :: cs => if c.isDigit then digits? (10 * start + (c.toNat - '0'.toNat)) cs else none

/-- The natural number written by at least one digit and nothing else. -/
def natural? : List Char → Option Nat
  | [] => none
  | cs => digits? 0 cs

/-- The integer written by an optional sign and at least one digit. -/
def integer? : List Char → Option Int
  | '+' :: cs => (natural? cs).map Int.ofNat
  | '-' :: cs => (natural? cs).map fun n => -Int.ofNat n
  | cs => (natural? cs).map Int.ofNat

/-- The **number of 64 bits** written in decimal notation, if it is in range. -/
def decimal? (text : String) : Option Int64 :=
  (integer? text.toList).bind fun n =>
    if Int64.minValue.toInt ≤ n ∧ n ≤ Int64.maxValue.toInt then some (Int64.ofInt n) else none

/-- The functions that a script can map over a value. -/
inductive Function where
  /-- The value unchanged. -/
  | identity
  /-- The number of items of a list or of characters of a text. -/
  | length
  /-- The number that a text writes. -/
  | number
  /-- The text of a value. -/
  | text
  /-- The texts of the items of a list, put together. -/
  | join
  /-- The number with the other sign. -/
  | negate
  /-- The next number. -/
  | increment
  /-- The sum of numbers. -/
  | sum
  /-- The product of numbers. -/
  | product
  /-- The first of a pair. -/
  | first
  /-- The second of a pair. -/
  | second
  /-- A pair the other way round. -/
  | swap
  /-- A value in front of the items of a list. -/
  | cons
  /-- The value as one that is there. -/
  | present
  /-- The value paired with a name. -/
  | tag (name : String)
  deriving DecidableEq

namespace Function

variable {τ : Type}

/-- The numbers of a list, if it holds numbers only. -/
def ints? (items : List (Value τ)) : Option (List Int64) :=
  items.mapM Value.int?

/-- The numbers of a list of numbers, or of a number paired with such a list. -/
def numbers? : Value τ → Option (List Int64)
  | .list items => ints? items
  | .pair (.int n) (.list items) => (ints? items).map (n :: ·)
  | _ => none

/-- The value of a function. -/
def apply [Quote τ] [ToString τ] (f : Function) (v : Value τ) : Value τ :=
  match f, v with
  | .length, .list items => .int (Int64.ofNat items.length)
  | .length, v => (v.text?.map fun s => Value.int (Int64.ofNat s.length)).getD v
  | .number, v => ((v.text?.bind decimal?).map Value.int).getD v
  | .text, v => .text v.bareText
  | .join, .list items => .text (String.join (items.map Value.bareText))
  | .negate, .int n => .int (-n)
  | .increment, .int n => .int (n + 1)
  | .sum, v => ((numbers? v).map fun ns => Value.int (ns.foldl (· + ·) 0)).getD v
  | .product, v => ((numbers? v).map fun ns => Value.int (ns.foldl (· * ·) 1)).getD v
  | .first, .pair a _ => a
  | .second, .pair _ b => b
  | .swap, .pair a b => .pair b a
  | .cons, .pair a (.list items) => .list (a :: items)
  | .present, v => .present v
  | .tag name, v => .pair (.text name) v
  | _, v => v

end Function

end Backtrack.Script
