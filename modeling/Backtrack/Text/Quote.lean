import Backtrack.Text.Invisible

/-!
# Quoted Text

Diagnostics show tokens and values in a form that hides nothing: text in quotes with its
special characters escaped, compound data with its parts spelled out.
This module holds the escaping of characters, the quoting of characters and strings, and
the class `Quote` of types that have such a form.

## Main definitions

* `Text.escape`: one character inside a quotation whose mark is `mark`.
* `Quote`: the diagnostic form of a value.
* `Quote.variant`, `Quote.record`: the forms of a constructor with positional and with
  named parts.
-/

namespace Backtrack

namespace Text

/-- The code point in lower-case hexadecimal, without padding. -/
def hex (c : Char) : List Char :=
  Nat.toDigits 16 c.toNat

/-- One character of a quotation closed by `mark`. The five common specials have short
escapes, the mark itself is escaped, an invisible character is written by its code
point, and every other character stands for itself. -/
def escape (mark c : Char) : List Char :=
  match c with
  | '\x00' => ['\\', '0']
  | '\t' => ['\\', 't']
  | '\r' => ['\\', 'r']
  | '\n' => ['\\', 'n']
  | '\\' => ['\\', '\\']
  | c =>
    if c = mark then ['\\', c]
    else if isInvisible c then ['\\', 'u', '{'] ++ hex c ++ ['}']
    else [c]

/-- Text in quotes: every character escaped, the mark on both sides. -/
def quoteWith (mark : Char) (text : String) : String :=
  String.ofList (mark :: text.toList.flatMap (escape mark) ++ [mark])

end Text

/-- Types with a **diagnostic form**, in which texts stand in quotes and the parts of a value
are spelled out. It differs from `ToString`, which gives the bare text of a value. -/
class Quote (α : Type) where
  /-- The diagnostic form of a value. -/
  quote : α → String

export Quote (quote)

namespace Quote

/-- A constructor applied to one part: `Name(part)`. -/
def variant (name part : String) : String :=
  name ++ "(" ++ part ++ ")"

/-- A constructor with named parts: the name, then the parts between braces. -/
def record (name : String) (parts : List (String × String)) : String :=
  name ++ " \x7b " ++ String.intercalate ", " (parts.map fun part => part.1 ++ ": " ++ part.2) ++
    " \x7d"

/-- A constructor with named parts of which only some are shown. -/
def openRecord (name : String) (parts : List (String × String)) : String :=
  name ++ " \x7b " ++ String.join (parts.map fun part => part.1 ++ ": " ++ part.2 ++ ", ") ++
    ".. \x7d"

/-- Items in order between square brackets. -/
def bracketed (items : List String) : String :=
  "[" ++ String.intercalate ", " items ++ "]"

instance : Quote Char where
  quote c := Text.quoteWith '\x27' c.toString

instance : Quote String where
  quote := Text.quoteWith '"'

instance : Quote Nat where
  quote := toString

instance : Quote Int where
  quote := toString

instance : Quote Bool where
  quote b := if b then "true" else "false"

instance : Quote Unit where
  quote _ := "()"

instance {α : Type} [Quote α] : Quote (Option α) where
  quote
    | none => "None"
    | some a => variant "Some" (quote a)

instance {α : Type} [Quote α] : Quote (List α) where
  quote items := bracketed (items.map quote)

instance {α β : Type} [Quote α] [Quote β] : Quote (α × β) where
  quote p := "(" ++ quote p.1 ++ ", " ++ quote p.2 ++ ")"

end Quote

/-- Each mark is escaped in its own quotation only. -/
example : quote '\x27' = "'\\''" ∧ quote '"' = "'\"'" ∧ quote "'\"" = "\"'\\\"\"" := by
  refine ⟨?_, ?_, ?_⟩ <;> cbv

/-- A control character is written by its code point, a letter with an accent as itself. -/
example : quote "é\x1b" = "\"é\\u\x7b1b\x7d\"" := by cbv

end Backtrack
