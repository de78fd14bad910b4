import Backtrack.Text.Quote

/-!
# Tokens

A grammar runs over tokens of any type. What diagnostics need of that type is its bare
text (`ToString`), its diagnostic form (`Quote`) and, to look for one given token,
decidable equality. Characters, strings and integers have all three; this module adds
the classified token of a lexer.
-/

namespace Backtrack

/-- A **lexeme**: the text that a lexer cut out, with the class it was put in. -/
structure Lexeme where
  /-- The class, such as "number" or "name". -/
  kind : String
  /-- The text as it stood in the input. -/
  text : String
  deriving DecidableEq, Inhabited

namespace Lexeme

/-- The bare text of a lexeme leaves its class out. -/
instance : ToString Lexeme where
  toString := Lexeme.text

/-- The diagnostic form shows the class as well. -/
instance : Quote Lexeme where
  quote t := Quote.record "Lex" [("kind", quote t.kind), ("text", quote t.text)]

end Lexeme

end Backtrack
