/-!
# Lexical errors

A source text fails to split into tokens for one of three reasons. Each names the byte offset it is
about, which need not be the place where reading stopped.
-/

namespace QueryExpr

/-- Why no token could be read. -/
inductive LexError where
  /-- The string literal that opens at this offset is never closed. -/
  | unterminatedString (start : Nat)
  /-- The backslash at this offset is followed by something other than a quote or a backslash. -/
  | invalidEscape (position : Nat)
  /-- No token starts with what stands at this offset. -/
  | unexpectedCharacter (position : Nat)
  deriving DecidableEq

namespace LexError

/-- The offset that the error is about. -/
def position : LexError → Nat
  | unterminatedString start => start
  | invalidEscape position => position
  | unexpectedCharacter position => position

/-- The text shown to a user. -/
def message : LexError → String
  | unterminatedString start =>
    "unterminated string literal starting at " ++ toString start
  | invalidEscape position =>
    "invalid escape sequence at " ++ toString position ++ ", only \\\" and \\\\ are allowed"
  | unexpectedCharacter position =>
    "unexpected character at " ++ toString position

end LexError

end QueryExpr
