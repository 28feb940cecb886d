import QueryExpr.Token.Error

/-!
# Parse errors

A text is no expression for one of six reasons. Where the reason has a place in the text, it is a
byte offset; a text that merely ends too early and one that nests too deeply have none.
-/

namespace QueryExpr

/-- Why a text is no expression. -/
inductive ParseError where
  /-- The text holds no token. -/
  | noExpression
  /-- The text could not be split in tokens beyond this point. -/
  | lexical (error : LexError)
  /-- A closing parenthesis is missing here. -/
  | missingCloseParen (position : Nat)
  /-- No expression continues with this token. -/
  | unexpectedToken (text : String) (position : Nat)
  /-- The text ends before the expression does. -/
  | unexpectedEnd
  /-- The expression nests deeper than the limit. -/
  | nestingTooDeep (limit : Nat)
  deriving DecidableEq

namespace ParseError

/-- Byte offset at which parsing failed, where there is one. -/
def position? : ParseError → Option Nat
  | missingCloseParen position => some position
  | unexpectedToken _ position => some position
  | lexical error => some error.position
  | noExpression | unexpectedEnd | nestingTooDeep _ => none

/-- The text shown to a user. -/
def message : ParseError → String
  | noExpression => "empty expression"
  | lexical error => "lexical error: " ++ error.message
  | missingCloseParen position => "missing closing parenthesis at " ++ toString position
  | unexpectedToken text position => "unexpected '" ++ text ++ "' at " ++ toString position
  | unexpectedEnd => "unexpected end of input"
  | nestingTooDeep limit =>
    "expression is nested more than " ++ toString limit ++ " levels deep"

end ParseError

end QueryExpr
