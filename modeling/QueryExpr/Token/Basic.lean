import QueryExpr.Operator

/-!
# Tokens

A lexeme is what a token says; a token is a lexeme together with the byte offset at which it starts.
The written text of a token, and with it the offset at which it ends, follows from the lexeme.

A leading minus sign is never part of a number here. Whether it is a sign or a subtraction depends
on what stands before it, so the parser decides. The words `null` and `count` are plain names.
-/

namespace QueryExpr

/-- What a token says. A string literal keeps the text between its quotes, still escaped. -/
inductive Lexeme where
  | parenLeft
  | parenRight
  | comma
  | dot
  | operator (op : Operator)
  | number (text : String)
  | string (raw : String)
  | name (text : String)
  deriving DecidableEq

namespace Lexeme

/-- The classes of lexemes that a caller can ask for: a lexeme without its payload. -/
inductive Kind where
  | parenLeft
  | parenRight
  | comma
  | dot
  | operator (op : Operator)
  | number
  | string
  | name
  deriving DecidableEq

/-- The binary operator that tokens of this kind stand for, if they stand for one. -/
def Kind.operator? : Kind → Option Operator
  | .operator op => some op
  | _ => none

/-- The class of a lexeme. -/
def kind : Lexeme → Kind
  | parenLeft => .parenLeft
  | parenRight => .parenRight
  | comma => .comma
  | dot => .dot
  | operator op => .operator op
  | number _ => .number
  | string _ => .string
  | name _ => .name

/-- The lexeme as it is written, quotes included. -/
def text : Lexeme → String
  | parenLeft => "("
  | parenRight => ")"
  | comma => ","
  | dot => "."
  | operator op => op.symbol
  | number text => text
  | string raw => "\"" ++ raw ++ "\""
  | name text => text

/-- The lexeme as it is written, without the quotes of a string literal. -/
def contents : Lexeme → String
  | string raw => raw
  | lexeme => lexeme.text

end Lexeme

/-- A lexeme in its place. -/
structure Token where
  /-- What the token says. -/
  lexeme : Lexeme
  /-- Byte offset of the first character. -/
  start : Nat
  deriving DecidableEq

namespace Token

/-- The source text of the token. -/
def text (t : Token) : String := t.lexeme.text

/-- Byte offset just past the last character. -/
def stop (t : Token) : Nat := t.start + t.text.utf8ByteSize

end Token

end QueryExpr
