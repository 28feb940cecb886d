import QueryExpr.Compile.Limits
import QueryExpr.Compile.Scope
import QueryExpr.Expr.Printer
import QueryExpr.Schema.Shop

/-!
# The line checker

The checker reads expressions, one to a line, and answers each with how it was understood and what
it compiles to in a query on the orders of the shop. A line ends in a line feed, before which a
carriage return may stand; the last line may lack its end. A line that is not UTF-8 ends the
session.
-/

namespace QueryExpr.Checker

/-- The scope that expressions are compiled in. -/
def scope? : Option Scope := Schema.shop.scope? "Order" .postgres

/-- The lines that tell what a tree compiles to. -/
def compileReport (tree : Expr) (scope : Scope) : List String :=
  match tree.compile scope with
  | .ok (sql, scope) => ("  sql: " ++ sql) :: scope.joins.map fun join => "  join: " ++ join.sql
  | .error error => ["  error: " ++ error.message]

/-- The lines that answer an expression, from what came of parsing it. -/
def report : Except ParseError Expr → List String
  | .error error => ["Error parsing input: " ++ error.message]
  | .ok tree =>
    tree.toGroupedText :: match scope? with
      | some scope => compileReport tree scope
      | none => []

/-- Splits input after each line feed. The lines keep their ends. -/
def splitLines : List UInt8 → List (List UInt8)
  | [] => []
  | byte :: bytes =>
    match byte == 10, splitLines bytes with
    | true, lines => [byte] :: lines
    | false, [] => [[byte]]
    | false, line :: lines => (byte :: line) :: lines

/-- Removes the end of a line, if it has one. -/
def dropLineEnd (line : List UInt8) : List UInt8 :=
  if [13, 10].isSuffixOf line then line.dropLast.dropLast
  else if [10].isSuffixOf line then line.dropLast
  else line

/-- The text of a line without its end, or `none` if it is not UTF-8. -/
def decodeLine? (line : List UInt8) : Option String :=
  String.fromUTF8? ⟨(dropLineEnd line).toArray⟩

/-- The answers to lines, up to the first one that is not UTF-8. -/
def answerLines : List (List UInt8) → List String
  | [] => []
  | line :: lines =>
    match decodeLine? line with
    | some text => report (Expr.parse text) ++ answerLines lines
    | none => []

/-- All lines that a session on the given input produces. -/
def session (input : List UInt8) : List String :=
  answerLines (splitLines input)

end QueryExpr.Checker
