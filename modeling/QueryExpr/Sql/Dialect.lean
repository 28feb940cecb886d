/-!
# SQL dialects

Dialects differ in one respect here: how a string literal is written. All of them enclose it in
single quotes and double a quote inside it. MySQL also reads a backslash as an escape, so it is
doubled too.
-/

namespace QueryExpr

/-- A dialect of SQL. -/
inductive Dialect where
  | postgres
  | sqlite
  | mysql
  deriving DecidableEq

namespace Dialect

/-- The name shown to a user. -/
def name : Dialect → String
  | postgres => "Postgres"
  | sqlite => "Sqlite"
  | mysql => "Mysql"

/-- The name in configuration data. -/
def code : Dialect → String
  | postgres => "postgres"
  | sqlite => "sqlite"
  | mysql => "mysql"

/-- The dialect with the given configuration name. Case matters. -/
def ofCode? (s : String) : Option Dialect :=
  [postgres, sqlite, mysql].find? (·.code == s)

@[simp] theorem ofCode?_code (d : Dialect) : ofCode? d.code = some d := by
  cases d <;> decide

/-- A character as it is written inside a string literal. -/
def quoteChar (d : Dialect) (c : Char) : List Char :=
  if c = '\'' then ['\'', '\'']
  else if c = '\\' ∧ d = mysql then ['\\', '\\']
  else [c]

/-- The string literal with the given value. -/
def quote (d : Dialect) (value : String) : String :=
  "'" ++ String.ofList (value.toList.flatMap d.quoteChar) ++ "'"

end Dialect

end QueryExpr
