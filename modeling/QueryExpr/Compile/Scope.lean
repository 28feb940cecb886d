import QueryExpr.Compile.Context
import QueryExpr.Schema.Basic
import QueryExpr.Sql.Dialect
import QueryExpr.Sql.Join
import QueryExpr.Text.Debug

/-!
# Scopes

A scope is the ordinary query context: a model of some registry, the table it lives in, a dialect,
and the joins added so far. Joins stay in the order in which they were added, and equal joins are
not merged.
-/

namespace QueryExpr

/-- A query on one model, with the joins added so far. -/
structure Scope where
  registry : Registry
  model : String
  table : String
  primaryKey : String
  dialect : Dialect := .postgres
  joins : List Join := []

namespace Scope

/-- Adds a join at the end. -/
def push (s : Scope) (join : Join) : Scope := { s with joins := s.joins ++ [join] }

/-- Chooses another dialect. -/
def withDialect (dialect : Dialect) (s : Scope) : Scope := { s with dialect }

/-- All joins, a clause to a line. -/
def joinSql (s : Scope) : String := "\n".intercalate (s.joins.map Join.sql)

instance : QueryContext Scope where
  table := table
  primaryKey := primaryKey
  hasAttribute s name := s.registry.hasAttribute s.model name
  relationship? s name := s.registry.relationship? s.model name
  joinAlong s r := s.push (.association r.name (r.joinClause s.table s.primaryKey))
  joinClause s clause := s.push (.raw clause)
  quote s value := s.dialect.quote value

/-- A join in one line. -/
def summaryJoin : Join → String
  | .association relationship sql =>
    "Association \x7b relationship: " ++ Text.debug relationship ++ ", sql: " ++ Text.debug sql ++
      " \x7d"
  | .raw sql => "Raw(" ++ Text.debug sql ++ ")"

/-- The scope in one line, for diagnostics. The registry is left out. -/
def summary (s : Scope) : String :=
  "Scope \x7b model: " ++ Text.debug s.model ++ ", table_name: " ++ Text.debug s.table ++
    ", primary_key: " ++ Text.debug s.primaryKey ++ ", dialect: " ++ s.dialect.name ++
    ", joins: [" ++ ", ".intercalate (s.joins.map summaryJoin) ++ "], .. \x7d"

end Scope

/-- A scope without joins on a model of the schema, if the schema has that model. -/
def Schema.scope? (s : Schema) (model : String) (dialect : Dialect) : Option Scope :=
  (s.get? model).map fun m =>
    { registry := s.registry, model, table := m.table, primaryKey := m.primaryKey, dialect }

end QueryExpr
