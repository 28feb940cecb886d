import QueryExpr.Schema.Relationship

/-!
# The query that an expression becomes part of

Compilation needs to know little about a query: the table it is rooted in, what that table offers,
how to add a join and how to quote a string. The class asks for just that and for no laws, so a
context may change in any way when a join is added.
-/

namespace QueryExpr

/-- A query under construction, as compilation sees it. An operation that adds a join returns the
extended query. -/
class QueryContext (σ : Type) where
  /-- The table that plain attributes belong to. -/
  table : σ → String
  /-- The primary key of that table. -/
  primaryKey : σ → String
  /-- Whether the table has an attribute of that name. -/
  hasAttribute : σ → String → Bool
  /-- The relationship that the table has under that name. -/
  relationship? : σ → String → Option Relationship
  /-- Adds the join that the relationship itself describes. -/
  joinAlong : σ → Relationship → σ
  /-- Adds a join that is given as a complete clause. -/
  joinClause : σ → String → σ
  /-- The SQL literal for a string. -/
  quote : σ → String → String

end QueryExpr
