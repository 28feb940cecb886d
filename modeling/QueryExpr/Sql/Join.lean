import QueryExpr.Schema.Relationship

/-!
# Join clauses

The SQL that brings another table into a query. A relationship to one record is joined as it is. For
one to many records the join brings in the number of records for each key, which keeps the rows of
the query as they are; rows without any record have no number there.
-/

namespace QueryExpr

namespace Relationship

/-- Joins the target to a query on `table`, whose primary key is `primaryKey`. -/
def joinClause (r : Relationship) (table primaryKey : String) : String :=
  "INNER JOIN " ++ r.targetTable ++ " ON " ++
    match r.kind with
    | .belongsTo =>
      r.targetTable ++ "." ++ r.targetPrimaryKey ++ " = " ++ table ++ "." ++ r.foreignKey
    | _ => r.targetTable ++ "." ++ r.foreignKey ++ " = " ++ table ++ "." ++ primaryKey

/-- Joins the number of target records for each record of `table`, as a derived table that is called
`derived`. -/
def countClause (r : Relationship) (derived table primaryKey : String) : String :=
  "LEFT JOIN (SELECT " ++ r.foreignKey ++ ", COUNT(*) AS count FROM " ++ r.targetTable ++
    " GROUP BY " ++ r.foreignKey ++ ") AS " ++ derived ++
    " ON " ++ derived ++ "." ++ r.foreignKey ++ " = " ++ table ++ "." ++ primaryKey

end Relationship

/-- A join that was added to a query. -/
inductive Join where
  /-- A join along a relationship, which is kept by name, with its clause. -/
  | association (relationship sql : String)
  /-- A join that was given as a clause. -/
  | raw (sql : String)
  deriving DecidableEq

namespace Join

/-- The SQL of the join. -/
def sql : Join → String
  | association _ sql => sql
  | raw sql => sql

end Join

end QueryExpr
