import QueryExpr.Compile.Context
import QueryExpr.Compile.Error
import QueryExpr.Expr.Basic
import QueryExpr.Sql.Join
import QueryExpr.Text.Escape

/-!
# From trees to SQL

A tree becomes an SQL fragment together with the query context that the fragment needs. The context
is passed through the tree from left to right, so each part sees the joins of the parts before it.

The fragment adds no parentheses of its own. An operator stands between the fragments of its
operands, and the parentheses of the tree stay where they are.
-/

namespace QueryExpr

/-- The functions that an expression can call. -/
inductive Function where
  /-- Puts texts one after the other. -/
  | concat
  deriving DecidableEq

namespace Function

/-- What expressions call the function. -/
def name : Function → String
  | concat => "concat"

/-- The function of that name. Case matters. -/
def ofName? (s : String) : Option Function :=
  if s = concat.name then some concat else none

/-- The call as SQL, from the fragments of its arguments. -/
def sql : Function → List String → String
  | concat, arguments => " || ".intercalate arguments

end Function

/-- The name that the derived table for the count of a relationship gets. -/
def countTable (relationship : String) : String :=
  relationship ++ "__count" ++ "___inner"

theorem countTable_eq (relationship : String) :
    countTable relationship = relationship ++ "__count___inner" := by
  have hsuffix : "__count" ++ "___inner" = "__count___inner" := by decide
  rw [countTable, String.append_assoc, hsuffix]

namespace Expr

variable {σ : Type} [QueryContext σ]

/-- Compiles an attribute of the model. -/
def compileAttribute (name : String) (context : σ) : Except CompileError (String × σ) :=
  if QueryContext.hasAttribute context name then
    .ok (QueryContext.table context ++ "." ++ name, context)
  else
    .error (.invalidAttribute name)

/-- The relationship of that name. -/
def relationshipNamed (name : String) (context : σ) : Except CompileError Relationship :=
  match QueryContext.relationship? context name with
  | some r => .ok r
  | none => .error (.invalidRelationship name)

/-- Compiles a column of a related record. The other end must be a single record; whether it has the
column is not checked. -/
def compileRelated (relationship column : String) (context : σ) :
    Except CompileError (String × σ) := do
  let r ← relationshipNamed relationship context
  match r.kind with
  | .belongsTo | .hasOne =>
    return (r.targetTable ++ "." ++ column, QueryContext.joinAlong context r)
  | _ => throw (.wrongKind r.name r.kind)

/-- Compiles the number of related records. -/
def compileCount (relationship : String) (context : σ) : Except CompileError (String × σ) := do
  let r ← relationshipNamed relationship context
  match r.kind with
  | .hasMany =>
    let derived := countTable relationship
    let clause :=
      r.countClause derived (QueryContext.table context) (QueryContext.primaryKey context)
    return (derived ++ ".count", QueryContext.joinClause context clause)
  | _ => throw (.wrongKind r.name r.kind)

mutual

/-- The SQL fragment of a tree and the context after it. A call is rejected before its arguments are
looked at. -/
def compile : Expr → σ → Except CompileError (String × σ)
  | .paren inner, context => do
    let (sql, context) ← compile inner context
    return ("(" ++ sql ++ ")", context)
  | .binary op left right, context => do
    let (lhs, context) ← compile left context
    let (rhs, context) ← compile right context
    return (lhs ++ " " ++ op.sql ++ " " ++ rhs, context)
  | .null, context => return ("null", context)
  | .call name arguments, context =>
    match Function.ofName? name with
    | none => throw (.invalidFunction name)
    | some f => do
      let (parts, context) ← compileAll arguments context
      return (f.sql parts, context)
  | .attr name, context => compileAttribute name context
  | .related relationship column, context => compileRelated relationship column context
  | .count relationship, context => compileCount relationship context
  | .string raw, context => return (QueryContext.quote context (Text.literalValue raw), context)
  | .number text, context => return (text, context)

/-- The fragments of several trees, each compiled in the context that the one before it leaves. -/
def compileAll : List Expr → σ → Except CompileError (List String × σ)
  | [], context => return ([], context)
  | e :: es, context => do
    let (sql, context) ← compile e context
    let (parts, context) ← compileAll es context
    return (sql :: parts, context)

end

end Expr

end QueryExpr
