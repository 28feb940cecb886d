import QueryExpr.Expr.Error
import QueryExpr.Schema.Relationship

/-!
# Compile errors

Compilation fails on text that is no expression, on text that is too long, or on a name. The last
four reasons name what was rejected.
-/

namespace QueryExpr

/-- Why an expression could not be compiled. -/
inductive CompileError where
  /-- The text is no expression. -/
  | parse (error : ParseError)
  /-- The text has more bytes than allowed. -/
  | tooLong (length limit : Nat)
  /-- There is no function of that name. -/
  | invalidFunction (name : String)
  /-- The model has no attribute of that name. -/
  | invalidAttribute (name : String)
  /-- The model has no relationship of that name. -/
  | invalidRelationship (name : String)
  /-- The relationship is of a kind that cannot be used in this way. -/
  | wrongKind (relationship : String) (kind : RelationshipKind)
  deriving DecidableEq

namespace CompileError

/-- The name that was rejected. -/
def identifier? : CompileError → Option String
  | invalidFunction name => some name
  | invalidAttribute name => some name
  | invalidRelationship name => some name
  | wrongKind relationship _ => some relationship
  | parse _ | tooLong .. => none

/-- The text shown to a user. -/
def message : CompileError → String
  | parse error => "parse error: " ++ error.message
  | tooLong length limit =>
    "expression is " ++ toString length ++ " bytes long, the limit is " ++ toString limit
  | invalidFunction name => "invalid function '" ++ name ++ "'"
  | invalidAttribute name => "invalid attribute '" ++ name ++ "'"
  | invalidRelationship name => "invalid relationship '" ++ name ++ "'"
  | wrongKind relationship kind =>
    "relationship '" ++ relationship ++ "' is of the wrong type (" ++ kind.name ++ ")"

end CompileError

end QueryExpr
