import QueryExpr.Compile.Limits
import QueryExpr.Json.Basic

/-!
# Limits as JSON

Both limits may be missing and then take their defaults. A length of null means that there is no
limit on the length; the depth is always limited. Like other records, limits can also be read from
an array, the length first.
-/

namespace QueryExpr.Limits

/-- Limits as JSON. -/
def toJson (limits : Limits) : Json :=
  .object [
    ("max_length", match limits.maxLength with | none => .null | some n => .ofWord n),
    ("max_depth", .ofWord limits.maxDepth)]

/-- Reads a length that may be null. -/
def length? : Json → Option (Option UInt64)
  | .null => some none
  | value => value.word?.map some

/-- The fields of limits, in the order in which an array gives them. -/
def fields : List String := ["max_length", "max_depth"]

/-- Reads limits. -/
def ofJson? (j : Json) : Option Limits := do
  let defaults : Limits := {}
  let members ← j.members? fields
  let maxLength ← Json.optional members "max_length" defaults.maxLength length?
  let maxDepth ← Json.optional members "max_depth" defaults.maxDepth Json.word?
  return { maxLength, maxDepth }

end QueryExpr.Limits
