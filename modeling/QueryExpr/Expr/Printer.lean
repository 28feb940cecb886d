import QueryExpr.Expr.Basic

/-!
# Printing expressions

There are two forms. The plain text adds nothing to the tree, so that the text of a parsed tree
parses to the same tree. The grouped text also encloses every binary operator in parentheses, which
shows how a text was understood: `a + b * c` becomes `(a + (b * c))`.
-/

namespace QueryExpr.Expr

mutual

/-- The plain text of a tree. -/
def toText : Expr → String
  | .paren inner => "(" ++ toText inner ++ ")"
  | .binary op left right => toText left ++ " " ++ op.symbol ++ " " ++ toText right
  | .null => "null"
  | .call name arguments => name ++ "(" ++ ", ".intercalate (toTexts arguments) ++ ")"
  | .attr name => name
  | .related relationship column => relationship ++ "." ++ column
  | .count relationship => relationship ++ ".count"
  | .string raw => "\"" ++ raw ++ "\""
  | .number text => text

/-- The plain texts of several trees. -/
def toTexts : List Expr → List String
  | [] => []
  | e :: es => toText e :: toTexts es

end

mutual

/-- The text of a tree with every binary operator in parentheses. -/
def toGroupedText : Expr → String
  | .paren inner => "(" ++ toGroupedText inner ++ ")"
  | .binary op left right =>
    "(" ++ toGroupedText left ++ " " ++ op.symbol ++ " " ++ toGroupedText right ++ ")"
  | .call name arguments => name ++ "(" ++ ", ".intercalate (toGroupedTexts arguments) ++ ")"
  | leaf => toText leaf

/-- The grouped texts of several trees. -/
def toGroupedTexts : List Expr → List String
  | [] => []
  | e :: es => toGroupedText e :: toGroupedTexts es

end

theorem toTexts_eq_map (es : List Expr) : toTexts es = es.map toText := by
  induction es with
  | nil => rfl
  | cons e es ih => simp [toTexts, ih]

theorem toGroupedTexts_eq_map (es : List Expr) : toGroupedTexts es = es.map toGroupedText := by
  induction es with
  | nil => rfl
  | cons e es ih => simp [toGroupedTexts, ih]

end QueryExpr.Expr
