/-!
# Binary operators

The expression language has ten binary operators: four of arithmetic and six comparisons. Each has
one spelling in an expression, one in SQL, and a precedence. Operators of equal precedence group to
the left.
-/

namespace QueryExpr

/-- A binary operator. -/
inductive Operator where
  | mul | div | add | sub | lt | le | gt | ge | eq | ne
  deriving DecidableEq

namespace Operator

/-- The operator as an expression writes it. -/
def symbol : Operator → String
  | mul => "*"
  | div => "/"
  | add => "+"
  | sub => "-"
  | lt => "<"
  | le => "<="
  | gt => ">"
  | ge => ">="
  | eq => "=="
  | ne => "!="

/-- The operator as SQL writes it. Only equality is spelled differently there. -/
def sql : Operator → String
  | eq => "="
  | op => op.symbol

/-- How tightly an operator binds: products, then sums, then comparisons. -/
def precedence : Operator → Nat
  | mul | div => 2
  | add | sub => 1
  | lt | le | gt | ge | eq | ne => 0

end Operator

end QueryExpr
