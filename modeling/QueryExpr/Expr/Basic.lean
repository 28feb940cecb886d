import QueryExpr.Operator

/-!
# Expressions

An expression speaks about one model: its attributes, the columns of related records, and how many
related records there are. Parentheses are nodes of the tree, so that a tree remembers where the
source had them; they mean nothing else.

The type does not enforce what the parser guarantees, for instance that the operands of a product
are no sums. Trees that no text denotes can be printed and compiled like any other.
-/

namespace QueryExpr

/-- An expression tree. -/
inductive Expr where
  /-- An expression in parentheses. -/
  | paren (inner : Expr)
  /-- A binary operator between its operands. -/
  | binary (op : Operator) (left right : Expr)
  /-- The null value. -/
  | null
  /-- A function applied to arguments. -/
  | call (name : String) (arguments : List Expr)
  /-- An attribute of the model. -/
  | attr (name : String)
  /-- A column of the record at the other end of a relationship. -/
  | related (relationship column : String)
  /-- The number of records at the other end of a relationship. -/
  | count (relationship : String)
  /-- A string literal: the text between its quotes, still escaped. -/
  | string (raw : String)
  /-- A number as it was written, sign included. -/
  | number (text : String)

namespace Expr

/-- Induction over trees, with the hypothesis on a call stated for each of its arguments. -/
@[elab_as_elim]
theorem induction {motive : Expr → Prop}
    (paren : ∀ inner, motive inner → motive (.paren inner))
    (binary : ∀ op left right, motive left → motive right → motive (.binary op left right))
    (null : motive .null)
    (call : ∀ name arguments, (∀ e ∈ arguments, motive e) → motive (.call name arguments))
    (attr : ∀ name, motive (.attr name))
    (related : ∀ relationship column, motive (.related relationship column))
    (count : ∀ relationship, motive (.count relationship))
    (string : ∀ raw, motive (.string raw))
    (number : ∀ text, motive (.number text))
    (e : Expr) : motive e := by
  refine @Expr.rec motive (fun es => ∀ e ∈ es, motive e) paren binary null call attr related
    count string number ?_ ?_ e
  · simp
  · intro head tail hhead htail e he
    rcases List.mem_cons.mp he with rfl | he
    · exact hhead
    · exact htail e he

mutual

/-- Whether two trees are the same. -/
def same : Expr → Expr → Bool
  | .paren a, .paren b => same a b
  | .binary p a b, .binary q c d => p == q && same a c && same b d
  | .null, .null => true
  | .call f as, .call g bs => f == g && sameAll as bs
  | .attr a, .attr b => a == b
  | .related a b, .related c d => a == c && b == d
  | .count a, .count b => a == b
  | .string a, .string b => a == b
  | .number a, .number b => a == b
  | _, _ => false

/-- Whether two lists hold the same trees in the same order. -/
def sameAll : List Expr → List Expr → Bool
  | [], [] => true
  | a :: as, b :: bs => same a b && sameAll as bs
  | _, _ => false

end

theorem same_iff {a b : Expr} : same a b = true ↔ a = b := by
  induction a using Expr.induction generalizing b with
  | call f as ih =>
    cases b with
    | call g bs =>
      have hargs : sameAll as bs = true ↔ as = bs := by
        induction as generalizing bs with
        | nil => cases bs <;> simp [sameAll]
        | cons a as iht =>
          cases bs with
          | nil => simp [sameAll]
          | cons b bs =>
            simp only [sameAll, Bool.and_eq_true, List.cons.injEq]
            rw [ih a (by simp), iht (fun e he => ih e (by simp [he]))]
      simp [same, hargs]
    | _ => simp [same]
  | _ => cases b <;> simp_all [same, and_assoc]

instance : DecidableEq Expr := fun a b => decidable_of_iff (same a b = true) same_iff

end Expr

end QueryExpr
