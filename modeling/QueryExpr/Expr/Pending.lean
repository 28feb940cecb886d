import QueryExpr.Expr.Error
import QueryExpr.Expr.Basic
import QueryExpr.Token.Basic

/-!
# What is begun and not yet finished

While a text is read from left to right, some constructions are open: a parenthesis that is not
closed, a call whose arguments are not complete, an operator whose right operand is still to come.
These frames form a stack, innermost first.

Each frame opens a level of nesting and stores the level that is in force once the frame is
finished. A finished parenthesis or call gives its level back. A finished operator does not: a chain
of operators uses up one level for each, since the tree of a chain is as deep as the chain is long.
-/

namespace QueryExpr

/-- A construction that waits for something, with the level in force once it is finished. -/
inductive Frame where
  /-- An operator with its left operand waits for the right one. -/
  | operator (left : Expr) (op : Operator) (level : Nat)
  /-- A parenthesis waits for its closing one. -/
  | paren (level : Nat)
  /-- A call waits for the end of an argument; the earlier arguments are complete. -/
  | call (name : String) (arguments : List Expr) (level : Nat)

namespace Frame

/-- Finishes the operators on top of the stack that bind at least as tightly as `precedence`. The
results are the operand that this leaves, the level in force and the other frames. -/
def close (precedence : Nat) (right : Expr) (level : Nat) :
    List Frame → Expr × Nat × List Frame
  | operator left op outer :: frames =>
    if precedence ≤ op.precedence then
      close precedence (.binary op left right) outer frames
    else
      (right, level, operator left op outer :: frames)
  | frames => (right, level, frames)

@[simp] theorem close_nil (precedence : Nat) (right : Expr) (level : Nat) :
    close precedence right level [] = (right, level, []) := rfl

@[simp] theorem close_paren (precedence : Nat) (right : Expr) (level outer : Nat)
    (frames : List Frame) :
    close precedence right level (paren outer :: frames) =
      (right, level, paren outer :: frames) := rfl

@[simp] theorem close_call (precedence : Nat) (right : Expr) (level outer : Nat) (name : String)
    (arguments : List Expr) (frames : List Frame) :
    close precedence right level (call name arguments outer :: frames) =
      (right, level, call name arguments outer :: frames) := rfl

theorem close_operator_of_le {precedence : Nat} {op : Operator} (h : precedence ≤ op.precedence)
    (left right : Expr) (level outer : Nat) (frames : List Frame) :
    close precedence right level (operator left op outer :: frames) =
      close precedence (.binary op left right) outer frames := by
  simp [close, h]

theorem close_operator_of_lt {precedence : Nat} {op : Operator} (h : op.precedence < precedence)
    (left right : Expr) (level outer : Nat) (frames : List Frame) :
    close precedence right level (operator left op outer :: frames) =
      (right, level, operator left op outer :: frames) := by
  simp [close, Nat.not_le.mpr h]

/-- The level below `level`, unless that is the last one allowed. -/
def deepen (limit level : Nat) : Except ParseError Nat :=
  if level < limit then .ok (level + 1) else .error (.nestingTooDeep limit)

/-- The error for a token that nothing on the stack can go on with. Inside a parenthesis the closing
one is missed, everywhere else the token is in the way. -/
def misfit (t : Token) : List Frame → ParseError
  | paren _ :: _ => .missingCloseParen t.start
  | _ => .unexpectedToken t.text t.start

/-- The error for a text that ends at `position` with these frames open. -/
def unfinished (position : Nat) : List Frame → ParseError
  | paren _ :: _ => .missingCloseParen position
  | _ => .unexpectedEnd

end Frame

end QueryExpr
