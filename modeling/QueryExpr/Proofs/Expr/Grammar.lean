import QueryExpr.Expr.Basic
import QueryExpr.Text
import QueryExpr.Token.Basic

/-!
# The grammar of expressions

Two things decide whether a tree is the meaning of a list of tokens. The tokens have to be the yield
of the tree, each of them in its place; and the tree has to group its operators as their precedence
asks. Neither is stated through the parser, and neither mentions a limit on nesting.

A yield forgets the blanks between tokens. The one place where they matter is a minus sign, which
belongs to a number only if the two touch.
-/

namespace QueryExpr.Expr

/-- A tree that is not an operator applied to operands. -/
def IsOperand : Expr → Prop
  | .binary .. => False
  | _ => True

/-- The operator at the root, if there is one, binds at least as tightly as `precedence`. -/
def BindsAtLeast (precedence : Nat) : Expr → Prop
  | .binary op _ _ => precedence ≤ op.precedence
  | _ => True

@[simp] theorem bindsAtLeast_binary {precedence : Nat} {op : Operator} {left right : Expr} :
    BindsAtLeast precedence (.binary op left right) ↔ precedence ≤ op.precedence := Iff.rfl

theorem IsOperand.bindsAtLeast {e : Expr} (h : e.IsOperand) (precedence : Nat) :
    e.BindsAtLeast precedence := by
  cases e with
  | binary => exact False.elim h
  | _ => trivial

theorem bindsAtLeast_zero (e : Expr) : e.BindsAtLeast 0 := by
  cases e with
  | binary => exact Nat.zero_le _
  | _ => trivial

theorem BindsAtLeast.mono {e : Expr} {p q : Nat} (h : e.BindsAtLeast q) (hpq : p ≤ q) :
    e.BindsAtLeast p := by
  cases e with
  | binary => exact Nat.le_trans hpq h
  | _ => trivial

/-- Operators group by precedence and to the left, and arguments of calls are operands. A left
operand may repeat the precedence of its operator; a right operand has to exceed it. -/
inductive Canonical : Expr → Prop where
  | paren {inner : Expr} (hinner : Canonical inner) : Canonical (.paren inner)
  | binary {op : Operator} {left right : Expr} (hleft : Canonical left) (hright : Canonical right)
      (leftBinds : left.BindsAtLeast op.precedence)
      (rightBinds : right.BindsAtLeast (op.precedence + 1)) : Canonical (.binary op left right)
  | null : Canonical .null
  | call {name : String} {arguments : List Expr} (harguments : ∀ e ∈ arguments, Canonical e)
      (operands : ∀ e ∈ arguments, e.IsOperand) : Canonical (.call name arguments)
  | attr {name : String} : Canonical (.attr name)
  | related {relationship column : String} : Canonical (.related relationship column)
  | count {relationship : String} : Canonical (.count relationship)
  | string {raw : String} : Canonical (.string raw)
  | number {text : String} : Canonical (.number text)

mutual

/-- The tokens are those of the tree, from left to right, wherever they stand. A name that is not
the word null names an attribute, a function or a relationship, depending on what follows it. -/
inductive Yields : Expr → List Token → Prop where
  | paren {inner : Expr} {ts : List Token} (i j : Nat) (hinner : Yields inner ts) :
      Yields (.paren inner) (⟨.parenLeft, i⟩ :: ts ++ [⟨.parenRight, j⟩])
  | binary {op : Operator} {left right : Expr} {ls rs : List Token} (i : Nat)
      (hleft : Yields left ls) (hright : Yields right rs) :
      Yields (.binary op left right) (ls ++ ⟨.operator op, i⟩ :: rs)
  | null {word : String} (i : Nat) (hword : Text.sameIgnoringCase word "null" = true) :
      Yields .null [⟨.name word, i⟩]
  | call {name : String} {arguments : List Expr} {ts : List Token} (i j k : Nat)
      (hname : Text.sameIgnoringCase name "null" = false) (harguments : YieldsAll arguments ts) :
      Yields (.call name arguments)
        (⟨.name name, i⟩ :: ⟨.parenLeft, j⟩ :: ts ++ [⟨.parenRight, k⟩])
  | attr {name : String} (i : Nat) (hname : Text.sameIgnoringCase name "null" = false) :
      Yields (.attr name) [⟨.name name, i⟩]
  | related {relationship column : String} (i j k : Nat)
      (hname : Text.sameIgnoringCase relationship "null" = false)
      (hcolumn : Text.sameIgnoringCase column "count" = false) :
      Yields (.related relationship column) [⟨.name relationship, i⟩, ⟨.dot, j⟩, ⟨.name column, k⟩]
  | count {relationship word : String} (i j k : Nat)
      (hname : Text.sameIgnoringCase relationship "null" = false)
      (hword : Text.sameIgnoringCase word "count" = true) :
      Yields (.count relationship) [⟨.name relationship, i⟩, ⟨.dot, j⟩, ⟨.name word, k⟩]
  | string {raw : String} (i : Nat) : Yields (.string raw) [⟨.string raw, i⟩]
  | number {text : String} (i : Nat) : Yields (.number text) [⟨.number text, i⟩]
  /-- The number starts where the sign ends. -/
  | signed {text : String} (minus number : Token) (hminus : minus.lexeme = .operator .sub)
      (hnumber : number.lexeme = .number text) (touch : number.start = minus.stop) :
      Yields (.number ("-" ++ text)) [minus, number]

/-- The tokens are those of several trees, with a comma between each two. -/
inductive YieldsAll : List Expr → List Token → Prop where
  | nil : YieldsAll [] []
  | single {e : Expr} {ts : List Token} (he : Yields e ts) : YieldsAll [e] ts
  | cons {e f : Expr} {es : List Expr} {ts us : List Token} (i : Nat) (he : Yields e ts)
      (hes : YieldsAll (f :: es) us) : YieldsAll (e :: f :: es) (ts ++ ⟨.comma, i⟩ :: us)

end

/-- A yield begins with a token that can begin an operand; in particular it is not empty. -/
theorem Yields.exists_cons {e : Expr} {ts : List Token} (h : Yields e ts) :
    ∃ t rest, ts = t :: rest ∧ t.lexeme ≠ .parenRight := by
  induction e using Expr.induction generalizing ts with
  | binary op left right ihleft _ =>
      cases h with
      | binary i hleft hright =>
          obtain ⟨t, rest, rfl, ht⟩ := ihleft hleft
          exact ⟨t, _, List.cons_append, ht⟩
  | number text =>
      cases h with
      | number i => exact ⟨_, _, rfl, by simp⟩
      | signed minus number hminus => exact ⟨minus, _, rfl, by simp [hminus]⟩
  | _ => cases h; exact ⟨_, _, rfl, by simp⟩

theorem YieldsAll.exists_cons {e : Expr} {es : List Expr} {ts : List Token}
    (h : YieldsAll (e :: es) ts) : ∃ t rest, ts = t :: rest ∧ t.lexeme ≠ .parenRight := by
  cases h with
  | single he => exact he.exists_cons
  | cons i he _ =>
      obtain ⟨t, rest, rfl, ht⟩ := he.exists_cons
      exact ⟨t, _, List.cons_append, ht⟩

end QueryExpr.Expr
