import Mathlib.Tactic.Ring
import QueryExpr.Proofs.Expr.Grammar

/-!
# Nesting

A tree nests in two ways. Its height counts the nodes from the root down to the deepest leaf. Its
levels count what is open at once while its text is read from left to right: a parenthesis and a
call are open until they are closed, and an operator stays open until its chain ends, since a chain
of operators grows a tree upwards.

The two differ where the first operand of a chain is itself nested. Its parentheses are closed again
before the first operator of the chain is read, so both use the same levels. Each level can be used
in this way by a chain of its own, so the height can grow with the square of the levels, and no
faster.
-/

namespace QueryExpr.Expr

mutual

/-- The number of nodes above the deepest leaf. A call without arguments counts as one. -/
def height : Expr → Nat
  | .paren inner => height inner + 1
  | .binary _ left right => max (height left) (height right) + 1
  | .call _ arguments => maxHeight arguments + 1
  | _ => 0

/-- The greatest height among several trees. -/
def maxHeight : List Expr → Nat
  | [] => 0
  | e :: es => max (height e) (maxHeight es)

end

/-- The number of operators that are reached from the root through left operands. -/
def chain : Expr → Nat
  | .binary _ left _ => chain left + 1
  | _ => 0

mutual

/-- The greatest number of levels that are open at once while the tree is read. The right operand of
an operator is read with the whole chain before it still open. -/
def levels : Expr → Nat
  | .paren inner => levels inner + 1
  | .binary _ left right => max (levels left) (chain left + 1 + levels right)
  | .call _ arguments => maxLevels arguments + 1
  | _ => 0

/-- The greatest number of levels among several trees. -/
def maxLevels : List Expr → Nat
  | [] => 0
  | e :: es => max (levels e) (maxLevels es)

end

theorem IsOperand.chain_eq {e : Expr} (h : e.IsOperand) : e.chain = 0 := by
  cases e with
  | binary => exact False.elim h
  | _ => rfl

/-- A chain is open as a whole once its last operator is read. -/
theorem chain_le_levels (e : Expr) : e.chain ≤ e.levels := by
  cases e with
  | binary op left right =>
      simp only [chain, levels]
      omega
  | _ => exact Nat.zero_le _

theorem YieldsAll.maxLevels_le_length {es : List Expr} {ts : List Token} (h : YieldsAll es ts)
    (each : ∀ e ∈ es, ∀ {us : List Token}, Yields e us → e.levels < us.length) :
    maxLevels es ≤ ts.length := by
  induction es generalizing ts with
  | nil => exact Nat.zero_le _
  | cons e es ih =>
      cases h with
      | single he =>
          have := each e (by simp) he
          simp only [maxLevels]
          omega
      | cons i he hes =>
          have hhead := each e (by simp) he
          have htail := ih hes (fun f hf => each f (by simp [hf]))
          simp only [maxLevels, List.length_append, List.length_cons] at htail ⊢
          omega

/-- Each level is opened by a token of its own, and one token more is needed for an operand. -/
theorem Yields.levels_lt_length {e : Expr} {ts : List Token} (h : Yields e ts) :
    e.levels < ts.length := by
  induction e using Expr.induction generalizing ts with
  | paren inner ih =>
      cases h with
      | paren i j hinner =>
          have := ih hinner
          simp only [levels, List.length_append, List.length_cons, List.length_nil]
          omega
  | binary op left right ihleft ihright =>
      cases h with
      | binary i hleft hright =>
          have hl := ihleft hleft
          have hr := ihright hright
          have hchain := chain_le_levels left
          simp only [levels, List.length_append, List.length_cons]
          omega
  | call name arguments ih =>
      cases h with
      | @call _ _ us i j k _ hargs =>
          have hmax : maxLevels arguments ≤ us.length := hargs.maxLevels_le_length ih
          simp only [levels, List.length_append, List.length_cons, List.length_nil]
          omega
  | _ => cases h <;> simp [levels]

theorem maxLevels_le_iff {es : List Expr} {n : Nat} :
    maxLevels es ≤ n ↔ ∀ e ∈ es, e.levels ≤ n := by
  induction es with
  | nil => simp [maxLevels]
  | cons e es ih => simp [maxLevels, ih]

theorem levels_le_maxLevels {e : Expr} {es : List Expr} (h : e ∈ es) :
    e.levels ≤ maxLevels es :=
  maxLevels_le_iff.mp (Nat.le_refl _) e h

theorem exists_height_eq_maxHeight {es : List Expr} (h : es ≠ []) :
    ∃ e ∈ es, e.height = maxHeight es := by
  induction es with
  | nil => exact absurd rfl h
  | cons e es ih =>
      by_cases hle : maxHeight es ≤ e.height
      · refine ⟨e, by simp, ?_⟩
        simp only [maxHeight]
        omega
      · have hnonempty : es ≠ [] := by
          rintro rfl
          exact hle (Nat.zero_le _)
        obtain ⟨f, hf, heq⟩ := ih hnonempty
        refine ⟨f, by simp [hf], ?_⟩
        simp only [maxHeight]
        omega

/-- What encloses a tree opens at least one level more, which pays for a node more and for the chain
of the tree. -/
theorem two_mul_succ_height_le {e : Expr} {n : Nat}
    (h : 2 * e.height ≤ e.levels * (e.levels + 1) + 2 * e.chain) (hn : e.levels < n) :
    2 * (e.height + 1) ≤ n * (n + 1) := by
  have hchain := chain_le_levels e
  calc 2 * (e.height + 1)
      ≤ e.levels * (e.levels + 1) + 2 * e.levels + 2 := by omega
    _ = (e.levels + 1) * (e.levels + 2) := by ring
    _ ≤ n * (n + 1) := Nat.mul_le_mul hn (Nat.succ_le_succ hn)

/-- The height of a tree in terms of its levels. Operators of its own chain count singly, and all
other nodes stand under levels that enclose them. -/
theorem two_mul_height_le (e : Expr) :
    2 * e.height ≤ e.levels * (e.levels + 1) + 2 * e.chain := by
  induction e using Expr.induction with
  | paren inner ih => exact two_mul_succ_height_le ih (Nat.lt_succ_self _)
  | binary op left right ihleft ihright =>
      simp only [height, levels, chain]
      generalize hlevels : max left.levels (left.chain + 1 + right.levels) = n
      have hleft : left.levels * (left.levels + 1) ≤ n * (n + 1) :=
        Nat.mul_le_mul (by omega) (by omega)
      have hright := two_mul_succ_height_le (n := n) ihright (by omega)
      omega
  | call name arguments ih =>
      cases arguments with
      | nil => exact Nat.le_refl 2
      | cons e es =>
          obtain ⟨f, hf, heq⟩ := exists_height_eq_maxHeight (List.cons_ne_nil e es)
          have hlevels := levels_le_maxLevels hf
          simp only [height, levels, ← heq]
          exact two_mul_succ_height_le (ih f hf) (Nat.lt_succ_of_le hlevels)
  | _ => exact Nat.zero_le _

end QueryExpr.Expr
