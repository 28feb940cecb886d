import Mathlib.Order.Bounds.Defs
import QueryExpr.Proofs.Expr.Printing

/-!
# The highest tree that a limit lets pass

A limit bounds the height of a tree by a square, since each level can be used again by a chain whose
first operand is nested as deeply as before. The bound is attained. `tower n` starts from the tower
before it, puts it in parentheses and adds a chain of `n` sums; the parentheses are closed before
the chain begins, so `n` levels are enough for both.
-/

namespace QueryExpr.Expr

/-- Adds something to the tree `n` times. -/
def chained (e : Expr) : Nat → Expr
  | 0 => e
  | n + 1 => .binary .add (chained e n) (.attr "a")

/-- A tree in which every level up to `n` is used by a parenthesis and by a chain. -/
def tower : Nat → Expr
  | 0 => .attr "a"
  | n + 1 => chained (.paren (tower n)) (n + 1)

/-! ## The tree -/

theorem height_chained (e : Expr) (n : Nat) : (chained e n).height = e.height + n := by
  induction n with
  | zero => rfl
  | succ n ih =>
      simp only [chained, height, ih]
      omega

theorem chain_chained (e : Expr) (n : Nat) : (chained e n).chain = e.chain + n := by
  induction n with
  | zero => rfl
  | succ n ih =>
      simp only [chained, chain, ih]
      omega

/-- A chain needs no levels of its own as long as its first operand needs more. -/
theorem levels_chained (e : Expr) (n : Nat) :
    (chained e n).levels = max e.levels (e.chain + n) := by
  induction n with
  | zero => exact (Nat.max_eq_left (chain_le_levels e)).symm
  | succ n ih =>
      simp only [chained, levels, ih, chain_chained]
      omega

theorem levels_tower (n : Nat) : (tower n).levels = n := by
  induction n with
  | zero => rfl
  | succ n ih =>
      rw [tower, levels_chained]
      simp only [levels, chain, ih]
      omega

theorem two_mul_height_tower (n : Nat) : 2 * (tower n).height = n * (n + 3) := by
  induction n with
  | zero => rfl
  | succ n ih =>
      have hheight : (tower (n + 1)).height = (tower n).height + 1 + (n + 1) := height_chained _ _
      calc 2 * (tower (n + 1)).height
          = 2 * (tower n).height + 2 * (n + 2) := by rw [hheight]; ring
        _ = n * (n + 3) + 2 * (n + 2) := by rw [ih]
        _ = (n + 1) * (n + 1 + 3) := by ring

/-! ## Its text -/

theorem spelled_attr : Spelled (.attr "a") := .attr (Lexeme.isName_of_all (by decide) rfl)

theorem avoidsKeywords_attr : AvoidsKeywords (.attr "a") := .attr (by decide +kernel)

variable {e : Expr} (n : Nat)

theorem Spelled.chained (h : e.Spelled) : (e.chained n).Spelled := by
  induction n with
  | zero => exact h
  | succ n ih => exact .binary ih spelled_attr

theorem AvoidsKeywords.chained (h : e.AvoidsKeywords) : (e.chained n).AvoidsKeywords := by
  induction n with
  | zero => exact h
  | succ n ih => exact .binary ih avoidsKeywords_attr

theorem bindsAtLeast_chained (h : e.IsOperand) :
    (e.chained n).BindsAtLeast Operator.add.precedence := by
  cases n with
  | zero => exact h.bindsAtLeast _
  | succ n => exact Nat.le_refl _

theorem Canonical.chained (h : e.Canonical) (operand : e.IsOperand) :
    (e.chained n).Canonical := by
  induction n with
  | zero => exact h
  | succ n ih => exact .binary ih .attr (bindsAtLeast_chained n operand) trivial

theorem spelled_tower : (tower n).Spelled := by
  induction n with
  | zero => exact spelled_attr
  | succ n ih => exact .chained (n + 1) (.paren ih)

theorem avoidsKeywords_tower : (tower n).AvoidsKeywords := by
  induction n with
  | zero => exact avoidsKeywords_attr
  | succ n ih => exact .chained (n + 1) (.paren ih)

theorem canonical_tower : (tower n).Canonical := by
  induction n with
  | zero => exact .attr
  | succ n ih => exact .chained (n + 1) (.paren ih) trivial

/-- Under a limit of `n` levels the text of a tower of `n` parses to the tower. -/
theorem parseWithin_toText_tower : parseWithin n (tower n).toText = .ok (tower n) := by
  rw [parseWithin_toText_of_canonical (spelled_tower n) (avoidsKeywords_tower n)
    (canonical_tower n), if_pos (Nat.le_of_eq (levels_tower n))]

/-- A limit of `n` levels lets trees pass that are `n * (n + 3) / 2` high, and none that are higher.
This is how deep anything that recurses over a parsed tree has to go. -/
theorem greatest_height (limit : Nat) :
    IsGreatest {n | ∃ text t, parseWithin limit text = .ok t ∧ t.height = n}
      (limit * (limit + 3) / 2) := by
  constructor
  · have hheight := two_mul_height_tower limit
    exact ⟨(tower limit).toText, tower limit, parseWithin_toText_tower limit, by omega⟩
  · rintro n ⟨text, t, hparse, rfl⟩
    have hheight := two_mul_height_le_of_parseWithin hparse
    omega

/-- The highest tree under a limit of two. -/
theorem greatest_height_two :
    parseWithin 2 "((a) + a) + a + a" = .ok (tower 2) ∧ (tower 2).height = 5 ∧
      IsGreatest {n | ∃ text t, parseWithin 2 text = .ok t ∧ t.height = n} 5 := by
  have htext : (tower 2).toText = "((a) + a) + a + a" := by decide +kernel
  exact ⟨htext ▸ parseWithin_toText_tower 2, by decide, greatest_height 2⟩

end QueryExpr.Expr
