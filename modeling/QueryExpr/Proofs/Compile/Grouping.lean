import QueryExpr.Proofs.Expr.Grammar
import QueryExpr.Proofs.Sql.Grouping

/-!
# Whether a fragment groups like its tree

The grouping of a tree says how its fragment has to be read: the operands of each operator are the
fragments of its two subtrees, and a call of `concat` is one operand, its arguments joined from left
to right. A call without arguments leaves no operand at all, so a tree with one has no grouping.

Operators of the expression language bind among themselves as they do in SQL. Concatenation is where
the two part: a call is an operand in an expression, but what it becomes binds less tightly than
arithmetic and stands without parentheses.
-/

namespace QueryExpr

open Sql

namespace Expr

mutual

/-- How the fragment of a tree has to be grouped. -/
def grouping? (tables : Tables) : Expr → Option Tree
  | .paren inner => (grouping? tables inner).map .paren
  | .binary op left right => do
      let lhs ← grouping? tables left
      let rhs ← grouping? tables right
      return .binary (.operator op) lhs rhs
  | .call _ arguments => groupings? tables arguments >>= Tree.concat?
  | leaf => some (.operand (leaf.operand tables))

/-- How the fragments of several trees have to be grouped, each for itself. -/
def groupings? (tables : Tables) : List Expr → Option (List Tree)
  | [] => some []
  | e :: es => do
      let first ← grouping? tables e
      let rest ← groupings? tables es
      return first :: rest

end

/-- A call whose fragment is a concatenation of two operands or more. -/
inductive IsJoined : Expr → Prop where
  | single {name : String} {e : Expr} (he : IsJoined e) : IsJoined (.call name [e])
  | several {name : String} {e f : Expr} {es : List Expr} : IsJoined (.call name (e :: f :: es))

/-- No call is without arguments, and no concatenation comes where SQL binds more tightly: not as an
operand of arithmetic, and not as an argument after the first. -/
inductive KeepsGrouping : Expr → Prop where
  | leaf {e : Expr} (he : e.IsLeaf) : KeepsGrouping e
  | paren {inner : Expr} (hinner : KeepsGrouping inner) : KeepsGrouping (.paren inner)
  | binary {op : Operator} {left right : Expr} (hleft : KeepsGrouping left)
      (hright : KeepsGrouping right) (leftJoined : left.IsJoined → op.precedence = 0)
      (rightJoined : right.IsJoined → op.precedence = 0) : KeepsGrouping (.binary op left right)
  | call {name : String} {e : Expr} {es : List Expr} (he : KeepsGrouping e)
      (hes : ∀ f ∈ es, KeepsGrouping f) (single : ∀ f ∈ es, ¬ f.IsJoined) :
      KeepsGrouping (.call name (e :: es))

variable {tables : Tables} {e : Expr} {es : List Expr} {g : Tree} {gs : List Tree}

theorem IsLeaf.grouping?_eq (h : e.IsLeaf) :
    e.grouping? tables = some (.operand (e.operand tables)) := by
  cases e with
  | paren | binary | call => exact False.elim h
  | _ => rfl

theorem grouping?_paren_eq_some {inner : Expr}
    (h : (Expr.paren inner).grouping? tables = some g) :
    ∃ t, inner.grouping? tables = some t ∧ g = .paren t := by
  rw [grouping?, Option.map_eq_some_iff] at h
  obtain ⟨t, ht, rfl⟩ := h
  exact ⟨t, ht, rfl⟩

theorem grouping?_binary_eq_some {op : Operator} {left right : Expr}
    (h : (Expr.binary op left right).grouping? tables = some g) :
    ∃ lhs rhs, left.grouping? tables = some lhs ∧ right.grouping? tables = some rhs ∧
      g = .binary (.operator op) lhs rhs := by
  rw [grouping?] at h
  obtain ⟨lhs, hleft, h⟩ := Option.bind_eq_some_iff.mp h
  obtain ⟨rhs, hright, h⟩ := Option.bind_eq_some_iff.mp h
  cases h
  exact ⟨lhs, rhs, hleft, hright, rfl⟩

theorem groupings?_cons_eq_some (h : groupings? tables (e :: es) = some gs) :
    ∃ t ts, e.grouping? tables = some t ∧ groupings? tables es = some ts ∧ gs = t :: ts := by
  rw [groupings?] at h
  obtain ⟨t, ht, h⟩ := Option.bind_eq_some_iff.mp h
  obtain ⟨ts, hts, h⟩ := Option.bind_eq_some_iff.mp h
  cases h
  exact ⟨t, ts, ht, hts, rfl⟩

/-- A call that has a grouping has a first argument. -/
theorem grouping?_call_eq_some {name : String} {arguments : List Expr}
    (h : (Expr.call name arguments).grouping? tables = some g) :
    ∃ e es t ts, arguments = e :: es ∧ e.grouping? tables = some t ∧
      groupings? tables es = some ts ∧ g = ts.foldl (.binary .concat) t := by
  rw [grouping?] at h
  obtain ⟨gs, hgs, h⟩ := Option.bind_eq_some_iff.mp h
  cases arguments with
  | nil =>
      rw [groupings?] at hgs
      cases hgs
      cases h
  | cons e es =>
      obtain ⟨t, ts, ht, hts, rfl⟩ := groupings?_cons_eq_some hgs
      cases h
      exact ⟨e, es, t, ts, rfl, ht, hts, rfl⟩

theorem groupings?_eq_map_of_eq_some (h : groupings? tables es = some gs) :
    es.map (grouping? tables) = gs.map some := by
  induction es generalizing gs with
  | nil =>
      rw [groupings?] at h
      cases h
      rfl
  | cons e es ih =>
      obtain ⟨t, ts, ht, hts, rfl⟩ := groupings?_cons_eq_some h
      rw [List.map_cons, List.map_cons, ht, ih hts]

theorem exists_grouping?_of_mem (h : groupings? tables es = some gs) (hg : g ∈ gs) :
    ∃ e ∈ es, e.grouping? tables = some g := by
  have hmem : some g ∈ es.map (grouping? tables) := by
    rw [groupings?_eq_map_of_eq_some h]
    exact List.mem_map_of_mem hg
  exact List.mem_map.mp hmem

theorem exists_mem_of_grouping? (h : groupings? tables es = some gs) (he : e ∈ es) :
    ∃ g ∈ gs, e.grouping? tables = some g := by
  have hmem : e.grouping? tables ∈ gs.map some := by
    rw [← groupings?_eq_map_of_eq_some h]
    exact List.mem_map_of_mem he
  obtain ⟨g, hg, heq⟩ := List.mem_map.mp hmem
  exact ⟨g, hg, heq.symm⟩

theorem map_parts_of_groupings? (h : groupings? tables es = some gs)
    (each : ∀ e ∈ es, ∀ {g : Tree}, e.grouping? tables = some g → g.parts = e.parts tables) :
    gs.map Tree.parts = es.map (parts tables) := by
  induction es generalizing gs with
  | nil =>
      rw [groupings?] at h
      cases h
      rfl
  | cons e es ih =>
      obtain ⟨t, ts, ht, hts, rfl⟩ := groupings?_cons_eq_some h
      rw [List.map_cons, List.map_cons, each e (by simp) ht,
        ih hts fun f hf => each f (by simp [hf])]

/-- A grouping takes apart the fragment of its tree and nothing else. -/
theorem parts_of_grouping? (h : e.grouping? tables = some g) : g.parts = e.parts tables := by
  induction e using Expr.induction generalizing g with
  | paren inner ih =>
      obtain ⟨t, ht, rfl⟩ := grouping?_paren_eq_some h
      rw [Tree.parts, ih ht, parts]
  | binary op left right ihleft ihright =>
      obtain ⟨lhs, rhs, hleft, hright, rfl⟩ := grouping?_binary_eq_some h
      rw [Tree.parts, ihleft hleft, ihright hright, parts]
  | call name arguments ih =>
      obtain ⟨e, es, t, ts, rfl, ht, hts, rfl⟩ := grouping?_call_eq_some h
      have hfirst := ih e (by simp) ht
      have hrest := map_parts_of_groupings? hts fun f hf => ih f (by simp [hf])
      rw [Tree.parts_foldl, parts, partsAll_eq_map, List.map_cons, List.map_cons, hfirst, hrest]
  | _ =>
      cases h
      rfl

/-- Among themselves, operators bind in SQL as they do in an expression. -/
theorem precedence_le_iff (op other : Operator) :
    (Connective.operator op).precedence ≤ (Connective.operator other).precedence ↔
      op.precedence ≤ other.precedence := by
  cases op <;> cases other <;> decide

theorem precedence_lt_iff (op other : Operator) :
    (Connective.operator op).precedence < (Connective.operator other).precedence ↔
      op.precedence < other.precedence := by
  rw [← Nat.not_le, precedence_le_iff, Nat.not_le]

/-- Concatenation binds more tightly than comparisons only. -/
theorem precedence_le_one_iff (op : Operator) :
    (Connective.operator op).precedence ≤ 1 ↔ op.precedence = 0 := by
  cases op <;> decide

theorem precedence_lt_one_iff (op : Operator) :
    (Connective.operator op).precedence < 1 ↔ op.precedence = 0 := by
  cases op <;> decide

/-- The fragment of an operand binds as tightly as can be, unless it is a concatenation. -/
theorem bindsAtLeast_of_isOperand (he : e.Canonical) (operand : e.IsOperand)
    (h : e.grouping? tables = some g) (p : Nat) :
    g.BindsAtLeast p ↔ (e.IsJoined → p ≤ 1) := by
  induction e using Expr.induction generalizing g with
  | binary => exact False.elim operand
  | paren inner =>
      obtain ⟨t, _, rfl⟩ := grouping?_paren_eq_some h
      exact iff_of_true trivial nofun
  | call name arguments ih =>
      obtain ⟨e, es, t, ts, rfl, ht, hts, rfl⟩ := grouping?_call_eq_some h
      cases he with
      | call harguments operands =>
          cases es with
          | nil =>
              rw [groupings?] at hts
              cases hts
              rw [List.foldl_nil, ih e (by simp) (harguments e (by simp)) (operands e (by simp)) ht]
              refine imp_congr_left ⟨.single, ?_⟩
              rintro (hjoined | _)
              exact hjoined
          | cons f fs =>
              obtain ⟨u, us, _, _, rfl⟩ := groupings?_cons_eq_some hts
              rw [Tree.bindsAtLeast_foldl_iff]
              exact ⟨fun hp _ => hp, fun hp => hp .several⟩
  | _ =>
      cases h
      exact iff_of_true trivial nofun

theorem bindsAtLeast_left_iff {op : Operator} (he : e.Canonical)
    (binds : e.BindsAtLeast op.precedence) (h : e.grouping? tables = some g) :
    g.BindsAtLeast (Connective.operator op).precedence ↔ (e.IsJoined → op.precedence = 0) := by
  by_cases operand : e.IsOperand
  · rw [bindsAtLeast_of_isOperand he operand h, precedence_le_one_iff]
  · cases e with
    | binary other left right =>
        obtain ⟨lhs, rhs, _, _, rfl⟩ := grouping?_binary_eq_some h
        exact iff_of_true ((precedence_le_iff op other).mpr binds) nofun
    | _ => exact absurd trivial operand

theorem bindsAtLeast_right_iff {op : Operator} (he : e.Canonical)
    (binds : e.BindsAtLeast (op.precedence + 1)) (h : e.grouping? tables = some g) :
    g.BindsAtLeast ((Connective.operator op).precedence + 1) ↔
      (e.IsJoined → op.precedence = 0) := by
  by_cases operand : e.IsOperand
  · rw [bindsAtLeast_of_isOperand he operand h, ← precedence_lt_one_iff]
    rfl
  · cases e with
    | binary other left right =>
        obtain ⟨lhs, rhs, _, _, rfl⟩ := grouping?_binary_eq_some h
        exact iff_of_true ((precedence_lt_iff op other).mpr binds) nofun
    | _ => exact absurd trivial operand

theorem exists_groupings? (h : ∀ f ∈ es, ∃ u, f.grouping? tables = some u) :
    ∃ ts, groupings? tables es = some ts := by
  induction es with
  | nil => exact ⟨[], rfl⟩
  | cons f fs ih =>
      obtain ⟨u, hu⟩ := h f (by simp)
      obtain ⟨us, hus⟩ := ih fun e he => h e (by simp [he])
      exact ⟨u :: us, by rw [groupings?, hu, hus]; rfl⟩

/-- A tree that keeps its grouping has one, and SQL groups the fragment in this way. -/
theorem exists_canonical_grouping? (he : e.Canonical) (h : e.KeepsGrouping) :
    ∃ g, e.grouping? tables = some g ∧ g.Canonical := by
  induction h with
  | leaf hleaf => exact ⟨_, hleaf.grouping?_eq, .operand⟩
  | paren _ ih =>
      cases he with
      | paren hinner =>
          obtain ⟨t, ht, canonical⟩ := ih hinner
          exact ⟨.paren t, by rw [grouping?, ht]; rfl, .paren canonical⟩
  | @binary op left right _ _ leftJoined rightJoined ihleft ihright =>
      cases he with
      | binary hleft hright leftBinds rightBinds =>
          obtain ⟨lhs, hlhs, lhsCanonical⟩ := ihleft hleft
          obtain ⟨rhs, hrhs, rhsCanonical⟩ := ihright hright
          refine ⟨.binary (.operator op) lhs rhs, by rw [grouping?, hlhs, hrhs]; rfl, ?_⟩
          exact .binary lhsCanonical rhsCanonical
            ((bindsAtLeast_left_iff hleft leftBinds hlhs).mpr leftJoined)
            ((bindsAtLeast_right_iff hright rightBinds hrhs).mpr rightJoined)
  | @call name e es _ _ single ihfirst ihrest =>
      cases he with
      | call harguments operands =>
          obtain ⟨t, ht, canonical⟩ := ihfirst (harguments e (by simp))
          have hrest : ∀ f ∈ es, ∃ u, f.grouping? tables = some u ∧ u.Canonical :=
            fun f hf => ihrest f hf (harguments f (by simp [hf]))
          obtain ⟨ts, hts⟩ := exists_groupings? fun f hf => (hrest f hf).imp fun _ h => h.1
          have hroot : t.BindsAtLeast 1 :=
            (bindsAtLeast_of_isOperand (harguments e (by simp)) (operands e (by simp)) ht 1).mpr
              fun _ => Nat.le_refl 1
          refine ⟨ts.foldl (.binary .concat) t, by rw [grouping?, groupings?, ht, hts]; rfl, ?_⟩
          rw [Tree.canonical_foldl_iff hroot]
          refine ⟨canonical, ?_⟩
          intro u hu
          obtain ⟨f, hf, heq⟩ := exists_grouping?_of_mem hts hu
          obtain ⟨v, hv, vCanonical⟩ := hrest f hf
          rw [heq] at hv
          cases hv
          have hcanonical := harguments f (by simp [hf])
          have hoperand := operands f (by simp [hf])
          refine ⟨vCanonical, ?_⟩
          rw [bindsAtLeast_of_isOperand hcanonical hoperand heq]
          intro hjoined
          exact absurd hjoined (single f hf)

/-- A tree whose grouping SQL respects keeps its grouping. -/
theorem keepsGrouping_of_canonical (he : e.Canonical) (h : e.grouping? tables = some g)
    (hg : g.Canonical) : e.KeepsGrouping := by
  induction e using Expr.induction generalizing g with
  | paren inner ih =>
      obtain ⟨t, ht, rfl⟩ := grouping?_paren_eq_some h
      cases he with
      | paren hinner =>
          cases hg with
          | paren canonical => exact .paren (ih hinner ht canonical)
  | binary op left right ihleft ihright =>
      obtain ⟨lhs, rhs, hlhs, hrhs, rfl⟩ := grouping?_binary_eq_some h
      cases he with
      | binary hleft hright leftBinds rightBinds =>
          cases hg with
          | binary lhsCanonical rhsCanonical lhsBinds rhsBinds =>
              exact .binary (ihleft hleft hlhs lhsCanonical) (ihright hright hrhs rhsCanonical)
                ((bindsAtLeast_left_iff hleft leftBinds hlhs).mp lhsBinds)
                ((bindsAtLeast_right_iff hright rightBinds hrhs).mp rhsBinds)
  | call name arguments ih =>
      obtain ⟨e, es, t, ts, rfl, ht, hts, rfl⟩ := grouping?_call_eq_some h
      cases he with
      | call harguments operands =>
          have hroot : t.BindsAtLeast 1 :=
            (bindsAtLeast_of_isOperand (harguments e (by simp)) (operands e (by simp)) ht 1).mpr
              fun _ => Nat.le_refl 1
          rw [Tree.canonical_foldl_iff hroot] at hg
          refine .call (ih e (by simp) (harguments e (by simp)) ht hg.1) ?_ ?_
          · intro f hf
            obtain ⟨u, hu, heq⟩ := exists_mem_of_grouping? hts hf
            exact ih f (by simp [hf]) (harguments f (by simp [hf])) heq (hg.2 u hu).1
          · intro f hf hjoined
            obtain ⟨u, hu, heq⟩ := exists_mem_of_grouping? hts hf
            have hcanonical := harguments f (by simp [hf])
            have hoperand := operands f (by simp [hf])
            have hbinds := (bindsAtLeast_of_isOperand hcanonical hoperand heq 2).mp (hg.2 u hu).2
            have htwo := hbinds hjoined
            omega
  | _ => exact .leaf trivial

/-- SQL reads the fragment of a canonical tree in the grouping of the tree if and only if the tree
keeps its grouping. -/
theorem read?_eq_grouping?_iff (he : e.Canonical) (tables : Tables) :
    (∃ g, e.grouping? tables = some g ∧ read? (e.parts tables) = some g) ↔ e.KeepsGrouping := by
  constructor
  · rintro ⟨g, hg, hread⟩
    rw [← parts_of_grouping? hg, Tree.read?_parts_eq_some_iff] at hread
    exact keepsGrouping_of_canonical he hg hread
  · intro h
    obtain ⟨g, hg, canonical⟩ := exists_canonical_grouping? he h
    refine ⟨g, hg, ?_⟩
    rw [← parts_of_grouping? hg, Tree.read?_parts_eq_some_iff]
    exact canonical

end Expr

end QueryExpr
