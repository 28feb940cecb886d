import QueryExpr.Proofs.Compile.Joins
import QueryExpr.Proofs.Compile.Pass

/-!
# What a scope resolves

A scope answers questions about names from its registry and for its model. The joins that it
collects have no part in the answers. So whether a node can be compiled is settled before
compilation begins: a tree compiles in the scope if all its nodes are resolved, and otherwise it
fails at the first node in preorder that is not.
-/

namespace QueryExpr

/-- The first element that counts is the head of a list, or the head may be skipped and it is the
first that counts in the tail. -/
theorem exists_first_cons {α : Type} {p q : α → Prop} {x : α} {xs : List α} :
    (∃ before a after, x :: xs = before ++ a :: after ∧ (∀ b ∈ before, p b) ∧ q a) ↔
      q x ∨ p x ∧ ∃ before a after, xs = before ++ a :: after ∧ (∀ b ∈ before, p b) ∧ q a := by
  constructor
  · rintro ⟨before, a, after, hsplit, hbefore, ha⟩
    cases before with
    | nil =>
        cases hsplit
        exact .inl ha
    | cons b before =>
        cases hsplit
        obtain ⟨hx, hbefore⟩ := List.forall_mem_cons.mp hbefore
        exact .inr ⟨hx, before, a, after, rfl, hbefore, ha⟩
  · rintro (hx | ⟨hx, before, a, after, rfl, hbefore, ha⟩)
    · exact ⟨[], x, xs, rfl, nofun, hx⟩
    · exact ⟨x :: before, a, after, rfl, List.forall_mem_cons.mpr ⟨hx, hbefore⟩, ha⟩

/-- Which nodes the pass stops at does not depend on the joins. -/
theorem Expr.Refuses.withJoins {s : Scope} {node : Expr} {error : CompileError}
    (h : Expr.Refuses s node error) (joins : List Join) :
    Expr.Refuses { s with joins := joins } node error := by
  cases h with
  | call hname => exact .call hname
  | attr hattribute => exact .attr hattribute
  | related hlookup => exact .related hlookup
  | relatedKind hlookup hbelongs hone => exact .relatedKind hlookup hbelongs hone
  | count hlookup => exact .count hlookup
  | countKind hlookup hmany => exact .countKind hlookup hmany

namespace Scope

open QueryExpr.Expr (Occurrence Passes Refuses)

/-- Whether the scope has what the node refers to, of a kind that can be used there. Nodes that
refer to nothing are resolved. -/
def resolves (s : Scope) : Expr → Bool
  | .call name _ => name = "concat"
  | .attr name => s.registry.hasAttribute s.model name
  | .related name _ =>
    (s.registry.relationship? s.model name).any fun r => r.kind = .belongsTo ∨ r.kind = .hasOne
  | .count name => (s.registry.relationship? s.model name).any fun r => r.kind = .hasMany
  | .paren _ | .binary .. | .null | .string _ | .number _ => true

/-- The first node of the tree, in preorder, that the scope cannot resolve. -/
def offence? (s : Scope) (tree : Expr) : Option Expr :=
  tree.nodes.find? fun node => !s.resolves node

variable {s : Scope} {node tree : Expr} {error : CompileError}

/-! ## One node -/

theorem resolves_of_passes {os : List Occurrence} {after : Scope} (h : Passes s node os after) :
    s.resolves node = true := by
  cases h with
  | paren | binary | call | null | string | number => rfl
  | attr hattribute => exact hattribute
  | related hlookup hkind | count hlookup hkind =>
      exact (Option.any_eq_true _ _).mpr ⟨_, hlookup, decide_eq_true hkind⟩

theorem not_resolves_of_refuses (h : Refuses s node error) : ¬ s.resolves node = true := by
  cases h with
  | call hname => exact fun hresolves => hname (of_decide_eq_true hresolves)
  | attr hattribute => exact hattribute
  | related hlookup | count hlookup =>
      have hnone : s.registry.relationship? s.model _ = none := hlookup
      simp [resolves, hnone]
  | relatedKind hlookup hbelongs hone =>
      have hsome : s.registry.relationship? s.model _ = some _ := hlookup
      simp [resolves, hsome, hbelongs, hone]
  | countKind hlookup hmany =>
      have hsome : s.registry.relationship? s.model _ = some _ := hlookup
      simp [resolves, hsome, hmany]

/-- A node that is resolved is passed. -/
theorem exists_visit_eq_ok_iff :
    (∃ os after, node.visit s = .ok (os, after)) ↔ s.resolves node = true := by
  constructor
  · rintro ⟨os, after, hvisit⟩
    exact resolves_of_passes (Expr.visit_eq_ok_iff.mp hvisit)
  · intro hresolves
    cases hvisit : node.visit s with
    | error error =>
        exact absurd hresolves (not_resolves_of_refuses (Expr.visit_eq_error_iff.mp hvisit))
    | ok visited => exact ⟨visited.1, visited.2, rfl⟩

/-- At a node that is not resolved the pass stops. -/
theorem exists_refuses_iff : (∃ error, Refuses s node error) ↔ ¬ s.resolves node = true := by
  rw [← exists_visit_eq_ok_iff]
  simp only [← Expr.visit_eq_error_iff]
  cases node.visit s with
  | error error => exact ⟨fun _ => nofun, fun _ => ⟨error, rfl⟩⟩
  | ok visited => exact ⟨nofun, fun hnone => absurd ⟨visited.1, visited.2, rfl⟩ hnone⟩

/-! ## All nodes -/

/-- A walk comes to its end if all nodes are resolved. -/
theorem exists_walk_eq_ok_iff {nodes : List Expr} :
    (∃ os after, Expr.walk nodes s = .ok (os, after)) ↔ ∀ node ∈ nodes, s.resolves node = true := by
  induction nodes generalizing s with
  | nil => exact ⟨nofun, fun _ => ⟨[], s, rfl⟩⟩
  | cons node nodes ih =>
      rw [List.forall_mem_cons, ← exists_visit_eq_ok_iff]
      simp only [Expr.walk_cons_eq_ok_iff]
      constructor
      · rintro ⟨os, after, first, middle, rest, hfirst, hrest, -⟩
        obtain ⟨joins, rfl⟩ := exists_joins_of_visit hfirst
        have hresolves := (ih (s := { s with joins := joins })).mp ⟨rest, after, hrest⟩
        exact ⟨⟨first, _, hfirst⟩, hresolves⟩
      · rintro ⟨⟨first, middle, hfirst⟩, hresolves⟩
        obtain ⟨joins, rfl⟩ := exists_joins_of_visit hfirst
        obtain ⟨rest, after, hrest⟩ := (ih (s := { s with joins := joins })).mpr hresolves
        exact ⟨first ++ rest, after, first, _, rest, hfirst, hrest, rfl⟩

/-- A walk fails at the first node that is not resolved. -/
theorem walk_eq_error_iff {nodes : List Expr} :
    Expr.walk nodes s = .error error ↔
      ∃ before node after, nodes = before ++ node :: after ∧
        (∀ resolved ∈ before, s.resolves resolved = true) ∧ Refuses s node error := by
  induction nodes generalizing s with
  | nil =>
      constructor
      · nofun
      · rintro ⟨before, node, after, hsplit, -⟩
        simp at hsplit
  | cons node nodes ih =>
      rw [Expr.walk_cons_eq_error_iff, exists_first_cons, Expr.visit_eq_error_iff,
        ← exists_visit_eq_ok_iff]
      refine or_congr Iff.rfl ⟨?_, ?_⟩
      -- The joins that the node adds have no part in what is resolved after it.
      · rintro ⟨os, middle, hvisit, hwalk⟩
        obtain ⟨joins, rfl⟩ := exists_joins_of_visit hvisit
        obtain ⟨before, found, after, hsplit, hbefore, hfound⟩ := ih.mp hwalk
        exact ⟨⟨os, _, hvisit⟩, before, found, after, hsplit, hbefore, hfound.withJoins s.joins⟩
      · rintro ⟨⟨os, middle, hvisit⟩, before, found, after, hsplit, hbefore, hfound⟩
        obtain ⟨joins, rfl⟩ := exists_joins_of_visit hvisit
        refine ⟨os, _, hvisit, ih.mpr ?_⟩
        exact ⟨before, found, after, hsplit, hbefore, hfound.withJoins joins⟩

theorem offence?_eq_some_iff :
    s.offence? tree = some node ↔
      ∃ before after, tree.nodes = before ++ node :: after ∧
        (∀ resolved ∈ before, s.resolves resolved = true) ∧ ¬ s.resolves node = true := by
  rw [offence?, List.find?_eq_some_iff_append]
  simp only [Bool.not_eq_true', Bool.not_not, Bool.not_eq_true]
  constructor
  · rintro ⟨hnode, before, after, hsplit, hbefore⟩
    exact ⟨before, after, hsplit, hbefore, hnode⟩
  · rintro ⟨before, after, hsplit, hbefore, hnode⟩
    exact ⟨hnode, before, after, hsplit, hbefore⟩

theorem exists_refuses_of_offence? (h : s.offence? tree = some node) :
    ∃ error, Refuses s node error := by
  obtain ⟨_, _, _, _, hnode⟩ := offence?_eq_some_iff.mp h
  exact exists_refuses_iff.mpr hnode

/-- A tree fails at the first node that is not resolved, with the error for which the pass stops
there. -/
theorem compile_eq_error_iff :
    tree.compile s = .error error ↔ ∃ node, s.offence? tree = some node ∧ Refuses s node error := by
  rw [Expr.compile_eq_error_iff, walk_eq_error_iff]
  simp only [offence?_eq_some_iff]
  constructor
  · rintro ⟨before, node, after, hsplit, hbefore, hrefuses⟩
    exact ⟨node, ⟨before, after, hsplit, hbefore, not_resolves_of_refuses hrefuses⟩, hrefuses⟩
  · rintro ⟨node, ⟨before, after, hsplit, hbefore, -⟩, hrefuses⟩
    exact ⟨before, node, after, hsplit, hbefore, hrefuses⟩

end Scope

end QueryExpr
