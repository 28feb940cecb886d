import QueryExpr.Proofs.Compile.Fragment
import QueryExpr.Proofs.Compile.Walk

/-!
# Joins and references

A reference is a leaf that needs a join: a column of a related record, or the number of related
records. In a scope, every reference adds one join, and the table in front of its column is the one
that this join brings in. Equal references get equal joins, one for each of them.

Compilation only ever adds to the joins of a scope. What it adds and what it writes depend on the
rest of the scope and not on the joins that are there already.
-/

namespace QueryExpr

open QueryExpr.Expr (Occurrence)

/-- Whether a leaf needs a join. -/
def Expr.isReference : Expr → Bool
  | .related .. | .count _ => true
  | _ => false

namespace Scope

/-- The occurrence is a reference through a relationship of the scope, and the join brings in the
table that stands in front of its column. -/
inductive Serves (s : Scope) : Occurrence → Join → Prop where
  /-- The root table has the key of the target. -/
  | belongsTo {name column : String} {r : Relationship}
      (hlookup : s.registry.relationship? s.model name = some r) (hkind : r.kind = .belongsTo) :
      Serves s ⟨.related name column, r.targetTable ++ "." ++ column⟩
        (.association r.name
          ("INNER JOIN " ++ r.targetTable ++ " ON " ++ (r.targetTable ++ "." ++
            r.targetPrimaryKey ++ " = " ++ s.table ++ "." ++ r.foreignKey)))
  /-- The target has the key of the root table. -/
  | hasOne {name column : String} {r : Relationship}
      (hlookup : s.registry.relationship? s.model name = some r) (hkind : r.kind = .hasOne) :
      Serves s ⟨.related name column, r.targetTable ++ "." ++ column⟩
        (.association r.name
          ("INNER JOIN " ++ r.targetTable ++ " ON " ++ (r.targetTable ++ "." ++
            r.foreignKey ++ " = " ++ s.table ++ "." ++ s.primaryKey)))
  /-- The records of the target are counted for each key. -/
  | hasMany {name : String} {r : Relationship}
      (hlookup : s.registry.relationship? s.model name = some r) (hkind : r.kind = .hasMany) :
      Serves s ⟨.count name, name ++ "__count___inner" ++ ".count"⟩
        (.raw ("LEFT JOIN (SELECT " ++ r.foreignKey ++ ", COUNT(*) AS count FROM " ++
          r.targetTable ++ " GROUP BY " ++ r.foreignKey ++ ") AS " ++ (name ++ "__count___inner") ++
          " ON " ++ (name ++ "__count___inner") ++ "." ++ r.foreignKey ++ " = " ++ s.table ++ "." ++
          s.primaryKey))

/-- How a leaf that needs no join is written in a scope. -/
inductive Writes (s : Scope) : Occurrence → Prop where
  | null : Writes s ⟨.null, "null"⟩
  | attr {name : String} (hattribute : s.registry.hasAttribute s.model name = true) :
      Writes s ⟨.attr name, s.table ++ "." ++ name⟩
  | string (raw : String) : Writes s ⟨.string raw, s.dialect.quote (Text.literalValue raw)⟩
  | number (text : String) : Writes s ⟨.number text, text⟩

/-- The joins are there for the references among the occurrences, one for each in their order, and
all other occurrences are written without a join. -/
structure Supports (s : Scope) (os : List Occurrence) (joins : List Join) : Prop where
  serves : List.Forall₂ s.Serves (os.filter (·.leaf.isReference)) joins
  writes : ∀ o ∈ os, o.leaf.isReference = false → s.Writes o

variable {s : Scope}

theorem Supports.nil : s.Supports [] [] := ⟨.nil, nofun⟩

theorem Supports.append {os more : List Occurrence} {joins rest : List Join}
    (h : s.Supports os joins) (hmore : s.Supports more rest) :
    s.Supports (os ++ more) (joins ++ rest) := by
  constructor
  · rw [List.filter_append]
    exact List.rel_append h.serves hmore.serves
  · intro o ho
    rcases List.mem_append.mp ho with ho | ho
    · exact h.writes o ho
    · exact hmore.writes o ho

theorem Serves.supports {o : Occurrence} {join : Join} (h : s.Serves o join) :
    s.Supports [o] [join] := by
  have hreference : o.leaf.isReference = true := by
    cases h <;> rfl
  constructor
  · simp only [List.filter_cons, hreference, if_true, List.filter_nil]
    exact .cons h .nil
  · intro p hp hplain
    cases List.mem_singleton.mp hp
    rw [hreference] at hplain
    cases hplain

theorem Writes.supports {o : Occurrence} (h : s.Writes o) : s.Supports [o] [] := by
  have hplain : o.leaf.isReference = false := by
    cases h <;> rfl
  constructor
  · simp only [List.filter_cons, hplain, Bool.false_eq_true, if_false, List.filter_nil]
    exact .nil
  · intro p hp _
    cases List.mem_singleton.mp hp
    exact h

/-- Whatever joins the scope has, the step yields the result and adds the joins at the end. -/
def Appends {α : Type} (s : Scope) (step : Scope → Except CompileError (α × Scope)) (result : α)
    (joins : List Join) : Prop :=
  ∀ before, step { s with joins := before } = pure (result, { s with joins := before ++ joins })

theorem appends_return {α : Type} (result : α) :
    s.Appends (fun s => return (result, s)) result [] := by
  intro before
  rw [List.append_nil]

/-- What a leaf gets written as, and the joins that it adds. -/
theorem supports_of_compile_leaf {e : Expr} (hleaf : e.IsLeaf) {start : List Join} {text : String}
    {after : Scope} (h : e.compile { s with joins := start } = .ok (text, after)) :
    ∃ joins, s.Supports [⟨e, text⟩] joins ∧ s.Appends e.compile text joins := by
  cases e with
  | paren | binary | call => exact hleaf.elim
  | null =>
      cases h
      exact ⟨[], Writes.null.supports, appends_return "null"⟩
  | attr name =>
      obtain ⟨hattribute, rfl, -⟩ := Expr.compile_attr_eq_ok h
      refine ⟨[], Writes.supports (s := s) (.attr hattribute), fun before => ?_⟩
      rw [List.append_nil]
      exact Expr.compileAttribute_of_hasAttribute hattribute
  | related relationship column =>
      obtain ⟨r, hlookup, hkind, rfl, -⟩ := Expr.compile_related_eq_ok h
      refine ⟨[.association r.name (r.joinClause s.table s.primaryKey)], ?_,
        fun before => Expr.compileRelated_of_kind hlookup hkind⟩
      apply Serves.supports
      rw [Relationship.joinClause]
      rcases hkind with hkind | hkind
      · rw [hkind]
        exact .belongsTo hlookup hkind
      · rw [hkind]
        exact .hasOne hlookup hkind
  | count relationship =>
      obtain ⟨r, hlookup, hkind, rfl, -⟩ := Expr.compile_count_eq_ok h
      refine ⟨[.raw (r.countClause (countTable relationship) s.table s.primaryKey)], ?_,
        fun before => Expr.compileCount_of_kind hlookup hkind⟩
      apply Serves.supports
      rw [countTable_eq]
      exact .hasMany hlookup hkind
  | string raw =>
      cases h
      refine ⟨[], Writes.supports (s := s) (.string raw), fun before => ?_⟩
      rw [List.append_nil]
      rfl
  | number text =>
      cases h
      exact ⟨[], (Writes.number text).supports, appends_return text⟩

theorem supports_of_visit_leaf {e : Expr} (hleaf : e.IsLeaf) {start : List Join}
    {os : List Occurrence} {after : Scope}
    (h : e.visit { s with joins := start } = .ok (os, after)) :
    ∃ joins, s.Supports os joins ∧ s.Appends e.visit os joins := by
  rw [Expr.visit_of_isLeaf hleaf] at h
  obtain ⟨⟨text, next⟩, htext, h⟩ := exists_of_bind_eq_ok h
  cases h
  obtain ⟨joins, hsupports, happends⟩ := supports_of_compile_leaf hleaf htext
  refine ⟨joins, hsupports, fun before => ?_⟩
  rw [Expr.visit_of_isLeaf hleaf, happends before, pure_bind]

/-- What one node yields is supported by the joins that it adds. -/
theorem supports_of_visit {node : Expr} {start : List Join} {os : List Occurrence} {after : Scope}
    (h : node.visit { s with joins := start } = .ok (os, after)) :
    ∃ joins, s.Supports os joins ∧ s.Appends node.visit os joins := by
  cases node with
  | paren | binary =>
      cases h
      exact ⟨[], .nil, appends_return []⟩
  | call name arguments =>
      rw [Expr.visit] at h
      cases hname : Function.ofName? name with
      | none =>
          rw [hname] at h
          cases h
      | some f =>
          rw [hname] at h
          cases h
          refine ⟨[], .nil, fun before => ?_⟩
          rw [Expr.visit, hname, List.append_nil]
  | _ =>
      refine supports_of_visit_leaf ?_ h
      trivial

/-- A node leaves everything of the scope but the joins as it is. -/
theorem exists_joins_of_visit {node : Expr} {os : List Occurrence} {after : Scope}
    (h : node.visit s = .ok (os, after)) : ∃ joins, after = { s with joins := joins } := by
  obtain ⟨joins, -, happends⟩ := supports_of_visit (s := s) h
  have hsame := happends s.joins
  rw [h] at hsame
  cases hsame
  exact ⟨s.joins ++ joins, rfl⟩

/-- What a walk yields is supported by the joins that it adds. -/
theorem supports_of_walk {nodes : List Expr} {start : List Join} {os : List Occurrence}
    {after : Scope} (h : Expr.walk nodes { s with joins := start } = .ok (os, after)) :
    ∃ joins, s.Supports os joins ∧ s.Appends (Expr.walk nodes) os joins := by
  induction nodes generalizing start os with
  | nil =>
      cases h
      exact ⟨[], .nil, appends_return []⟩
  | cons node nodes ih =>
      obtain ⟨first, middle, rest, hfirst, hrest, rfl⟩ := Expr.walk_cons_eq_ok_iff.mp h
      obtain ⟨joins, hsupports, happends⟩ := supports_of_visit hfirst
      -- So the rest starts in the same scope again, with more joins.
      rw [happends start] at hfirst
      cases hfirst
      obtain ⟨more, hmore, hlast⟩ := ih hrest
      refine ⟨joins ++ more, hsupports.append hmore, fun before => ?_⟩
      simp only [Expr.walk, happends before, hlast (before ++ joins), pure_bind, List.append_assoc]

/-- Joins and references match one to one. A tree that compiles in a scope adds one join for each of
its references, in the order of the references; nothing else about the scope changes. In the
fragment, each reference is a column of the table that its own join brings in, and each attribute is
a column of the root table. The joins that the scope has already play no part in this. -/
theorem joins_serve_references {e : Expr} {after : Scope} {sql : String}
    (h : e.compile s = .ok (sql, after)) :
    ∃ os joins, e.Assembles os sql ∧ os.map Occurrence.leaf = e.leaves ∧
      after = { s with joins := s.joins ++ joins } ∧
      List.Forall₂ s.Serves (os.filter (·.leaf.isReference)) joins ∧
      (∀ o ∈ os, o.leaf.isReference = false → s.Writes o) ∧
      ∀ before, e.compile { s with joins := before } =
        .ok (sql, { s with joins := before ++ joins }) := by
  obtain ⟨os, hwalk, hassembles⟩ := Expr.compile_eq_ok_iff.mp h
  obtain ⟨joins, hsupports, happends⟩ := supports_of_walk (s := s) hwalk
  have hany (before : List Join) : e.compile { s with joins := before } =
      .ok (sql, { s with joins := before ++ joins }) :=
    Expr.compile_eq_ok_iff.mpr ⟨os, happends before, hassembles⟩
  have hafter : after = { s with joins := s.joins ++ joins } := by
    have hsame := hany s.joins
    rw [h] at hsame
    cases hsame
    rfl
  exact ⟨os, joins, hassembles, hassembles.leaves_eq, hafter, hsupports.serves, hsupports.writes,
    hany⟩

theorem joins_serve_references_shop :
    ∃ after, Expr.compile (.binary .add (.related "customer" "age")
        (.call "concat" [.count "items", .attr "total", .related "customer" "name"]))
        { Schema.shopOrders .mysql with joins := [.raw "CROSS JOIN t"] } =
      .ok ("customers.age + items__count___inner.count || orders.total || customers.name", after) ∧
    ∃ os joins, Expr.Assembles (.binary .add (.related "customer" "age")
        (.call "concat" [.count "items", .attr "total", .related "customer" "name"])) os
        "customers.age + items__count___inner.count || orders.total || customers.name" ∧
      os.map Occurrence.leaf =
        [.related "customer" "age", .count "items", .attr "total", .related "customer" "name"] ∧
      after = { Schema.shopOrders .mysql with joins := [.raw "CROSS JOIN t"] ++ joins } ∧
      List.Forall₂ (Serves { Schema.shopOrders .mysql with joins := [.raw "CROSS JOIN t"] })
        (os.filter (·.leaf.isReference)) joins ∧
      (∀ o ∈ os, o.leaf.isReference = false →
        Writes { Schema.shopOrders .mysql with joins := [.raw "CROSS JOIN t"] } o) ∧
      ∀ before, Expr.compile (.binary .add (.related "customer" "age")
          (.call "concat" [.count "items", .attr "total", .related "customer" "name"]))
          { Schema.shopOrders .mysql with joins := before } =
        .ok ("customers.age + items__count___inner.count || orders.total || customers.name",
          { Schema.shopOrders .mysql with joins := before ++ joins }) := by
  obtain ⟨after, hcompile⟩ : ∃ after, Expr.compile (.binary .add (.related "customer" "age")
      (.call "concat" [.count "items", .attr "total", .related "customer" "name"]))
      { Schema.shopOrders .mysql with joins := [.raw "CROSS JOIN t"] } =
        .ok ("customers.age + items__count___inner.count || orders.total || customers.name",
          after) := ⟨_, rfl⟩
  exact ⟨after, hcompile, joins_serve_references hcompile⟩

end Scope

end QueryExpr
