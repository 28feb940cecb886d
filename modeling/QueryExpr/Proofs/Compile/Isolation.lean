import QueryExpr.Compile.Scope
import QueryExpr.Proofs.Compile.Alike
import QueryExpr.Proofs.Schema.History

/-!
# An expression sees its own model only

A scope asks its registry about one model. So two scopes of different schemas are alike if the
schemas answer alike for this model, whatever else is in them and however they were built. What a
schema answers for a model depends on the declaration of it that came last, and there on the table,
the primary key, the names of the attributes and the first relationship of each name.
-/

namespace QueryExpr

/-- Scopes that differ in their registries at most, and these say the same of the model. -/
structure Scope.Alike (s t : Scope) : Prop where
  table : s.table = t.table
  primaryKey : s.primaryKey = t.primaryKey
  dialect : s.dialect = t.dialect
  joins : s.joins = t.joins
  hasAttribute (name : String) :
    s.registry.hasAttribute s.model name = t.registry.hasAttribute t.model name
  relationship? (name : String) :
    s.registry.relationship? s.model name = t.registry.relationship? t.model name

theorem Scope.Alike.push {s t : Scope} (h : s.Alike t) (join : Join) :
    (s.push join).Alike (t.push join) where
  table := h.table
  primaryKey := h.primaryKey
  dialect := h.dialect
  joins := congrArg (· ++ [join]) h.joins
  hasAttribute := h.hasAttribute
  relationship? := h.relationship?

theorem Scope.indistinct_alike : QueryContext.Indistinct Scope.Alike where
  table h := h.table
  primaryKey h := h.primaryKey
  hasAttribute h := h.hasAttribute
  relationship? h := h.relationship?
  quote h value := congrArg (fun dialect => dialect.quote value) h.dialect
  joinAlong {s t} h r := by
    change (s.push _).Alike (t.push (.association r.name (r.joinClause t.table t.primaryKey)))
    rw [← h.table, ← h.primaryKey]
    exact h.push _
  joinClause h clause := h.push (.raw clause)

/-- The histories of two models that offer the same to expressions. -/
structure Model.History.Agrees (h k : Model.History) : Prop where
  table : h.table = k.table
  primaryKey : h.primaryKey = k.primaryKey
  attributes (name : String) : h.Declares name ↔ k.Declares name
  relationships (name : String) : h.relationship? name = k.relationship? name

namespace Schema

variable {declarations others : List (String × Model.History)} {model : String}
  {h k : Model.History}

theorem hasAttribute_build (hlast : last? declarations model = some h) (name : String) :
    (build declarations).registry.hasAttribute model name = true ↔ h.Declares name := by
  simp only [registry, get?_build, hlast, Option.map_some, Option.any_some]
  exact h.contains_model name

theorem relationship?_build (hlast : last? declarations model = some h) (name : String) :
    (build declarations).registry.relationship? model name = h.relationship? name := by
  simp only [registry, get?_build, hlast, Option.map_some]
  exact h.relationship?_model name

/-- Each of the two schemas has a scope on the model, and these are alike. -/
theorem exists_alike_scopes (hlast : last? declarations model = some h)
    (hother : last? others model = some k) (hagrees : h.Agrees k) (dialect : Dialect) :
    ∃ s t, (build declarations).scope? model dialect = some s ∧
      (build others).scope? model dialect = some t ∧ s.Alike t := by
  rw [scope?, scope?, get?_build, get?_build, hlast, hother]
  refine ⟨_, _, rfl, rfl, ?_⟩
  constructor
  · change h.model.table = k.model.table
    rw [h.table_model, k.table_model, hagrees.table]
  · change h.model.primaryKey = k.model.primaryKey
    rw [h.primaryKey_model, k.primaryKey_model, hagrees.primaryKey]
  · rfl
  · rfl
  · intro name
    rw [Bool.eq_iff_iff, hasAttribute_build hlast, hasAttribute_build hother]
    exact hagrees.attributes name
  · intro name
    change (build declarations).registry.relationship? model name =
      (build others).registry.relationship? model name
    rw [relationship?_build hlast, relationship?_build hother, hagrees.relationships]

/-- An expression sees its own model only, and only through first declarations. If the last
declarations of a model in two schemas offer the same, every text compiles to the same in both: the
same fragment with the same joins, or the same error. Other models, models that were replaced,
attributes that were declared again and later relationships of the same name do not matter. -/
theorem compilation_sees_own_model_only (hlast : last? declarations model = some h)
    (hother : last? others model = some k) (hagrees : h.Agrees k) (dialect : Dialect)
    (text : String) (limits : Limits) :
    ∃ s t, (build declarations).scope? model dialect = some s ∧
      (build others).scope? model dialect = some t ∧
      (compileWithin limits text s).map (fun (sql, after) => (sql, after.joins)) =
        (compileWithin limits text t).map (fun (sql, after) => (sql, after.joins)) := by
  obtain ⟨s, t, hs, ht, halike⟩ := exists_alike_scopes hlast hother hagrees dialect
  refine ⟨s, t, hs, ht, ?_⟩
  apply SameOutcome.map_eq (sameOutcome_compileWithin Scope.indistinct_alike halike limits text)
  exact fun _ _ hafter => hafter.joins

theorem compilation_sees_own_model_only_order :
    let invoice : Relationship :=
      { name := "invoice", kind := .hasOne, targetTable := "invoices", foreignKey := "order_id" }
    let items : Relationship :=
      { name := "items", kind := .hasMany, targetTable := "line_items", foreignKey := "order_id" }
    let order : Model.History :=
      ⟨"orders", [.attributes ["id", "total"], .relationship invoice, .relationship items]⟩
    let reordered : Model.History :=
      ⟨"orders", [.relationship items, .attributes ["total"], .relationship invoice,
        .attributes ["id", "total"], .relationship { items with targetTable := "old_items" }]⟩
    let declarations :=
      [("Customer", ⟨"customers", []⟩), ("Order", ⟨"drafts", []⟩), ("Order", order)]
    let others := [("Order", reordered)]
    last? declarations "Order" = some order ∧ last? others "Order" = some reordered ∧
      order.Agrees reordered ∧
      ∃ s t, (build declarations).scope? "Order" .mysql = some s ∧
        (build others).scope? "Order" .mysql = some t ∧
        (compileWithin {} "total * items.count + invoice.amount" s).map
            (fun (sql, after) => (sql, after.joins)) =
          (compileWithin {} "total * items.count + invoice.amount" t).map
            (fun (sql, after) => (sql, after.joins)) := by
  intro invoice items order reordered declarations others
  have hlast : last? declarations "Order" = some order := rfl
  have hother : last? others "Order" = some reordered := rfl
  have hagrees : order.Agrees reordered := by
    constructor
    · rfl
    · rfl
    · intro name
      simp [Model.History.Declares, Model.Call.attributeNames, order, reordered]
      exact .inr
    · intro name
      by_cases hinvoice : "invoice" = name
      · subst hinvoice
        rfl
      · by_cases hitems : "items" = name
        · subst hitems
          rfl
        · simp [Model.History.relationship?, Model.Call.relationship?, List.findSome?_cons, order,
            reordered, invoice, items, hinvoice, hitems]
  exact ⟨hlast, hother, hagrees, compilation_sees_own_model_only hlast hother hagrees _ _ _⟩

end Schema

end QueryExpr
