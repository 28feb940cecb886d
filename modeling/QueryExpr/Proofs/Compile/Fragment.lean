import QueryExpr.Proofs.Compile.Success
import QueryExpr.Proofs.Sql.Part
import QueryExpr.Schema.Shop

/-!
# The fragment of a tree in a scope

In a scope, the fragment that a tree compiles to is the spelling of its parts. Only the joins of the
scope change on the way, and no part depends on them, so all parts are those of the scope that
compilation started from.
-/

namespace QueryExpr

open Sql

/-- The tables that a fragment can name in this scope. No fragment names the target of a
relationship that the registry does not know, so any table will do for it. -/
def Scope.tables (s : Scope) : Tables where
  root := s.table
  target name := ((s.registry.relationship? s.model name).map (·.targetTable)).getD s.table

theorem Scope.tables_target {s : Scope} {name : String} {r : Relationship}
    (h : QueryContext.relationship? s name = some r) : s.tables.target name = r.targetTable := by
  have hlookup : s.registry.relationship? s.model name = some r := h
  simp only [tables, hlookup, Option.map_some, Option.getD_some]

/-- What holds of the table of a scope and of all targets holds of all tables that a fragment can
name. -/
theorem Scope.forall_target {s : Scope} {p : String → Prop} (hroot : p s.table)
    (htarget : ∀ name r, s.registry.relationship? s.model name = some r → p r.targetTable)
    (name : String) : p (s.tables.target name) := by
  cases hlookup : s.registry.relationship? s.model name with
  | none => simpa [tables, hlookup] using hroot
  | some r => simpa [tables, hlookup] using htarget name r hlookup

namespace Expr

/-- Compiled in `s`, the tree gave the spelling of its parts and some joins. -/
def CompilesTo (e : Expr) (s : Scope) (sql : String) (after : Scope) : Prop :=
  sql.toList = spell s.dialect (e.parts s.tables) ∧ ∃ joins, after = { s with joins := joins }

theorem compilesTo_of_compileAll {es : List Expr} {s after : Scope} {parts : List String}
    (h : compileAll es s = .ok (parts, after))
    (each : ∀ e ∈ es, ∀ {s after : Scope} {sql : String},
      compile e s = .ok (sql, after) → e.CompilesTo s sql after) :
    parts.map String.toList = (partsAll s.tables es).map (spell s.dialect) ∧
      ∃ joins, after = { s with joins := joins } := by
  induction es generalizing s parts with
  | nil =>
      rw [compileAll] at h
      cases h
      exact ⟨rfl, after.joins, rfl⟩
  | cons e es ih =>
      obtain ⟨first, middle, rest, hfirst, hrest, rfl⟩ := compileAll_cons_eq_ok h
      obtain ⟨hspell, joins, rfl⟩ := each e (by simp) hfirst
      obtain ⟨hspells, more, rfl⟩ := ih hrest fun f hf => each f (by simp [hf])
      refine ⟨?_, more, rfl⟩
      rw [partsAll, List.map_cons, List.map_cons, hspell, hspells]
      rfl

theorem spell_intercalate (d : Dialect) (lists : List (List Part)) :
    spell d ([.connective .concat].intercalate lists) =
      [' ', '|', '|', ' '].intercalate (lists.map (spell d)) := by
  induction lists with
  | nil => rfl
  | cons parts lists ih =>
      cases lists with
      | nil => simp
      | cons more lists =>
          rw [List.intercalate_cons_cons, List.map_cons, List.map_cons,
            List.intercalate_cons_cons, spell_append, spell_append, ih, List.map_cons]
          rfl

theorem spell_parts_of_isLeaf {e : Expr} (h : e.IsLeaf) (d : Dialect) (tables : Tables) :
    spell d (e.parts tables) = (e.operand tables).text d := by
  rw [h.parts_eq, spell_cons, spell_nil, List.append_nil]
  rfl

/-- The fragment of a tree is the spelling of its parts. -/
theorem compilesTo_of_compile {e : Expr} {s after : Scope} {sql : String}
    (h : compile e s = .ok (sql, after)) : e.CompilesTo s sql after := by
  induction e using Expr.induction generalizing s sql after with
  | paren inner ih =>
      obtain ⟨part, hinner, rfl⟩ := compile_paren_eq_ok h
      obtain ⟨hspell, joins⟩ := ih hinner
      refine ⟨?_, joins⟩
      simp [parts, hspell, Part.text]
  | binary op left right ihleft ihright =>
      obtain ⟨lhs, middle, rhs, hleft, hright, rfl⟩ := compile_binary_eq_ok h
      obtain ⟨hlhs, joins, rfl⟩ := ihleft hleft
      obtain ⟨hrhs, more, rfl⟩ := ihright hright
      refine ⟨?_, more, rfl⟩
      simp only [parts, String.toList_append, hlhs, hrhs, spell_append, spell_cons, Part.text,
        Connective.symbol, List.append_assoc, List.cons_append, List.nil_append]
      rfl
  | call name arguments ih =>
      obtain ⟨-, fragments, harguments, rfl⟩ := compile_call_eq_ok h
      obtain ⟨hspell, joins⟩ := compilesTo_of_compileAll harguments ih
      refine ⟨?_, joins⟩
      rw [String.toList_intercalate, hspell, parts, spell_intercalate]
      rfl
  | null =>
      cases h
      exact ⟨rfl, s.joins, rfl⟩
  | attr name =>
      obtain ⟨-, rfl, rfl⟩ := compile_attr_eq_ok h
      refine ⟨?_, after.joins, rfl⟩
      rw [spell_parts_of_isLeaf (e := .attr name) trivial]
      rfl
  | related relationship column =>
      obtain ⟨r, hr, -, rfl, rfl⟩ := compile_related_eq_ok h
      refine ⟨?_, _, rfl⟩
      rw [spell_parts_of_isLeaf (e := .related relationship column) trivial, operand,
        Scope.tables_target hr]
      rfl
  | count relationship =>
      obtain ⟨r, -, -, rfl, rfl⟩ := compile_count_eq_ok h
      refine ⟨?_, _, rfl⟩
      rw [spell_parts_of_isLeaf (e := .count relationship) trivial]
      rfl
  | string raw =>
      cases h
      refine ⟨?_, s.joins, rfl⟩
      rw [spell_parts_of_isLeaf (e := .string raw) trivial]
      rfl
  | number text =>
      cases h
      refine ⟨?_, s.joins, rfl⟩
      rw [spell_parts_of_isLeaf (e := .number text) trivial]
      rfl

end Expr

/-- What a text compiles to in a scope is spelled from the parts of the tree that it parses to. -/
theorem Scope.spell_of_compileWithin {limits : Limits} {text sql : String} {s after : Scope}
    (h : compileWithin limits text s = .ok (sql, after)) :
    ∃ t, Expr.parseWithin limits.maxDepth.toNat text = .ok t ∧
      sql.toList = spell s.dialect (t.parts s.tables) := by
  obtain ⟨t, hparse, hcompile⟩ := exists_of_compileWithin_eq_ok h
  exact ⟨t, hparse, (Expr.compilesTo_of_compile hcompile).1⟩

/-- A query on the orders of the shop. -/
def Schema.shopOrders (dialect : Dialect) : Scope where
  registry := Schema.shop.registry
  model := "Order"
  table := "orders"
  primaryKey := "id"
  dialect := dialect

theorem Schema.scope?_shop (dialect : Dialect) :
    Schema.shop.scope? "Order" dialect = some (Schema.shopOrders dialect) := rfl

/-- The tables that a scope of a schema can name are those of its model. -/
theorem Schema.forall_tables_of_scope? {p : String → Prop} {schema : Schema} {model : String}
    {dialect : Dialect} {s : Scope} (hscope : schema.scope? model dialect = some s)
    (htables : ∀ m, schema.get? model = some m →
      p m.table ∧ ∀ r ∈ m.relationships, p r.targetTable) :
    p s.table ∧ ∀ name r, s.registry.relationship? s.model name = some r → p r.targetTable := by
  obtain ⟨m, hget, rfl⟩ := Option.map_eq_some_iff.mp hscope
  obtain ⟨hroot, htargets⟩ := htables m hget
  refine ⟨hroot, fun name r hlookup => ?_⟩
  have hfind : (schema.get? model >>= fun m => m.relationship? name) = some r := hlookup
  rw [hget] at hfind
  exact htargets r (List.mem_of_find?_eq_some hfind)

theorem Schema.forall_tables_shopOrders {p : String → Prop} (dialect : Dialect)
    (h : ∀ table ∈ ["orders", "customers", "invoices", "line_items", "labels"], p table) :
    p (Schema.shopOrders dialect).table ∧
      ∀ name r, (Schema.shopOrders dialect).registry.relationship?
        (Schema.shopOrders dialect).model name = some r → p r.targetTable := by
  apply Schema.forall_tables_of_scope? (Schema.scope?_shop dialect)
  intro m hm
  have hget : Schema.shop.get? "Order" = some Schema.shopOrder := by simp [Schema.shop]
  rw [hget] at hm
  cases hm
  simpa [Schema.shopOrder, Model.withRelationship, Model.withAttributes, Model.ofTable] using h

end QueryExpr
