import QueryExpr.Proofs.Compile.Grouping
import QueryExpr.Proofs.Compile.Words
import QueryExpr.Proofs.Sql.Reading

/-!
# Reading a compiled fragment again

Compilation gives a text, and a database has only this text to find the grouping from. Where the
tables of a scope have names that can be read, reading the text comes to the same as grouping its
parts, so what holds for the parts of a fragment holds for what a database sees.
-/

namespace QueryExpr

open Sql

/-- All tables that a fragment can name in this scope can be read as names. -/
structure Scope.ReadableTables (s : Scope) : Prop where
  root : Sql.IsName s.table.toList
  target : ∀ name r, s.registry.relationship? s.model name = some r →
    Sql.IsName r.targetTable.toList

/-- The derived table of a count has a name that can be read. -/
theorem Sql.isName_countTable {relationship : String} (h : Lexeme.IsName relationship.toList) :
    Sql.IsName (countTable relationship).toList := by
  rw [countTable, String.append_assoc, String.toList_append]
  exact (isName_of_isName h).append (List.all_eq_true.mp rfl)

/-- Where the tables can be read, so can all words of a fragment. -/
theorem Scope.ReadableTables.isWord {s : Scope} (h : s.ReadableTables) {text : List Char}
    (hword : s.tables.Word text) : IsWord text := by
  cases hword with
  | null => exact .name (Sql.isName_of_isName (Lexeme.isName_of_all (by decide) rfl))
  | number hnumeral => exact .number hnumeral
  | root hname => exact .name (h.root.qualify hname)
  | target relationship hname =>
      have htarget : Sql.IsName (s.tables.target relationship).toList :=
        Scope.forall_target (p := fun table => Sql.IsName table.toList) h.root h.target relationship
      exact .name (htarget.qualify hname)
  | count hname =>
      have hcount : Lexeme.IsName "count".toList := Lexeme.isName_of_all (by decide) rfl
      exact .name ((Sql.isName_countTable hname).qualify hcount)

theorem Schema.readableTables_shopOrders (dialect : Dialect) :
    (Schema.shopOrders dialect).ReadableTables := by
  obtain ⟨hroot, htargets⟩ := Schema.forall_tables_shopOrders
    (p := fun table => Sql.IsName table.toList) dialect (by simp [Sql.IsName]; decide)
  exact ⟨hroot, htargets⟩

/-- A fragment for PostgreSQL groups like its tree if and only if the tree keeps its grouping. What
counts are the parts of the fragment; where the tables can be read, reading the text comes to the
same. -/
theorem Scope.grouping_kept_iff {limits : Limits} {text sql : String} {s after : Scope}
    (hdialect : s.dialect = .postgres) (h : compileWithin limits text s = .ok (sql, after)) :
    ∃ t, Expr.parseWithin limits.maxDepth.toNat text = .ok t ∧
      sql.toList = spell .postgres (t.parts s.tables) ∧
      ((∃ g, t.grouping? s.tables = some g ∧ read? (t.parts s.tables) = some g) ↔
        t.KeepsGrouping) ∧
      (s.ReadableTables → readText? .postgres sql = read? (t.parts s.tables)) := by
  obtain ⟨t, hparse, hspell⟩ := Scope.spell_of_compileWithin h
  rw [hdialect] at hspell
  have hcanonical := (Expr.yields_of_parseWithin hparse).2.2
  have hspelled := Expr.spelled_of_parseWithin hparse
  refine ⟨t, hparse, hspell, Expr.read?_eq_grouping?_iff hcanonical s.tables, ?_⟩
  intro htables
  apply readText?_of_spell hspell (Expr.separated_parts s.tables t)
  intro text hmem
  exact htables.isWord (Expr.word_of_mem_parts hspelled hmem)

theorem Scope.grouping_kept_iff_comparison :
    let t : Expr := .binary .eq (.call "concat" [.attr "status", .string "it's"]) (.attr "note")
    let g : Tree := .binary (.operator .eq)
      (.binary .concat (.operand (.word "orders.status".toList)) (.operand (.literal "it's")))
      (.operand (.word "orders.note".toList))
    (Schema.shopOrders .postgres).dialect = .postgres ∧
      (Schema.shopOrders .postgres).ReadableTables ∧
      (∃ after, compileWithin {} "concat(status, \"it's\") == note" (Schema.shopOrders .postgres) =
        .ok ("orders.status || 'it''s' = orders.note", after)) ∧
      Expr.parseWithin ({} : Limits).maxDepth.toNat "concat(status, \"it's\") == note" = .ok t ∧
      "orders.status || 'it''s' = orders.note".toList =
        spell .postgres (t.parts (Schema.shopOrders .postgres).tables) ∧
      t.KeepsGrouping ∧ t.grouping? (Schema.shopOrders .postgres).tables = some g ∧
      readText? .postgres "orders.status || 'it''s' = orders.note" = some g := by
  intro t g
  have htables := Schema.readableTables_shopOrders .postgres
  have hfragment : (compileWithin {} "concat(status, \"it's\") == note"
      (Schema.shopOrders .postgres)).map Prod.fst =
        .ok "orders.status || 'it''s' = orders.note" := by
    decide +kernel
  obtain ⟨after, hcompile⟩ := exists_of_map_fst_eq_ok hfragment
  have htree : Expr.parseWithin ({} : Limits).maxDepth.toNat "concat(status, \"it's\") == note" =
      .ok t := by
    decide +kernel
  obtain ⟨t', hparse, hspell, hkept, hread⟩ := Scope.grouping_kept_iff rfl hcompile
  obtain rfl := Except.ok.inj (htree.symm.trans hparse)
  have hcall : (Expr.call "concat" [.attr "status", .string "it's"]).KeepsGrouping :=
    .call (.leaf trivial) (List.forall_mem_singleton.mpr (.leaf trivial))
      (List.forall_mem_singleton.mpr nofun)
  have hkeeps : t.KeepsGrouping := .binary hcall (.leaf trivial) (fun _ => rfl) nofun
  have hgrouping : t.grouping? (Schema.shopOrders .postgres).tables = some g := rfl
  obtain ⟨g', hgrouping', hg'⟩ := hkept.mpr hkeeps
  obtain rfl := Option.some.inj (hgrouping.symm.trans hgrouping')
  exact ⟨rfl, htables, ⟨after, hcompile⟩, hparse, hspell, hkeeps, hgrouping,
    (hread htables).trans hg'⟩

/-- A sum with a concatenation in it is read with the sum inside the concatenation. -/
theorem Scope.grouping_lost :
    ¬ ∀ (text sql : String) (s after : Scope), s.dialect = .postgres →
      compile text s = .ok (sql, after) →
        ∃ t g, Expr.parse text = .ok t ∧ t.grouping? s.tables = some g ∧
          readText? .postgres sql = some g := by
  intro h
  have hfragment : (compile "concat(\"a\", \"b\") + 1" (Schema.shopOrders .postgres)).map Prod.fst =
      .ok "'a' || 'b' + 1" := by
    decide +kernel
  obtain ⟨after, hcompile⟩ := exists_of_map_fst_eq_ok hfragment
  obtain ⟨t, g, hparse, hgrouping, hread⟩ := h _ _ _ _ rfl hcompile
  have htree : Expr.parse "concat(\"a\", \"b\") + 1" =
      .ok (.binary .add (.call "concat" [.string "a", .string "b"]) (.number "1")) := by
    decide +kernel
  have hfound : readText? .postgres "'a' || 'b' + 1" =
      some (.binary .concat (.operand (.literal "a"))
        (.binary (.operator .add) (.operand (.literal "b")) (.operand (.word ['1'])))) := by
    decide +kernel
  rw [htree] at hparse
  cases hparse
  rw [hfound] at hread
  cases hread
  cases hgrouping

end QueryExpr
