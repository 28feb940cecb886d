import QueryExpr.Proofs.Compile.Words
import QueryExpr.Proofs.Sql.Harmless
import QueryExpr.Proofs.Sql.Literal

/-!
# No injection

The text of an expression gets into its fragment in two ways. The values of its string literals are
quoted, and a database that scans the fragment finds exactly these values, one after the other. The
rest is names, numbers, operators and parentheses; outside of the literals it is harmless, as long
as the tables of the schema have harmless names.
-/

namespace QueryExpr

open Sql

namespace Expr

mutual

/-- The string literals of a tree from left to right, still escaped. -/
def strings : Expr → List String
  | .paren inner => strings inner
  | .binary _ left right => strings left ++ strings right
  | .call _ arguments => stringsAll arguments
  | .string raw => [raw]
  | _ => []

/-- The string literals of several trees. -/
def stringsAll : List Expr → List String
  | [] => []
  | e :: es => strings e ++ stringsAll es

end

theorem literals_intercalate (tables : Tables) (es : List Expr)
    (each : ∀ e ∈ es, literals (e.parts tables) = e.strings.map Text.literalValue) :
    literals ([.connective .concat].intercalate (partsAll tables es)) =
      (stringsAll es).map Text.literalValue := by
  induction es with
  | nil => rfl
  | cons e es ih =>
      have hfirst := each e (by simp)
      cases es with
      | nil =>
          rw [partsAll, partsAll, List.intercalate_singleton, hfirst, stringsAll, stringsAll,
            List.append_nil]
      | cons f fs =>
          have hrest := ih fun e he => each e (by simp [he])
          have hsplit : stringsAll (e :: f :: fs) = e.strings ++ stringsAll (f :: fs) := rfl
          rw [partsAll] at hrest
          rw [partsAll, partsAll, List.intercalate_cons_cons, literals_append, literals_append,
            hfirst, hrest, hsplit, List.map_append, List.append_assoc]
          rfl

/-- The literals of a fragment are the values of the string literals of its tree. -/
theorem literals_parts (tables : Tables) (e : Expr) :
    literals (e.parts tables) = e.strings.map Text.literalValue := by
  induction e using Expr.induction with
  | paren inner ih =>
      rw [parts, literals_append, strings, ← ih]
      exact List.append_nil _
  | binary op left right ihleft ihright =>
      rw [parts, literals_append, strings, List.map_append, ihleft, ← ihright]
      rfl
  | call name arguments ih => exact literals_intercalate tables arguments ih
  | _ => rfl

end Expr

/-- Whether the character is a letter, a digit or an underscore. -/
def isTableChar (c : Char) : Bool := c.isAlphanum || c == '_'

/-- A table with no other characters in its name. -/
def IsPlainTable (table : String) : Prop := ∀ c ∈ table.toList, isTableChar c = true

/-- All tables that a fragment can name in this scope have plain names. -/
structure Scope.PlainTables (s : Scope) : Prop where
  root : IsPlainTable s.table
  target : ∀ name r, s.registry.relationship? s.model name = some r → IsPlainTable r.targetTable

theorem isTableChar_of_isNameChar {c : Char} (h : Lexeme.isNameChar c = true) :
    isTableChar c = true := by
  simp only [Lexeme.isNameChar, Bool.or_eq_true] at h
  simp only [isTableChar, Char.isAlphanum, Bool.or_eq_true]
  exact h.imp_left .inl

theorem harmless_of_isTableChar {cs : List Char}
    (h : ∀ c ∈ cs, isTableChar c = true ∨ c = '.') : Harmless cs := by
  apply harmless_of_isWordChar
  · intro c hc
    rcases h c hc with htable | rfl
    · simp only [isTableChar] at htable
      simp [isWordChar, htable]
    · decide
  · apply commentFree_of_forall
    intro c hc
    constructor
    · rintro rfl
      exact absurd (h _ hc) (by decide)
    · rintro rfl
      exact absurd (h _ hc) (by decide)

/-- A name with a table in front is harmless if the table is plain. -/
theorem harmless_qualified {table name : List Char} (htable : ∀ c ∈ table, isTableChar c = true)
    (hname : Lexeme.IsName name) : Harmless (table ++ '.' :: name) := by
  apply harmless_of_isTableChar
  rw [List.forall_mem_append, List.forall_mem_cons]
  refine ⟨?_, .inr rfl, ?_⟩
  · intro c hc
    exact .inl (htable c hc)
  · intro c hc
    exact .inl (isTableChar_of_isNameChar (hname.2 c hc))

theorem isPlainTable_countTable {relationship : String}
    (h : Lexeme.IsName relationship.toList) : IsPlainTable (countTable relationship) := by
  rw [countTable, IsPlainTable, String.append_assoc, String.toList_append, List.forall_mem_append]
  exact ⟨fun c hc => isTableChar_of_isNameChar (h.2 c hc), List.all_eq_true.mp rfl⟩

/-- Where the tables are plain, all words of a fragment are harmless. -/
theorem Scope.PlainTables.harmless {s : Scope} (h : s.PlainTables) {text : List Char}
    (hword : s.tables.Word text) : Harmless text := by
  cases hword with
  | null =>
      have hchars : ∀ c ∈ "null".toList, isTableChar c = true := List.all_eq_true.mp rfl
      exact harmless_of_isTableChar fun c hc => .inl (hchars c hc)
  | number hnumeral =>
      exact harmless_of_isWordChar (isWordChar_of_isNumeral hnumeral)
        (commentFree_of_isNumeral hnumeral)
  | root hname => exact harmless_qualified h.root hname
  | target relationship hname =>
      have htarget : IsPlainTable (s.tables.target relationship) :=
        Scope.forall_target h.root h.target relationship
      exact harmless_qualified htarget hname
  | count hname =>
      exact harmless_qualified (isPlainTable_countTable hname)
        (Lexeme.isName_of_all (by decide) rfl)

/-- Outside of its literals, a fragment is harmless if its words are. -/
theorem Expr.harmless_outside (d : Dialect) {tables : Tables} (e : Expr)
    (h : ∀ text, .operand (.word text) ∈ e.parts tables → Harmless text) :
    Harmless (outside d (e.parts tables)) := by
  have hnil : Harmless (outside d []) := harmless_nil
  refine e.forall_parts (motive := fun parts => Harmless (outside d parts)) hnil ?_ ?_ ?_
  · intro parts hparts
    rw [outside_append]
    exact hparts.enclosed
  · intro c parts more hparts hmore
    have hjoined := hparts.connective hmore c
    rw [outside_append]
    simpa [outside, Part.outside, Part.text] using hjoined
  · rintro (value | text) ho
    · exact harmless_nil
    · have htext := h text ho
      simpa [outside, Part.outside, Part.text, Operand.text] using htext

/-- Nothing in an expression gets out of the place that compilation has for it. The fragment can be
scanned to its end, its literals are the values of the string literals of the expression in their
order, and the text outside of them has only plain characters, balanced parentheses and no
comment. -/
theorem Scope.fragment_contained {limits : Limits} {text sql : String} {s after : Scope}
    (htables : s.PlainTables) (h : compileWithin limits text s = .ok (sql, after)) :
    ∃ t rest, Expr.parseWithin limits.maxDepth.toNat text = .ok t ∧
      s.dialect.scan sql.toList = some (t.strings.map Text.literalValue, rest) ∧
      (∀ c ∈ rest, isPlain c = true) ∧ Balanced rest ∧
      ¬ ['-', '-'] <:+: rest ∧ ¬ ['/', '*'] <:+: rest := by
  obtain ⟨t, hparse, hspell⟩ := Scope.spell_of_compileWithin h
  have hspelled := Expr.spelled_of_parseWithin hparse
  have hwords : ∀ text, .operand (.word text) ∈ t.parts s.tables → Harmless text := by
    intro text hmem
    exact htables.harmless (Expr.word_of_mem_parts hspelled hmem)
  have hquotes : ∀ text, .operand (.word text) ∈ t.parts s.tables → '\'' ∉ text := by
    intro text hmem hquote
    exact absurd ((hwords text hmem).plain _ hquote) (by decide)
  have hscan := scan_spell s.dialect (Expr.separated_parts s.tables t) hquotes
  rw [← hspell, Expr.literals_parts] at hscan
  have hharmless := Expr.harmless_outside s.dialect t hwords
  exact ⟨t, _, hparse, hscan, hharmless.plain, hharmless.balanced,
    hharmless.commentFree.not_infix_minus, hharmless.commentFree.not_infix_slash⟩

/-- The scopes of a schema have plain tables if the tables in the schema are plain. -/
theorem Schema.plainTables_of_scope? {schema : Schema} {model : String} {dialect : Dialect}
    {s : Scope} (hscope : schema.scope? model dialect = some s)
    (htables : ∀ m, schema.get? model = some m →
      IsPlainTable m.table ∧ ∀ r ∈ m.relationships, IsPlainTable r.targetTable) :
    s.PlainTables := by
  obtain ⟨hroot, htargets⟩ := Schema.forall_tables_of_scope? hscope htables
  exact ⟨hroot, htargets⟩

theorem Schema.plainTables_shopOrders (dialect : Dialect) :
    (Schema.shopOrders dialect).PlainTables := by
  obtain ⟨hroot, htargets⟩ := Schema.forall_tables_shopOrders (p := IsPlainTable) dialect
    (by simp [IsPlainTable, isTableChar])
  exact ⟨hroot, htargets⟩

theorem Scope.fragment_contained_escaped :
    (Schema.shopOrders .mysql).PlainTables ∧
      ∃ after, compileWithin {} "note == \"\\\\'\"" (Schema.shopOrders .mysql) =
          .ok ("orders.note = '\\\\'''", after) ∧
        ∃ t rest, Expr.parseWithin ({} : Limits).maxDepth.toNat "note == \"\\\\'\"" = .ok t ∧
          Dialect.mysql.scan "orders.note = '\\\\'''".toList =
            some (t.strings.map Text.literalValue, rest) ∧
          (∀ c ∈ rest, isPlain c = true) ∧ Balanced rest ∧
          ¬ ['-', '-'] <:+: rest ∧ ¬ ['/', '*'] <:+: rest := by
  have htables := Schema.plainTables_shopOrders .mysql
  have hfragment : (compileWithin {} "note == \"\\\\'\"" (Schema.shopOrders .mysql)).map Prod.fst =
      .ok "orders.note = '\\\\'''" := by
    decide +kernel
  obtain ⟨after, hcompile⟩ := exists_of_map_fst_eq_ok hfragment
  exact ⟨htables, after, hcompile, Scope.fragment_contained htables hcompile⟩

end QueryExpr
