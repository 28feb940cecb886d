import QueryExpr.Proofs.Compile.Fragment
import QueryExpr.Proofs.Expr.Spelling

/-!
# The words of a fragment

Outside of its string literals, a fragment names columns and writes numbers. There are five kinds of
words in it. What an expression contributes to them is spelled as its own names and numbers are; the
rest are tables of the schema.
-/

namespace QueryExpr

open Sql

/-- A word that the fragment of an expression can contain. -/
inductive Sql.Tables.Word (tables : Tables) : List Char → Prop where
  | null : Word tables "null".toList
  | number {cs : List Char} (h : Expr.IsNumeral cs) : Word tables cs
  | root {name : List Char} (h : Lexeme.IsName name) :
      Word tables (tables.root.toList ++ '.' :: name)
  | target {name : List Char} (relationship : String) (h : Lexeme.IsName name) :
      Word tables ((tables.target relationship).toList ++ '.' :: name)
  | count {relationship : String} (h : Lexeme.IsName relationship.toList) :
      Word tables ((countTable relationship).toList ++ '.' :: "count".toList)

namespace Expr

variable {tables : Tables} {e : Expr} {text : List Char}

theorem word_of_isLeaf (h : e.Spelled) (hleaf : e.IsLeaf) (htext : e.operand tables = .word text) :
    tables.Word text := by
  cases h with
  | paren | binary | call => exact False.elim hleaf
  | null =>
      cases htext
      exact .null
  | attr hname =>
      cases htext
      simpa using Tables.Word.root hname
  | related _ hcolumn =>
      cases htext
      simpa using Tables.Word.target _ hcolumn
  | count hname =>
      cases htext
      simpa using Tables.Word.count hname
  | string => cases htext
  | number hnumber =>
      cases htext
      exact .number hnumber

/-- Every word of a fragment is of one of the five kinds. -/
theorem word_of_mem_parts (h : e.Spelled) (hmem : .operand (.word text) ∈ e.parts tables) :
    tables.Word text := by
  induction e using Expr.induction with
  | paren inner ih =>
      cases h with
      | paren hinner =>
          simp only [parts, List.mem_cons, List.mem_append, reduceCtorEq, List.not_mem_nil,
            false_or, or_false] at hmem
          exact ih hinner hmem
  | binary op left right ihleft ihright =>
      cases h with
      | binary hleft hright =>
          simp only [parts, List.mem_cons, List.mem_append, reduceCtorEq, false_or] at hmem
          exact hmem.elim (ihleft hleft) (ihright hright)
  | call name arguments ih =>
      cases h with
      | call _ harguments =>
          rw [parts, partsAll_eq_map] at hmem
          obtain heq | ⟨list, hlist, hmem⟩ := exists_mem_of_mem_intercalate hmem
          · cases heq
          · obtain ⟨f, hf, rfl⟩ := List.mem_map.mp hlist
            exact ih f hf (harguments f hf) hmem
  | _ =>
      have heq := Part.operand.inj (List.mem_singleton.mp hmem)
      exact word_of_isLeaf h trivial heq.symm

end Expr

end QueryExpr
