import QueryExpr.Proofs.Compile.Limits
import QueryExpr.Proofs.Compile.Walk
import QueryExpr.Proofs.Expr.Printing

/-!
# String literals carry every value

An expression can say any string at all: with a backslash before each quote and each backslash it
stands between quotes, and compiling it quotes the very same string. The written form of a value is
also the only one. What stands between the quotes of a literal that was parsed is what escaping its
value gives, so a literal can be recovered from its value.
-/

namespace QueryExpr

namespace Text

/-- The characters of a value as a string literal has to write them. -/
def encodeEscapes (cs : List Char) : List Char :=
  cs.flatMap fun c => if c = '"' ∨ c = '\\' then ['\\', c] else [c]

/-- What to write between quotes for a value. -/
def escape (value : String) : String := String.ofList (encodeEscapes value.toList)

theorem encodeEscapes_cons_of_plain {c : Char} (hc : ¬ (c = '"' ∨ c = '\\')) (cs : List Char) :
    encodeEscapes (c :: cs) = c :: encodeEscapes cs := by
  rw [encodeEscapes, List.flatMap_cons, if_neg hc]
  rfl

theorem encodeEscapes_cons_of_escaped {c : Char} (hc : c = '"' ∨ c = '\\') (cs : List Char) :
    encodeEscapes (c :: cs) = '\\' :: c :: encodeEscapes cs := by
  rw [encodeEscapes, List.flatMap_cons, if_pos hc]
  rfl

theorem decodeEscapes_encodeEscapes (cs : List Char) : decodeEscapes (encodeEscapes cs) = cs := by
  induction cs with
  | nil => rfl
  | cons c cs ih =>
      by_cases hc : c = '"' ∨ c = '\\'
      · rw [encodeEscapes_cons_of_escaped hc, decodeEscapes, ih]
      · rw [encodeEscapes_cons_of_plain hc, decodeEscapes_cons fun h => hc (.inr h), ih]

theorem literalValue_escape (value : String) : literalValue (escape value) = value := by
  rw [literalValue, escape, String.toList_ofList, decodeEscapes_encodeEscapes, String.ofList_toList]

open Lexeme (IsContents)

theorem isContents_encodeEscapes (cs : List Char) : IsContents (encodeEscapes cs) := by
  induction cs with
  | nil => exact .nil
  | cons c cs ih =>
      by_cases hc : c = '"' ∨ c = '\\'
      · rw [encodeEscapes_cons_of_escaped hc]
        exact .escape hc ih
      · rw [encodeEscapes_cons_of_plain hc]
        exact .plain hc ih

/-- What can stand between quotes is the written form of its value. -/
theorem encodeEscapes_decodeEscapes {cs : List Char} (h : IsContents cs) :
    encodeEscapes (decodeEscapes cs) = cs := by
  induction h with
  | nil => rfl
  | plain hc _ ih =>
      rw [decodeEscapes_cons fun h => hc (.inr h), encodeEscapes_cons_of_plain hc, ih]
  | escape hc _ ih => rw [decodeEscapes, encodeEscapes_cons_of_escaped hc, ih]

theorem escape_literalValue {raw : String} (h : IsContents raw.toList) :
    escape (literalValue raw) = raw := by
  rw [escape, literalValue, String.toList_ofList, encodeEscapes_decodeEscapes h,
    String.ofList_toList]

end Text

namespace Expr

/-- A tree that is spelled like an expression has only such nodes. -/
theorem Spelled.of_mem_nodes {e node : Expr} (h : e.Spelled) (hnode : node ∈ e.nodes) :
    node.Spelled := by
  refine forall_mem_nodes ?_ ?_ ?_ h node hnode
  · intro inner h
    cases h with
    | paren hinner => exact hinner
  · intro op left right h
    cases h with
    | binary hleft hright => exact ⟨hleft, hright⟩
  · intro name arguments h
    cases h with
    | call _ harguments => exact harguments

/-- Some text that parses has a string literal with this between its quotes. -/
def WritesLiteral (raw : String) : Prop :=
  ∃ limit text t, parseWithin limit text = .ok t ∧ .string raw ∈ t.leaves

theorem WritesLiteral.isContents {raw : String} (h : WritesLiteral raw) :
    Lexeme.IsContents raw.toList := by
  obtain ⟨limit, text, t, hparse, hmem⟩ := h
  have hnode := (spelled_of_parseWithin hparse).of_mem_nodes (List.mem_of_mem_filter hmem)
  cases hnode with
  | string hraw => exact hraw

/-- Between quotes, what is written for a value parses to one literal under every limit. -/
theorem parseWithin_escape (limit : Nat) (value : String) :
    parseWithin limit ("\"" ++ Text.escape value ++ "\"") = .ok (.string (Text.escape value)) := by
  have hspelled : Spelled (.string (Text.escape value)) := by
    apply Spelled.string
    rw [Text.escape, String.toList_ofList]
    exact Text.isContents_encodeEscapes _
  exact (parseWithin_toText_of_canonical hspelled .string .string limit).trans
    (if_pos (Nat.zero_le limit))

end Expr

/-- String literals carry every value to SQL and lose nothing. Whatever the value and the context,
what is written for the value between quotes compiles to the value as the context quotes it, and
adds nothing to the context. The other way round, what a parsed literal has between its quotes is
what is written for its value; so literals that are written differently have different values. -/
theorem literals_are_lossless :
    (∀ (σ : Type) [QueryContext σ] (context : σ) (value : String),
        compile ("\"" ++ Text.escape value ++ "\"") context =
          .ok (QueryContext.quote context value, context)) ∧
      (∀ raw, Expr.WritesLiteral raw → Text.escape (Text.literalValue raw) = raw) ∧
      ∀ raw other, Expr.WritesLiteral raw → Expr.WritesLiteral other → raw ≠ other →
        Text.literalValue raw ≠ Text.literalValue other := by
  refine ⟨?_, ?_, ?_⟩
  · intro σ _ context value
    rw [compile, compileWithin_of_allowsLength (Limits.allowsLength_of_eq_none rfl _),
      Expr.parseWithin_escape]
    simp only [Expr.compile, Text.literalValue_escape]
    rfl
  · intro raw hraw
    exact Text.escape_literalValue hraw.isContents
  · intro raw other hraw hother hne hvalue
    apply hne
    rw [← Text.escape_literalValue hraw.isContents, hvalue,
      Text.escape_literalValue hother.isContents]

theorem literals_are_lossless_escaped :
    compile ("\"" ++ Text.escape "\"\\" ++ "\"") (Schema.shopOrders .mysql) =
        .ok (QueryContext.quote (Schema.shopOrders .mysql) "\"\\", Schema.shopOrders .mysql) ∧
      Expr.WritesLiteral "it\\\"s" ∧ Expr.WritesLiteral "it\\\\s" ∧
      Text.escape (Text.literalValue "it\\\"s") = "it\\\"s" ∧
      Text.literalValue "it\\\"s" ≠ Text.literalValue "it\\\\s" := by
  have hquote : Expr.WritesLiteral "it\\\"s" :=
    ⟨0, "\"it\\\"s\"", .string "it\\\"s", by decide +kernel, List.mem_singleton.mpr rfl⟩
  have hbackslash : Expr.WritesLiteral "it\\\\s" :=
    ⟨0, "\"it\\\\s\"", .string "it\\\\s", by decide +kernel, List.mem_singleton.mpr rfl⟩
  obtain ⟨hcompile, hescape, hvalue⟩ := literals_are_lossless
  exact ⟨hcompile _ _ _, hquote, hbackslash, hescape _ hquote,
    hvalue _ _ hquote hbackslash (by decide)⟩

end QueryExpr
