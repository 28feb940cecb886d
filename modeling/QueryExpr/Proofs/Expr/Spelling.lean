import QueryExpr.Proofs.Expr.Parsing
import QueryExpr.Proofs.Token.Spelling

/-!
# How the leaves of a tree are spelled

The names in a parsed tree are words, its numbers are numbers with at most a minus sign in front,
and in its string literals every quote is escaped. Nothing else of a text gets into a tree.
-/

namespace QueryExpr.Expr

/-- A number with or without a minus sign. -/
inductive IsNumeral : List Char → Prop where
  | plain {cs : List Char} (h : Lexeme.IsNumber cs) : IsNumeral cs
  | negative {cs : List Char} (h : Lexeme.IsNumber cs) : IsNumeral ('-' :: cs)

/-- All names in the tree are words, all numbers are numbers, and string literals can be quoted as
they are. -/
inductive Spelled : Expr → Prop where
  | paren {inner : Expr} (hinner : Spelled inner) : Spelled (.paren inner)
  | binary {op : Operator} {left right : Expr} (hleft : Spelled left) (hright : Spelled right) :
      Spelled (.binary op left right)
  | null : Spelled .null
  | call {name : String} {arguments : List Expr} (hname : Lexeme.IsName name.toList)
      (harguments : ∀ e ∈ arguments, Spelled e) : Spelled (.call name arguments)
  | attr {name : String} (hname : Lexeme.IsName name.toList) : Spelled (.attr name)
  | related {relationship column : String} (hname : Lexeme.IsName relationship.toList)
      (hcolumn : Lexeme.IsName column.toList) : Spelled (.related relationship column)
  | count {relationship : String} (hname : Lexeme.IsName relationship.toList) :
      Spelled (.count relationship)
  | string {raw : String} (hraw : Lexeme.IsContents raw.toList) : Spelled (.string raw)
  | number {text : String} (htext : IsNumeral text.toList) : Spelled (.number text)

theorem YieldsAll.exists_yields {es : List Expr} {ts : List Token} (h : YieldsAll es ts) {e : Expr}
    (he : e ∈ es) : ∃ us, Yields e us ∧ us ⊆ ts := by
  induction es generalizing ts with
  | nil => exact absurd he List.not_mem_nil
  | cons f fs ih =>
      cases h with
      | single hf =>
          obtain rfl := List.mem_singleton.mp he
          exact ⟨ts, hf, List.Subset.refl ts⟩
      | @cons _ g gs us vs i hf hgs =>
          rcases List.mem_cons.mp he with rfl | he
          · exact ⟨us, hf, List.subset_append_left us _⟩
          · obtain ⟨ws, hws, hsub⟩ := ih hgs he
            refine ⟨ws, hws, List.Subset.trans hsub ?_⟩
            exact fun t ht => List.mem_append_right us (List.mem_cons_of_mem _ ht)

/-- The leaves of a tree are spelled like the tokens that they come from. -/
theorem Yields.spelled {e : Expr} {ts : List Token} (h : Yields e ts)
    (hts : ∀ t ∈ ts, t.lexeme.Spelled) : e.Spelled := by
  induction e using Expr.induction generalizing ts with
  | paren inner ih =>
      cases h with
      | paren i j hinner =>
          exact .paren (ih hinner fun t ht => hts t (by simp [ht]))
  | binary op left right ihleft ihright =>
      cases h with
      | binary i hleft hright =>
          exact .binary (ihleft hleft fun t ht => hts t (by simp [ht]))
            (ihright hright fun t ht => hts t (by simp [ht]))
  | null => exact .null
  | call name arguments ih =>
      cases h with
      | call i j k _ hargs =>
          have hname : Lexeme.IsName name.toList := hts ⟨.name name, i⟩ (by simp)
          apply Spelled.call hname
          intro e he
          obtain ⟨us, hus, hsub⟩ := hargs.exists_yields he
          exact ih e he hus fun t ht => hts t (by simp [hsub ht])
  | attr name =>
      cases h with
      | attr i =>
          have hname : Lexeme.IsName name.toList := hts ⟨.name name, i⟩ (by simp)
          exact .attr hname
  | related relationship column =>
      cases h with
      | related i j k =>
          have hname : Lexeme.IsName relationship.toList := hts ⟨.name relationship, i⟩ (by simp)
          have hcolumn : Lexeme.IsName column.toList := hts ⟨.name column, k⟩ (by simp)
          exact .related hname hcolumn
  | count relationship =>
      cases h with
      | count i j k =>
          have hname : Lexeme.IsName relationship.toList := hts ⟨.name relationship, i⟩ (by simp)
          exact .count hname
  | string raw =>
      cases h with
      | string i =>
          have hraw : Lexeme.IsContents raw.toList := hts ⟨.string raw, i⟩ (by simp)
          exact .string hraw
  | number text =>
      cases h with
      | number i =>
          have htext : Lexeme.IsNumber text.toList := hts ⟨.number text, i⟩ (by simp)
          exact .number (.plain htext)
      | @signed text minus number hminus hnumber =>
          have hspelled : number.lexeme.Spelled := hts number (by simp)
          rw [hnumber] at hspelled
          refine .number ?_
          rw [String.toList_append]
          exact .negative hspelled

/-- The tree of a text is spelled. -/
theorem spelled_of_parseWithin {limit : Nat} {text : String} {t : Expr}
    (h : parseWithin limit text = .ok t) : t.Spelled :=
  (yields_of_parseWithin h).2.1.spelled fun _ ht => Lexed.spelled_of_mem ht

end QueryExpr.Expr
