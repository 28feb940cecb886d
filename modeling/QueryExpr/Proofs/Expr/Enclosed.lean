import QueryExpr.Proofs.Expr.Printing
import QueryExpr.Proofs.Expr.Spacing
import QueryExpr.Proofs.Token.Front

/-!
# Texts in parentheses

A text that parses on its own parses to the same tree as a part of another text, as long as nothing
that could be inside a lexeme comes next. So a text can be put in parentheses: its tree becomes a
node of the whole, one level further down.

It also works the other way round. Where a text in parentheses parses to a parenthesis, the first
and the last of its tokens belong together, and what stands between them parses on its own. A text
that only the parentheses around it would balance does not parse.
-/

namespace QueryExpr

/-- A text in parentheses. -/
def parenthesized (text : String) : String := "(" ++ text ++ ")"

namespace Expr

variable {limit : Nat} {text : String} {t : Expr}

/-! ## A text within another -/

/-- Tokens that say the same as the yield of a tree are a yield of this tree. -/
theorem Yields.of_alike {ts us : List Token} (h : t.Yields ts) (hcanonical : t.Canonical)
    (halike : Lexed.Alike ts us) : t.Yields us := by
  have hparse : ofLexed t.levels { tokens := ts, error := none, position := 0 } = .ok t :=
    (ofLexed_of_yields rfl h hcanonical t.levels).trans (if_pos (Nat.le_refl _))
  have hother : ofLexed t.levels { tokens := us, error := none, position := 0 } = .ok t :=
    (parallel_ofLexed rfl rfl halike t.levels).eq_ok hparse
  exact (yields_of_ofLexed hother).2.1

/-- A text that parses on its own is a yield of its tree within any other text, if what comes after
it cannot be inside a lexeme. -/
theorem spells_of_parseWithin {rest : List Char} (h : parseWithin limit text = .ok t)
    (hrest : Lexeme.Stops Lexeme.isInner rest) : Lexed.Spells t.Yields text.toList rest := by
  obtain ⟨hlexed, hyields, hcanonical⟩ := yields_of_parseWithin h
  intro position
  obtain ⟨us, hreads, halike⟩ :=
    Lexed.exists_readsAs_of_spread hlexed (.refl _ 0 text.toList) hrest position
  exact ⟨us, hyields.of_alike hcanonical halike, hreads⟩

theorem canonical_of_parseWithin (h : parseWithin limit text = .ok t) : t.Canonical :=
  (yields_of_parseWithin h).2.2

/-- In parentheses, nothing about what comes after the text matters. -/
theorem readsFrom_parenthesized (h : parseWithin limit text = .ok t) :
    (paren t).ReadsFrom (parenthesized text).toList := by
  have htext : (parenthesized text).toList = "(".toList ++ (text.toList ++ ")".toList) := by
    simp [parenthesized]
  rw [htext]
  exact readsFrom_paren fun rest => spells_of_parseWithin h (Lexeme.stops_cons rfl rest)

theorem parseWithin_parenthesized (h : parseWithin limit text = .ok t) :
    parseWithin (limit + 1) (parenthesized text) = .ok (.paren t) := by
  obtain ⟨hlexed, hyields⟩ := (readsFrom_parenthesized h).yields
  have hcanonical : (paren t).Canonical := .paren (canonical_of_parseWithin h)
  have hlevels : (paren t).levels ≤ limit + 1 := Nat.succ_le_succ (levels_le_of_parseWithin h)
  rw [parseWithin_of_yields hlexed hyields hcanonical, if_pos hlevels]

/-- One level is opened by the operator and one by the parentheses. -/
theorem parseWithin_operands {a b : String} {left right : Expr}
    (hleft : parseWithin limit a = .ok left) (hright : parseWithin limit b = .ok right)
    (op : Operator) :
    parseWithin (limit + 2) (parenthesized a ++ " " ++ op.symbol ++ " " ++ parenthesized b) =
      .ok (.binary op (.paren left) (.paren right)) := by
  have hreads : (binary op (paren left) (paren right)).ReadsFrom
      (parenthesized a ++ " " ++ op.symbol ++ " " ++ parenthesized b).toList := by
    have hbinary : (binary op (paren left) (paren right)).ReadsFrom _ :=
      readsFrom_binary (readsFrom_parenthesized hleft) (readsFrom_parenthesized hright)
    simpa using hbinary
  have hcanonical : (binary op (paren left) (paren right)).Canonical :=
    .binary (.paren (canonical_of_parseWithin hleft)) (.paren (canonical_of_parseWithin hright))
      trivial trivial
  have hlevels : (binary op (paren left) (paren right)).levels ≤ limit + 2 := by
    have := levels_le_of_parseWithin hleft
    have := levels_le_of_parseWithin hright
    simp only [levels, chain]
    omega
  obtain ⟨hlexed, hyields⟩ := hreads.yields
  rw [parseWithin_of_yields hlexed hyields hcanonical, if_pos hlevels]

/-! ## The text between two parentheses -/

theorem ofText_parenthesized (text : String) :
    Lexed.ofText (parenthesized text) =
      .cons ⟨.parenLeft, 0⟩ (Lexed.ofChars 1 (text.toList ++ [')'])) := by
  have htext : (parenthesized text).toList = '(' :: (text.toList ++ [')']) := by
    simp [parenthesized]
  rw [Lexed.ofText, htext]
  exact Lexed.ofChars_of_token (Reading.ofChars_of_symbol? rfl 0)

theorem Yields.exists_of_paren {ts : List Token} (h : Yields (.paren t) ts) :
    ∃ us i j, ts = ⟨.parenLeft, i⟩ :: (us ++ [⟨.parenRight, j⟩]) ∧ t.Yields us := by
  cases h with
  | paren i j hinner => exact ⟨_, i, j, rfl, hinner⟩

/-- The closing parenthesis is the last token, so the tokens before it come from the text alone. -/
theorem yields_of_parenthesized (hlexed : (Lexed.ofText (parenthesized text)).error = none)
    (hyields : (paren t).Yields (Lexed.ofText (parenthesized text)).tokens)
    (hcanonical : t.Canonical) :
    (Lexed.ofText text).error = none ∧ t.Yields (Lexed.ofText text).tokens := by
  rw [ofText_parenthesized] at hlexed hyields
  obtain ⟨us, i, j, htokens, hus⟩ := hyields.exists_of_paren
  have hreads : Lexed.ReadsAs 1 text.toList [] us :=
    Lexed.readsAs_of_closed hlexed (List.cons.inj htokens).2
  obtain ⟨hinner, rfl⟩ := hreads.ofChars
  obtain ⟨herror, halike⟩ := Lexed.alike_ofChars_of_spread hinner (.refl _ 1 text.toList) 0
  exact ⟨herror, hus.of_alike hcanonical halike⟩

theorem parseWithin_of_parenthesized
    (h : parseWithin (limit + 1) (parenthesized text) = .ok (.paren t)) :
    parseWithin limit text = .ok t := by
  obtain ⟨hlexed, hyields, hcanonical⟩ := yields_of_parseWithin h
  have hlevels : t.levels ≤ limit := Nat.le_of_succ_le_succ (levels_le_of_parseWithin h)
  cases hcanonical with
  | paren hcanonical =>
      obtain ⟨herror, hinner⟩ := yields_of_parenthesized hlexed hyields hcanonical
      rw [parseWithin_of_yields herror hinner hcanonical, if_pos hlevels]

/-- Two operands with an operator between them do not parse where a parenthesis is missing at each
end. -/
theorem parseWithin_ne_ok_of_unbalanced {a b : String} {left right : Expr} {m n : Nat}
    (hleft : parseWithin m a = .ok left) (hright : parseWithin n b = .ok right) (op : Operator)
    (limit : Nat) (t : Expr) :
    parseWithin limit (a ++ ") " ++ op.symbol ++ " (" ++ b) ≠ .ok t := by
  intro h
  have hparen := parseWithin_parenthesized h
  have htext : parenthesized (a ++ ") " ++ op.symbol ++ " (" ++ b) =
      parenthesized a ++ " " ++ op.symbol ++ " " ++ parenthesized b := by
    simp [parenthesized, ← String.toList_inj]
  -- With the parentheses around it, the text is an application of the operator.
  have hleft' : parseWithin (max left.levels right.levels) a = .ok left := by
    rw [parseWithin_of_parseWithin hleft, if_pos (Nat.le_max_left _ _)]
  have hright' : parseWithin (max left.levels right.levels) b = .ok right := by
    rw [parseWithin_of_parseWithin hright, if_pos (Nat.le_max_right _ _)]
  rw [htext, parseWithin_of_parseWithin (parseWithin_operands hleft' hright' op)] at hparen
  split at hparen <;> cases hparen

/-- Parentheses around a whole text are exact. The text parses to a tree if and only if the text in
parentheses parses to the parenthesis of this tree under a limit greater by one. So nothing parses
that the parentheses around it would have to balance, such as two operands with an operator between
them and a parenthesis missing at each end. -/
theorem enclosing_parentheses_are_exact :
    (∀ (limit : Nat) (text : String) (t : Expr),
        parseWithin limit text = .ok t ↔
          parseWithin (limit + 1) (parenthesized text) = .ok (.paren t)) ∧
      ∀ (a b : String) (op : Operator), (∃ n left, parseWithin n a = .ok left) →
        (∃ n right, parseWithin n b = .ok right) →
          ∀ limit t, parseWithin limit (a ++ ") " ++ op.symbol ++ " (" ++ b) ≠ .ok t := by
  constructor
  · intro limit text t
    exact ⟨parseWithin_parenthesized, parseWithin_of_parenthesized⟩
  · rintro a b op ⟨m, left, hleft⟩ ⟨n, right, hright⟩
    exact parseWithin_ne_ok_of_unbalanced hleft hright op

theorem enclosing_parentheses_are_exact_unbalanced :
    parseWithin 1 "a*f()" = .error (.nestingTooDeep 1) ∧
      (parseWithin 2 "a*f()" = .ok (.binary .mul (.attr "a") (.call "f" [])) ↔
        parseWithin (2 + 1) (parenthesized "a*f()") =
          .ok (.paren (.binary .mul (.attr "a") (.call "f" [])))) ∧
      parseWithin 3 "(a*f())" = .ok (.paren (.binary .mul (.attr "a") (.call "f" []))) ∧
      (∃ n left, parseWithin n "a" = .ok left) ∧ (∃ n right, parseWithin n "b" = .ok right) ∧
      ∀ limit t, parseWithin limit "a) + (b" ≠ .ok t := by
  have ha : ∃ n left, parseWithin n "a" = .ok left := ⟨0, .attr "a", by decide +kernel⟩
  have hb : ∃ n right, parseWithin n "b" = .ok right := ⟨0, .attr "b", by decide +kernel⟩
  obtain ⟨hexact, hunbalanced⟩ := enclosing_parentheses_are_exact
  exact ⟨by decide +kernel, hexact 2 _ _, by decide +kernel, ha, hb, hunbalanced "a" "b" .add ha hb⟩

end Expr

end QueryExpr
