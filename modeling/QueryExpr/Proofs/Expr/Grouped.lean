import QueryExpr.Proofs.Expr.Printing

/-!
# The grouped text of a tree

The grouped text of a tree is the plain text of another tree, in which every operator has
parentheses of its own. There no operator is an operand of an operator or an argument of a call, so
precedence has nothing to decide and the other tree is canonical however the first one groups. That
is why the grouped text can show any tree: it parses to the tree with these parentheses added, and
the parentheses can be told from those that were there before.
-/

namespace QueryExpr.Expr

mutual

/-- The tree with parentheses around each of its operators, and nothing else changed. -/
def grouped : Expr → Expr
  | .paren inner => .paren (grouped inner)
  | .binary op left right => .paren (.binary op (grouped left) (grouped right))
  | .call name arguments => .call name (groupedAll arguments)
  | leaf => leaf

/-- Several trees with parentheses around each of their operators. -/
def groupedAll : List Expr → List Expr
  | [] => []
  | e :: es => grouped e :: groupedAll es

end

theorem groupedAll_eq_map (es : List Expr) : groupedAll es = es.map grouped := by
  induction es with
  | nil => rfl
  | cons e es ih => simp [groupedAll, ih]

/-- The grouped text has exactly the parentheses of the grouped tree. -/
theorem toText_grouped (e : Expr) : e.grouped.toText = e.toGroupedText := by
  induction e using Expr.induction with
  | paren inner ih => simp [grouped, toText, toGroupedText, ih]
  | binary op left right ihleft ihright =>
      simp [grouped, toText, toGroupedText, ihleft, ihright, String.append_assoc]
  | call name arguments ih =>
      have htexts : (arguments.map grouped).map toText = arguments.map toGroupedText := by
        rw [List.map_map]
        exact List.map_congr_left ih
      rw [grouped, toText, toGroupedText, groupedAll_eq_map, toTexts_eq_map, toGroupedTexts_eq_map,
        htexts]
  | _ => rfl

theorem isOperand_grouped (e : Expr) : e.grouped.IsOperand := by
  cases e <;> trivial

/-- However the operators of a tree are nested, the grouped tree nests them canonically. -/
theorem canonical_grouped (e : Expr) : e.grouped.Canonical := by
  induction e using Expr.induction with
  | paren inner ih => exact .paren ih
  | binary op left right ihleft ihright =>
      have hleft := (isOperand_grouped left).bindsAtLeast op.precedence
      have hright := (isOperand_grouped right).bindsAtLeast (op.precedence + 1)
      exact .paren (.binary ihleft ihright hleft hright)
  | null => exact .null
  | call name arguments ih =>
      rw [grouped, groupedAll_eq_map]
      exact .call (List.forall_mem_map.mpr ih)
        (List.forall_mem_map.mpr fun e _ => isOperand_grouped e)
  | attr name => exact .attr
  | related relationship column => exact .related
  | count relationship => exact .count
  | string raw => exact .string
  | number text => exact .number

theorem Spelled.grouped {e : Expr} (h : e.Spelled) : e.grouped.Spelled := by
  induction e using Expr.induction with
  | paren inner ih =>
      cases h with
      | paren h => exact .paren (ih h)
  | binary op left right ihleft ihright =>
      cases h with
      | binary hleft hright => exact .paren (.binary (ihleft hleft) (ihright hright))
  | call name arguments ih =>
      cases h with
      | call hname harguments =>
          rw [Expr.grouped, groupedAll_eq_map]
          exact .call hname (List.forall_mem_map.mpr fun e he => ih e he (harguments e he))
  | _ => exact h

theorem AvoidsKeywords.grouped {e : Expr} (h : e.AvoidsKeywords) : e.grouped.AvoidsKeywords := by
  induction e using Expr.induction with
  | paren inner ih =>
      cases h with
      | paren h => exact .paren (ih h)
  | binary op left right ihleft ihright =>
      cases h with
      | binary hleft hright => exact .paren (.binary (ihleft hleft) (ihright hright))
  | call name arguments ih =>
      cases h with
      | call hname harguments =>
          rw [Expr.grouped, groupedAll_eq_map]
          exact .call hname (List.forall_mem_map.mpr fun e he => ih e he (harguments e he))
  | _ => exact h

/-- The grouped text shows the structure of any tree. Under a limit that its length does not exceed,
it parses to the tree with one pair of parentheses more around every operator, whatever operators
and arguments the tree nests in each other, as long as its leaves and names are spelled as an
expression would spell them and no name is taken for a keyword. -/
theorem parseWithin_toGroupedText {e : Expr} (h : e.Spelled) (hkeywords : e.AvoidsKeywords)
    {limit : Nat} (hlimit : e.toGroupedText.utf8ByteSize ≤ limit) :
    parseWithin limit e.toGroupedText = .ok e.grouped := by
  rw [← toText_grouped] at hlimit ⊢
  exact parseWithin_toText_of_utf8ByteSize_le h.grouped hkeywords.grouped (canonical_grouped e)
    hlimit

/-- A sum as a factor and a difference as an argument. -/
theorem parseWithin_toGroupedText_regrouped :
    Spelled (.binary .mul (.binary .add (.attr "a") (.string ""))
        (.call "f" [.binary .sub (.paren .null) (.count "n")])) ∧
      AvoidsKeywords (.binary .mul (.binary .add (.attr "a") (.string ""))
        (.call "f" [.binary .sub (.paren .null) (.count "n")])) ∧
      (toGroupedText (.binary .mul (.binary .add (.attr "a") (.string ""))
        (.call "f" [.binary .sub (.paren .null) (.count "n")]))).utf8ByteSize ≤ 34 ∧
      parseWithin 34 (toGroupedText (.binary .mul (.binary .add (.attr "a") (.string ""))
          (.call "f" [.binary .sub (.paren .null) (.count "n")]))) =
        .ok (.paren (.binary .mul (.paren (.binary .add (.attr "a") (.string "")))
          (.call "f" [.paren (.binary .sub (.paren .null) (.count "n"))]))) := by
  have ha : Lexeme.IsName "a".toList := Lexeme.isName_of_all (by decide) rfl
  have hf : Lexeme.IsName "f".toList := Lexeme.isName_of_all (by decide) rfl
  have hn : Lexeme.IsName "n".toList := Lexeme.isName_of_all (by decide) rfl
  have hspelled : Spelled (.binary .mul (.binary .add (.attr "a") (.string ""))
      (.call "f" [.binary .sub (.paren .null) (.count "n")])) :=
    .binary (.binary (.attr ha) (.string .nil))
      (.call hf (List.forall_mem_singleton.mpr (.binary (.paren .null) (.count hn))))
  have hkeywords : AvoidsKeywords (.binary .mul (.binary .add (.attr "a") (.string ""))
      (.call "f" [.binary .sub (.paren .null) (.count "n")])) :=
    .binary (.binary (.attr (by decide +kernel)) .string)
      (.call (by decide +kernel)
        (List.forall_mem_singleton.mpr (.binary (.paren .null) (.count (by decide +kernel)))))
  have hlimit : (toGroupedText (.binary .mul (.binary .add (.attr "a") (.string ""))
      (.call "f" [.binary .sub (.paren .null) (.count "n")]))).utf8ByteSize ≤ 34 := by
    decide +kernel
  exact ⟨hspelled, hkeywords, hlimit, parseWithin_toGroupedText hspelled hkeywords hlimit⟩

mutual

/-- The tree without the parentheses that stand right around an operator. -/
def ungrouped : Expr → Expr
  | .paren (.binary op left right) => .binary op (ungrouped left) (ungrouped right)
  | .paren inner => .paren (ungrouped inner)
  | .binary op left right => .binary op (ungrouped left) (ungrouped right)
  | .call name arguments => .call name (ungroupedAll arguments)
  | leaf => leaf

/-- Several trees without the parentheses that stand right around an operator. -/
def ungroupedAll : List Expr → List Expr
  | [] => []
  | e :: es => ungrouped e :: ungroupedAll es

end

theorem ungroupedAll_eq_map (es : List Expr) : ungroupedAll es = es.map ungrouped := by
  induction es with
  | nil => rfl
  | cons e es ih => simp [ungroupedAll, ih]

theorem ungrouped_paren {e : Expr} (h : e.IsOperand) :
    ungrouped (.paren e) = .paren e.ungrouped := by
  cases e with
  | binary => exact False.elim h
  | _ =>
      rw [ungrouped]
      exact nofun

/-- The parentheses that were there before are not right around an operator of the grouped tree, so
they stay. -/
theorem ungrouped_grouped (e : Expr) : e.grouped.ungrouped = e := by
  induction e using Expr.induction with
  | paren inner ih => rw [grouped, ungrouped_paren (isOperand_grouped inner), ih]
  | binary op left right ihleft ihright => rw [grouped, ungrouped, ihleft, ihright]
  | call name arguments ih =>
      have harguments : (arguments.map grouped).map ungrouped = arguments := by
        rw [List.map_map]
        exact (List.map_congr_left ih).trans (List.map_id arguments)
      rw [grouped, ungrouped, groupedAll_eq_map, ungroupedAll_eq_map, harguments]
  | _ => rfl

/-- Trees that differ have grouped texts that differ, also where their plain texts are the same. -/
theorem eq_of_toGroupedText_eq {d e : Expr} (hd : d.Spelled) (hkd : d.AvoidsKeywords)
    (he : e.Spelled) (hke : e.AvoidsKeywords) (h : d.toGroupedText = e.toGroupedText) : d = e := by
  rw [← toText_grouped, ← toText_grouped] at h
  have hgrouped : d.grouped = e.grouped :=
    eq_of_toText_eq hd.grouped hkd.grouped (canonical_grouped d) he.grouped hke.grouped
      (canonical_grouped e) h
  rw [← ungrouped_grouped d, ← ungrouped_grouped e, hgrouped]

end QueryExpr.Expr
