import QueryExpr.Proofs.Token.Writing

/-!
# The longest token

Where several lexemes could be read, the longest of them is. A name or a run of digits is not left
before its end, a point or an exponent letter is taken along if digits come after it, and an equals
sign changes the comparison in front of it. No two lexemes are written alike, so the longest text
leaves no choice.

Whatever spelled lexeme a text begins with, reading therefore finds a lexeme, and one that is at
least as long. It fails only where no spelled lexeme begins.
-/

namespace QueryExpr

namespace Lexeme

/-- The characters begin with the lexeme, and every other lexeme that they begin with is shorter. -/
structure IsLongest (lexeme : Lexeme) (cs : List Char) : Prop where
  spelled : lexeme.Spelled
  begins : lexeme.text.toList <+: cs
  longest : ∀ other : Lexeme, other.Spelled → other.text.toList <+: cs → other ≠ lexeme →
    other.text.toList.length < lexeme.text.toList.length

/-- Spelled lexemes that are written alike are the same. -/
theorem eq_of_text_eq {lexeme other : Lexeme} (h : lexeme.Spelled) (hother : other.Spelled)
    (htext : lexeme.text = other.text) : lexeme = other := by
  have hend (kind : Kind) : Stops (continues kind) [] := fun _ hc => nomatch hc
  have hread := Reading.ofChars_text h (hend _) 0
  rw [htext, Reading.ofChars_text hother (hend _) 0] at hread
  cases hread
  rfl

/-! ## Spans are maximal -/

theorem prefix_spanDigits {ds : List Char} (h : ∀ d ∈ ds, d.isDigit = true) (rest : List Char) :
    ds <+: (spanDigits (ds ++ rest)).1 := by
  rw [spanDigits, List.takeWhile_append_of_pos h]
  exact List.prefix_append ds _

theorem IsInteger.prefix_span {cs : List Char} (h : IsInteger cs) (rest : List Char) :
    cs <+: (spanInteger (cs ++ rest)).1 := by
  cases h with
  | zero => exact List.prefix_rfl
  | @digits c cs nonzero hdigits =>
      have hspan : spanInteger (c :: cs ++ rest) = spanDigits (c :: cs ++ rest) := by
        rw [List.cons_append, spanInteger]
        simpa using nonzero
      rw [hspan]
      exact prefix_spanDigits hdigits.2 rest

theorem IsDigits.spanDigits_ne_nil {ds : List Char} (h : IsDigits ds) (rest : List Char) :
    (spanDigits (ds ++ rest)).1 ≠ [] := by
  intro hnil
  have hprefix := prefix_spanDigits h.2 rest
  rw [hnil, List.prefix_nil] at hprefix
  exact h.1 hprefix

theorem IsFraction.prefix_span {cs : List Char} (h : IsFraction cs) (rest : List Char) :
    cs <+: (spanFraction (cs ++ rest)).1 := by
  cases h with
  | nil => exact List.nil_prefix
  | digits hdigits =>
      rw [List.cons_append, spanFraction_point, if_neg (hdigits.spanDigits_ne_nil rest)]
      exact List.cons_prefix_cons.mpr ⟨rfl, prefix_spanDigits hdigits.2 rest⟩

theorem IsExponent.prefix_span {cs : List Char} (h : IsExponent cs) (rest : List Char) :
    cs <+: (spanExponent (cs ++ rest)).1 := by
  cases h with
  | nil => exact List.nil_prefix
  | @digits mark sign ds hmark hsign hdigits =>
      rw [List.cons_append, spanExponent_mark hmark, spanSign_of_digits hsign hdigits,
        if_neg (hdigits.spanDigits_ne_nil rest), List.cons_prefix_cons]
      exact ⟨rfl, (List.prefix_append_right_inj sign).mpr (prefix_spanDigits hdigits.2 rest)⟩

/-- After an integer that is read whole come a fraction and an exponent, as far as they go. -/
theorem IsInteger.spanNumber_append {integer rest : List Char} (h : IsInteger integer)
    (hrest : Stops Char.isDigit rest) :
    (spanNumber (integer ++ rest)).1 =
      integer ++ ((spanFraction rest).1 ++ (spanExponent (spanFraction rest).2).1) := by
  simp only [spanNumber, h.spanInteger_append hrest, List.append_assoc]

/-- Every number that a text begins with is part of the one that is read. -/
theorem IsNumber.prefix_span {cs : List Char} (h : IsNumber cs) (rest : List Char) :
    cs <+: (spanNumber (cs ++ rest)).1 := by
  cases h with
  | @parts integer fraction exponent hinteger hfraction hexponent =>
      -- Each part but the last one that is there is followed by the mark of the next.
      cases hexponent with
      | nil =>
          cases hfraction with
          | nil =>
              rw [List.append_nil, List.append_nil, spanNumber, List.append_assoc]
              exact (hinteger.prefix_span rest).trans (List.prefix_append _ _)
          | @digits ds hdigits =>
              have hpoint : Stops Char.isDigit ('.' :: ds ++ rest) := stops_cons rfl _
              rw [List.append_nil, List.append_assoc, hinteger.spanNumber_append hpoint]
              apply (List.prefix_append_right_inj integer).mpr
              exact ((IsFraction.digits hdigits).prefix_span rest).trans (List.prefix_append _ _)
      | @digits mark sign ds hmark hsign hdigits =>
          have hmarked : Stops (fun c => c.isDigit || c == '.') (mark :: (sign ++ ds) ++ rest) := by
            apply stops_cons
            rcases hmark with rfl | rfl
            · decide
            · decide
          have hafter : Stops Char.isDigit (fraction ++ (mark :: (sign ++ ds) ++ rest)) :=
            hfraction.stops_append (hmarked.mono (by simp +contextual))
          rw [List.append_assoc, List.append_assoc, hinteger.spanNumber_append hafter,
            hfraction.spanFraction_append hmarked, List.prefix_append_right_inj,
            List.prefix_append_right_inj]
          exact (IsExponent.digits hmark hsign hdigits).prefix_span rest

/-! ## What is read is longest -/

theorem not_stops_iff {test : Char → Bool} {rest : List Char} :
    ¬ Stops test rest ↔ ∃ c tail, rest = c :: tail ∧ test c = true := by
  cases rest with
  | nil => simp [Stops]
  | cons c tail => simp [Stops]

/-- An operator is read, or the one that an equals sign makes of it. -/
theorem exists_symbol?_operator (op : Operator) (rest : List Char) :
    ∃ found after, symbol? (op.symbol.toList ++ rest) = some (operator found, after) ∧
      op.symbol.toList <+: found.symbol.toList := by
  by_cases hstops : Stops (continues (.operator op)) rest
  · exact ⟨op, rest, symbol?_operator op hstops, List.prefix_rfl⟩
  · obtain ⟨c, tail, rfl, hc⟩ := not_stops_iff.mp hstops
    cases op with
    | lt =>
        obtain rfl : c = '=' := beq_iff_eq.mp hc
        exact ⟨.le, tail, rfl, by decide⟩
    | gt =>
        obtain rfl : c = '=' := beq_iff_eq.mp hc
        exact ⟨.ge, tail, rfl, by decide⟩
    | _ => cases hc

end Lexeme

namespace Reading

open Lexeme

/-- Where a text begins with a spelled lexeme, a lexeme is read that is at least as long. -/
theorem exists_ofChars_eq_token {other : Lexeme} (h : other.Spelled) (rest : List Char)
    (position : Nat) :
    ∃ lexeme after, ofChars position (other.text.toList ++ rest) =
        .token { lexeme, start := position } after ∧
      other.text.toList <+: lexeme.text.toList := by
  cases other with
  | operator op =>
      obtain ⟨found, after, hfound, hprefix⟩ := exists_symbol?_operator op rest
      exact ⟨.operator found, after, ofChars_of_symbol? hfound position, hprefix⟩
  | number text =>
      obtain ⟨c, cs, htext, hc⟩ := IsNumber.exists_cons h
      have hblank : Text.isBlank c = false := Text.isBlank_eq_false Char.isDigit (by decide) hc
      have hread := ofChars_of_read hblank (read_of_isDigit hc position (cs ++ rest))
      have hprefix := IsNumber.prefix_span h rest
      rw [htext, List.cons_append] at hprefix
      rw [Lexeme.text, htext, List.cons_append]
      refine ⟨_, _, hread, ?_⟩
      rwa [Lexeme.text, String.toList_ofList]
  | name text =>
      obtain ⟨c, cs, htext⟩ := List.exists_cons_of_ne_nil h.1
      have hname : ∀ d ∈ c :: cs, isNameChar d = true := htext ▸ h.2
      have hc : isNameChar c = true := hname c (by simp)
      have hblank : Text.isBlank c = false := Text.isBlank_eq_false isNameChar (by decide) hc
      have hread := ofChars_of_read hblank (read_of_isNameChar hc position (cs ++ rest))
      rw [Lexeme.text, htext, List.cons_append]
      refine ⟨_, _, hread, ?_⟩
      rw [Lexeme.text, String.toList_ofList, ← List.cons_append,
        List.takeWhile_append_of_pos hname]
      exact List.prefix_append _ _
  | _ =>
      -- Nothing continues one of these.
      exact ⟨_, rest, ofChars_text h (fun _ _ => rfl) position, List.prefix_rfl⟩

/-- A lexeme that is read where it begins is the longest there. -/
theorem isLongest_of_ofChars {position : Nat} {lexeme : Lexeme} {rest : List Char}
    (h : ofChars position (lexeme.text.toList ++ rest) =
      .token { lexeme, start := position } rest) :
    lexeme.IsLongest (lexeme.text.toList ++ rest) := by
  have hspelled : lexeme.Spelled := spelled_of_ofChars h
  refine ⟨hspelled, List.prefix_append _ _, ?_⟩
  rintro other hother ⟨more, hmore⟩ hne
  obtain ⟨found, after, hfound, hprefix⟩ := exists_ofChars_eq_token hother more position
  rw [hmore, h] at hfound
  cases hfound
  apply Nat.lt_of_le_of_ne hprefix.length_le
  intro hlength
  have htext := hprefix.eq_of_length hlength
  exact hne (eq_of_text_eq hother hspelled (String.toList_injective htext))

end Reading

end QueryExpr
