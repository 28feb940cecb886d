import QueryExpr.Proofs.Token.Spacing

/-!
# The beginning of a text

Where a text is cut off before one of its tokens, what is left in front splits into the tokens
before. Something else can then be put after it, as long as it does not begin with what could be
inside a lexeme: the tokens in front were longest before, and they still are.
-/

namespace QueryExpr

/-- A word of characters that lexemes can have inside does not reach past the place where such
characters stop. -/
theorem Lexeme.prefix_of_prefix_append {word front after : List Char} (hafter : Stops isInner after)
    (hword : ∀ c ∈ word, isInner c = true) (h : word <+: front ++ after) : word <+: front := by
  rcases List.prefix_or_prefix_of_prefix h (List.prefix_append front after) with hle | ⟨more, rfl⟩
  · exact hle
  · rw [List.prefix_append_right_inj] at h
    cases more with
    | nil => simp
    | cons c more =>
        obtain ⟨tail, rfl⟩ := h
        have hstop := hafter c rfl
        rw [hword c (by simp)] at hstop
        cases hstop

theorem Lexeme.stops_blanks {blanks after : List Char}
    (hblanks : ∀ b ∈ blanks, Text.isBlank b = true) (hafter : Stops isInner after) :
    Stops isInner (blanks ++ after) := by
  cases blanks with
  | nil => exact hafter
  | cons b blanks =>
      apply stops_cons
      rw [Bool.eq_false_iff]
      intro hinner
      have hblank := Text.isBlank_eq_false isInner (by decide) hinner
      rw [hblanks b (by simp)] at hblank
      cases hblank

namespace Lexed

/-- The first of the tokens that tile characters are read from the characters in front of the
others, whatever is put in the place of these. -/
theorem Tiles.exists_front {position : Nat} {cs rest : List Char} {us vs : List Token}
    (h : Tiles position cs (us ++ vs) rest) :
    ∃ front tail, cs = front ++ tail ∧ Tiles (position + Text.byteSize front) tail vs rest ∧
      ∀ after, Lexeme.Stops Lexeme.isInner after → ReadsAs position front after us := by
  induction us generalizing position cs with
  | nil => exact ⟨[], cs, rfl, h, fun after _ => .blanks (List.forall_mem_nil _) position⟩
  | cons u us ih =>
      rw [List.cons_append] at h
      cases h with
      | @cons _ blanks after _ lexeme _ hblanks hlongest hafter =>
          obtain ⟨front, tail, rfl, htail, hfront⟩ := ih hafter
          refine ⟨blanks ++ (lexeme.text.toList ++ front), tail, by simp, ?_, ?_⟩
          · simpa [Text.byteSize_toList, Nat.add_assoc] using htail
          · intro other hother
            have hreads := hfront other hother
            rw [← Text.byteSize_toList] at hreads
            refine (ReadsAs.blanks hblanks position).append (.append (.token ?_) hreads)
            apply hlongest.ofChars_eq_token
            intro word hinner hbegins
            exact (Lexeme.prefix_of_prefix_append hother hinner hbegins).trans
              (List.prefix_append _ _)

/-- What stands in front of a token is read as the tokens before it. -/
theorem exists_front_of_token {s : String} {us vs : List Token} {t : Token}
    (h : (ofText s).tokens = us ++ t :: vs) :
    ∃ front rest, s = front ++ rest ∧ front.utf8ByteSize = t.start ∧
      ∀ after, Lexeme.Stops Lexeme.isInner after → ReadsAs 0 front.toList after us := by
  obtain ⟨rest, htiles, -⟩ := exists_tiles 0 s.toList
  change Tiles 0 s.toList (ofText s).tokens rest at htiles
  rw [h] at htiles
  obtain ⟨front, tail, hsource, htail, hfront⟩ := htiles.exists_front
  cases htail with
  | @cons _ blanks after _ lexeme _ hblanks hlongest _ =>
      refine ⟨String.ofList (front ++ blanks), String.ofList (lexeme.text.toList ++ after), ?_, ?_,
        fun other hother => ?_⟩
      · rw [← String.ofList_append, List.append_assoc, ← hsource, String.ofList_toList]
      · rw [Text.utf8ByteSize_ofList, Text.byteSize_append, Nat.zero_add]
      · have hreads := hfront _ (Lexeme.stops_blanks hblanks hother)
        rw [String.toList_ofList, ← List.append_nil us]
        exact hreads.append (.blanks hblanks _)

/-- A text that splits into tokens to its end is read as these tokens. -/
theorem readsAs_of_error_eq_none {s : String} (h : (ofText s).error = none) {after : List Char}
    (hafter : Lexeme.Stops Lexeme.isInner after) : ReadsAs 0 s.toList after (ofText s).tokens := by
  obtain ⟨rest, htiles, hleaves⟩ := exists_tiles 0 s.toList
  change Tiles 0 s.toList (ofText s).tokens rest at htiles
  change Leaves (ofText s).error rest at hleaves
  rw [h] at hleaves
  rw [← List.append_nil (ofText s).tokens] at htiles ⊢
  obtain ⟨front, tail, hsource, htail, hfront⟩ := htiles.exists_front
  cases htail
  cases hleaves with
  | finished hblanks =>
      rw [hsource]
      exact (hfront _ (Lexeme.stops_blanks hblanks hafter)).append (.blanks hblanks _)

/-- Characters that a closing parenthesis was put after are the tokens in front of this one, also
without the parenthesis. -/
theorem readsAs_of_closed {position : Nat} {cs : List Char} {ts : List Token} {i : Nat}
    (hlexed : (ofChars position (cs ++ [')'])).error = none)
    (htokens : (ofChars position (cs ++ [')'])).tokens = ts ++ [⟨.parenRight, i⟩]) :
    ReadsAs position cs [] ts := by
  obtain ⟨rest, htiles, hleaves⟩ := exists_tiles position (cs ++ [')'])
  rw [htokens] at htiles
  rw [hlexed] at hleaves
  obtain ⟨front, tail, hsource, htail, hfront⟩ := htiles.exists_front
  cases htail with
  | @cons _ blanks _ _ _ _ hblanks _ hafter =>
      cases hafter
      cases hleaves with
      | finished hrest =>
          change cs ++ [')'] = front ++ (blanks ++ ')' :: rest) at hsource
          -- The token is the parenthesis that was put there, since no blanks come after it.
          rcases List.eq_nil_or_concat rest with rfl | ⟨init, last, rfl⟩
          · have hcs : cs = front ++ blanks := by
              rw [← List.append_assoc] at hsource
              exact List.append_cancel_right hsource
            have hend : Lexeme.Stops Lexeme.isInner [] := nofun
            have hreads := hfront _ (Lexeme.stops_blanks hblanks hend)
            rw [hcs, ← List.append_nil ts]
            exact hreads.append (.blanks hblanks _)
          · have hend : cs ++ [')'] = (front ++ (blanks ++ ')' :: init)) ++ [last] := by
              simpa using hsource
            obtain rfl : ')' = last := List.singleton_inj.mp (List.append_inj' hend rfl).2
            exact absurd (hrest ')' (by simp)) (by decide)

end Lexed

end QueryExpr
