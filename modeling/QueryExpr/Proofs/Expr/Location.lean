import QueryExpr.Proofs.Expr.Rejection
import QueryExpr.Proofs.Token.Failure

/-!
# Where parse errors point

A parse error that has a position points into the text it is about, between two of its characters.
What stands there is what the error says: the token that is out of place, a token other than a
closing parenthesis where one is missing, or the character that no token could be read from. A
parenthesis can also be missing at the end of the text, once all of its tokens have been taken.

Tokens are taken from left to right, so where a text does not split into tokens, parsing fails there
or before. It does not get to the end of such a text.
-/

namespace QueryExpr

/-- The token is one of the text. It can be cut out of the text, and a cursor that stands where the
token begins takes it. -/
structure Token.OccursIn (t : Token) (source : String) : Prop where
  mem : t ∈ (Lexed.ofText source).tokens
  standsIn : t.StandsIn source
  next : Cursor.next { source, position := t.start } =
    (.ok (some t), { source, position := t.stop })

theorem Token.occursIn_of_mem {t : Token} {source : String}
    (h : t ∈ (Lexed.ofText source).tokens) : t.OccursIn source :=
  ⟨h, (Cursor.standsIn_of_mem h).1, (Cursor.standsIn_of_mem h).2⟩

theorem Token.OccursIn.start_lt {t : Token} {source : String} (h : t.OccursIn source) :
    t.start < source.utf8ByteSize :=
  Nat.lt_of_lt_of_le h.standsIn.nonempty h.standsIn.text.stop_valid.le_utf8ByteSize

theorem Token.OccursIn.text_ne {t : Token} {source : String} (h : t.OccursIn source) :
    t.text ≠ "" := by
  intro hempty
  have hlt := h.standsIn.nonempty
  rw [Token.stop, hempty] at hlt
  exact Nat.lt_irrefl _ hlt

/-- A lexical error is about a character of the text, and the tokens end before it. -/
theorem Lexed.valid_of_error {s : String} {error : LexError} (h : (ofText s).error = some error) :
    String.Pos.Raw.IsValid s ⟨error.position⟩ ∧ error.position < s.utf8ByteSize ∧
      ∀ t ∈ (ofText s).tokens, t.stop ≤ error.position := by
  obtain ⟨front, c, rest, hsource, hposition, htokens⟩ := exists_of_error 0 s.toList h
  rw [Nat.zero_add] at hposition
  have hsize := congrArg Text.byteSize hsource
  have hpos := c.utf8Size_pos
  rw [Text.byteSize_toList, Text.byteSize_append, Text.byteSize_cons] at hsize
  refine ⟨?_, by omega, htokens⟩
  rw [hposition]
  exact Text.isValid_of_append hsource

namespace Expr

/-- Parsing takes all tokens of the text, and no lexical error comes after them. -/
def RunsOut (limit : Nat) (text : String) : Prop :=
  (Lexed.ofText text).error = none ∧
    ∃ s, ParseState.run limit .initial (Lexed.ofText text).tokens = .ok s

end Expr

namespace ParseError

/-- What the error says about the source, when parsing the source under the limit ends with it. -/
def Tells (limit : Nat) (source : String) : ParseError → Prop
  -- The token that is out of place is the one that stands there.
  | unexpectedToken text position =>
    text ≠ "" ∧ ∃ t : Token, t.OccursIn source ∧ t.start = position ∧ t.text = text
  -- A parenthesis is missing at the end exactly if there are no more tokens, and otherwise where
  -- some other token stands.
  | missingCloseParen position =>
    (position = source.utf8ByteSize ↔ Expr.RunsOut limit source) ∧
      (position < source.utf8ByteSize →
        ∃ t : Token, t.OccursIn source ∧ t.start = position ∧ t.lexeme ≠ .parenRight)
  -- A lexical error is the first that there is.
  | lexical error => (Cursor.ofText source).Meets error
  | noExpression | unexpectedEnd | nestingTooDeep _ => True

/-- The position of the error is a boundary between two characters and has some of the source after
it, unless a parenthesis is missing at the end. -/
def PointsInto (source : String) (error : ParseError) : Prop :=
  ∀ position, error.position? = some position →
    String.Pos.Raw.IsValid source ⟨position⟩ ∧
      (position < source.utf8ByteSize ∨
        position = source.utf8ByteSize ∧ error = .missingCloseParen position)

variable {limit : Nat} {source : String}

theorem pointsInto_of_position?_eq_none {error : ParseError} (h : error.position? = none) :
    error.PointsInto source := by
  intro position hposition
  rw [h] at hposition
  cases hposition

theorem pointsInto_of_occursIn {error : ParseError} {t : Token} (ht : t.OccursIn source)
    (h : error.position? = some t.start) : error.PointsInto source := by
  intro position hposition
  obtain rfl := Option.some.inj (h.symm.trans hposition)
  exact ⟨ht.standsIn.text.start_valid, .inl ht.start_lt⟩

theorem pointsInto_end (source : String) :
    (missingCloseParen source.utf8ByteSize).PointsInto source := by
  intro position hposition
  obtain rfl := Option.some.inj hposition
  refine ⟨?_, .inr ⟨rfl, rfl⟩⟩
  rw [← Text.byteSize_toList]
  exact Text.isValid_of_append (List.append_nil _).symm

theorem pointsInto_lexical {error : LexError} (h : (Lexed.ofText source).error = some error) :
    (lexical error).PointsInto source := by
  intro position hposition
  obtain rfl := Option.some.inj hposition
  exact ⟨(Lexed.valid_of_error h).1, .inl (Lexed.valid_of_error h).2.1⟩

end ParseError

namespace Expr

variable {limit : Nat} {text : String}

/-- Every reason to reject a text yields an error that points at it and tells it. -/
theorem Rejection.located {error : ParseError} (h : Rejection limit (Lexed.ofText text) error) :
    error.PointsInto text ∧ error.Tells limit text := by
  cases h with
  | empty | unfinished | tooDeep =>
      exact ⟨ParseError.pointsInto_of_position?_eq_none rfl, trivial⟩
  | @outOfPlace us vs t s htokens hrun hs =>
      have ht : t.OccursIn text := Token.occursIn_of_mem (htokens ▸ List.mem_append_cons_self)
      exact ⟨ParseError.pointsInto_of_occursIn ht rfl, ht.text_ne, t, ht, rfl, rfl⟩
  | @unclosed us vs t s htokens hrun hs hparen hfail =>
      have ht : t.OccursIn text := Token.occursIn_of_mem (htokens ▸ List.mem_append_cons_self)
      refine ⟨ParseError.pointsInto_of_occursIn ht rfl, ⟨fun heq => ?_, ?_⟩, fun _ => ?_⟩
      · exact absurd heq (Nat.ne_of_lt ht.start_lt)
      · rintro ⟨-, next, hnext⟩
        exact absurd hnext (hfail next)
      · exact ⟨t, ht, rfl, hparen⟩
  | unclosedAtEnd hlexed hrun hs =>
      rw [Lexed.position_ofText hlexed]
      refine ⟨ParseError.pointsInto_end text, ⟨fun _ => ⟨hlexed, _, hrun⟩, fun _ => rfl⟩, ?_⟩
      exact fun hlt => absurd hlt (Nat.lt_irrefl _)
  | lexical hlexed =>
      exact ⟨ParseError.pointsInto_lexical hlexed, Cursor.meets_ofText_iff.mpr hlexed⟩

/-- A text with a lexical error is rejected there or before it, and not for having ended. -/
theorem Rejection.of_lexical {error : ParseError} {found : LexError}
    (h : Rejection limit (Lexed.ofText text) error)
    (hlexed : (Lexed.ofText text).error = some found) :
    error ≠ .noExpression ∧ error ≠ .unexpectedEnd ∧
      error ≠ .missingCloseParen text.utf8ByteSize ∧
      ∀ position, error.position? = some position → position ≤ found.position := by
  obtain ⟨-, hlt, hbefore⟩ := Lexed.valid_of_error hlexed
  have hstart {us vs : List Token} {t : Token}
      (htokens : (Lexed.ofText text).tokens = us ++ t :: vs) : t.start ≤ found.position :=
    Nat.le_trans (Nat.le_add_right _ _) (hbefore t (htokens ▸ List.mem_append_cons_self))
  cases h with
  | empty _ hnone | unfinished hnone | unclosedAtEnd hnone =>
      rw [hlexed] at hnone
      cases hnone
  | outOfPlace htokens =>
      exact ⟨by simp, by simp, by simp, fun _ hp => Option.some.inj hp ▸ hstart htokens⟩
  | unclosed htokens =>
      refine ⟨by simp, by simp, ?_, fun _ hp => Option.some.inj hp ▸ hstart htokens⟩
      intro hend
      have hle := hstart htokens
      rw [ParseError.missingCloseParen.inj hend] at hle
      omega
  | tooDeep => exact ⟨by simp, by simp, by simp, fun _ hp => by cases hp⟩
  | lexical hsame =>
      obtain rfl := Option.some.inj (hlexed.symm.trans hsame)
      exact ⟨by simp, by simp, by simp, fun _ hp => Nat.le_of_eq (Option.some.inj hp).symm⟩

/-- No tree is made of the tokens before a lexical error. -/
theorem exists_error_of_lexical {l : Lexed} {found : LexError} (h : l.error = some found)
    (limit : Nat) : ∃ error, ofLexed limit l = .error error := by
  obtain ⟨tokens, error, position⟩ := l
  subst h
  cases hrun : ParseState.run limit .initial tokens with
  | error error =>
      refine ⟨error, ?_⟩
      simp only [ofLexed, hrun]
      rfl
  | ok s =>
      refine ⟨.lexical found, ?_⟩
      simp only [ofLexed, hrun]
      rfl

/-- Parse errors point at the right place. An error with a position points into the text, between
two characters, and tells what stands there: the token that is out of place, a token in the place of
a closing parenthesis, or the place of the first lexical error. A parenthesis is missing at the end
exactly if the tokens have run out. A text with a lexical error does not parse, and it is rejected
at the place of this error or before it, never because it ended. -/
theorem parse_errors_are_located (limit : Nat) (text : String) :
    (∀ error, parseWithin limit text = .error error →
        error.PointsInto text ∧ error.Tells limit text) ∧
      ∀ found, (Cursor.ofText text).Meets found →
        ∃ error, parseWithin limit text = .error error ∧ error ≠ .noExpression ∧
          error ≠ .unexpectedEnd ∧ error ≠ .missingCloseParen text.utf8ByteSize ∧
          ∀ position, error.position? = some position → position ≤ found.position := by
  constructor
  · intro error herror
    exact (rejection_of_ofLexed herror).located
  · intro found hmeets
    have hlexed : (Lexed.ofText text).error = some found := Cursor.meets_ofText_iff.mp hmeets
    obtain ⟨error, herror⟩ := exists_error_of_lexical hlexed limit
    exact ⟨error, herror, (rejection_of_ofLexed herror).of_lexical hlexed⟩

theorem parse_errors_are_located_multibyte :
    parseWithin 1 "(\"é\" b \"\\n\")" = .error (.missingCloseParen 6) ∧
      (ParseError.missingCloseParen 6).PointsInto "(\"é\" b \"\\n\")" ∧
      (ParseError.missingCloseParen 6).Tells 1 "(\"é\" b \"\\n\")" ∧
      (Cursor.ofText "(\"é\" b \"\\n\")").Meets (.invalidEscape 9) ∧
      ∃ error, parseWithin 1 "(\"é\" b \"\\n\")" = .error error ∧ error ≠ .noExpression ∧
        error ≠ .unexpectedEnd ∧
        error ≠ .missingCloseParen "(\"é\" b \"\\n\")".utf8ByteSize ∧
        ∀ position, error.position? = some position →
          position ≤ (LexError.invalidEscape 9).position := by
  have hparse : parseWithin 1 "(\"é\" b \"\\n\")" = .error (.missingCloseParen 6) := by
    decide +kernel
  have hmeets : (Cursor.ofText "(\"é\" b \"\\n\")").Meets (.invalidEscape 9) :=
    Cursor.meets_ofText_iff.mpr (by decide +kernel)
  obtain ⟨hlocated, hlexical⟩ := parse_errors_are_located 1 "(\"é\" b \"\\n\")"
  exact ⟨hparse, (hlocated _ hparse).1, (hlocated _ hparse).2, hmeets, hlexical _ hmeets⟩

end Expr

end QueryExpr
