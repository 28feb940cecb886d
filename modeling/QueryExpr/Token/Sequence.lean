import QueryExpr.Token.Reading

/-!
# The tokens of a text

`Lexed.ofText` reads tokens from the beginning of a text until only blanks are left or no token can
be read. Either way it keeps the tokens read so far, since a parser may have something to say about
them before it comes to the place of the lexical error.
-/

namespace QueryExpr

/-- A text split in tokens, as far as that is possible. -/
structure Lexed where
  /-- The tokens, in order. -/
  tokens : List Token
  /-- The error that ended reading, or `none` if the whole text was read. -/
  error : Option LexError
  /-- Byte offset at which reading stopped. Without an error it is the end of the text. -/
  position : Nat
  deriving DecidableEq

namespace Lexed

/-- Puts one more token in front. -/
def cons (t : Token) (l : Lexed) : Lexed :=
  { l with tokens := t :: l.tokens }

@[simp] theorem tokens_cons (t : Token) (l : Lexed) : (cons t l).tokens = t :: l.tokens := rfl

@[simp] theorem error_cons (t : Token) (l : Lexed) : (cons t l).error = l.error := rfl

@[simp] theorem position_cons (t : Token) (l : Lexed) : (cons t l).position = l.position := rfl

/-- Splits the characters `cs`, which start at the given offset. -/
def ofChars (position : Nat) (cs : List Char) : Lexed :=
  match h : Reading.ofChars position cs with
  | .finished stop => { tokens := [], error := none, position := stop }
  | .failed error stop => { tokens := [], error := some error, position := stop }
  | .token t rest =>
    have : rest.length < cs.length := Reading.length_lt_of_ofChars h
    cons t (ofChars t.stop rest)
termination_by cs.length

theorem ofChars_of_finished {position stop : Nat} {cs : List Char}
    (h : Reading.ofChars position cs = .finished stop) :
    ofChars position cs = { tokens := [], error := none, position := stop } := by
  rw [ofChars]
  split <;> simp_all

theorem ofChars_of_failed {position stop : Nat} {cs : List Char} {error : LexError}
    (h : Reading.ofChars position cs = .failed error stop) :
    ofChars position cs = { tokens := [], error := some error, position := stop } := by
  rw [ofChars]
  split <;> simp_all

theorem ofChars_of_token {position : Nat} {cs rest : List Char} {t : Token}
    (h : Reading.ofChars position cs = .token t rest) :
    ofChars position cs = cons t (ofChars t.stop rest) := by
  rw [ofChars]
  split <;> simp_all

/-- Splits a whole text. -/
def ofText (s : String) : Lexed :=
  ofChars 0 s.toList

end Lexed

end QueryExpr
