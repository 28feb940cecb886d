import QueryExpr.Token.Reading

/-!
# Cursors

A cursor is a place in a source text, moved by a caller one token or one byte at a time. Looking
ahead is an operation on a copy: every operation returns the cursor that it leaves behind, and the
one it started from stays as it was.

Single bytes can be taken, and a character that starts no token is passed one byte at a time, so a
cursor can come to stand inside a character. No token starts there. Reading one fails at that very
byte and moves past it.
-/

namespace QueryExpr

/-- A place in a source text. -/
structure Cursor where
  /-- The whole text. -/
  source : String
  /-- Byte offset of the next byte to read. -/
  position : Nat
  deriving DecidableEq

namespace Cursor

/-- The cursor at the beginning of a text. -/
def ofText (source : String) : Cursor := { source, position := 0 }

/-- The bytes from the cursor to the end of the text. -/
def remaining (c : Cursor) : List UInt8 :=
  c.source.toUTF8.data.toList.drop c.position

/-- Nothing is left to read. -/
def isEmpty (c : Cursor) : Bool :=
  c.source.utf8ByteSize ≤ c.position

/-- The next byte. -/
def peekByte (c : Cursor) : Option UInt8 :=
  c.remaining.head?

/-- Takes the next byte if it is the given one, and says whether it was. -/
def takeByte (byte : UInt8) (c : Cursor) : Bool × Cursor :=
  if c.peekByte = some byte then (true, { c with position := c.position + 1 }) else (false, c)

/-- Takes the next token. At the end of the text there is none, which is no error. -/
def next (c : Cursor) : Except LexError (Option Token) × Cursor :=
  match Text.dropBytes? c.position c.source.toList with
  | none => (.error (.unexpectedCharacter c.position), { c with position := c.position + 1 })
  | some cs =>
    match Reading.ofChars c.position cs with
    | .finished stop => (.ok none, { c with position := stop })
    | .token t _ => (.ok (some t), { c with position := t.stop })
    | .failed error stop => (.error error, { c with position := stop })

/-- The next token, without taking it. -/
def peek (c : Cursor) : Except LexError (Option Token) :=
  c.next.1

/-- Takes the next token if it is of the given kind, and says whether it was. The cursor moves only
if it was. -/
def take (kind : Lexeme.Kind) (c : Cursor) : Except LexError Bool × Cursor :=
  match c.next with
  | (.ok (some t), after) => if t.lexeme.kind = kind then (.ok true, after) else (.ok false, c)
  | (.ok none, _) => (.ok false, c)
  | (.error error, _) => (.error error, c)

/-- The source text between two offsets that are token boundaries. -/
def slice (c : Cursor) (start stop : Nat) : String :=
  Text.slice c.source start stop

end Cursor

end QueryExpr
