import QueryExpr.Text
import QueryExpr.Token.Basic
import QueryExpr.Token.Error

/-!
# Reading one token

From any place in a text, `Reading.ofChars` passes over the blanks and reads the longest token that
starts there. Each `span` function splits its input in the part that belongs to the token and the
rest, and loses nothing. A reading that yields a token leaves fewer characters than it found, which
is what makes reading a whole text end.
-/

namespace QueryExpr

/-- The result of looking for a token. -/
inductive Reading where
  /-- Only blanks were left; they end at this offset. -/
  | finished (position : Nat)
  /-- A token, and the characters after it. -/
  | token (token : Token) (rest : List Char)
  /-- No token; the second field is the offset at which reading stopped. -/
  | failed (error : LexError) (position : Nat)

namespace Lexeme

/-- Names are made of ASCII letters and underscores only; a digit ends a name. -/
def isNameChar (c : Char) : Bool := c.isAlpha || c == '_'

/-- Splits off a punctuation mark or an operator. The two-character operators come first, so they
win over their first character. -/
def symbol? : List Char → Option (Lexeme × List Char)
  | '(' :: cs => some (parenLeft, cs)
  | ')' :: cs => some (parenRight, cs)
  | ',' :: cs => some (comma, cs)
  | '.' :: cs => some (dot, cs)
  | '+' :: cs => some (operator .add, cs)
  | '-' :: cs => some (operator .sub, cs)
  | '*' :: cs => some (operator .mul, cs)
  | '/' :: cs => some (operator .div, cs)
  | '=' :: '=' :: cs => some (operator .eq, cs)
  | '!' :: '=' :: cs => some (operator .ne, cs)
  | '<' :: '=' :: cs => some (operator .le, cs)
  | '>' :: '=' :: cs => some (operator .ge, cs)
  | '<' :: cs => some (operator .lt, cs)
  | '>' :: cs => some (operator .gt, cs)
  | _ => none

/-- Splits off the inside of a string literal: characters other than a quote and a backslash, and
the two escapes `\"` and `\\`. -/
def spanContents : List Char → List Char × List Char
  | '\\' :: '"' :: cs =>
    let (contents, rest) := spanContents cs
    ('\\' :: '"' :: contents, rest)
  | '\\' :: '\\' :: cs =>
    let (contents, rest) := spanContents cs
    ('\\' :: '\\' :: contents, rest)
  | c :: cs =>
    if c = '"' ∨ c = '\\' then
      ([], c :: cs)
    else
      let (contents, rest) := spanContents cs
      (c :: contents, rest)
  | [] => ([], [])

/-- Splits off the digits in front. -/
def spanDigits (cs : List Char) : List Char × List Char :=
  (cs.takeWhile Char.isDigit, cs.dropWhile Char.isDigit)

/-- Splits off the integer part of a number: a zero on its own, or all digits in front. -/
def spanInteger : List Char → List Char × List Char
  | '0' :: cs => (['0'], cs)
  | cs => spanDigits cs

/-- Splits off a fraction: a point with at least one digit after it. -/
def spanFraction : List Char → List Char × List Char
  | '.' :: cs =>
    match spanDigits cs with
    | ([], _) => ([], '.' :: cs)
    | (digits, rest) => ('.' :: digits, rest)
  | cs => ([], cs)

/-- Splits off a plus or a minus sign. -/
def spanSign : List Char → List Char × List Char
  | '+' :: cs => (['+'], cs)
  | '-' :: cs => (['-'], cs)
  | cs => ([], cs)

/-- Splits off an exponent: the letter, an optional sign and at least one digit. -/
def spanExponent : List Char → List Char × List Char
  | [] => ([], [])
  | c :: cs =>
    if c = 'e' ∨ c = 'E' then
      match spanDigits (spanSign cs).2 with
      | ([], _) => ([], c :: cs)
      | (digits, rest) => (c :: (spanSign cs).1 ++ digits, rest)
    else ([], c :: cs)

/-- Splits off a number. A point or an exponent letter without digits after it is left over. -/
def spanNumber (cs : List Char) : List Char × List Char :=
  let integer := spanInteger cs
  let fraction := spanFraction integer.2
  let exponent := spanExponent fraction.2
  (integer.1 ++ fraction.1 ++ exponent.1, exponent.2)

theorem spanContents_append (cs : List Char) :
    (spanContents cs).1 ++ (spanContents cs).2 = cs := by
  fun_induction spanContents cs <;> simp_all

theorem spanDigits_append (cs : List Char) : (spanDigits cs).1 ++ (spanDigits cs).2 = cs := by
  simp [spanDigits]

theorem spanInteger_append (cs : List Char) : (spanInteger cs).1 ++ (spanInteger cs).2 = cs := by
  unfold spanInteger
  split
  · rfl
  · exact spanDigits_append _

theorem spanFraction_append (cs : List Char) :
    (spanFraction cs).1 ++ (spanFraction cs).2 = cs := by
  unfold spanFraction
  split
  · next cs =>
    have h := spanDigits_append cs
    split
    · rfl
    · next heq =>
      rw [heq] at h
      simpa using h
  · rfl

theorem spanSign_append (cs : List Char) : (spanSign cs).1 ++ (spanSign cs).2 = cs := by
  unfold spanSign
  split <;> rfl

theorem spanExponent_append (cs : List Char) :
    (spanExponent cs).1 ++ (spanExponent cs).2 = cs := by
  unfold spanExponent
  split
  · rfl
  · next c cs =>
    have hs := spanSign_append cs
    have hd := spanDigits_append (spanSign cs).2
    split
    · split
      · rfl
      · next heq =>
        rw [heq] at hd
        simp only [List.cons_append, List.append_assoc]
        rw [hd, hs]
    · rfl

theorem spanNumber_append (cs : List Char) : (spanNumber cs).1 ++ (spanNumber cs).2 = cs := by
  simp only [spanNumber, List.append_assoc]
  rw [spanExponent_append, spanFraction_append, spanInteger_append]

/-- Reads a string literal whose opening quote stands at `start`, from the characters after it. An
unclosed literal is reported at its opening quote, a bad escape at its backslash. -/
def readString (start : Nat) (body : List Char) :
    Except (LexError × Nat) (Lexeme × List Char) :=
  let stop := start + 1 + Text.byteSize (spanContents body).1
  match (spanContents body).2 with
  | '"' :: rest => .ok (string (String.ofList (spanContents body).1), rest)
  | '\\' :: _ :: _ => .error (.invalidEscape stop, stop)
  | _ => .error (.unterminatedString start, stop)

/-- Reads the lexeme that starts with `c` at offset `start`. On failure the offset at which reading
stopped comes with the error: one byte further for a character that starts no token. -/
def read (start : Nat) (c : Char) (cs : List Char) : Except (LexError × Nat) (Lexeme × List Char) :=
  match symbol? (c :: cs) with
  | some found => .ok found
  | none =>
    if c = '"' then
      readString start cs
    else if isNameChar c then
      .ok (name (String.ofList ((c :: cs).takeWhile isNameChar)), (c :: cs).dropWhile isNameChar)
    else if c.isDigit then
      .ok (number (String.ofList (spanNumber (c :: cs)).1), (spanNumber (c :: cs)).2)
    else
      .error (.unexpectedCharacter start, start + 1)

theorem symbol?_append {cs rest : List Char} {lexeme : Lexeme}
    (h : symbol? cs = some (lexeme, rest)) : lexeme.text.toList ++ rest = cs := by
  unfold symbol? at h
  split at h <;> first | cases h; rfl | cases h

theorem readString_append {start : Nat} {body rest : List Char} {lexeme : Lexeme}
    (h : readString start body = .ok (lexeme, rest)) :
    lexeme.text.toList ++ rest = '"' :: body := by
  unfold readString at h
  have happ := spanContents_append body
  dsimp only at h
  split at h
  · next heq =>
    rw [heq] at happ
    cases h
    simpa [text] using happ
  · cases h
  · cases h

/-- The text of the lexeme and the characters after it are the characters that were read. -/
theorem read_append {start : Nat} {c : Char} {cs rest : List Char} {lexeme : Lexeme}
    (h : read start c cs = .ok (lexeme, rest)) : lexeme.text.toList ++ rest = c :: cs := by
  unfold read at h
  split at h
  · next heq =>
    cases h
    exact symbol?_append heq
  · split at h
    · next hc =>
      subst hc
      exact readString_append h
    · split at h
      · cases h
        simp [text]
      · split at h
        · cases h
          simpa [text] using spanNumber_append (c :: cs)
        · cases h

theorem spanInteger_ne_nil {c : Char} {cs : List Char} (h : c.isDigit) :
    (spanInteger (c :: cs)).1 ≠ [] := by
  unfold spanInteger
  split
  · simp
  · simp [spanDigits, h]

/-- A lexeme that was read has at least one character. -/
theorem text_ne_nil_of_read {start : Nat} {c : Char} {cs rest : List Char} {lexeme : Lexeme}
    (h : read start c cs = .ok (lexeme, rest)) : lexeme.text.toList ≠ [] := by
  unfold read at h
  split at h
  · next heq =>
    cases h
    unfold symbol? at heq
    split at heq <;> cases heq <;> simp [text, Operator.symbol]
  · split at h
    · unfold readString at h
      dsimp only at h
      split at h <;> cases h
      simp [text]
    · split at h
      · next hc =>
        cases h
        simp [text, hc]
      · split at h
        · next hc =>
          cases h
          simp [text, spanNumber, spanInteger_ne_nil hc]
        · cases h

/-- Reading a lexeme uses up at least one character. -/
theorem length_lt_of_read {start : Nat} {c : Char} {cs rest : List Char} {lexeme : Lexeme}
    (h : read start c cs = .ok (lexeme, rest)) : rest.length < (c :: cs).length := by
  have hlen := congrArg List.length (read_append h)
  have hpos := List.length_pos_iff.mpr (text_ne_nil_of_read h)
  rw [List.length_append] at hlen
  omega

end Lexeme

namespace Reading

/-- Looks for a token in `cs`, which starts at the given offset. -/
def ofChars (position : Nat) (cs : List Char) : Reading :=
  let start := position + Text.byteSize (cs.takeWhile Text.isBlank)
  match cs.dropWhile Text.isBlank with
  | [] => finished start
  | c :: tail =>
    match Lexeme.read start c tail with
    | .ok (lexeme, rest) => token { lexeme, start } rest
    | .error (error, stop) => failed error stop

/-- A token stands right after the blanks in front of it, and what it does not use remains. -/
theorem append_of_ofChars {position : Nat} {cs rest : List Char} {t : Token}
    (h : ofChars position cs = token t rest) :
    t.start = position + Text.byteSize (cs.takeWhile Text.isBlank) ∧
      cs.takeWhile Text.isBlank ++ t.text.toList ++ rest = cs := by
  unfold ofChars at h
  dsimp only at h
  split at h
  · cases h
  · next c tail hdrop =>
    split at h
    · next heq =>
      cases h
      refine ⟨rfl, ?_⟩
      have happ := List.takeWhile_append_dropWhile (p := Text.isBlank) (l := cs)
      rw [hdrop] at happ
      rw [List.append_assoc, Token.text, Lexeme.read_append heq, happ]
    · cases h

/-- A reading that yields a token leaves fewer characters than it found. -/
theorem length_lt_of_ofChars {position : Nat} {cs rest : List Char} {t : Token}
    (h : ofChars position cs = token t rest) : rest.length < cs.length := by
  unfold ofChars at h
  dsimp only at h
  split at h
  · cases h
  · next c tail hdrop =>
    have hsuffix := (List.dropWhile_suffix Text.isBlank (l := cs)).length_le
    rw [hdrop] at hsuffix
    split at h
    · next heq =>
      cases h
      exact Nat.lt_of_lt_of_le (Lexeme.length_lt_of_read heq) hsuffix
    · cases h

end Reading

end QueryExpr
