/-!
# Escapes in string literals

Inside a string literal a quote is written `\"` and a backslash `\\`. A tree keeps the written form;
the value is needed only when SQL is produced. Decoding is total: a backslash gives way to whatever
follows it, and a last backslash with nothing after it stands for itself.
-/

namespace QueryExpr.Text

/-- The characters that the written ones stand for. -/
def decodeEscapes : List Char → List Char
  | '\\' :: c :: cs => c :: decodeEscapes cs
  | c :: cs => c :: decodeEscapes cs
  | [] => []

/-- Only a backslash means something else than itself. -/
theorem decodeEscapes_cons {c : Char} (hc : c ≠ '\\') (cs : List Char) :
    decodeEscapes (c :: cs) = c :: decodeEscapes cs := by
  rw [decodeEscapes]
  rintro d tail rfl
  exact absurd rfl hc

/-- The value of a string literal, from the text between its quotes. -/
def literalValue (raw : String) : String :=
  String.ofList (decodeEscapes raw.toList)

end QueryExpr.Text
