import QueryExpr.Compile.Basic
import QueryExpr.Expr.Parser

/-!
# Compiling text under limits

Text from users is limited in length and in depth of nesting before and while it is parsed. The
length is checked first and counts bytes.
-/

namespace QueryExpr

/-- Limits on the text of an expression. -/
structure Limits where
  /-- The greatest length in bytes; without it any length will do. -/
  maxLength : Option UInt64 := none
  /-- How many levels may be nested. Parentheses, calls and each operator of a chain take one. -/
  maxDepth : UInt64 := Expr.defaultLimit.toUInt64
  deriving DecidableEq

/-- Rejects a text that is longer than the limits allow. -/
def Limits.checkLength (limits : Limits) (text : String) : Except CompileError Unit :=
  match limits.maxLength with
  | none => .ok ()
  | some maxLength =>
    if maxLength.toNat < text.utf8ByteSize then .error (.tooLong text.utf8ByteSize maxLength.toNat)
    else .ok ()

variable {σ : Type} [QueryContext σ]

/-- Parses and compiles a text under the given limits. The results are the SQL fragment and the
context with the joins that the fragment needs. -/
def compileWithin (limits : Limits) (text : String) (context : σ) :
    Except CompileError (String × σ) := do
  limits.checkLength text
  match Expr.parseWithin limits.maxDepth.toNat text with
  | .error error => throw (.parse error)
  | .ok tree => tree.compile context

/-- Parses and compiles a text under the default limits. -/
def compile (text : String) (context : σ) : Except CompileError (String × σ) :=
  compileWithin {} text context

end QueryExpr
