import QueryExpr.Expr.Parser

/-!
# Parsing under two limits

Under a smaller limit the parser does what it does under a larger one, token by token, until it is
about to open a level that the smaller limit does not allow. There it stops, with an error that
names the smaller limit. No other decision of the parser looks at the limit.
-/

namespace QueryExpr

/-- `x` is `y`, or it is cut off where nesting exceeds the limit. -/
def CutOff {α : Type} (limit : Nat) (x y : Except ParseError α) : Prop :=
  x = y ∨ x = .error (.nestingTooDeep limit)

namespace CutOff

variable {α β : Type} {limit : Nat} {x y : Except ParseError α}

theorem refl (limit : Nat) (x : Except ParseError α) : CutOff limit x x := .inl rfl

theorem bind {f g : α → Except ParseError β} (h : CutOff limit x y)
    (hfg : ∀ a, CutOff limit (f a) (g a)) : CutOff limit (x >>= f) (y >>= g) := by
  rcases h with rfl | rfl
  · cases x with
    | error error => exact refl limit _
    | ok a => exact hfg a
  · exact .inr rfl

end CutOff

variable {small large : Nat} (h : small ≤ large)

include h

theorem Frame.cutOff_deepen (level : Nat) :
    CutOff small (deepen small level) (deepen large level) := by
  rw [deepen, deepen]
  split
  · next hlevel =>
    rw [if_pos (Nat.lt_of_lt_of_le hlevel h)]
    exact .refl ..
  · exact .inr rfl

namespace ParseState

theorem cutOff_beginOperand (frames : List Frame) (level : Nat) (t : Token) :
    CutOff small (beginOperand small frames level t) (beginOperand large frames level t) := by
  rw [beginOperand, beginOperand]
  split
  · exact (Frame.cutOff_deepen h level).bind fun inner => .refl ..
  all_goals exact .refl ..

theorem cutOff_continueFrom (left : Expr) (frames : List Frame) (level : Nat) (t : Token) :
    CutOff small (continueFrom small left frames level t)
      (continueFrom large left frames level t) := by
  rw [continueFrom, continueFrom]
  split
  · split
    · exact .refl ..
    · exact (Frame.cutOff_deepen h _).bind fun inner => .refl ..
  all_goals exact .refl ..

theorem cutOff_continueName (name : String) (frames : List Frame) (level : Nat) (t : Token) :
    CutOff small (continueName small name frames level t)
      (continueName large name frames level t) := by
  rw [continueName, continueName]
  split
  · exact (Frame.cutOff_deepen h level).bind fun inner => .refl ..
  · exact .refl ..
  · exact cutOff_continueFrom h ..

theorem cutOff_step (s : ParseState) (t : Token) :
    CutOff small (step small s t) (step large s t) := by
  rw [step, step]
  split
  · exact cutOff_beginOperand h ..
  · split
    · exact .refl ..
    · exact cutOff_beginOperand h ..
  · exact .refl ..
  · exact cutOff_continueName h ..
  · exact .refl ..
  · exact cutOff_continueFrom h ..

theorem cutOff_run (tokens : List Token) (s : ParseState) :
    CutOff small (run small s tokens) (run large s tokens) := by
  induction tokens generalizing s with
  | nil => exact .refl ..
  | cons t tokens ih => exact (cutOff_step h s t).bind ih

end ParseState

namespace Expr

theorem cutOff_ofLexed (l : Lexed) : CutOff small (ofLexed small l) (ofLexed large l) := by
  rw [ofLexed, ofLexed]
  split
  · exact .refl ..
  · exact (ParseState.cutOff_run h _ _).bind fun s => .refl ..

/-- A smaller limit only rejects: it changes nothing, or it is exceeded and says so. -/
theorem cutOff_parseWithin (text : String) :
    CutOff small (parseWithin small text) (parseWithin large text) :=
  cutOff_ofLexed h (Lexed.ofText text)

end Expr

end QueryExpr
