import QueryExpr.Expr.Parser
import QueryExpr.Proofs.Token.Spacing

/-!
# Blanks do not change what is parsed

Two texts with tokens that say the same are parsed side by side. The parser looks at offsets in one
place only, where it asks whether a number touches the minus sign in front of it; apart from that,
offsets get into errors and nowhere else. So if numbers touch the same signs in both texts, the
parser is in the same state after each token, except that it remembers where a sign stands.
-/

namespace QueryExpr

open Lexed (Alike NumberAt)

/-- Errors of the same kind that are about the same token, wherever it stands. -/
inductive ParseError.SameCause : ParseError → ParseError → Prop where
  | noExpression : SameCause .noExpression .noExpression
  | missingCloseParen (i j : Nat) : SameCause (.missingCloseParen i) (.missingCloseParen j)
  | unexpectedToken (text : String) (i j : Nat) :
      SameCause (.unexpectedToken text i) (.unexpectedToken text j)
  | unexpectedEnd : SameCause .unexpectedEnd .unexpectedEnd
  | nestingTooDeep (limit : Nat) : SameCause (.nestingTooDeep limit) (.nestingTooDeep limit)

/-- Both are results that `p` relates, or both are errors of the same cause. -/
inductive Parallel {α β : Type} (p : α → β → Prop) :
    Except ParseError α → Except ParseError β → Prop where
  | ok {a : α} {b : β} (h : p a b) : Parallel p (.ok a) (.ok b)
  | error {e f : ParseError} (h : e.SameCause f) : Parallel p (.error e) (.error f)

namespace Parallel

variable {α β γ δ : Type} {p : α → β → Prop} {q : γ → δ → Prop}

theorem bind {x : Except ParseError α} {y : Except ParseError β} {f : α → Except ParseError γ}
    {g : β → Except ParseError δ} (h : Parallel p x y)
    (hfg : ∀ a b, p a b → Parallel q (f a) (g b)) : Parallel q (x >>= f) (y >>= g) := by
  cases h with
  | ok hab => exact hfg _ _ hab
  | error hcause => exact .error hcause

theorem eq_ok {x y : Except ParseError α} {a : α} (h : Parallel (· = ·) x y) (hx : x = .ok a) :
    y = .ok a := by
  subst hx
  cases h with
  | ok hab => rw [hab]

end Parallel

theorem Frame.parallel_deepen (limit level : Nat) :
    Parallel (· = ·) (deepen limit level) (deepen limit level) := by
  rw [deepen]
  split
  · exact .ok rfl
  · exact .error (.nestingTooDeep limit)

namespace ParseState

/-- No minus sign waits for its digits. -/
def Settled (s : ParseState) : Prop :=
  match s.expecting with
  | .digits _ => False
  | _ => True

theorem Settled.ne_digits {s : ParseState} (h : s.Settled) (minus : Token) :
    s.expecting ≠ .digits minus := by
  intro heq
  rwa [Settled, heq] at h

/-- The states are the same, except that the minus sign of a number may stand elsewhere. Of the
tokens that come next, the first is the number of both signs or of neither. -/
inductive Corresponds (ts us : List Token) : ParseState → ParseState → Prop where
  | same {s : ParseState} (h : s.Settled) : Corresponds ts us s s
  | digits {minus other : Token} (hlexeme : other.lexeme = minus.lexeme)
      (htouch : NumberAt other.stop us ↔ NumberAt minus.stop ts) (frames : List Frame)
      (level : Nat) :
      Corresponds ts us { expecting := .digits minus, frames, level }
        { expecting := .digits other, frames, level }

variable {t u : Token} {ts us : List Token}

/-! ## One token -/

section

variable (hlexeme : u.lexeme = t.lexeme)

include hlexeme

theorem sameCause_outOfPlace : (outOfPlace t).SameCause (outOfPlace u) := by
  rw [outOfPlace, outOfPlace, Token.text, Token.text, hlexeme]
  exact .unexpectedToken _ _ _

theorem sameCause_misfit (frames : List Frame) :
    (Frame.misfit t frames).SameCause (Frame.misfit u frames) := by
  rw [Frame.misfit.eq_def, Frame.misfit.eq_def]
  split
  · exact .missingCloseParen _ _
  · exact sameCause_outOfPlace hlexeme

theorem parallel_continueFrom (limit : Nat) (left : Expr) (frames : List Frame) (level : Nat) :
    Parallel (Corresponds ts us) (continueFrom limit left frames level t)
      (continueFrom limit left frames level u) := by
  rw [continueFrom, continueFrom, hlexeme]
  split
  · split
    · exact .error (sameCause_outOfPlace hlexeme)
    · apply (Frame.parallel_deepen limit _).bind
      rintro inner _ rfl
      exact .ok (.same trivial)
  · split
    · exact .ok (.same trivial)
    · exact .error (sameCause_misfit hlexeme _)
  · split
    · exact .ok (.same trivial)
    · exact .ok (.same trivial)
    · exact .error (sameCause_misfit hlexeme _)
  · exact .error (sameCause_misfit hlexeme _)

theorem parallel_continueName (limit : Nat) (name : String) (frames : List Frame) (level : Nat) :
    Parallel (Corresponds ts us) (continueName limit name frames level t)
      (continueName limit name frames level u) := by
  rw [continueName, continueName, hlexeme]
  split
  · apply (Frame.parallel_deepen limit level).bind
    rintro inner _ rfl
    exact .ok (.same trivial)
  · exact .ok (.same trivial)
  · exact parallel_continueFrom hlexeme limit _ frames level

variable (htouch : t.lexeme = .operator .sub → (NumberAt u.stop us ↔ NumberAt t.stop ts))

include htouch

theorem parallel_beginOperand (limit : Nat) (frames : List Frame) (level : Nat) :
    Parallel (Corresponds ts us) (beginOperand limit frames level t)
      (beginOperand limit frames level u) := by
  rw [beginOperand, beginOperand, hlexeme]
  split
  · apply (Frame.parallel_deepen limit level).bind
    rintro inner _ rfl
    exact .ok (.same trivial)
  · next hminus => exact .ok (.digits hlexeme (htouch hminus) frames level)
  · exact .ok (.same trivial)
  · exact .ok (.same trivial)
  · split
    · exact .ok (.same trivial)
    · exact .ok (.same trivial)
  · exact .error (sameCause_outOfPlace hlexeme)

theorem Corresponds.step {s s' : ParseState} (h : Corresponds (t :: ts) (u :: us) s s')
    (limit : Nat) :
    Parallel (Corresponds ts us) (ParseState.step limit s t) (ParseState.step limit s' u) := by
  cases h with
  | same hsettled =>
      rw [ParseState.step, ParseState.step]
      split
      · exact parallel_beginOperand hlexeme htouch ..
      · rw [hlexeme]
        split
        · exact .ok (.same trivial)
        · exact parallel_beginOperand hlexeme htouch ..
      · next minus heq => exact absurd heq (hsettled.ne_digits minus)
      · exact parallel_continueName hlexeme ..
      · rw [hlexeme]
        split
        · split
          · exact .ok (.same trivial)
          · exact .ok (.same trivial)
        · exact .error (sameCause_outOfPlace hlexeme)
      · exact parallel_continueFrom hlexeme ..
  | @digits minus other hsign hnumber frames level =>
      rw [Lexed.numberAt_cons, Lexed.numberAt_cons, hlexeme] at hnumber
      simp only [ParseState.step, hlexeme]
      split
      · next text hkind =>
        -- The number touches both signs or neither.
        have htouches : u.start = other.stop ↔ t.start = minus.stop := by
          simpa [hkind, Lexeme.kind] using hnumber
        have htext : other.text = minus.text := congrArg Lexeme.text hsign
        by_cases hstart : t.start = minus.stop
        · rw [if_pos hstart, if_pos (htouches.mpr hstart), htext]
          exact .ok (.same trivial)
        · rw [if_neg hstart, if_neg fun hother => hstart (htouches.mp hother)]
          exact .error (sameCause_outOfPlace hsign)
      · exact .error (sameCause_outOfPlace hsign)

end

/-! ## All tokens -/

theorem Corresponds.run {s s' : ParseState} (hts : Alike ts us) (h : Corresponds ts us s s')
    (limit : Nat) :
    Parallel (Corresponds [] []) (ParseState.run limit s ts) (ParseState.run limit s' us) := by
  induction hts generalizing s s' with
  | nil => exact .ok h
  | cons hlexeme htouch _ ih =>
      rw [run_cons, run_cons]
      exact (h.step hlexeme htouch limit).bind fun _ _ hnext => ih hnext

theorem parallel_complete (e : Expr) (frames : List Frame) (level i j : Nat) :
    Parallel (· = ·) (complete e frames level i) (complete e frames level j) := by
  rw [complete, complete]
  split
  · exact .ok rfl
  · rw [Frame.unfinished.eq_def, Frame.unfinished.eq_def]
    split
    · exact .error (.missingCloseParen i j)
    · exact .error .unexpectedEnd

theorem Corresponds.finish {s s' : ParseState} (h : Corresponds ts us s s') (i j : Nat) :
    Parallel (· = ·) (s.finish i) (s'.finish j) := by
  cases h with
  | same hsettled =>
      rw [ParseState.finish, ParseState.finish]
      split
      · exact .error .unexpectedEnd
      · exact .error .unexpectedEnd
      · exact .error .unexpectedEnd
      · next minus heq => exact absurd heq (hsettled.ne_digits minus)
      · exact parallel_complete ..
      · exact parallel_complete ..
  | digits hsign => exact .error (sameCause_outOfPlace hsign)

end ParseState

namespace Expr

/-- Tokens that say the same are parsed to the same tree or rejected for the same cause. -/
theorem parallel_ofLexed {l l' : Lexed} (hl : l.error = none) (hl' : l'.error = none)
    (h : Alike l.tokens l'.tokens) (limit : Nat) :
    Parallel (· = ·) (ofLexed limit l) (ofLexed limit l') := by
  obtain ⟨tokens, error, i⟩ := l
  obtain ⟨tokens', error', j⟩ := l'
  subst hl hl'
  cases h with
  | nil => exact .error .noExpression
  | @cons t u ts us hlexeme htouch htail =>
      have hinitial : ParseState.Corresponds (t :: ts) (u :: us) .initial .initial := .same trivial
      exact (hinitial.run (.cons hlexeme htouch htail) limit).bind fun _ _ hend => hend.finish i j

/-- Blanks between tokens are insignificant. Where a text splits into tokens to its end, blanks can
be put in front of the first token, after the last one and between any two, except between a minus
sign and a number that touches it. Under every limit the text then parses to the same tree, or is
rejected for the same reason at the same token. -/
theorem parseWithin_of_spread {s s' : String} (hlexed : (Lexed.ofText s).error = none)
    (h : (Lexed.ofText s).Spread 0 s.toList s'.toList) (limit : Nat) :
    Parallel (· = ·) (parseWithin limit s) (parseWithin limit s') := by
  obtain ⟨hlexed', halike⟩ := Lexed.alike_of_spread hlexed h
  exact parallel_ofLexed hlexed hlexed' halike limit

theorem parseWithin_of_spread_signed :
    (Lexed.ofText "a--1").error = none ∧
      (Lexed.ofText "a--1").Spread 0 "a--1".toList "\ta - -1\n".toList ∧
      Parallel (· = ·) (parseWithin 1 "a--1") (parseWithin 1 "\ta - -1\n") ∧
      parseWithin 1 "\ta - -1\n" = .ok (.binary .sub (.attr "a") (.number "-1")) := by
  have hlexed : (Lexed.ofText "a--1").error = none := by decide +kernel
  have hspread : (Lexed.ofText "a--1").Spread 0 "a--1".toList "\ta - -1\n".toList := by
    have hseam : ∀ offset ∈ [0, 1, 2, 4], (Lexed.ofText "a--1").IsSeam offset := by
      decide +kernel
    refine .insert rfl (hseam 0 (by simp)) (.keep 'a' ?_)
    refine .insert rfl (hseam 1 (by simp)) (.keep '-' ?_)
    refine .insert rfl (hseam 2 (by simp)) (.keep '-' (.keep '1' ?_))
    exact .insert rfl (hseam 4 (by simp)) (.nil 4)
  exact ⟨hlexed, hspread, parseWithin_of_spread hlexed hspread 1, by decide +kernel⟩

-- The blank between a sign and its digits is not one of these.
example : parseWithin 1 "-1" = .ok (.number "-1") ∧
    parseWithin 1 "- 1" = .error (.unexpectedToken "-" 0) := by
  decide +kernel

end Expr

end QueryExpr
