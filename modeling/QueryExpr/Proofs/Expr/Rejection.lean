import QueryExpr.Expr.Parser

/-!
# Why a text is rejected

A text is rejected because of one of its tokens or because it ends too early. The token is the one
that no expression goes on with after the tokens before it, or the one that stands where a
parenthesis should be closed. There is one exception: that a minus sign has no digits shows only
after it, and then the sign is to blame and not what comes next.

`Outcome` says what can come of taking one token. `Rejection` says the same of a whole text: for
each error, how far the parser came and what it met there.
-/

namespace QueryExpr

namespace ParseState

/-- What can come of taking a token. A sign waits for its digits only when it was taken last, and
after any other token that was taken it is no sign that is to blame. -/
inductive Outcome (limit : Nat) (s : ParseState) (t : Token) : Except ParseError ParseState → Prop
  where
  | taken {next : ParseState}
      (h : ∀ minus, next.expecting = .digits minus →
        minus = t ∧ ∀ earlier, s.expecting ≠ .digits earlier) :
      Outcome limit s t (.ok next)
  | outOfPlace (hs : ∀ minus, s.expecting ≠ .digits minus) :
      Outcome limit s t (.error (.unexpectedToken t.text t.start))
  | unclosed (hs : ∀ minus, s.expecting ≠ .digits minus) (ht : t.lexeme ≠ .parenRight) :
      Outcome limit s t (.error (.missingCloseParen t.start))
  | unsigned {minus : Token} (hs : s.expecting = .digits minus) :
      Outcome limit s t (.error (.unexpectedToken minus.text minus.start))
  | tooDeep : Outcome limit s t (.error (.nestingTooDeep limit))

section

variable {limit : Nat} {s : ParseState} {t : Token}

theorem outcome_taken {next : ParseState} (h : ∀ minus, next.expecting ≠ .digits minus) :
    Outcome limit s t (.ok next) :=
  .taken fun minus hminus => absurd hminus (h minus)

theorem outcome_deepen (level : Nat) {next : Nat → ParseState}
    (h : ∀ inner minus, (next inner).expecting ≠ .digits minus) :
    Outcome limit s t (Frame.deepen limit level >>= fun inner => .ok (next inner)) := by
  rw [Frame.deepen]
  split
  · exact outcome_taken (h _)
  · exact .tooDeep

variable (hs : ∀ minus, s.expecting ≠ .digits minus)

include hs

/-- A token that is no closing parenthesis misses one if a parenthesis is open, and is out of place
otherwise. -/
theorem outcome_misfit (ht : t.lexeme ≠ .parenRight) (frames : List Frame) :
    Outcome limit s t (.error (Frame.misfit t frames)) := by
  rw [Frame.misfit.eq_def]
  split
  · exact .unclosed hs ht
  · exact .outOfPlace hs

/-- A closing parenthesis is out of place where nothing is open that it could close. -/
theorem outcome_misfit_of_not_paren {frames : List Frame}
    (hframes : ∀ level rest, frames ≠ .paren level :: rest) :
    Outcome limit s t (.error (Frame.misfit t frames)) := by
  rw [Frame.misfit.eq_def]
  split
  · exact absurd rfl (hframes _ _)
  · exact .outOfPlace hs

theorem outcome_beginOperand (frames : List Frame) (level : Nat) :
    Outcome limit s t (beginOperand limit frames level t) := by
  rw [beginOperand]
  split
  · exact outcome_deepen level (by simp)
  · exact .taken fun minus hminus => ⟨(Expecting.digits.inj hminus).symm, hs⟩
  · exact outcome_taken (by simp)
  · exact outcome_taken (by simp)
  · split
    · exact outcome_taken (by simp)
    · exact outcome_taken (by simp)
  · exact .outOfPlace hs

theorem outcome_continueFrom (left : Expr) (frames : List Frame) (level : Nat) :
    Outcome limit s t (continueFrom limit left frames level t) := by
  rw [continueFrom]
  split
  · split
    · exact .outOfPlace hs
    · exact outcome_deepen _ (by simp)
  · next hcomma =>
    split
    · exact outcome_taken (by simp)
    · exact outcome_misfit hs (by rw [hcomma]; exact nofun) _
  · split
    · exact outcome_taken (by simp)
    · exact outcome_taken (by simp)
    · next hparen _ _ => exact outcome_misfit_of_not_paren hs hparen
  · next hparen => exact outcome_misfit hs hparen _

theorem outcome_continueName (name : String) (frames : List Frame) (level : Nat) :
    Outcome limit s t (continueName limit name frames level t) := by
  rw [continueName]
  split
  · exact outcome_deepen level (by simp)
  · exact outcome_taken (by simp)
  · exact outcome_continueFrom hs _ frames level

end

/-- Everything that can come of taking a token. -/
theorem outcome_step (limit : Nat) (s : ParseState) (t : Token) :
    Outcome limit s t (step limit s t) := by
  have hsettled {expecting : Expecting} (h : s.expecting = expecting)
      (hne : ∀ minus, expecting ≠ .digits minus) : ∀ minus, s.expecting ≠ .digits minus :=
    fun minus hminus => hne minus (h.symm.trans hminus)
  rw [step]
  split
  · next h => exact outcome_beginOperand (hsettled h (by simp)) ..
  · next h =>
    split
    · exact outcome_taken (by simp)
    · exact outcome_beginOperand (hsettled h (by simp)) ..
  · next minus h =>
    split
    · split
      · exact outcome_taken (by simp)
      · exact .unsigned h
    · exact .unsigned h
  · next h => exact outcome_continueName (hsettled h (by simp)) ..
  · next h =>
    split
    · split
      · exact outcome_taken (by simp)
      · exact outcome_taken (by simp)
    · exact .outOfPlace (hsettled h (by simp))
  · next h => exact outcome_continueFrom (hsettled h (by simp)) ..

/-- A run that fails takes some tokens first and then meets one that it cannot take. -/
theorem exists_of_run_eq_error {limit : Nat} {s : ParseState} {ts : List Token}
    {error : ParseError} (h : run limit s ts = .error error) :
    ∃ us t vs last, ts = us ++ t :: vs ∧ run limit s us = .ok last ∧
      step limit last t = .error error := by
  induction ts generalizing s with
  | nil => cases h
  | cons t ts ih =>
      rw [run_cons] at h
      cases hstep : step limit s t with
      | error found =>
          rw [hstep] at h
          cases h
          exact ⟨[], t, ts, s, rfl, rfl, hstep⟩
      | ok next =>
          rw [hstep] at h
          obtain ⟨us, u, vs, last, rfl, hrun, hlast⟩ := ih h
          refine ⟨t :: us, u, vs, last, rfl, ?_, hlast⟩
          rw [run_cons, hstep]
          exact hrun

theorem exists_of_run_concat {limit : Nat} {s last : ParseState} {ts : List Token} {t : Token}
    (h : run limit s (ts ++ [t]) = .ok last) :
    ∃ before, run limit s ts = .ok before ∧ step limit before t = .ok last := by
  rw [run_append] at h
  cases hrun : run limit s ts with
  | error error =>
      rw [hrun] at h
      cases h
  | ok before =>
      rw [hrun] at h
      change run limit before [t] = .ok last at h
      rw [run_cons] at h
      refine ⟨before, rfl, ?_⟩
      cases hstep : step limit before t with
      | error error =>
          rw [hstep] at h
          cases h
      | ok next =>
          rw [hstep] at h
          exact h

/-- A sign that waits for its digits was taken last. -/
theorem exists_of_run_digits {limit : Nat} {s : ParseState} {ts : List Token} {minus : Token}
    (h : run limit initial ts = .ok s) (hs : s.expecting = .digits minus) :
    ∃ us before, ts = us ++ [minus] ∧ run limit initial us = .ok before ∧
      ∀ earlier, before.expecting ≠ .digits earlier := by
  rcases List.eq_nil_or_concat ts with rfl | ⟨us, t, rfl⟩
  · cases h
    cases hs
  · rw [List.concat_eq_append] at h ⊢
    obtain ⟨before, hrun, hstep⟩ := exists_of_run_concat h
    have houtcome := outcome_step limit before t
    rw [hstep] at houtcome
    cases houtcome with
    | taken hnext =>
        obtain ⟨rfl, hbefore⟩ := hnext minus hs
        exact ⟨us, before, rfl, hrun, hbefore⟩

theorem complete_eq_error {e : Expr} {frames : List Frame} {level position : Nat}
    {error : ParseError} (h : complete e frames level position = .error error) :
    error = .unexpectedEnd ∨ error = .missingCloseParen position := by
  rw [complete] at h
  split at h
  · cases h
  · rw [Frame.unfinished.eq_def] at h
    split at h
    · cases h
      exact .inr rfl
    · cases h
      exact .inl rfl

/-- At the end of the text something is missing: the rest of the expression, a closing parenthesis,
or the digits of the sign that was taken last. -/
theorem finish_eq_error {s : ParseState} {position : Nat} {error : ParseError}
    (h : s.finish position = .error error) :
    ((∀ minus, s.expecting ≠ .digits minus) ∧
        (error = .unexpectedEnd ∨ error = .missingCloseParen position)) ∨
      ∃ minus, s.expecting = .digits minus ∧ error = .unexpectedToken minus.text minus.start := by
  rw [finish] at h
  split at h
  · next hs =>
    cases h
    exact .inl ⟨by simp [hs], .inl rfl⟩
  · next hs =>
    cases h
    exact .inl ⟨by simp [hs], .inl rfl⟩
  · next hs =>
    cases h
    exact .inl ⟨by simp [hs], .inl rfl⟩
  · next minus hs =>
    cases h
    exact .inr ⟨minus, hs, rfl⟩
  · next hs => exact .inl ⟨by simp [hs], complete_eq_error h⟩
  · next hs => exact .inl ⟨by simp [hs], complete_eq_error h⟩

end ParseState

namespace Expr

/-- Why the tokens of a text are rejected. They have been taken up to the one that is to blame, or
all of them have. -/
inductive Rejection (limit : Nat) (l : Lexed) : ParseError → Prop where
  | empty (htokens : l.tokens = []) (hlexed : l.error = none) : Rejection limit l .noExpression
  | outOfPlace {us vs : List Token} {t : Token} {s : ParseState}
      (htokens : l.tokens = us ++ t :: vs)
      (hrun : ParseState.run limit .initial us = .ok s)
      (hs : ∀ minus, s.expecting ≠ .digits minus) :
      Rejection limit l (.unexpectedToken t.text t.start)
  | unclosed {us vs : List Token} {t : Token} {s : ParseState}
      (htokens : l.tokens = us ++ t :: vs)
      (hrun : ParseState.run limit .initial us = .ok s)
      (hs : ∀ minus, s.expecting ≠ .digits minus) (ht : t.lexeme ≠ .parenRight)
      (hfail : ∀ next, ParseState.run limit .initial l.tokens ≠ .ok next) :
      Rejection limit l (.missingCloseParen t.start)
  | unfinished {s : ParseState} (hlexed : l.error = none)
      (hrun : ParseState.run limit .initial l.tokens = .ok s)
      (hs : ∀ minus, s.expecting ≠ .digits minus) : Rejection limit l .unexpectedEnd
  | unclosedAtEnd {s : ParseState} (hlexed : l.error = none)
      (hrun : ParseState.run limit .initial l.tokens = .ok s)
      (hs : ∀ minus, s.expecting ≠ .digits minus) :
      Rejection limit l (.missingCloseParen l.position)
  | tooDeep : Rejection limit l (.nestingTooDeep limit)
  | lexical {error : LexError} (hlexed : l.error = some error) :
      Rejection limit l (.lexical error)

theorem rejection_of_digits {limit : Nat} {l : Lexed} {us vs : List Token} {s : ParseState}
    {minus : Token} (htokens : l.tokens = us ++ vs)
    (hrun : ParseState.run limit .initial us = .ok s) (hs : s.expecting = .digits minus) :
    Rejection limit l (.unexpectedToken minus.text minus.start) := by
  obtain ⟨before, last, rfl, hbefore, hsettled⟩ := ParseState.exists_of_run_digits hrun hs
  exact .outOfPlace (htokens.trans (List.append_assoc ..)) hbefore hsettled

theorem rejection_of_run {limit : Nat} {l : Lexed} {error : ParseError}
    (h : ParseState.run limit .initial l.tokens = .error error) : Rejection limit l error := by
  obtain ⟨us, t, vs, s, htokens, hrun, hstep⟩ := ParseState.exists_of_run_eq_error h
  have houtcome := ParseState.outcome_step limit s t
  rw [hstep] at houtcome
  cases houtcome with
  | outOfPlace hs => exact .outOfPlace htokens hrun hs
  | unclosed hs ht => exact .unclosed htokens hrun hs ht (by simp [h])
  | unsigned hs => exact rejection_of_digits htokens hrun hs
  | tooDeep => exact .tooDeep

theorem rejection_of_finish {limit : Nat} {l : Lexed} {s : ParseState} {error : ParseError}
    (hlexed : l.error = none) (hrun : ParseState.run limit .initial l.tokens = .ok s)
    (h : s.finish l.position = .error error) : Rejection limit l error := by
  rcases ParseState.finish_eq_error h with ⟨hs, rfl | rfl⟩ | ⟨minus, hs, rfl⟩
  · exact .unfinished hlexed hrun hs
  · exact .unclosedAtEnd hlexed hrun hs
  · exact rejection_of_digits (List.append_nil _).symm hrun hs

/-- There is no other reason to reject a text. -/
theorem rejection_of_ofLexed {limit : Nat} {l : Lexed} {error : ParseError}
    (h : ofLexed limit l = .error error) : Rejection limit l error := by
  simp only [ofLexed] at h
  split at h
  · next htokens hlexed =>
    cases h
    exact .empty htokens hlexed
  · cases hrun : ParseState.run limit .initial l.tokens with
    | error found =>
        rw [hrun] at h
        cases h
        exact rejection_of_run hrun
    | ok s =>
        rw [hrun] at h
        cases hlexed : l.error with
        | none =>
            rw [hlexed] at h
            exact rejection_of_finish hlexed hrun h
        | some lexical =>
            rw [hlexed] at h
            cases h
            exact .lexical hlexed

end Expr

end QueryExpr
