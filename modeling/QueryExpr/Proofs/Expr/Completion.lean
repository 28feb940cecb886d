import QueryExpr.Proofs.Expr.Acceptance
import QueryExpr.Proofs.Expr.Rejection
import QueryExpr.Proofs.Token.Failure
import QueryExpr.Proofs.Token.Front

/-!
# What was read can still be completed

Parsing gives up no later than it has to. Whatever is open after some tokens can be completed: an
operand that is expected is supplied by a name, and then as many parentheses are closed as are open.
None of this opens another level, so the limit does not stand in the way. The only state that a name
does not help is the one after a minus sign without its digits, and there the error points in front
of the sign.

So up to the place that an error points at, a text is the beginning of one that parses under the
same limit.
-/

namespace QueryExpr

/-- How many of the frames wait for a closing parenthesis. -/
def Frame.depth : List Frame → Nat
  | [] => 0
  | .operator .. :: frames => depth frames
  | .paren _ :: frames => depth frames + 1
  | .call .. :: frames => depth frames + 1

/-- Finishing all operators leaves nothing, or a frame that waits for a closing parenthesis. -/
inductive Frame.Closable : Nat → List Frame → Prop where
  | nil : Closable 0 []
  | paren (level : Nat) (frames : List Frame) :
      Closable (depth frames + 1) (.paren level :: frames)
  | call (name : String) (arguments : List Expr) (level : Nat) (frames : List Frame) :
      Closable (depth frames + 1) (.call name arguments level :: frames)

theorem Frame.exists_close (frames : List Frame) (e : Expr) (level : Nat) :
    ∃ whole inner rest, close 0 e level frames = (whole, inner, rest) ∧
      Closable (depth frames) rest := by
  induction frames generalizing e level with
  | nil => exact ⟨e, level, [], rfl, .nil⟩
  | cons frame frames ih =>
      cases frame with
      | operator left op outer =>
          rw [close_operator_of_le (Nat.zero_le _)]
          exact ih ..
      | paren outer => exact ⟨e, level, _, rfl, .paren outer frames⟩
      | call name arguments outer => exact ⟨e, level, _, rfl, .call name arguments outer frames⟩

namespace ParseState

/-- What completes a state: a name unless an operand is complete, and closing parentheses. -/
def completion (s : ParseState) : List Lexeme :=
  (if s.expecting.operand?.isSome then [] else [.name "a"]) ++
    List.replicate (Frame.depth s.frames) .parenRight

/-- The tokens lead to the end of a tree. -/
def Completes (limit : Nat) (s : ParseState) (ts : List Token) : Prop :=
  ∃ last t, run limit s ts = .ok last ∧ ∀ position, last.finish position = .ok t

variable {limit : Nat} {s : ParseState} {ts : List Token}

theorem Completes.cons {next : ParseState} {t : Token} (hstep : step limit s t = .ok next)
    (h : Completes limit next ts) : Completes limit s (t :: ts) := by
  obtain ⟨last, tree, hrun, hfinish⟩ := h
  refine ⟨last, tree, ?_, hfinish⟩
  rw [run_cons, hstep]
  exact hrun

/-- A closing parenthesis after an operand completes what is innermost. -/
theorem exists_step_parenRight (limit : Nat) {e : Expr} (h : s.expecting.operand? = some e)
    {depth : Nat} (hdepth : Frame.depth s.frames = depth + 1) {t : Token}
    (ht : t.lexeme = .parenRight) :
    ∃ next f, step limit s t = .ok next ∧ next.expecting.operand? = some f ∧
      Frame.depth next.frames = depth := by
  obtain ⟨whole, inner, rest, hclose, hrest⟩ := Frame.exists_close s.frames e s.level
  rw [step_of_operand h (by simp [ht]) (by simp [ht])]
  simp only [continueFrom, ht, hclose]
  rw [hdepth] at hrest
  cases hrest with
  | paren level frames => exact ⟨_, _, rfl, rfl, rfl⟩
  | call name arguments level frames => exact ⟨_, _, rfl, rfl, rfl⟩

theorem completes_of_operand {e : Expr} (h : s.expecting.operand? = some e)
    (hts : ts.map Token.lexeme = List.replicate (Frame.depth s.frames) .parenRight) :
    Completes limit s ts := by
  generalize hdepth : Frame.depth s.frames = depth at hts
  induction depth generalizing s e ts with
  | zero =>
      obtain rfl := List.map_eq_nil_iff.mp hts
      obtain ⟨whole, inner, rest, hclose, hrest⟩ := Frame.exists_close s.frames e s.level
      rw [hdepth] at hrest
      cases hrest
      refine ⟨s, whole, rfl, fun position => ?_⟩
      rw [finish_of_operand h, complete, hclose]
  | succ depth ih =>
      obtain ⟨t, ts, rfl, ht, htail⟩ := List.map_eq_cons_iff.mp hts
      obtain ⟨next, f, hstep, hoperand, hnext⟩ := exists_step_parenRight limit h hdepth ht
      exact .cons hstep (ih hoperand hnext htail)

/-- Where an operand or the word after a point is expected, a name supplies it. -/
theorem exists_step_name (limit : Nat) (hs : ∀ minus, s.expecting ≠ .digits minus)
    (hnone : s.expecting.operand? = none) {t : Token} (ht : t.lexeme = .name "a") :
    ∃ next f, step limit s t = .ok next ∧ next.expecting.operand? = some f ∧
      next.frames = s.frames := by
  have hnull : Text.sameIgnoringCase "a" "null" = false := by decide +kernel
  have hcount : Text.sameIgnoringCase "a" "count" = false := by decide +kernel
  obtain ⟨expecting, frames, level⟩ := s
  obtain ⟨lexeme, start⟩ := t
  cases ht
  cases expecting with
  | operand | argument => exact ⟨_, _, step_name hnull limit start, rfl, rfl⟩
  | digits minus => exact absurd rfl (hs minus)
  | column relationship => exact ⟨_, _, step_column hcount limit start relationship, rfl, rfl⟩
  | afterName name => cases hnone
  | continuation left => cases hnone

/-- Every state can be completed, except after a minus sign without its digits. -/
theorem completes_completion (limit : Nat) (hs : ∀ minus, s.expecting ≠ .digits minus)
    (hts : ts.map Token.lexeme = s.completion) : Completes limit s ts := by
  rw [completion] at hts
  cases hoperand : s.expecting.operand? with
  | some e =>
      rw [hoperand] at hts
      exact completes_of_operand hoperand hts
  | none =>
      rw [hoperand] at hts
      obtain ⟨t, ts, rfl, ht, htail⟩ := List.map_eq_cons_iff.mp hts
      obtain ⟨next, f, hstep, hnext, hframes⟩ := exists_step_name limit hs hoperand ht
      rw [← hframes] at htail
      exact .cons hstep (completes_of_operand hnext htail)

end ParseState

namespace Lexed

/-- Closing parentheses at the end of a text are read as such. -/
theorem exists_readsAs_parenRights (n position : Nat) :
    ∃ ts, ts.map Token.lexeme = List.replicate n .parenRight ∧
      ReadsAs position (List.replicate n ')') [] ts := by
  induction n generalizing position with
  | zero => exact ⟨[], rfl, .blanks (List.forall_mem_nil _) position⟩
  | succ n ih =>
      obtain ⟨ts, hts, hreads⟩ := ih (position + Text.byteSize ")".toList)
      have hparen : ReadsAs position ")".toList (List.replicate n ')' ++ []) _ :=
        .text .parenRight trivial (fun _ _ => rfl) position
      refine ⟨_, ?_, hparen.append hreads⟩
      rw [List.map_append, hts]
      rfl

/-- What completes a state can be written. -/
theorem exists_readsAs_completion (s : ParseState) (position : Nat) :
    ∃ cs ts, ts.map Token.lexeme = s.completion ∧ ReadsAs position cs [] ts := by
  cases hoperand : s.expecting.operand? with
  | some e =>
      obtain ⟨ts, hts, hreads⟩ := exists_readsAs_parenRights (Frame.depth s.frames) position
      refine ⟨_, ts, ?_, hreads⟩
      rw [hts, ParseState.completion, hoperand]
      rfl
  | none =>
      obtain ⟨ts, hts, hreads⟩ :=
        exists_readsAs_parenRights (Frame.depth s.frames) (position + Text.byteSize "a".toList)
      have hstops : Lexeme.Stops Lexeme.isNameChar
          (List.replicate (Frame.depth s.frames) ')' ++ []) := by
        cases Frame.depth s.frames with
        | zero => simp [Lexeme.Stops]
        | succ n => exact Lexeme.stops_cons rfl _
      have hname : ReadsAs position "a".toList _ _ :=
        .text (.name "a") (Lexeme.isName_of_all (by decide) rfl) hstops position
      refine ⟨_, _, ?_, hname.append hreads⟩
      rw [List.map_append, hts, ParseState.completion, hoperand]
      rfl

end Lexed

namespace Expr

/-- Some text that begins like this parses under the limit. -/
def Completable (limit : Nat) (front : String) : Prop :=
  ∃ more t, parseWithin limit (front ++ more) = .ok t

variable {limit : Nat}

theorem ofLexed_of_completes {l : Lexed} (hlexed : l.error = none)
    (h : ParseState.initial.Completes limit l.tokens) : ∃ t, ofLexed limit l = .ok t := by
  obtain ⟨last, t, hrun, hfinish⟩ := h
  obtain ⟨tokens, error, position⟩ := l
  subst hlexed
  refine ⟨t, ?_⟩
  cases tokens with
  | nil =>
      cases hrun
      cases hfinish position
  | cons first rest =>
      simp only [ofLexed, hrun]
      exact hfinish position

/-- A text is completable if it is read, in front of a blank, as tokens after which parsing can go
on. -/
theorem completable_of_run {front : String} {us : List Token} {s : ParseState}
    (hfront : ∀ after, Lexeme.Stops Lexeme.isInner after → Lexed.ReadsAs 0 front.toList after us)
    (hrun : ParseState.run limit .initial us = .ok s)
    (hs : ∀ minus, s.expecting ≠ .digits minus) : Completable limit front := by
  obtain ⟨cs, ts, hts, hmore⟩ :=
    Lexed.exists_readsAs_completion s (Text.byteSize front.toList + Text.byteSize " ".toList)
  -- A blank keeps what is added from running into the last token.
  have hblank : Lexed.ReadsAs (0 + Text.byteSize front.toList) " ".toList (cs ++ []) [] :=
    .blank rfl _
  rw [← Nat.zero_add (Text.byteSize front.toList)] at hmore
  have hreads : Lexed.ReadsAs 0 (front ++ String.ofList (' ' :: cs)).toList [] (us ++ ts) := by
    rw [String.toList_append, String.toList_ofList]
    exact (hfront _ (Lexeme.stops_cons rfl _)).append (hblank.append hmore)
  obtain ⟨hlexed, htokens⟩ := hreads.ofText
  refine ⟨String.ofList (' ' :: cs), ofLexed_of_completes hlexed ?_⟩
  obtain ⟨last, t, hlast, hfinish⟩ := ParseState.completes_completion limit hs hts
  refine ⟨last, t, ?_, hfinish⟩
  rw [htokens, ParseState.run_append, hrun]
  exact hlast

/-- What stands in front of a token can be completed if parsing came that far. -/
theorem exists_completable_of_token {text : String} {us vs : List Token} {t : Token}
    {s : ParseState} (htokens : (Lexed.ofText text).tokens = us ++ t :: vs)
    (hrun : ParseState.run limit .initial us = .ok s)
    (hs : ∀ minus, s.expecting ≠ .digits minus) :
    ∃ front rest, text = front ++ rest ∧ front.utf8ByteSize = t.start ∧
      Completable limit front := by
  obtain ⟨front, rest, htext, hsize, hfront⟩ := Lexed.exists_front_of_token htokens
  exact ⟨front, rest, htext, hsize, completable_of_run hfront hrun hs⟩

/-- A whole text can be completed if parsing came to its end. -/
theorem completable_of_run_all {text : String} {s : ParseState}
    (hlexed : (Lexed.ofText text).error = none)
    (hrun : ParseState.run limit .initial (Lexed.ofText text).tokens = .ok s)
    (hs : ∀ minus, s.expecting ≠ .digits minus) : Completable limit text :=
  completable_of_run (fun _ hafter => Lexed.readsAs_of_error_eq_none hlexed hafter) hrun hs

/-- Errors are reported no later than necessary. What stands before the token that is out of place,
or before the place where a closing parenthesis is missing, is the beginning of a text that parses
under the same limit. A text that ended too early is itself such a beginning. -/
theorem rejected_no_later_than_necessary (limit : Nat) (text : String) :
    (∀ position,
        (∃ word, parseWithin limit text = .error (.unexpectedToken word position)) ∨
          parseWithin limit text = .error (.missingCloseParen position) →
        ∃ front rest, text = front ++ rest ∧ front.utf8ByteSize = position ∧
          Completable limit front) ∧
      (parseWithin limit text = .error .unexpectedEnd → Completable limit text) := by
  refine ⟨?_, fun hend => ?_⟩
  · rintro position (⟨word, herror⟩ | herror)
    · cases rejection_of_ofLexed herror with
      | outOfPlace htokens hrun hs => exact exists_completable_of_token htokens hrun hs
    · cases rejection_of_ofLexed herror with
      | unclosed htokens hrun hs => exact exists_completable_of_token htokens hrun hs
      | unclosedAtEnd hlexed hrun hs =>
          rw [Lexed.position_ofText hlexed]
          exact ⟨text, "", (String.append_empty).symm, rfl, completable_of_run_all hlexed hrun hs⟩
  · cases rejection_of_ofLexed hend with
    | unfinished hlexed hrun hs => exact completable_of_run_all hlexed hrun hs

theorem rejected_no_later_than_necessary_call :
    parseWithin 3 "f(\"é\", (a - 1) * 2, b.)" = .error (.unexpectedToken "*" 16) ∧
      (∃ front rest, "f(\"é\", (a - 1) * 2, b.)" = front ++ rest ∧ front.utf8ByteSize = 16 ∧
        Completable 3 front) ∧
      parseWithin 3 "f(\"é\", (a - 1), b." = .error .unexpectedEnd ∧
      Completable 3 "f(\"é\", (a - 1), b." := by
  have hstar : parseWithin 3 "f(\"é\", (a - 1) * 2, b.)" = .error (.unexpectedToken "*" 16) := by
    decide +kernel
  have hend : parseWithin 3 "f(\"é\", (a - 1), b." = .error .unexpectedEnd := by
    decide +kernel
  exact ⟨hstar, (rejected_no_later_than_necessary 3 _).1 16 (.inl ⟨"*", hstar⟩), hend,
    (rejected_no_later_than_necessary 3 _).2 hend⟩

end Expr

end QueryExpr
