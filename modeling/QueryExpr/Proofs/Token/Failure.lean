import QueryExpr.Proofs.Token.Safety

/-!
# Where splitting a text fails

The error that ends the splitting of a text is about one of its characters: the one with which no
token begins, the opening quote of a literal that is never closed, or a backslash in a literal. No
token reaches past this place. Without an error, splitting ends where the text does.

A cursor that takes one token after another from the beginning meets this error and no other.
-/

namespace QueryExpr

namespace Lexeme

variable {start stop : Nat} {error : LexError}

theorem exists_of_readString_eq_error {body : List Char}
    (h : readString start body = .error (error, stop)) :
    ∃ front c rest, '"' :: body = front ++ c :: rest ∧
      error.position = start + Text.byteSize front := by
  have happend := spanContents_append body
  simp only [readString] at h
  split at h
  · cases h
  · next c rest hrest =>
    cases h
    rw [hrest] at happend
    refine ⟨'"' :: (spanContents body).1, '\\', c :: rest, ?_, ?_⟩
    · rw [List.cons_append, happend]
    · rw [LexError.position, Text.byteSize_cons, Nat.add_assoc]
      rfl
  · cases h
    exact ⟨[], '"', body, rfl, rfl⟩

/-- An error is about one of the characters from which a lexeme was to be read. -/
theorem exists_of_read_eq_error {c : Char} {cs : List Char}
    (h : read start c cs = .error (error, stop)) :
    ∃ front d rest, c :: cs = front ++ d :: rest ∧
      error.position = start + Text.byteSize front := by
  rw [read] at h
  split at h
  · cases h
  · split at h
    · next hquote =>
      subst hquote
      exact exists_of_readString_eq_error h
    · split at h
      · cases h
      · split at h
        · cases h
        · cases h
          exact ⟨[], c, cs, rfl, rfl⟩

end Lexeme

namespace Reading

variable {position stop : Nat} {cs rest : List Char}

theorem exists_of_ofChars_eq_failed {error : LexError}
    (h : ofChars position cs = .failed error stop) :
    ∃ front c rest, cs = front ++ c :: rest ∧
      error.position = position + Text.byteSize front := by
  have hcs : cs.takeWhile Text.isBlank ++ cs.dropWhile Text.isBlank = cs :=
    List.takeWhile_append_dropWhile
  simp only [ofChars] at h
  split at h
  · cases h
  · next c tail hdrop =>
    rw [hdrop] at hcs
    split at h
    · cases h
    · next hread =>
      cases h
      obtain ⟨front, d, rest, hfront, hposition⟩ := Lexeme.exists_of_read_eq_error hread
      refine ⟨cs.takeWhile Text.isBlank ++ front, d, rest, ?_, ?_⟩
      · rw [List.append_assoc, ← hfront, hcs]
      · rw [hposition, Text.byteSize_append, Nat.add_assoc]

theorem stop_eq_of_ofChars_eq_finished (h : ofChars position cs = .finished stop) :
    stop = position + Text.byteSize cs := by
  have hcs : cs.takeWhile Text.isBlank = cs :=
    List.takeWhile_eq_self_iff.mpr (isBlank_of_ofChars_eq_finished h)
  simp only [ofChars] at h
  split at h
  · cases h
    rw [hcs]
  · split at h <;> cases h

/-- What a token leaves over begins where the token ends. -/
theorem exists_of_ofChars_stop {t : Token} (h : ofChars position cs = .token t rest) :
    ∃ front, cs = front ++ rest ∧ t.stop = position + Text.byteSize front := by
  obtain ⟨hstart, hcs⟩ := append_of_ofChars h
  refine ⟨_, hcs.symm, ?_⟩
  rw [Token.stop, hstart, Text.byteSize_append, Text.byteSize_toList, Nat.add_assoc]

/-- A token is read again from the place where it begins. -/
theorem exists_of_ofChars_start {t : Token} (h : ofChars position cs = .token t rest) :
    ∃ blanks tail, cs = blanks ++ tail ∧ t.start = position + Text.byteSize blanks ∧
      ofChars t.start tail = .token t rest := by
  obtain ⟨blanks, rfl, hblanks, hstart, -⟩ := exists_of_ofChars_eq_token h
  rw [ofChars_blanks hblanks, ← hstart] at h
  exact ⟨blanks, _, rfl, hstart, h⟩

end Reading

namespace Lexed

/-- What holds where splitting ends, and of one more token in front if it holds of the others, holds
of all that characters are split in. -/
theorem ofChars_induction {motive : Nat → List Char → Lexed → Prop}
    (finished : ∀ position cs stop, Reading.ofChars position cs = .finished stop →
      motive position cs { tokens := [], error := none, position := stop })
    (failed : ∀ position cs error stop, Reading.ofChars position cs = .failed error stop →
      motive position cs { tokens := [], error := some error, position := stop })
    (token : ∀ position cs t rest l, Reading.ofChars position cs = .token t rest →
      motive t.stop rest l → motive position cs (cons t l))
    (position : Nat) (cs : List Char) : motive position cs (ofChars position cs) := by
  cases h : Reading.ofChars position cs with
  | finished stop =>
      rw [ofChars_of_finished h]
      exact finished position cs stop h
  | failed error stop =>
      rw [ofChars_of_failed h]
      exact failed position cs error stop h
  | token t rest =>
      have hlt := Reading.length_lt_of_ofChars h
      rw [ofChars_of_token h]
      exact token position cs t rest _ h (ofChars_induction finished failed token t.stop rest)
termination_by cs.length

/-- Without an error, all of the characters are passed over. -/
theorem position_ofChars (position : Nat) (cs : List Char) :
    (ofChars position cs).error = none →
      (ofChars position cs).position = position + Text.byteSize cs := by
  apply ofChars_induction
    (motive := fun position cs l => l.error = none → l.position = position + Text.byteSize cs)
  case finished =>
    intro position cs stop hread _
    exact Reading.stop_eq_of_ofChars_eq_finished hread
  case failed =>
    intro position cs error stop hread herror
    cases herror
  case token =>
    intro position cs t rest l hread ih herror
    obtain ⟨front, rfl, hstop⟩ := Reading.exists_of_ofChars_stop hread
    rw [position_cons, ih herror, hstop, Text.byteSize_append, Nat.add_assoc]

theorem position_ofText {s : String} (h : (ofText s).error = none) :
    (ofText s).position = s.utf8ByteSize := by
  rw [ofText, position_ofChars 0 s.toList h, Text.byteSize_toList, Nat.zero_add]

/-- The character that an error is about, and the tokens before it. -/
theorem exists_of_error {error : LexError} (position : Nat) (cs : List Char) :
    (ofChars position cs).error = some error →
      ∃ front c rest, cs = front ++ c :: rest ∧
        error.position = position + Text.byteSize front ∧
        ∀ t ∈ (ofChars position cs).tokens, t.stop ≤ error.position := by
  apply ofChars_induction
    (motive := fun position cs l => l.error = some error →
      ∃ front c rest, cs = front ++ c :: rest ∧
        error.position = position + Text.byteSize front ∧ ∀ t ∈ l.tokens, t.stop ≤ error.position)
  case finished =>
    intro position cs stop hread herror
    cases herror
  case failed =>
    intro position cs found stop hread herror
    obtain rfl := Option.some.inj herror
    obtain ⟨front, c, rest, hcs, hposition⟩ := Reading.exists_of_ofChars_eq_failed hread
    exact ⟨front, c, rest, hcs, hposition, List.forall_mem_nil _⟩
  case token =>
    intro position cs t after l hread ih herror
    obtain ⟨used, rfl, hstop⟩ := Reading.exists_of_ofChars_stop hread
    obtain ⟨front, c, rest, rfl, hposition, htokens⟩ := ih herror
    refine ⟨used ++ front, c, rest, (List.append_assoc ..).symm, ?_, ?_⟩
    · rw [hposition, hstop, Text.byteSize_append, Nat.add_assoc]
    · refine List.forall_mem_cons.mpr ⟨?_, htokens⟩
      rw [hposition]
      exact Nat.le_add_right _ _

/-- Each of the tokens is read from the place where it begins. -/
theorem exists_of_mem {t : Token} (position : Nat) (cs : List Char) :
    t ∈ (ofChars position cs).tokens →
      ∃ front tail rest, cs = front ++ tail ∧ t.start = position + Text.byteSize front ∧
        Reading.ofChars t.start tail = .token t rest := by
  apply ofChars_induction
    (motive := fun position cs l => t ∈ l.tokens →
      ∃ front tail rest, cs = front ++ tail ∧ t.start = position + Text.byteSize front ∧
        Reading.ofChars t.start tail = .token t rest)
  case finished => exact fun _ _ _ _ hmem => absurd hmem List.not_mem_nil
  case failed => exact fun _ _ _ _ _ hmem => absurd hmem List.not_mem_nil
  case token =>
    intro position cs first after l hread ih hmem
    rcases List.mem_cons.mp hmem with rfl | hmem
    · obtain ⟨blanks, tail, hcs, hstart, htoken⟩ := Reading.exists_of_ofChars_start hread
      exact ⟨blanks, tail, after, hcs, hstart, htoken⟩
    · obtain ⟨used, rfl, hstop⟩ := Reading.exists_of_ofChars_stop hread
      obtain ⟨front, tail, rest, rfl, hfront, htoken⟩ := ih hmem
      refine ⟨used ++ front, tail, rest, (List.append_assoc ..).symm, ?_, htoken⟩
      rw [hfront, hstop, Text.byteSize_append, Nat.add_assoc]

end Lexed

namespace Cursor

/-- Taking one token after another ends with this error. -/
def Meets (c : Cursor) (error : LexError) : Prop :=
  ∃ ts last, c.Takes ts last ∧ last.next.1 = .error error

/-- Where no more tokens can be taken does not depend on how they are counted. -/
theorem Takes.last_unique {c last last' : Cursor} {ts us : List Token} (h : c.Takes ts last)
    (h' : c.Takes us last') (hend : ∀ t, last.next.1 ≠ .ok (some t))
    (hend' : ∀ t, last'.next.1 ≠ .ok (some t)) : last = last' := by
  induction h generalizing us with
  | nil =>
      cases h' with
      | nil => rfl
      | cons hnext => exact absurd (congrArg Prod.fst hnext) (hend _)
  | cons hnext _ ih =>
      cases h' with
      | nil => exact absurd (congrArg Prod.fst hnext) (hend' _)
      | cons hnext' htakes' =>
          rw [hnext] at hnext'
          cases hnext'
          exact ih htakes' hend

/-- The error that a cursor meets is the one that ends the splitting of its text. -/
theorem meets_ofText_iff {s : String} {error : LexError} :
    (ofText s).Meets error ↔ (Lexed.ofText s).error = some error := by
  have hfront : s.toList = [] ++ s.toList := rfl
  obtain ⟨last, htakes, hending⟩ := exists_takes hfront
  change last.next.1 = (Lexed.ofText s).ending at hending
  constructor
  · rintro ⟨ts, other, hother, herror⟩
    have hend : ∀ t, last.next.1 ≠ .ok (some t) := by
      rw [hending, Lexed.ending]
      cases (Lexed.ofText s).error with
      | none | some => exact nofun
    have hsame : last = other := htakes.last_unique hother hend fun t => by rw [herror]; exact nofun
    rw [← hsame, hending, Lexed.ending] at herror
    cases hlexed : (Lexed.ofText s).error with
    | none =>
        rw [hlexed] at herror
        cases herror
    | some found =>
        rw [hlexed] at herror
        cases herror
        rfl
  · intro herror
    refine ⟨_, last, htakes, ?_⟩
    rw [hending, Lexed.ending, herror]

/-- A token of a text has its place in the text, and a cursor at this place takes it. -/
theorem standsIn_of_mem {s : String} {t : Token} (h : t ∈ (Lexed.ofText s).tokens) :
    t.StandsIn s ∧
      next { source := s, position := t.start } =
        (.ok (some t), { source := s, position := t.stop }) := by
  obtain ⟨front, tail, rest, hsource, hstart, hread⟩ := Lexed.exists_of_mem 0 s.toList h
  rw [Nat.zero_add] at hstart
  rw [hstart] at hread ⊢
  refine ⟨Reading.standsIn_of_token hsource hread, ?_⟩
  rw [next_eq hsource, hread]

end Cursor

end QueryExpr
