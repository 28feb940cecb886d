import Mathlib.Data.List.TakeWhile
import QueryExpr.Proofs.Token.Longest
import QueryExpr.Token.Cursor

/-!
# Tokens tile a text

The tokens of a text and the blanks between them make up the text, up to the place where reading
ends. Each token is the longest lexeme that begins where it stands. Reading ends for one of two
reasons: nothing but blanks is left, or something other than a blank comes next with which no lexeme
begins. The first is the end of the text and the second is an error.

A cursor that takes one token after another meets the same tokens as splitting the text at once, and
ends in the same way.
-/

namespace QueryExpr

namespace Lexed

/-- The characters are the tokens, with blanks in front of each, and then `rest`. Each token is the
longest lexeme where it stands, and the first of the characters stands at `position`. -/
inductive Tiles : (position : Nat) → List Char → List Token → List Char → Prop where
  | nil (position : Nat) (rest : List Char) : Tiles position rest [] rest
  | cons {position : Nat} {blanks after rest : List Char} {lexeme : Lexeme} {ts : List Token}
      (hblanks : ∀ c ∈ blanks, Text.isBlank c = true)
      (hlongest : lexeme.IsLongest (lexeme.text.toList ++ after))
      (hafter : Tiles (position + Text.byteSize blanks + lexeme.text.utf8ByteSize) after ts rest) :
      Tiles position (blanks ++ (lexeme.text.toList ++ after))
        ({ lexeme, start := position + Text.byteSize blanks } :: ts) rest

/-- After the blanks comes something with which no lexeme begins. -/
def Stuck (cs : List Char) : Prop :=
  ∃ blanks c tail, cs = blanks ++ c :: tail ∧ (∀ b ∈ blanks, Text.isBlank b = true) ∧
    Text.isBlank c = false ∧ ∀ lexeme : Lexeme, lexeme.Spelled → ¬ lexeme.text.toList <+: c :: tail

end Lexed

/-! ## One token -/

theorem Lexeme.length_pos_of_spelled {lexeme : Lexeme} (h : lexeme.Spelled) :
    0 < lexeme.text.toList.length := by
  have hend : Lexeme.Stops (Lexeme.continues lexeme.kind) [] := fun _ hc => nomatch hc
  have hread := Reading.ofChars_text h hend 0
  have hlt := Reading.length_lt_of_ofChars hread
  rwa [List.append_nil] at hlt

theorem Token.start_lt_stop {t : Token} (h : t.lexeme.Spelled) : t.start < t.stop := by
  have hpos := Lexeme.length_pos_of_spelled h
  have hsize := Text.length_le_byteSize t.lexeme.text.toList
  rw [Text.byteSize_toList] at hsize
  rw [Token.stop, Token.text]
  omega

namespace Reading

variable {position : Nat} {cs rest : List Char}

theorem ofChars_blanks {blanks : List Char} (h : ∀ c ∈ blanks, Text.isBlank c = true)
    (position : Nat) (cs : List Char) :
    ofChars position (blanks ++ cs) = ofChars (position + Text.byteSize blanks) cs := by
  induction blanks generalizing position with
  | nil => rfl
  | cons b blanks ih =>
      obtain ⟨hb, hblanks⟩ := List.forall_mem_cons.mp h
      rw [List.cons_append, ofChars_blank hb, ih hblanks, Text.byteSize_cons, Nat.add_assoc]

/-- A token stands after blanks and is the longest lexeme there. -/
theorem exists_of_ofChars_eq_token {t : Token} (h : ofChars position cs = .token t rest) :
    ∃ blanks, cs = blanks ++ (t.lexeme.text.toList ++ rest) ∧
      (∀ b ∈ blanks, Text.isBlank b = true) ∧ t.start = position + Text.byteSize blanks ∧
      t.lexeme.IsLongest (t.lexeme.text.toList ++ rest) := by
  obtain ⟨hstart, hcs⟩ := append_of_ofChars h
  have hblanks : ∀ b ∈ cs.takeWhile Text.isBlank, Text.isBlank b = true :=
    fun _ => List.mem_takeWhile_imp
  rw [List.append_assoc] at hcs
  rw [← hcs, ofChars_blanks hblanks, ← hstart] at h
  exact ⟨_, hcs.symm, hblanks, hstart, isLongest_of_ofChars h⟩

/-- A token at the place where reading began has no blanks in front of it. -/
theorem eq_append_of_ofChars {lexeme : Lexeme}
    (h : ofChars position cs = .token { lexeme, start := position } rest) :
    cs = lexeme.text.toList ++ rest := by
  obtain ⟨blanks, hcs, -, hstart, -⟩ := exists_of_ofChars_eq_token h
  have hnil : blanks = [] := Text.byteSize_eq_zero_iff.mp (Nat.left_eq_add.mp hstart)
  rwa [hnil] at hcs

theorem isBlank_of_ofChars_eq_finished {stop : Nat} (h : ofChars position cs = .finished stop) :
    ∀ c ∈ cs, Text.isBlank c = true := by
  rw [ofChars] at h
  split at h
  · next hdrop => exact List.dropWhile_eq_nil_iff.mp hdrop
  · split at h <;> cases h

/-- Reading fails only where no lexeme begins. -/
theorem stuck_of_ofChars_eq_failed {error : LexError} {stop : Nat}
    (h : ofChars position cs = .failed error stop) : Lexed.Stuck cs := by
  have hcs : cs.takeWhile Text.isBlank ++ cs.dropWhile Text.isBlank = cs :=
    List.takeWhile_append_dropWhile
  have hblanks : ∀ b ∈ cs.takeWhile Text.isBlank, Text.isBlank b = true :=
    fun _ => List.mem_takeWhile_imp
  cases hdrop : cs.dropWhile Text.isBlank with
  | nil =>
      rw [ofChars, hdrop] at h
      cases h
  | cons c tail =>
      rw [hdrop] at hcs
      have hc : Text.isBlank c = false := by
        have hhead := List.head?_dropWhile_not Text.isBlank cs
        rw [hdrop] at hhead
        exact hhead
      refine ⟨_, c, tail, hcs.symm, hblanks, hc, ?_⟩
      rintro lexeme hspelled ⟨more, hmore⟩
      -- A lexeme would have been read in its place.
      rw [← hcs, ofChars_blanks hblanks, ← hmore] at h
      obtain ⟨found, after, hfound, -⟩ := exists_ofChars_eq_token hspelled more _
      rw [hfound] at h
      cases h

end Reading

namespace Lexed

/-! ## All tokens -/

/-- What is left over when reading has ended with an error or without one. -/
inductive Leaves : Option LexError → List Char → Prop where
  | finished {rest : List Char} (h : ∀ c ∈ rest, Text.isBlank c = true) : Leaves none rest
  | failed (error : LexError) {rest : List Char} (h : Stuck rest) : Leaves (some error) rest

/-- What taking one more token yields after the last one. -/
def ending (l : Lexed) : Except LexError (Option Token) :=
  match l.error with
  | none => .ok none
  | some error => .error error

/-- Splitting characters in tokens tiles them. -/
theorem exists_tiles (position : Nat) (cs : List Char) :
    ∃ rest, Tiles position cs (ofChars position cs).tokens rest ∧
      Leaves (ofChars position cs).error rest := by
  cases h : Reading.ofChars position cs with
  | finished stop =>
      rw [ofChars_of_finished h]
      exact ⟨cs, .nil position cs, .finished (Reading.isBlank_of_ofChars_eq_finished h)⟩
  | failed error stop =>
      rw [ofChars_of_failed h]
      exact ⟨cs, .nil position cs, .failed error (Reading.stuck_of_ofChars_eq_failed h)⟩
  | token t after =>
      have hlt := Reading.length_lt_of_ofChars h
      obtain ⟨rest, htiles, hleaves⟩ := exists_tiles t.stop after
      obtain ⟨blanks, rfl, hblanks, hstart, hlongest⟩ := Reading.exists_of_ofChars_eq_token h
      rw [ofChars_of_token h]
      obtain ⟨lexeme, start⟩ := t
      obtain rfl : start = position + Text.byteSize blanks := hstart
      exact ⟨rest, .cons hblanks hlongest htiles, hleaves⟩
termination_by cs.length

namespace Tiles

variable {position : Nat} {cs rest : List Char} {ts : List Token}

theorem le_start (h : Tiles position cs ts rest) : ∀ t ∈ ts, position ≤ t.start := by
  induction h with
  | nil => exact nofun
  | cons hblanks hlongest hafter ih =>
      intro t ht
      rcases List.mem_cons.mp ht with rfl | ht
      · exact Nat.le_add_right _ _
      · have hle := ih t ht
        omega

theorem start_lt_stop (h : Tiles position cs ts rest) : ∀ t ∈ ts, t.start < t.stop := by
  induction h with
  | nil => exact nofun
  | cons hblanks hlongest hafter ih =>
      intro t ht
      rcases List.mem_cons.mp ht with rfl | ht
      · exact Token.start_lt_stop hlongest.spelled
      · exact ih t ht

/-- No token begins before the one in front of it ends. -/
theorem pairwise_stop_le_start (h : Tiles position cs ts rest) :
    ts.Pairwise fun t u => t.stop ≤ u.start := by
  induction h with
  | nil => exact .nil
  | cons hblanks hlongest hafter ih => exact .cons hafter.le_start ih

end Tiles

end Lexed

namespace Cursor

/-- Taking one token after another yields these and leads from the first cursor to the second. -/
inductive Takes : Cursor → List Token → Cursor → Prop where
  | nil (c : Cursor) : Takes c [] c
  | cons {c middle last : Cursor} {t : Token} {ts : List Token}
      (h : c.next = (.ok (some t), middle)) (hts : Takes middle ts last) : Takes c (t :: ts) last

/-- Between two characters, a cursor reads what comes after it. -/
theorem next_eq {s : String} {front cs : List Char} (h : s.toList = front ++ cs) :
    next { source := s, position := Text.byteSize front } =
      match Reading.ofChars (Text.byteSize front) cs with
      | .finished stop => (.ok none, { source := s, position := stop })
      | .token t _ => (.ok (some t), { source := s, position := t.stop })
      | .failed error stop => (.error error, { source := s, position := stop }) := by
  have hdrop : Text.dropBytes? (Text.byteSize front) s.toList = some cs :=
    Text.dropBytes?_eq_some_iff.mpr ⟨front, h, rfl⟩
  cases hread : Reading.ofChars (Text.byteSize front) cs with
  | finished stop => simp only [next, hdrop, hread]
  | token t after => simp only [next, hdrop, hread]
  | failed error stop => simp only [next, hdrop, hread]

/-- A cursor takes the tokens that splitting finds from there on, and then ends like splitting. -/
theorem exists_takes {s : String} {front cs : List Char} (h : s.toList = front ++ cs) :
    ∃ last, Takes { source := s, position := Text.byteSize front }
        (Lexed.ofChars (Text.byteSize front) cs).tokens last ∧
      last.next.1 = (Lexed.ofChars (Text.byteSize front) cs).ending := by
  have hnext := next_eq h
  cases hread : Reading.ofChars (Text.byteSize front) cs with
  | finished stop =>
      rw [hread] at hnext
      rw [Lexed.ofChars_of_finished hread]
      exact ⟨_, .nil _, congrArg Prod.fst hnext⟩
  | failed error stop =>
      rw [hread] at hnext
      rw [Lexed.ofChars_of_failed hread]
      exact ⟨_, .nil _, congrArg Prod.fst hnext⟩
  | token t after =>
      rw [hread] at hnext
      have hlt := Reading.length_lt_of_ofChars hread
      obtain ⟨blanks, rfl, -, hstart, -⟩ := Reading.exists_of_ofChars_eq_token hread
      have hstop : t.stop = Text.byteSize (front ++ blanks ++ t.lexeme.text.toList) := by
        simp only [Token.stop, Token.text, hstart, Text.byteSize_append, Text.byteSize_toList]
      have hafter : s.toList = (front ++ blanks ++ t.lexeme.text.toList) ++ after := by
        rw [h, List.append_assoc, List.append_assoc]
      obtain ⟨last, htakes, hending⟩ := exists_takes hafter
      rw [← hstop] at htakes hending
      rw [Lexed.ofChars_of_token hread]
      exact ⟨last, .cons hnext htakes, hending⟩
termination_by cs.length

/-- Tokens tile a text, and each of them is longest. Taking tokens from the beginning of a text, one
after another, yields tokens that are not empty and do not overlap. They and the blanks between them
make up the text as far as it was read, and each is the longest lexeme where it stands. When no more
is taken, nothing but blanks is left, or it is an error and no lexeme begins after the blanks. -/
theorem tokens_tile_text (s : String) :
    ∃ last rest, (ofText s).Takes (Lexed.ofText s).tokens last ∧
      last.next.1 = (Lexed.ofText s).ending ∧
      Lexed.Tiles 0 s.toList (Lexed.ofText s).tokens rest ∧
      Lexed.Leaves (Lexed.ofText s).error rest ∧
      (∀ t ∈ (Lexed.ofText s).tokens, t.start < t.stop) ∧
      (Lexed.ofText s).tokens.Pairwise fun t u => t.stop ≤ u.start := by
  have hfront : s.toList = [] ++ s.toList := rfl
  obtain ⟨last, htakes, hending⟩ := exists_takes hfront
  obtain ⟨rest, htiles, hleaves⟩ := Lexed.exists_tiles 0 s.toList
  exact ⟨last, rest, htakes, hending, htiles, hleaves, htiles.start_lt_stop,
    htiles.pairwise_stop_le_start⟩

-- A point and an exponent letter stay out of a number that they do not continue.
example : Lexed.ofText "1.e <=\t=" =
    { tokens := [⟨.number "1", 0⟩, ⟨.dot, 1⟩, ⟨.name "e", 2⟩, ⟨.operator .le, 4⟩]
      error := some (.unexpectedCharacter 7)
      position := 8 } := by
  decide +kernel

end Cursor

end QueryExpr
