import QueryExpr.Proofs.Token.Spelling

/-!
# Reading what was written

A text that is written lexeme by lexeme splits into these lexemes again, if none of them runs into
what comes after it. Only names, numbers and the two operators that an equals sign would change can
do so; a blank keeps any two lexemes apart.

Whether characters are read as certain tokens depends on what follows them, but not on what stands
before them. Such readings can therefore be put together from left to right.
-/

namespace QueryExpr

namespace Lexeme

/-- Whether the character could continue a lexeme of this kind that it comes after. -/
def continues : Kind → Char → Bool
  | .operator .lt, c | .operator .gt, c => c == '='
  | .number, c => continuesNumber c
  | .name, c => isNameChar c
  | _, _ => false

/-- The characters that a punctuation mark or an operator can begin with. -/
def symbolStarts : List Char := ['(', ')', ',', '.', '+', '-', '*', '/', '=', '!', '<', '>']

theorem head_mem_symbolStarts {cs : List Char} {found : Lexeme × List Char}
    (h : symbol? cs = some found) : ∀ c ∈ cs.head?, c ∈ symbolStarts := by
  rw [symbol?.eq_def] at h
  split at h
  case h_15 => cases h
  all_goals
    intro c hc
    cases hc
    decide

/-- No mark begins with a character that passes a test which all their first characters fail. -/
theorem symbol?_eq_none (test : Char → Bool) (htest : symbolStarts.all fun c => !test c) {c : Char}
    (hc : test c = true) (cs : List Char) : symbol? (c :: cs) = none := by
  cases h : symbol? (c :: cs) with
  | none => rfl
  | some found =>
      have hfalse := List.all_eq_true.mp htest c (head_mem_symbolStarts h c rfl)
      rw [hc] at hfalse
      cases hfalse

theorem not_isNameChar_of_isDigit {c : Char} (hc : c.isDigit = true) : ¬ isNameChar c = true := by
  intro hname
  have hsmall : c.toNat ≤ 57 := (Char.isDigit_iff_toNat.mp hc).2
  simp only [isNameChar, Bool.or_eq_true, beq_iff_eq] at hname
  rcases hname with halpha | rfl
  · have hge := le_toNat_of_isAlpha halpha
    omega
  · exact absurd hc (by decide)

theorem IsContents.spanContents_append {cs : List Char} (h : IsContents cs) (rest : List Char) :
    spanContents (cs ++ '"' :: rest) = (cs, '"' :: rest) := by
  induction h with
  | nil => rfl
  | @plain c cs hc _ ih =>
      have hbackslash : ∀ d tail, c = '\\' → cs ++ '"' :: rest = d :: tail → False :=
        fun _ _ heq _ => hc (.inr heq)
      rw [List.cons_append, spanContents.eq_3, if_neg hc, ih]
      · exact hbackslash '"'
      · exact hbackslash '\\'
  | escape hc _ ih =>
      rcases hc with rfl | rfl
      · rw [List.cons_append, List.cons_append, spanContents.eq_1, ih]
      · rw [List.cons_append, List.cons_append, spanContents.eq_2, ih]

theorem symbol?_operator (op : Operator) {rest : List Char}
    (hrest : Stops (continues (.operator op)) rest) :
    symbol? (op.symbol.toList ++ rest) = some (operator op, rest) := by
  have hequals : op = .lt ∨ op = .gt → ∀ tail, rest = '=' :: tail → False := by
    rintro hop tail rfl
    have hfalse := hrest '=' rfl
    rcases hop with rfl | rfl <;> cases hfalse
  cases op with
  | lt => exact symbol?.eq_13 rest (hequals (.inl rfl))
  | gt => exact symbol?.eq_14 rest (hequals (.inr rfl))
  | _ => rfl

theorem read_of_symbol? {start : Nat} {c : Char} {cs : List Char} {found : Lexeme × List Char}
    (h : symbol? (c :: cs) = some found) : read start c cs = .ok found := by
  rw [read, h]

theorem ne_quote_of_test (test : Char → Bool) (htest : test '"' = false) {c : Char}
    (hc : test c = true) : c ≠ '"' := by
  rintro rfl
  rw [htest] at hc
  cases hc

/-- Where a digit comes first, a number is read. -/
theorem read_of_isDigit {c : Char} (hc : c.isDigit = true) (start : Nat) (cs : List Char) :
    read start c cs =
      .ok (number (String.ofList (spanNumber (c :: cs)).1), (spanNumber (c :: cs)).2) := by
  rw [read, symbol?_eq_none Char.isDigit (by decide) hc,
    if_neg (ne_quote_of_test Char.isDigit rfl hc), if_neg (not_isNameChar_of_isDigit hc),
    if_pos hc]

/-- Where a letter or an underscore comes first, a name is read. -/
theorem read_of_isNameChar {c : Char} (hc : isNameChar c = true) (start : Nat) (cs : List Char) :
    read start c cs = .ok (name (String.ofList ((c :: cs).takeWhile isNameChar)),
      (c :: cs).dropWhile isNameChar) := by
  rw [read, symbol?_eq_none isNameChar (by decide) hc,
    if_neg (ne_quote_of_test isNameChar rfl hc), if_pos hc]

/-- A number is read from its first digit on. -/
theorem read_number {c : Char} {cs rest : List Char} (hc : c.isDigit = true)
    (h : IsNumber (c :: cs)) (hrest : Stops continuesNumber rest) (start : Nat) :
    read start c (cs ++ rest) = .ok (number (String.ofList (c :: cs)), rest) := by
  have hspan := h.spanNumber_append hrest
  rw [List.cons_append] at hspan
  rw [read_of_isDigit hc, hspan]

/-- A name is read up to the first character that is not part of it. -/
theorem read_name {c : Char} {cs rest : List Char} (h : ∀ d ∈ c :: cs, isNameChar d = true)
    (hrest : Stops isNameChar rest) (start : Nat) :
    read start c (cs ++ rest) = .ok (name (String.ofList (c :: cs)), rest) := by
  have hstop : rest.takeWhile isNameChar = [] ∧ rest.dropWhile isNameChar = rest := by
    cases rest with
    | nil => exact ⟨rfl, rfl⟩
    | cons d rest =>
        have hd : isNameChar d = false := hrest d rfl
        simp [hd]
  rw [read_of_isNameChar (h c (by simp)), ← List.cons_append, List.takeWhile_append_of_pos h,
    List.dropWhile_append_of_pos h, hstop.1, hstop.2, List.append_nil]

/-- A string literal is read up to its closing quote. -/
theorem read_string {raw : List Char} (h : IsContents raw) (rest : List Char) (start : Nat) :
    read start '"' (raw ++ '"' :: rest) = .ok (string (String.ofList raw), rest) := by
  rw [read, symbol?_eq_none (· == '"') (by decide) rfl, if_pos rfl]
  simp only [readString, h.spanContents_append]

end Lexeme

namespace Text

/-- A blank has none of the properties that all of the blanks lack. -/
theorem isBlank_eq_false (test : Char → Bool)
    (htest : ['\t', '\n', '\x0c', '\r', ' '].all fun b => !test b) {c : Char}
    (hc : test c = true) : isBlank c = false := by
  rw [Bool.eq_false_iff]
  intro hblank
  have hmem : c ∈ ['\t', '\n', '\x0c', '\r', ' '] := by simpa [isBlank, or_assoc] using hblank
  have hfalse := List.all_eq_true.mp htest c hmem
  rw [hc] at hfalse
  cases hfalse

end Text

namespace Reading

open Lexeme

theorem ofChars_of_read {position : Nat} {c : Char} {cs rest : List Char} {lexeme : Lexeme}
    (hc : Text.isBlank c = false) (h : read position c cs = .ok (lexeme, rest)) :
    ofChars position (c :: cs) = .token { lexeme, start := position } rest := by
  rw [ofChars, List.takeWhile_cons_of_neg (by simp [hc]), List.dropWhile_cons_of_neg (by simp [hc])]
  simp only [Text.byteSize_nil, Nat.add_zero, h]

theorem ofChars_of_symbol? {cs rest : List Char} {lexeme : Lexeme}
    (h : symbol? cs = some (lexeme, rest)) (position : Nat) :
    ofChars position cs = .token { lexeme, start := position } rest := by
  cases cs with
  | nil => cases h
  | cons c cs =>
      have hmem : c ∈ symbolStarts := head_mem_symbolStarts h c rfl
      have hblank : Text.isBlank c = false :=
        Text.isBlank_eq_false (· ∈ symbolStarts) (by decide) (decide_eq_true hmem)
      exact ofChars_of_read hblank (read_of_symbol? h)

/-- A lexeme is read from its text, if it cannot be continued by what comes after it. -/
theorem ofChars_text {lexeme : Lexeme} (h : lexeme.Spelled) {rest : List Char}
    (hrest : Stops (continues lexeme.kind) rest) (position : Nat) :
    ofChars position (lexeme.text.toList ++ rest) =
      .token { lexeme, start := position } rest := by
  cases lexeme with
  | operator op => exact ofChars_of_symbol? (symbol?_operator op hrest) position
  | number text =>
      obtain ⟨c, cs, htext, hc⟩ := IsNumber.exists_cons h
      have hblank : Text.isBlank c = false :=
        Text.isBlank_eq_false Char.isDigit (by decide) hc
      have hnumber : IsNumber (c :: cs) := htext ▸ h
      have hread := read_number hc hnumber hrest position
      rw [← htext, String.ofList_toList] at hread
      rw [Lexeme.text, htext, List.cons_append, ofChars_of_read hblank hread]
  | string raw =>
      have hread := read_string h rest position
      rw [String.ofList_toList] at hread
      have htext : (string raw).text.toList ++ rest = '"' :: (raw.toList ++ '"' :: rest) := by
        simp [Lexeme.text]
      rw [htext, ofChars_of_read rfl hread]
  | name text =>
      obtain ⟨c, cs, htext⟩ := List.exists_cons_of_ne_nil h.1
      have hname : ∀ d ∈ c :: cs, isNameChar d = true := htext ▸ h.2
      have hblank : Text.isBlank c = false :=
        Text.isBlank_eq_false isNameChar (by decide) (hname c (by simp))
      have hread := read_name hname hrest position
      rw [← htext, String.ofList_toList] at hread
      rw [Lexeme.text, htext, List.cons_append, ofChars_of_read hblank hread]
  | _ => exact ofChars_of_symbol? rfl position

/-- A blank in front is passed over. -/
theorem ofChars_blank {c : Char} (hc : Text.isBlank c = true) (position : Nat) (cs : List Char) :
    ofChars position (c :: cs) = ofChars (position + c.utf8Size) cs := by
  rw [ofChars, ofChars, List.takeWhile_cons_of_pos hc, List.dropWhile_cons_of_pos hc,
    Text.byteSize_cons, Nat.add_assoc]

end Reading

namespace Lexed

theorem ofChars_congr {position other : Nat} {cs ds : List Char}
    (h : Reading.ofChars position cs = Reading.ofChars other ds) :
    ofChars position cs = ofChars other ds := by
  cases hread : Reading.ofChars other ds with
  | finished => rw [ofChars_of_finished hread, ofChars_of_finished (h.trans hread)]
  | token => rw [ofChars_of_token hread, ofChars_of_token (h.trans hread)]
  | failed => rw [ofChars_of_failed hread, ofChars_of_failed (h.trans hread)]

/-- Puts more tokens in front. -/
def prepend (ts : List Token) (l : Lexed) : Lexed :=
  { l with tokens := ts ++ l.tokens }

theorem prepend_append (ts us : List Token) (l : Lexed) :
    prepend (ts ++ us) l = prepend ts (prepend us l) := by
  simp [prepend]

/-- Where `rest` comes after them, the characters `cs` are the tokens `ts`. The first of the
characters stands at `position`. -/
def ReadsAs (position : Nat) (cs rest : List Char) (ts : List Token) : Prop :=
  ofChars position (cs ++ rest) = prepend ts (ofChars (position + Text.byteSize cs) rest)

namespace ReadsAs

variable {position : Nat} {cs ds rest : List Char} {ts us : List Token}

theorem append (h : ReadsAs position cs (ds ++ rest) ts)
    (hds : ReadsAs (position + Text.byteSize cs) ds rest us) :
    ReadsAs position (cs ++ ds) rest (ts ++ us) := by
  rw [ReadsAs] at h hds ⊢
  rw [List.append_assoc, h, hds, prepend_append, Text.byteSize_append, Nat.add_assoc]

theorem token {lexeme : Lexeme} (h : Reading.ofChars position (lexeme.text.toList ++ rest) =
    .token { lexeme, start := position } rest) :
    ReadsAs position lexeme.text.toList rest [{ lexeme, start := position }] := by
  rw [ReadsAs, ofChars_of_token h, Text.byteSize_toList]
  rfl

theorem text (lexeme : Lexeme) (h : lexeme.Spelled)
    (hrest : Lexeme.Stops (Lexeme.continues lexeme.kind) rest) (position : Nat) :
    ReadsAs position lexeme.text.toList rest [{ lexeme, start := position }] :=
  token (Reading.ofChars_text h hrest position)

theorem blank {c : Char} (hc : Text.isBlank c = true) (position : Nat) :
    ReadsAs position [c] rest [] :=
  ofChars_congr (Reading.ofChars_blank hc position rest)

/-- Characters that are read as certain tokens where nothing comes after them split into these. -/
theorem ofChars (h : ReadsAs position cs [] ts) :
    (Lexed.ofChars position cs).error = none ∧ (Lexed.ofChars position cs).tokens = ts := by
  have hend : Lexed.ofChars (position + Text.byteSize cs) [] =
      { tokens := [], error := none, position := _ } := ofChars_of_finished rfl
  rw [ReadsAs, List.append_nil, hend] at h
  rw [h, prepend, List.append_nil]
  exact ⟨rfl, rfl⟩

/-- A whole text that is read as certain tokens splits into them. -/
theorem ofText {s : String} (h : ReadsAs 0 s.toList [] ts) :
    (Lexed.ofText s).error = none ∧ (Lexed.ofText s).tokens = ts :=
  ofChars h

end ReadsAs

/-- Wherever the characters `cs` stand in front of `rest`, they are tokens of which `p` holds. -/
def Spells (p : List Token → Prop) (cs rest : List Char) : Prop :=
  ∀ position, ∃ ts, p ts ∧ ReadsAs position cs rest ts

namespace Spells

variable {p q : List Token → Prop} {cs ds rest : List Char}

theorem mono (h : Spells p cs rest) (himp : ∀ ts, p ts → q ts) : Spells q cs rest := by
  intro position
  obtain ⟨ts, hts, hreads⟩ := h position
  exact ⟨ts, himp ts hts, hreads⟩

theorem append (h : Spells p cs (ds ++ rest)) (hds : Spells q ds rest) :
    Spells (fun ts => ∃ us vs, ts = us ++ vs ∧ p us ∧ q vs) (cs ++ ds) rest := by
  intro position
  obtain ⟨us, hus, hfirst⟩ := h position
  obtain ⟨vs, hvs, hsecond⟩ := hds (position + Text.byteSize cs)
  exact ⟨us ++ vs, ⟨us, vs, rfl, hus, hvs⟩, hfirst.append hsecond⟩

theorem text (lexeme : Lexeme) (h : lexeme.Spelled)
    (hrest : Lexeme.Stops (Lexeme.continues lexeme.kind) rest) :
    Spells (fun ts => ∃ i, ts = [⟨lexeme, i⟩]) lexeme.text.toList rest :=
  fun position => ⟨_, ⟨position, rfl⟩, .text lexeme h hrest position⟩

/-- A space in front makes no difference. -/
theorem space (h : Spells p cs rest) : Spells p (' ' :: cs) rest := by
  intro position
  obtain ⟨ts, hts, hreads⟩ := h (position + Text.byteSize [' '])
  exact ⟨ts, hts, ReadsAs.append (.blank rfl position) hreads⟩

end Spells

end Lexed

end QueryExpr
