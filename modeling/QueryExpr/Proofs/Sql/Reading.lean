import QueryExpr.Proofs.Expr.Spelling
import QueryExpr.Proofs.Sql.Grouping
import QueryExpr.Proofs.Sql.Literal

/-!
# Reading a fragment as text

`parts?` splits a text in the parts of an SQL fragment, as far as fragments use SQL. Blanks
separate, comments are not read, and a minus sign is part of a number only where an operand is
expected and a digit follows at once. A qualified name counts as one word.

Whatever parts a text was spelled from, they are read from it again, if no two operands touch and
the words among them can be read.
-/

namespace QueryExpr.Sql

/-- Whether a name can begin with the character: a letter of ASCII, an underscore, or anything
beyond ASCII. -/
def isNameStart (c : Char) : Bool := c.isAlpha || c == '_' || 127 < c.toNat

/-- Whether a name can go on with the character. A point qualifies a name by another. -/
def isNamePart (c : Char) : Bool := isNameStart c || c.isDigit || c == '$' || c == '.'

/-- Splits off a connective. Two characters win over the first of them, and what begins a comment is
no connective. -/
def connective? : List Char → Option (Connective × List Char)
  | '-' :: '-' :: _ => none
  | '/' :: '*' :: _ => none
  | '|' :: '|' :: cs => some (.concat, cs)
  | '<' :: '=' :: cs => some (.operator .le, cs)
  | '>' :: '=' :: cs => some (.operator .ge, cs)
  | '!' :: '=' :: cs => some (.operator .ne, cs)
  | '<' :: cs => some (.operator .lt, cs)
  | '>' :: cs => some (.operator .gt, cs)
  | '=' :: cs => some (.operator .eq, cs)
  | '+' :: cs => some (.operator .add, cs)
  | '-' :: cs => some (.operator .sub, cs)
  | '*' :: cs => some (.operator .mul, cs)
  | '/' :: cs => some (.operator .div, cs)
  | _ => none

/-- Splits off a number or a name. A number can have a minus sign where an operand is wanted. -/
def word? (wanted : Bool) : List Char → Option (List Char × List Char)
  | [] => none
  | ['-'] => none
  | '-' :: c :: cs =>
      if wanted ∧ c.isDigit then some (Prod.map ('-' :: ·) id (Lexeme.spanNumber (c :: cs)))
      else none
  | c :: cs =>
      if c.isDigit then some (Lexeme.spanNumber (c :: cs))
      else if isNameStart c then
        some ((c :: cs).takeWhile isNamePart, (c :: cs).dropWhile isNamePart)
      else none

/-- Splits off a part. -/
def part? (d : Dialect) (wanted : Bool) : List Char → Option (Part × List Char)
  | '(' :: cs => some (.opening, cs)
  | ')' :: cs => some (.closing, cs)
  | '\'' :: cs => (d.readLiteral cs).map (Prod.map (.operand ∘ .literal ∘ String.ofList) id)
  | cs =>
      match word? wanted cs with
      | some (text, rest) => some (.operand (.word text), rest)
      | none => (connective? cs).map (Prod.map .connective id)

theorem length_lt_of_spanNumber {c : Char} (hc : c.isDigit = true) (cs : List Char) :
    (Lexeme.spanNumber (c :: cs)).2.length < (c :: cs).length := by
  have hlength := congrArg List.length (Lexeme.spanNumber_append (c :: cs))
  obtain ⟨first, tail, hcons, _⟩ := (Lexeme.isNumber_spanNumber hc cs).exists_cons
  rw [hcons, List.length_append, List.length_cons] at hlength
  omega

theorem length_lt_of_word? {wanted : Bool} {cs text rest : List Char}
    (h : word? wanted cs = some (text, rest)) : rest.length < cs.length := by
  rw [word?.eq_def] at h
  split at h
  · cases h
  · cases h
  · next c cs =>
    split at h
    · next hsign =>
      have hlt := length_lt_of_spanNumber hsign.2 cs
      cases h
      exact Nat.lt_succ_of_lt hlt
    · cases h
  · next c cs _ _ =>
    split at h
    · next hdigit =>
      have hlt := length_lt_of_spanNumber hdigit cs
      rw [Option.some.inj h] at hlt
      exact hlt
    · split at h
      · next hstart =>
        cases h
        have hpart : isNamePart c = true := by simp [isNamePart, hstart]
        rw [List.dropWhile_cons_of_pos hpart]
        exact Nat.lt_succ_of_le (List.dropWhile_suffix isNamePart).length_le
      · cases h

theorem length_lt_of_connective? {cs rest : List Char} {c : Connective}
    (h : connective? cs = some (c, rest)) : rest.length < cs.length := by
  rw [connective?.eq_def] at h
  split at h <;> cases h <;> simp only [List.length_cons] <;> omega

theorem length_lt_of_part? {d : Dialect} {wanted : Bool} {cs rest : List Char} {p : Part}
    (h : part? d wanted cs = some (p, rest)) : rest.length < cs.length := by
  rw [part?.eq_def] at h
  split at h
  · cases h
    exact Nat.lt_succ_self _
  · cases h
    exact Nat.lt_succ_self _
  · obtain ⟨⟨value, after⟩, hread, heq⟩ := Option.map_eq_some_iff.mp h
    cases heq
    exact Nat.lt_succ_of_lt (Dialect.length_lt_of_readLiteral hread)
  · split at h
    · next text after hword =>
      cases h
      exact length_lt_of_word? hword
    · obtain ⟨⟨c, after⟩, hread, heq⟩ := Option.map_eq_some_iff.mp h
      cases heq
      exact length_lt_of_connective? hread

/-- Whether an operand is wanted after the part. -/
def Part.wantsOperand : Part → Bool
  | opening | connective _ => true
  | closing | operand _ => false

/-- Splits a text in parts. -/
def parts? (d : Dialect) (wanted : Bool) : List Char → Option (List Part)
  | [] => some []
  | c :: cs =>
      if c = ' ' then parts? d wanted cs
      else
        match h : part? d wanted (c :: cs) with
        | none => none
        | some (p, rest) =>
            have : rest.length < (c :: cs).length := length_lt_of_part? h
            (parts? d p.wantsOperand rest).map (p :: ·)
termination_by cs => cs.length
decreasing_by
  · exact Nat.lt_succ_self _
  · exact this

/-- A name that can be read, qualified or not. -/
def IsName : List Char → Prop
  | [] => False
  | c :: cs => isNameStart c = true ∧ ∀ e ∈ cs, isNamePart e = true

/-- A word that can be read: a number with or without a sign, or a name. -/
inductive IsWord : List Char → Prop where
  | number {cs : List Char} (h : Expr.IsNumeral cs) : IsWord cs
  | name {cs : List Char} (h : IsName cs) : IsWord cs

theorem isNameStart_of_isNameChar {c : Char} (h : Lexeme.isNameChar c = true) :
    isNameStart c = true := by
  simp only [Lexeme.isNameChar, Bool.or_eq_true] at h
  simp only [isNameStart, Bool.or_eq_true]
  exact .inl h

theorem isNamePart_of_mem {name : List Char} (h : Lexeme.IsName name) :
    ∀ c ∈ name, isNamePart c = true := by
  intro c hc
  simp [isNamePart, isNameStart_of_isNameChar (h.2 c hc)]

/-- The names of an expression are names of SQL. -/
theorem isName_of_isName {name : List Char} (h : Lexeme.IsName name) : IsName name := by
  obtain _ | ⟨c, cs⟩ := name
  · exact absurd rfl h.1
  · refine ⟨isNameStart_of_isNameChar (h.2 c (by simp)), ?_⟩
    intro e he
    exact isNamePart_of_mem h e (by simp [he])

theorem IsName.append {name more : List Char} (h : IsName name)
    (hmore : ∀ c ∈ more, isNamePart c = true) : IsName (name ++ more) := by
  obtain _ | ⟨c, cs⟩ := name
  · exact False.elim h
  · refine ⟨h.1, ?_⟩
    intro e he
    rcases List.mem_append.mp he with he | he
    · exact h.2 e he
    · exact hmore e he

/-- A name qualified by another is a name. -/
theorem IsName.qualify {table name : List Char} (h : IsName table)
    (hname : Lexeme.IsName name) : IsName (table ++ '.' :: name) := by
  apply h.append
  rw [List.forall_mem_cons]
  exact ⟨by decide, isNamePart_of_mem hname⟩

theorem parts?_nil (d : Dialect) (wanted : Bool) : parts? d wanted [] = some [] := by
  rw [parts?]

theorem parts?_blank (d : Dialect) (wanted : Bool) (cs : List Char) :
    parts? d wanted (' ' :: cs) = parts? d wanted cs := by
  rw [parts?, if_pos rfl]

theorem parts?_of_part? {d : Dialect} {wanted : Bool} {cs rest : List Char} {p : Part}
    (h : part? d wanted cs = some (p, rest)) :
    parts? d wanted cs = (parts? d p.wantsOperand rest).map (p :: ·) := by
  cases cs with
  | nil => cases h
  | cons c cs =>
      have hc : c ≠ ' ' := by
        rintro rfl
        cases h
      rw [parts?, if_neg hc]
      split
      · next heq =>
        rw [h] at heq
        cases heq
      · next q after heq =>
        rw [h] at heq
        cases heq
        rfl

theorem part?_connective (d : Dialect) (wanted : Bool) (c : Connective) (rest : List Char) :
    part? d wanted (c.symbol ++ ' ' :: rest) = some (.connective c, ' ' :: rest) := by
  cases c with
  | operator op => cases op <;> cases wanted <;> rfl
  | concat => rfl

theorem part?_literal (d : Dialect) (wanted : Bool) (value : String) {rest : List Char}
    (hrest : rest.head? ≠ some '\'') :
    part? d wanted ((d.quote value).toList ++ rest) =
      some (.operand (.literal value), rest) := by
  rw [Dialect.toList_quote, List.cons_append, List.append_assoc, List.singleton_append, part?,
    d.readLiteral_flatMap value.toList hrest]
  simp

theorem word?_of_isDigit {c : Char} (hc : c.isDigit = true) (wanted : Bool) (cs : List Char) :
    word? wanted (c :: cs) = some (Lexeme.spanNumber (c :: cs)) := by
  have hminus : c ≠ '-' := by
    rintro rfl
    exact absurd hc (by decide)
  rw [word?.eq_4, if_pos hc]
  · exact fun heq _ => hminus heq
  · exact fun _ _ heq _ => hminus heq

theorem not_isDigit_of_isNameStart {c : Char} (hc : isNameStart c = true) :
    ¬ c.isDigit = true := by
  intro hdigit
  have hsmall : c.toNat ≤ 57 := (Char.isDigit_iff_toNat.mp hdigit).2
  simp only [isNameStart, Bool.or_eq_true, beq_iff_eq, decide_eq_true_eq] at hc
  rcases hc with (halpha | rfl) | hlarge
  · have hge := Lexeme.le_toNat_of_isAlpha halpha
    omega
  · exact absurd hdigit (by decide)
  · omega

theorem IsName.word?_append {cs rest : List Char} (h : IsName cs) (wanted : Bool)
    (hrest : Lexeme.Stops isNamePart rest) : word? wanted (cs ++ rest) = some (cs, rest) := by
  obtain _ | ⟨c, cs⟩ := cs
  · exact False.elim h
  obtain ⟨hc, hcs⟩ := h
  have hminus : c ≠ '-' := by
    rintro rfl
    exact absurd hc (by decide)
  have hdigit : ¬ c.isDigit = true := not_isDigit_of_isNameStart hc
  have hall : ∀ e ∈ c :: cs, isNamePart e = true := by
    simpa [isNamePart, hc] using hcs
  have hstop : rest.takeWhile isNamePart = [] ∧ rest.dropWhile isNamePart = rest := by
    cases rest with
    | nil => exact ⟨rfl, rfl⟩
    | cons e rest =>
        have he : isNamePart e = false := hrest e rfl
        simp [he]
  rw [List.cons_append, word?.eq_4, if_neg hdigit, if_pos hc, ← List.cons_append,
    List.takeWhile_append_of_pos hall, List.dropWhile_append_of_pos hall, hstop.1, hstop.2,
    List.append_nil]
  · exact fun heq _ => hminus heq
  · exact fun _ _ heq _ => hminus heq

/-- A word is read whole where a blank, a closing parenthesis or nothing comes after it. -/
theorem IsWord.word?_append {text rest : List Char} (h : IsWord text)
    (hrest : ∀ c ∈ rest.head?, c = ')' ∨ c = ' ') :
    word? true (text ++ rest) = some (text, rest) := by
  have hstops : ∀ test : Char → Bool, test ')' = false → test ' ' = false →
      Lexeme.Stops test rest := by
    intro test hclosing hblank c hc
    rcases hrest c hc with rfl | rfl
    · exact hclosing
    · exact hblank
  have hnumber : Lexeme.Stops Lexeme.continuesNumber rest := hstops _ (by decide) (by decide)
  cases h with
  | number hnumeral =>
      cases hnumeral with
      | plain h =>
          have hspan := h.spanNumber_append hnumber
          obtain ⟨c, tail, rfl, hc⟩ := h.exists_cons
          rw [List.cons_append] at hspan ⊢
          rw [word?_of_isDigit hc, hspan]
      | negative h =>
          have hspan := h.spanNumber_append hnumber
          obtain ⟨c, tail, rfl, hc⟩ := h.exists_cons
          rw [List.cons_append] at hspan
          rw [List.cons_append, List.cons_append, word?, if_pos ⟨rfl, hc⟩, hspan]
          rfl
  | name hname => exact hname.word?_append true (hstops _ (by decide) (by decide))

theorem part?_of_word? {wanted : Bool} {cs text rest : List Char}
    (h : word? wanted cs = some (text, rest)) (d : Dialect) :
    part? d wanted cs = some (.operand (.word text), rest) := by
  rw [part?.eq_def]
  split
  · exact absurd h nofun
  · exact absurd h nofun
  · exact absurd h nofun
  · rw [h]

/-- The parts that a text was spelled from are read from it again. -/
theorem parts?_spell (d : Dialect) {parts : List Part} (hseparated : Separated parts)
    (hwords : ∀ text, .operand (.word text) ∈ parts → IsWord text) {wanted : Bool}
    (hwanted : wanted = false → ∀ p ∈ parts.head?, ¬ p.BeginsOperand) :
    parts? d wanted (spell d parts) = some parts := by
  induction parts generalizing wanted with
  | nil => exact parts?_nil d wanted
  | cons p parts ih =>
      have hchain := List.isChain_cons.mp hseparated
      have hnext : p.wantsOperand = false → ∀ q ∈ parts.head?, ¬ q.BeginsOperand := by
        intro hp q hq
        apply hchain.1 q hq
        cases p with
        | opening | connective => cases hp
        | closing | operand => trivial
      have htail := ih hchain.2 (fun text htext => hwords text (by simp [htext])) hnext
      rw [spell_cons]
      cases p with
      | opening | closing =>
          rw [Part.text, List.cons_append, List.nil_append, parts?_of_part? rfl, htail]
          rfl
      | connective c =>
          rw [Part.text, List.cons_append, parts?_blank, List.append_assoc, List.cons_append,
            List.nil_append, parts?_of_part? (part?_connective d wanted c _), parts?_blank, htail]
          rfl
      | operand o =>
          cases wanted with
          | false => exact absurd trivial (hwanted rfl _ rfl)
          | true =>
              have hrest : ∀ c ∈ (spell d parts).head?, c = ')' ∨ c = ' ' := by
                intro c hc
                exact hseparated.head_eq trivial d hc
              cases o with
              | literal value =>
                  have hquote : (spell d parts).head? ≠ some '\'' := by
                    intro hquote
                    have hcases := hrest _ hquote
                    revert hcases
                    decide
                  rw [Part.text, Operand.text, parts?_of_part? (part?_literal d true value hquote),
                    htail]
                  rfl
              | word text =>
                  have hword := (hwords text (by simp)).word?_append hrest
                  rw [Part.text, Operand.text, parts?_of_part? (part?_of_word? hword d), htail]
                  rfl

/-- Reads a text as a fragment: splits it in parts and groups them. -/
def readText? (d : Dialect) (text : String) : Option Tree := parts? d true text.toList >>= read?

/-- A text spelled from parts is read like the parts. -/
theorem readText?_of_spell {d : Dialect} {text : String} {parts : List Part}
    (htext : text.toList = spell d parts) (hseparated : Separated parts)
    (hwords : ∀ text, .operand (.word text) ∈ parts → IsWord text) :
    readText? d text = read? parts := by
  have hparts : parts? d true (spell d parts) = some parts :=
    parts?_spell d hseparated hwords (by simp)
  rw [readText?, htext, hparts]
  rfl

end QueryExpr.Sql
