import QueryExpr.Proofs.Sql.Part

/-!
# Reading string literals

`Dialect.ReadsBy` states the rules by which a dialect reads a string literal after its opening
quote. `readLiteral` is a reader that follows them, and `scan` takes a text apart into the literals
in it and everything between them. None of these knows how a literal was written. A text that ends
inside a literal cannot be scanned.

A value that was quoted for a dialect is read back by every reader for this dialect, and reading
stops right after the closing quote, unless another quote follows. No part of a fragment that can
follow a literal begins with a quote, so the literals of a fragment are found one by one.
-/

namespace QueryExpr

namespace Dialect

/-- `read` follows the rules of the dialect for the characters after the opening quote of a string
literal, and yields the value and what comes after the closing quote. What a backslash means to
MySQL in front of any other character is left open; no value is quoted in such a way. -/
structure ReadsBy (d : Dialect) (read : List Char → Option (List Char × List Char)) : Prop where
  doubled : ∀ cs, read ('\'' :: '\'' :: cs) = (read cs).map (Prod.map ('\'' :: ·) id)
  closing : ∀ cs, cs.head? ≠ some '\'' → read ('\'' :: cs) = some ([], cs)
  escaped : ∀ c cs, d = mysql → c = '\'' ∨ c = '\\' →
    read ('\\' :: c :: cs) = (read cs).map (Prod.map (c :: ·) id)
  plain : ∀ c cs, c ≠ '\'' → ¬ (c = '\\' ∧ d = mysql) →
    read (c :: cs) = (read cs).map (Prod.map (c :: ·) id)

namespace ReadsBy

variable {d : Dialect} {read : List Char → Option (List Char × List Char)}

/-- What is written for a character is read as this character. -/
theorem quoteChar (h : d.ReadsBy read) (c : Char) (rest : List Char) :
    read (d.quoteChar c ++ rest) = (read rest).map (Prod.map (c :: ·) id) := by
  rw [Dialect.quoteChar]
  split
  · next hquote =>
    subst hquote
    exact h.doubled rest
  · next hquote =>
    split
    · next hescape =>
      obtain ⟨rfl, hd⟩ := hescape
      exact h.escaped '\\' rest hd (.inr rfl)
    · next hescape => exact h.plain c rest hquote hescape

/-- A quoted value is read back, up to its closing quote. -/
theorem flatMap (h : d.ReadsBy read) (value : List Char) {rest : List Char}
    (hrest : rest.head? ≠ some '\'') :
    read (value.flatMap d.quoteChar ++ '\'' :: rest) = some (value, rest) := by
  induction value with
  | nil => exact h.closing rest hrest
  | cons c value ih =>
      rw [List.flatMap_cons, List.append_assoc, h.quoteChar, ih]
      rfl

end ReadsBy

/-- Reads a string literal from the character after its opening quote on. The results are its value
and the text after its closing quote. -/
def readLiteral (d : Dialect) : List Char → Option (List Char × List Char)
  | [] => none
  | '\'' :: '\'' :: cs => (readLiteral d cs).map (Prod.map ('\'' :: ·) id)
  | '\'' :: cs => some ([], cs)
  | '\\' :: c :: cs =>
      if d = mysql then (readLiteral d cs).map (Prod.map (c :: ·) id)
      else (readLiteral d (c :: cs)).map (Prod.map ('\\' :: ·) id)
  | c :: cs => (readLiteral d cs).map (Prod.map (c :: ·) id)

/-- Another character of the value leaves the text after the literal as it is. -/
theorem exists_of_map_eq_some {found : Option (List Char × List Char)} {c : Char}
    {value rest : List Char} (h : found.map (Prod.map (c :: ·) id) = some (value, rest)) :
    ∃ tail, found = some (tail, rest) := by
  obtain ⟨⟨tail, after⟩, hfound, heq⟩ := Option.map_eq_some_iff.mp h
  cases heq
  exact ⟨tail, hfound⟩

theorem length_lt_of_readLiteral {d : Dialect} {cs value rest : List Char}
    (h : d.readLiteral cs = some (value, rest)) : rest.length < cs.length := by
  fun_induction readLiteral d cs generalizing value with
  | case1 => cases h
  | case2 cs ih =>
      obtain ⟨tail, htail⟩ := exists_of_map_eq_some h
      have := ih htail
      simp only [List.length_cons] at this ⊢
      omega
  | case3 cs =>
      cases h
      exact Nat.lt_succ_self _
  | case4 c cs _ ih =>
      obtain ⟨tail, htail⟩ := exists_of_map_eq_some h
      have := ih htail
      simp only [List.length_cons] at this ⊢
      omega
  | case5 c cs _ ih =>
      obtain ⟨tail, htail⟩ := exists_of_map_eq_some h
      have := ih htail
      simp only [List.length_cons] at this ⊢
      omega
  | case6 c cs _ _ _ ih =>
      obtain ⟨tail, htail⟩ := exists_of_map_eq_some h
      have := ih htail
      simp only [List.length_cons] at this ⊢
      omega

/-- The literals in a text and the text without them, or `none` if it ends inside a literal. -/
def scan (d : Dialect) : List Char → Option (List String × List Char)
  | [] => some ([], [])
  | c :: cs =>
      if c = '\'' then
        match h : d.readLiteral cs with
        | none => none
        | some (value, rest) =>
            have : rest.length < cs.length := length_lt_of_readLiteral h
            (scan d rest).map (Prod.map (String.ofList value :: ·) id)
      else (scan d cs).map (Prod.map id (c :: ·))
termination_by cs => cs.length

theorem readLiteral_cons {d : Dialect} {c : Char} (hquote : c ≠ '\'')
    (hescape : ¬ (c = '\\' ∧ d = mysql)) (cs : List Char) :
    d.readLiteral (c :: cs) = (d.readLiteral cs).map (Prod.map (c :: ·) id) := by
  by_cases hbackslash : c = '\\'
  · subst hbackslash
    have hd : d ≠ mysql := fun h => hescape ⟨rfl, h⟩
    cases cs with
    | nil => rfl
    | cons e cs => rw [readLiteral, if_neg hd]
  · rw [readLiteral.eq_5]
    · exact fun _ heq _ => hquote heq
    · exact hquote
    · exact fun _ _ heq _ => hbackslash heq

theorem readsBy_readLiteral (d : Dialect) : d.ReadsBy d.readLiteral where
  doubled _ := rfl
  closing cs hcs := by
    apply readLiteral.eq_3
    rintro tail rfl
    exact hcs rfl
  escaped c cs hd _ := by rw [readLiteral.eq_4, if_pos hd]
  plain c cs hquote hescape := readLiteral_cons hquote hescape cs

/-- A quoted value is read back, up to its closing quote. -/
theorem readLiteral_flatMap (d : Dialect) (value : List Char) {rest : List Char}
    (hrest : rest.head? ≠ some '\'') :
    d.readLiteral (value.flatMap d.quoteChar ++ '\'' :: rest) = some (value, rest) :=
  (readsBy_readLiteral d).flatMap value hrest

theorem toList_quote (d : Dialect) (value : String) :
    (d.quote value).toList = '\'' :: (value.toList.flatMap d.quoteChar ++ ['\'']) := by
  simp [quote]

/-- Takes a text apart into the value of the string literal that it begins with and what comes after
this literal, where `read` reads what follows the opening quote. -/
def splitLiteral? (read : List Char → Option (List Char × List Char)) (text : String) :
    Option (String × String) :=
  match text.toList with
  | '\'' :: cs => (read cs).map (Prod.map String.ofList String.ofList)
  | _ => none

theorem ReadsBy.splitLiteral?_quote {d : Dialect}
    {read : List Char → Option (List Char × List Char)} (h : d.ReadsBy read)
    (value rest : String) (hrest : rest.toList.head? ≠ some '\'') :
    splitLiteral? read (d.quote value ++ rest) = some (value, rest) := by
  have htext : (d.quote value ++ rest).toList =
      '\'' :: (value.toList.flatMap d.quoteChar ++ '\'' :: rest.toList) := by
    simp [toList_quote]
  simp only [splitLiteral?, htext, h.flatMap value.toList hrest, Option.map_some, Prod.map_apply,
    String.ofList_toList]

/-- Every value is read back from the literal that it was quoted to. Whichever reader the dialect
has and whatever comes after the literal, as long as it does not begin with a quote, reading takes
all of the literal, takes nothing else, and yields the value. So no two values are quoted to the
same literal. -/
theorem quoted_values_are_read_back (d : Dialect) :
    (∀ read, d.ReadsBy read → ∀ value rest : String, rest.toList.head? ≠ some '\'' →
        splitLiteral? read (d.quote value ++ rest) = some (value, rest)) ∧
      ∀ value other : String, value ≠ other → d.quote value ≠ d.quote other := by
  constructor
  · intro read h value rest hrest
    exact h.splitLiteral?_quote value rest hrest
  · intro value other hne hquote
    have hvalue := (readsBy_readLiteral d).splitLiteral?_quote value "" nofun
    have hother := (readsBy_readLiteral d).splitLiteral?_quote other "" nofun
    rw [hquote, hother] at hvalue
    exact hne (congrArg Prod.fst (Option.some.inj hvalue)).symm

/-- Quotes and backslashes at both ends of a value, with another literal after it. -/
theorem quoted_values_are_read_back_escaped :
    mysql.ReadsBy mysql.readLiteral ∧ " || 'x'".toList.head? ≠ some '\'' ∧
      mysql.quote "'\\'a\\" = "'''\\\\''a\\\\'" ∧
      splitLiteral? mysql.readLiteral (mysql.quote "'\\'a\\" ++ " || 'x'") =
        some ("'\\'a\\", " || 'x'") ∧
      mysql.quote "\\" ≠ mysql.quote "\\\\" := by
  have hfollows : " || 'x'".toList.head? ≠ some '\'' := by decide
  obtain ⟨hread, hdistinct⟩ := quoted_values_are_read_back mysql
  exact ⟨readsBy_readLiteral mysql, hfollows, by decide +kernel,
    hread _ (readsBy_readLiteral mysql) _ _ hfollows, hdistinct _ _ (by decide)⟩

-- Two literals with nothing between them are one literal to a reader.
example : splitLiteral? postgres.readLiteral (postgres.quote "a" ++ postgres.quote "b") =
    some ("a'b", "") := by
  decide +kernel

/-- Text without a quote is outside of literals. -/
theorem scan_append (d : Dialect) {cs : List Char} (h : '\'' ∉ cs) (rest : List Char) :
    d.scan (cs ++ rest) = (d.scan rest).map (Prod.map id (cs ++ ·)) := by
  induction cs with
  | nil =>
      have hid : Prod.map (id : List String → List String) (([] : List Char) ++ ·) = id := rfl
      rw [List.nil_append, hid, Option.map_id, id]
  | cons c cs ih =>
      have hc : c ≠ '\'' := fun heq => h (by simp [heq])
      have hcs : '\'' ∉ cs := fun hmem => h (by simp [hmem])
      rw [List.cons_append, scan, if_neg hc, ih hcs, Option.map_map]
      rfl

/-- A quoted value is one literal. -/
theorem scan_quote (d : Dialect) (value : String) {rest : List Char}
    (hrest : rest.head? ≠ some '\'') :
    d.scan ((d.quote value).toList ++ rest) =
      (d.scan rest).map (Prod.map (value :: ·) id) := by
  have hread := d.readLiteral_flatMap value.toList hrest
  rw [toList_quote, List.cons_append, List.append_assoc, List.singleton_append, scan, if_pos rfl]
  split
  · next heq =>
    rw [hread] at heq
    cases heq
  · next v after heq =>
    rw [hread] at heq
    cases heq
    rw [String.ofList_toList]

end Dialect

namespace Sql

/-- The value of a part that is a string literal. -/
def Part.literal? : Part → Option String
  | operand (.literal value) => some value
  | _ => none

/-- The text of a part that is no string literal. -/
def Part.outside (d : Dialect) : Part → List Char
  | operand (.literal _) => []
  | p => p.text d

/-- The values of the string literals among the parts. -/
def literals (parts : List Part) : List String := parts.filterMap Part.literal?

/-- The text of the parts without their string literals. -/
def outside (d : Dialect) (parts : List Part) : List Char := parts.flatMap (Part.outside d)

theorem literals_append (parts more : List Part) :
    literals (parts ++ more) = literals parts ++ literals more := List.filterMap_append

theorem outside_append (d : Dialect) (parts more : List Part) :
    outside d (parts ++ more) = outside d parts ++ outside d more := List.flatMap_append

theorem quote_not_mem_symbol (c : Connective) : '\'' ∉ c.symbol := by
  cases c with
  | operator op => cases op <;> decide
  | concat => decide

theorem quote_not_mem_text (d : Dialect) {p : Part} (hliteral : p.literal? = none)
    (hword : ∀ text, p = .operand (.word text) → '\'' ∉ text) : '\'' ∉ p.text d := by
  cases p with
  | opening | closing => simp [Part.text]
  | connective c => simpa [Part.text] using quote_not_mem_symbol c
  | operand o =>
      cases o with
      | literal value => cases hliteral
      | word text => exact hword text rfl

theorem eq_of_literal?_eq_some {p : Part} {value : String} (h : p.literal? = some value) :
    p = .operand (.literal value) := by
  cases p with
  | operand o =>
      cases o with
      | literal v =>
          cases h
          rfl
      | word text => cases h
  | _ => cases h

theorem outside_eq_text (d : Dialect) {p : Part} (h : p.literal? = none) :
    p.outside d = p.text d := by
  cases p with
  | operand o =>
      cases o with
      | literal value => cases h
      | word text => rfl
  | _ => rfl

/-- Scanning the spelling of parts finds exactly the literals among them. -/
theorem scan_spell (d : Dialect) {parts : List Part} (hseparated : Separated parts)
    (hwords : ∀ text, .operand (.word text) ∈ parts → '\'' ∉ text) :
    d.scan (spell d parts) = some (literals parts, outside d parts) := by
  induction parts with
  | nil =>
      rw [spell_nil, Dialect.scan]
      rfl
  | cons p parts ih =>
      have htail := ih hseparated.tail fun text htext => hwords text (by simp [htext])
      rw [spell_cons, literals, outside, List.flatMap_cons]
      cases hliteral : p.literal? with
      | none =>
          have htext : '\'' ∉ p.text d := by
            refine quote_not_mem_text d hliteral fun text heq => hwords text ?_
            simp [heq]
          rw [d.scan_append htext, htail, outside_eq_text d hliteral,
            List.filterMap_cons_none hliteral]
          rfl
      | some value =>
          obtain rfl := eq_of_literal?_eq_some hliteral
          have hhead : (spell d parts).head? ≠ some '\'' := by
            intro hquote
            have hcases := hseparated.head_eq trivial d hquote
            revert hcases
            decide
          rw [Part.text, Operand.text, d.scan_quote value hhead, htail,
            List.filterMap_cons_some hliteral]
          rfl

end Sql

end QueryExpr
