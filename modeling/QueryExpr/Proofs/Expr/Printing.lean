import Mathlib.Data.List.Forall2
import QueryExpr.Expr.Printer
import QueryExpr.Proofs.Expr.Spelling
import QueryExpr.Proofs.Token.Writing

/-!
# Printing and parsing

The plain text of a tree splits into tokens that are the yield of the tree, as long as the leaves
are spelled as an expression would spell them and no name is taken for a keyword. If the tree is
canonical as well, the text parses to the tree again. All of this holds of the tree of any text, so
its plain text can be used in place of the text that it was parsed from.
-/

namespace QueryExpr.Expr

/-- No attribute, function or relationship is called null, and no column is called count, in
whatever case. -/
inductive AvoidsKeywords : Expr → Prop where
  | paren {inner : Expr} (hinner : AvoidsKeywords inner) : AvoidsKeywords (.paren inner)
  | binary {op : Operator} {left right : Expr} (hleft : AvoidsKeywords left)
      (hright : AvoidsKeywords right) : AvoidsKeywords (.binary op left right)
  | null : AvoidsKeywords .null
  | call {name : String} {arguments : List Expr}
      (hname : Text.sameIgnoringCase name "null" = false)
      (harguments : ∀ e ∈ arguments, AvoidsKeywords e) : AvoidsKeywords (.call name arguments)
  | attr {name : String} (hname : Text.sameIgnoringCase name "null" = false) :
      AvoidsKeywords (.attr name)
  | related {relationship column : String}
      (hname : Text.sameIgnoringCase relationship "null" = false)
      (hcolumn : Text.sameIgnoringCase column "count" = false) :
      AvoidsKeywords (.related relationship column)
  | count {relationship : String} (hname : Text.sameIgnoringCase relationship "null" = false) :
      AvoidsKeywords (.count relationship)
  | string {raw : String} : AvoidsKeywords (.string raw)
  | number {text : String} : AvoidsKeywords (.number text)

/-- A keyword among the tokens of a tree is a leaf of its own. -/
theorem Yields.avoidsKeywords {e : Expr} {ts : List Token} (h : Yields e ts) :
    e.AvoidsKeywords := by
  induction e using Expr.induction generalizing ts with
  | paren inner ih =>
      cases h with
      | paren i j hinner => exact .paren (ih hinner)
  | binary op left right ihleft ihright =>
      cases h with
      | binary i hleft hright => exact .binary (ihleft hleft) (ihright hright)
  | null => exact .null
  | call name arguments ih =>
      cases h with
      | call i j k hname hargs =>
          apply AvoidsKeywords.call hname
          intro e he
          obtain ⟨us, hus, _⟩ := hargs.exists_yields he
          exact ih e he hus
  | attr name =>
      cases h with
      | attr i hname => exact .attr hname
  | related relationship column =>
      cases h with
      | related i j k hname hcolumn => exact .related hname hcolumn
  | count relationship =>
      cases h with
      | count i j k hname => exact .count hname
  | string raw => exact .string
  | number text => exact .number

/-- Whether the character could continue the last token of an expression that it comes after. -/
def continuesWord (c : Char) : Bool := Lexeme.isNameChar c || Lexeme.continuesNumber c

open Lexeme (Stops stops_cons)

/-- Whatever comes after the characters without continuing their last token, they are read as a
yield of the tree. -/
def ReadsFrom (e : Expr) (cs : List Char) : Prop :=
  ∀ ⦃rest : List Char⦄, Stops continuesWord rest → Lexed.Spells e.Yields cs rest

/-- Whatever comes after the plain text of the tree without continuing its last token, the text is
read as a yield of the tree. -/
def ReadsBack (e : Expr) : Prop :=
  ∀ ⦃rest : List Char⦄, Stops continuesWord rest → Lexed.Spells e.Yields e.toText.toList rest

/-- Inside parentheses, only what can come before the closing one matters. -/
theorem readsFrom_paren {inner : Expr} {cs : List Char}
    (h : ∀ rest, Lexed.Spells inner.Yields cs (')' :: rest)) :
    (paren inner).ReadsFrom ("(".toList ++ (cs ++ ")".toList)) := by
  intro rest hrest
  have hclosed := (h rest).append (.text .parenRight trivial fun _ _ => rfl)
  have hparen := Lexed.Spells.append (.text .parenLeft trivial fun _ _ => rfl) hclosed
  apply hparen.mono
  rintro _ ⟨_, _, rfl, ⟨i, rfl⟩, ts, _, rfl, hyields, j, rfl⟩
  exact .paren i j hyields

theorem readsBack_paren {inner : Expr} (h : inner.ReadsBack) : (paren inner).ReadsBack := by
  have htext : (paren inner).toText.toList =
      "(".toList ++ (inner.toText.toList ++ ")".toList) := by simp [toText]
  have hparen := readsFrom_paren fun rest => h (stops_cons rfl rest)
  rwa [← htext] at hparen

/-- Operands with an operator between them, and a blank on each side of it. -/
theorem readsFrom_binary {op : Operator} {left right : Expr} {ls rs : List Char}
    (hleft : left.ReadsFrom ls) (hright : right.ReadsFrom rs) :
    (binary op left right).ReadsFrom (ls ++ ' ' :: (op.symbol.toList ++ ' ' :: rs)) := by
  intro rest hrest
  -- Without the blank after it, a comparison could run into an equals sign.
  have hstops : Stops (Lexeme.continues (.operator op)) (' ' :: rs ++ rest) := by
    apply stops_cons
    cases op <;> rfl
  have hafter := Lexed.Spells.append (.text (.operator op) trivial hstops) (hright hrest).space
  have hbinary := (hleft (stops_cons rfl _)).append hafter.space
  apply hbinary.mono
  rintro _ ⟨ls, _, rfl, hls, _, rs, rfl, ⟨i, rfl⟩, hrs⟩
  exact .binary i hls hrs

theorem readsBack_binary {op : Operator} {left right : Expr} (hleft : left.ReadsBack)
    (hright : right.ReadsBack) : (binary op left right).ReadsBack := by
  have htext : (binary op left right).toText.toList =
      left.toText.toList ++ ' ' :: (op.symbol.toList ++ ' ' :: right.toText.toList) := by
    simp [toText]
  have hbinary : (binary op left right).ReadsFrom _ := readsFrom_binary hleft hright
  rwa [← htext] at hbinary

/-- The texts of arguments, with a comma and a blank between each two. -/
theorem spells_yieldsAll {es : List Expr} {texts : List (List Char)}
    (each : List.Forall₂ ReadsFrom es texts) {rest : List Char} (hrest : Stops continuesWord rest) :
    Lexed.Spells (YieldsAll es) (", ".toList.intercalate texts) rest := by
  induction each with
  | nil =>
      intro position
      exact ⟨[], .nil, rfl⟩
  | @cons e cs es texts he htail ih =>
      cases htail with
      | nil =>
          rw [List.intercalate_singleton]
          exact (he hrest).mono fun _ => .single
      | cons hf hfs =>
          have hcomma := Lexed.Spells.append (.text .comma trivial fun _ _ => rfl) ih.space
          have hall := (he (stops_cons rfl _)).append hcomma
          rw [List.intercalate_cons_cons, List.append_assoc]
          apply hall.mono
          rintro _ ⟨ts, _, rfl, hts, _, us, rfl, ⟨i, rfl⟩, hus⟩
          exact .cons i hts hus

theorem stops_isNameChar {rest : List Char} (h : Stops continuesWord rest) :
    Stops Lexeme.isNameChar rest :=
  h.mono (by simp +contextual [continuesWord])

theorem stops_continuesNumber {rest : List Char} (h : Stops continuesWord rest) :
    Stops Lexeme.continuesNumber rest :=
  h.mono (by simp +contextual [continuesWord])

theorem readsFrom_call {name : String} {arguments : List Expr} {texts : List (List Char)}
    (h : Lexeme.IsName name.toList) (hname : Text.sameIgnoringCase name "null" = false)
    (each : List.Forall₂ ReadsFrom arguments texts) :
    (call name arguments).ReadsFrom
      (name.toList ++ ("(".toList ++ (", ".toList.intercalate texts ++ ")".toList))) := by
  intro rest hrest
  have harguments := spells_yieldsAll each (stops_cons (c := ')') rfl rest)
  have hclosed := harguments.append (.text .parenRight trivial fun _ _ => rfl)
  have hopened := Lexed.Spells.append (.text .parenLeft trivial fun _ _ => rfl) hclosed
  have hcall := Lexed.Spells.append (.text (.name name) h (stops_cons rfl _)) hopened
  apply hcall.mono
  rintro _ ⟨_, _, rfl, ⟨i, rfl⟩, _, _, rfl, ⟨j, rfl⟩, ts, _, rfl, hts, k, rfl⟩
  exact .call i j k hname hts

theorem readsBack_call {name : String} {arguments : List Expr}
    (h : Lexeme.IsName name.toList) (hname : Text.sameIgnoringCase name "null" = false)
    (each : ∀ e ∈ arguments, e.ReadsBack) : (call name arguments).ReadsBack := by
  have htext : (call name arguments).toText.toList = name.toList ++ ("(".toList ++
      (", ".toList.intercalate (arguments.map fun e => e.toText.toList) ++ ")".toList)) := by
    simp [toText, toTexts_eq_map, String.toList_intercalate, Function.comp_def]
  have htexts : List.Forall₂ ReadsFrom arguments (arguments.map fun e => e.toText.toList) :=
    List.forall₂_map_right_iff.mpr (List.forall₂_same.mpr each)
  have hcall := readsFrom_call h hname htexts
  rwa [← htext] at hcall

/-- A relationship, a point and a word. -/
theorem spells_qualified {relationship word : String} (h : Lexeme.IsName relationship.toList)
    (hword : Lexeme.IsName word.toList) {rest : List Char} (hrest : Stops continuesWord rest) :
    Lexed.Spells (fun ts => ∃ i j k, ts = [⟨.name relationship, i⟩, ⟨.dot, j⟩, ⟨.name word, k⟩])
      (relationship ++ "." ++ word).toList rest := by
  have htext : (relationship ++ "." ++ word).toList =
      relationship.toList ++ (".".toList ++ word.toList) := by simp
  have hafter := Lexed.Spells.append (.text .dot trivial fun _ _ => rfl)
    (.text (.name word) hword (stops_isNameChar hrest))
  have hwhole := Lexed.Spells.append (.text (.name relationship) h (stops_cons rfl _)) hafter
  rw [htext]
  apply hwhole.mono
  rintro _ ⟨_, _, rfl, ⟨i, rfl⟩, _, _, rfl, ⟨j, rfl⟩, k, rfl⟩
  exact ⟨i, j, k, rfl⟩

theorem readsBack_unsigned {digits : List Char} (h : Lexeme.IsNumber digits) :
    (number (String.ofList digits)).ReadsBack := by
  intro rest hrest
  have hspelled : (Lexeme.number (String.ofList digits)).Spelled := by
    rwa [Lexeme.Spelled, String.toList_ofList]
  have hnumber := Lexed.Spells.text _ hspelled (stops_continuesNumber hrest)
  apply hnumber.mono
  rintro _ ⟨i, rfl⟩
  exact .number i

/-- The sign of a negative number is a token of its own, and the digits touch it. -/
theorem readsBack_negative {digits : List Char} (h : Lexeme.IsNumber digits) :
    (number (String.ofList ('-' :: digits))).ReadsBack := by
  intro rest hrest position
  have hspelled : (Lexeme.number (String.ofList digits)).Spelled := by
    rwa [Lexeme.Spelled, String.toList_ofList]
  have hminus : Lexed.ReadsAs position ['-'] (digits ++ rest) [⟨.operator .sub, position⟩] :=
    .text (.operator .sub) trivial (fun _ _ => rfl) position
  have hdigits := Lexed.ReadsAs.text _ hspelled (stops_continuesNumber hrest) (position + 1)
  rw [Lexeme.text, String.toList_ofList] at hdigits
  have hsigned : Yields (.number ("-" ++ String.ofList digits)) _ :=
    .signed ⟨.operator .sub, position⟩ ⟨.number (String.ofList digits), position + 1⟩ rfl rfl rfl
  have htext : (number (String.ofList ('-' :: digits))).toText.toList = ['-'] ++ digits := by
    simp [toText]
  rw [htext, String.ofList_cons]
  exact ⟨_, hsigned, hminus.append hdigits⟩

theorem readsBack_number {text : String} (h : IsNumeral text.toList) :
    (number text).ReadsBack := by
  have htext : text = String.ofList text.toList := String.ofList_toList.symm
  rw [htext]
  generalize text.toList = cs at h
  cases h with
  | plain h => exact readsBack_unsigned h
  | negative h => exact readsBack_negative h

/-- The plain text of a tree is read as a yield of the tree. -/
theorem readsBack {e : Expr} (h : e.Spelled) (hkeywords : e.AvoidsKeywords) : e.ReadsBack := by
  induction e using Expr.induction with
  | paren inner ih =>
      cases h with
      | paren h =>
          cases hkeywords with
          | paren hkeywords => exact readsBack_paren (ih h hkeywords)
  | binary op left right ihleft ihright =>
      cases h with
      | binary hleft hright =>
          cases hkeywords with
          | binary hkleft hkright =>
              exact readsBack_binary (ihleft hleft hkleft) (ihright hright hkright)
  | null =>
      intro rest hrest
      have hnull : Lexeme.IsName "null".toList := Lexeme.isName_of_all (by decide) rfl
      apply (Lexed.Spells.text (.name "null") hnull (stops_isNameChar hrest)).mono
      rintro _ ⟨i, rfl⟩
      exact .null i rfl
  | call name arguments ih =>
      cases h with
      | call h harguments =>
          cases hkeywords with
          | call hname hkarguments =>
              exact readsBack_call h hname fun e he => ih e he (harguments e he) (hkarguments e he)
  | attr name =>
      cases h with
      | attr h =>
          cases hkeywords with
          | attr hname =>
              intro rest hrest
              apply (Lexed.Spells.text (.name name) h (stops_isNameChar hrest)).mono
              rintro _ ⟨i, rfl⟩
              exact .attr i hname
  | related relationship column =>
      cases h with
      | related h hcolumn =>
          cases hkeywords with
          | related hname hkcolumn =>
              intro rest hrest
              apply (spells_qualified h hcolumn hrest).mono
              rintro _ ⟨i, j, k, rfl⟩
              exact .related i j k hname hkcolumn
  | count relationship =>
      cases h with
      | count h =>
          cases hkeywords with
          | count hname =>
              intro rest hrest
              have hcount : Lexeme.IsName "count".toList := Lexeme.isName_of_all (by decide) rfl
              have htext : (count relationship).toText = relationship ++ "." ++ "count" := by
                rw [toText, String.append_assoc]
                rfl
              rw [htext]
              apply (spells_qualified h hcount hrest).mono
              rintro _ ⟨i, j, k, rfl⟩
              exact .count i j k hname rfl
  | string raw =>
      cases h with
      | string h =>
          intro rest hrest
          apply (Lexed.Spells.text (.string raw) h fun _ _ => rfl).mono
          rintro _ ⟨i, rfl⟩
          exact .string i
  | number text =>
      cases h with
      | number h => exact readsBack_number h

/-- A whole text that reads as a tree splits into tokens that are a yield of the tree. -/
theorem ReadsFrom.yields {e : Expr} {text : String} (h : e.ReadsFrom text.toList) :
    (Lexed.ofText text).error = none ∧ e.Yields (Lexed.ofText text).tokens := by
  have hend : Stops continuesWord [] := nofun
  obtain ⟨ts, hyields, hreads⟩ := h hend 0
  obtain ⟨hlexed, rfl⟩ := hreads.ofText
  exact ⟨hlexed, hyields⟩

/-- The plain text of a tree has no lexical error, and its tokens are a yield of the tree. -/
theorem yields_toText {e : Expr} (h : e.Spelled) (hkeywords : e.AvoidsKeywords) :
    (Lexed.ofText e.toText).error = none ∧ e.Yields (Lexed.ofText e.toText).tokens :=
  ReadsFrom.yields (readsBack h hkeywords)

/-- The plain text of a canonical tree parses to the tree, unless too many levels are open at
once. -/
theorem parseWithin_toText_of_canonical {e : Expr} (h : e.Spelled) (hkeywords : e.AvoidsKeywords)
    (hcanonical : e.Canonical) (limit : Nat) :
    parseWithin limit e.toText =
      if e.levels ≤ limit then .ok e else .error (.nestingTooDeep limit) := by
  obtain ⟨hlexed, hyields⟩ := yields_toText h hkeywords
  exact parseWithin_of_yields hlexed hyields hcanonical limit

/-- A text that is printed is longer than the tree has levels. -/
theorem levels_lt_utf8ByteSize_toText {e : Expr} (h : e.Spelled) (hkeywords : e.AvoidsKeywords) :
    e.levels < e.toText.utf8ByteSize :=
  Nat.lt_of_lt_of_le (yields_toText h hkeywords).2.levels_lt_length
    (Lexed.length_tokens_le_utf8ByteSize e.toText)

/-- A limit that the length of the text does not exceed lets every canonical tree be read back. -/
theorem parseWithin_toText_of_utf8ByteSize_le {e : Expr} (h : e.Spelled)
    (hkeywords : e.AvoidsKeywords) (hcanonical : e.Canonical) {limit : Nat}
    (hlimit : e.toText.utf8ByteSize ≤ limit) : parseWithin limit e.toText = .ok e := by
  have hlevels := levels_lt_utf8ByteSize_toText h hkeywords
  rw [parseWithin_toText_of_canonical h hkeywords hcanonical, if_pos (by omega)]

/-- Canonical trees that differ have plain texts that differ. -/
theorem eq_of_toText_eq {d e : Expr} (hd : d.Spelled) (hkd : d.AvoidsKeywords)
    (hcd : d.Canonical) (he : e.Spelled) (hke : e.AvoidsKeywords) (hce : e.Canonical)
    (h : d.toText = e.toText) : d = e := by
  have hparse := parseWithin_toText_of_utf8ByteSize_le hd hkd hcd (Nat.le_refl _)
  rw [h, parseWithin_toText_of_utf8ByteSize_le he hke hce (Nat.le_refl _)] at hparse
  exact (Except.ok.inj hparse).symm

variable {limit : Nat} {text : String} {t : Expr}

/-- The plain text of the tree of a text means what the text means, under every limit. -/
theorem parseWithin_toText_eq (h : parseWithin limit text = .ok t) (n : Nat) :
    parseWithin n t.toText = parseWithin n text := by
  obtain ⟨_, hyields, hcanonical⟩ := yields_of_parseWithin h
  rw [parseWithin_of_parseWithin h, parseWithin_toText_of_canonical (spelled_of_parseWithin h)
    hyields.avoidsKeywords hcanonical]

/-- Printing the tree of a text and parsing it again under the same limit gives the same tree. -/
theorem parseWithin_toText (h : parseWithin limit text = .ok t) :
    parseWithin limit t.toText = .ok t :=
  (parseWithin_toText_eq h limit).trans h

theorem parseWithin_toText_signs :
    parseWithin 3 "(a)--0.50e2==f(\"\\\"\", N.COUNT)" =
        .ok (.binary .eq (.binary .sub (.paren (.attr "a")) (.number "-0.50e2"))
          (.call "f" [.string "\\\"", .count "N"])) ∧
      parseWithin 3 (toText (.binary .eq
          (.binary .sub (.paren (.attr "a")) (.number "-0.50e2"))
          (.call "f" [.string "\\\"", .count "N"]))) =
        .ok (.binary .eq (.binary .sub (.paren (.attr "a")) (.number "-0.50e2"))
          (.call "f" [.string "\\\"", .count "N"])) := by
  have hparse : parseWithin 3 "(a)--0.50e2==f(\"\\\"\", N.COUNT)" =
      .ok (.binary .eq (.binary .sub (.paren (.attr "a")) (.number "-0.50e2"))
        (.call "f" [.string "\\\"", .count "N"])) := by
    decide +kernel
  exact ⟨hparse, parseWithin_toText hparse⟩

/-- Plain printing is faithful to exactly the trees that parsing can yield. Under a limit that the
length of the text does not exceed, the plain text of a tree parses to this tree if and only if its
names, numbers and string literals are spelled as an expression would spell them, none of its names
is taken for a keyword, and its operators group as their precedence asks. -/
theorem parseWithin_toText_eq_ok_iff {e : Expr} (hlimit : e.toText.utf8ByteSize ≤ limit) :
    parseWithin limit e.toText = .ok e ↔ e.Spelled ∧ e.AvoidsKeywords ∧ e.Canonical := by
  constructor
  · intro h
    obtain ⟨_, hyields, hcanonical⟩ := yields_of_parseWithin h
    exact ⟨spelled_of_parseWithin h, hyields.avoidsKeywords, hcanonical⟩
  · rintro ⟨hspelled, hkeywords, hcanonical⟩
    exact parseWithin_toText_of_utf8ByteSize_le hspelled hkeywords hcanonical hlimit

theorem parseWithin_toText_eq_ok_iff_nested :
    (toText
        (.binary .sub (.related "o" "null") (.call "f" [.paren (.number "-1")]))).utf8ByteSize ≤
        16 ∧
      parseWithin 16
          (toText (.binary .sub (.related "o" "null") (.call "f" [.paren (.number "-1")]))) =
        .ok (.binary .sub (.related "o" "null") (.call "f" [.paren (.number "-1")])) ∧
      Spelled (.binary .sub (.related "o" "null") (.call "f" [.paren (.number "-1")])) ∧
      AvoidsKeywords (.binary .sub (.related "o" "null") (.call "f" [.paren (.number "-1")])) ∧
      Canonical (.binary .sub (.related "o" "null") (.call "f" [.paren (.number "-1")])) := by
  have hlimit : (toText
      (.binary .sub (.related "o" "null") (.call "f" [.paren (.number "-1")]))).utf8ByteSize ≤
        16 := by
    decide +kernel
  have hparse : parseWithin 16
      (toText (.binary .sub (.related "o" "null") (.call "f" [.paren (.number "-1")]))) =
        .ok (.binary .sub (.related "o" "null") (.call "f" [.paren (.number "-1")])) := by
    decide +kernel
  exact ⟨hlimit, hparse, (parseWithin_toText_eq_ok_iff hlimit).mp hparse⟩

-- A sum as a factor needs parentheses in the tree; without them its text regroups.
example :
    parseWithin 9 (toText (.binary .mul (.binary .add (.attr "a") (.attr "b")) (.attr "c"))) =
      .ok (.binary .add (.attr "a") (.binary .mul (.attr "b") (.attr "c"))) := by
  decide +kernel

end QueryExpr.Expr
