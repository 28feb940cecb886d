import QueryExpr.Proofs.Token.Sequence

/-!
# How tokens are spelled

A name is a word of letters and underscores. A number is an integer without needless zeros, then a
fraction and an exponent, each of which may be missing. Inside a string literal, quotes and
backslashes come only in escapes. These shapes say what the text of a token can be, without the
reader that splits texts; every token that is read has the right one.

A number is also read back whole, from any place in a text where nothing that could continue it
comes after it.
-/

namespace QueryExpr

namespace Lexeme

/-- A word that an expression can use as a name. -/
def IsName (cs : List Char) : Prop := cs ≠ [] ∧ ∀ c ∈ cs, isNameChar c = true

/-- The inside of a string literal: a quote or a backslash stands only after a backslash. -/
inductive IsContents : List Char → Prop where
  | nil : IsContents []
  | plain {c : Char} {cs : List Char} (hc : ¬ (c = '"' ∨ c = '\\')) (hcs : IsContents cs) :
      IsContents (c :: cs)
  | escape {c : Char} {cs : List Char} (hc : c = '"' ∨ c = '\\') (hcs : IsContents cs) :
      IsContents ('\\' :: c :: cs)

theorem isName_of_all {cs : List Char} (hne : cs ≠ []) (h : cs.all isNameChar = true) :
    IsName cs :=
  ⟨hne, List.all_eq_true.mp h⟩

theorem le_toNat_of_isAlpha {c : Char} (h : c.isAlpha = true) : 65 ≤ c.toNat := by
  rcases Bool.or_eq_true_iff.mp h with hupper | hlower
  · have hle : 'A'.val ≤ c.val := (of_decide_eq_true hupper).1
    exact UInt32.le_iff_toNat_le.mp hle
  · have hle : 'a'.val ≤ c.val := of_decide_eq_true (Bool.and_eq_true_iff.mp hlower).1
    have hnat : 97 ≤ c.toNat := UInt32.le_iff_toNat_le.mp hle
    omega

/-- One digit or more. -/
def IsDigits (cs : List Char) : Prop := cs ≠ [] ∧ ∀ c ∈ cs, c.isDigit = true

/-- A zero, or digits that do not begin with a zero. -/
inductive IsInteger : List Char → Prop where
  | zero : IsInteger ['0']
  | digits {c : Char} {cs : List Char} (nonzero : c ≠ '0') (hdigits : IsDigits (c :: cs)) :
      IsInteger (c :: cs)

/-- Nothing, or a point and digits. -/
inductive IsFraction : List Char → Prop where
  | nil : IsFraction []
  | digits {ds : List Char} (hdigits : IsDigits ds) : IsFraction ('.' :: ds)

/-- Nothing, or the exponent mark, a sign if there is one, and digits. -/
inductive IsExponent : List Char → Prop where
  | nil : IsExponent []
  | digits {mark : Char} {sign ds : List Char} (hmark : mark = 'e' ∨ mark = 'E')
      (hsign : sign = [] ∨ sign = ['+'] ∨ sign = ['-']) (hdigits : IsDigits ds) :
      IsExponent (mark :: (sign ++ ds))

/-- A number without a sign. -/
inductive IsNumber : List Char → Prop where
  | parts {integer fraction exponent : List Char} (hinteger : IsInteger integer)
      (hfraction : IsFraction fraction) (hexponent : IsExponent exponent) :
      IsNumber (integer ++ (fraction ++ exponent))

/-- Whether the character could continue a number that it comes after. -/
def continuesNumber (c : Char) : Bool := c.isDigit || c == '.' || c == 'e' || c == 'E'

/-- The text of the lexeme has the shape that its kind asks for. -/
def Spelled : Lexeme → Prop
  | number text => IsNumber text.toList
  | string raw => IsContents raw.toList
  | name text => IsName text.toList
  | _ => True

theorem IsInteger.isDigits {cs : List Char} (h : IsInteger cs) : IsDigits cs := by
  cases h with
  | zero => exact ⟨List.cons_ne_nil _ _, List.forall_mem_singleton.mpr rfl⟩
  | digits _ hdigits => exact hdigits

theorem IsInteger.exists_cons {cs : List Char} (h : IsInteger cs) :
    ∃ c tail, cs = c :: tail ∧ c.isDigit = true := by
  obtain ⟨hne, hall⟩ := h.isDigits
  obtain ⟨c, tail, rfl⟩ := List.exists_cons_of_ne_nil hne
  exact ⟨c, tail, rfl, hall c (by simp)⟩

/-- A number begins with a digit. -/
theorem IsNumber.exists_cons {cs : List Char} (h : IsNumber cs) :
    ∃ c tail, cs = c :: tail ∧ c.isDigit = true := by
  cases h with
  | parts hinteger =>
      obtain ⟨c, tail, rfl, hc⟩ := hinteger.exists_cons
      exact ⟨c, _, List.cons_append, hc⟩

/-- What holds of the digits and of the marks that a number can have holds of all its characters. -/
theorem IsNumber.forall_mem {cs : List Char} (h : IsNumber cs) {p : Char → Prop}
    (hdigit : ∀ c, c.isDigit = true → p c) (hmark : ∀ c ∈ ['.', 'e', 'E', '+', '-'], p c) :
    ∀ c ∈ cs, p c := by
  have hdigits {ds : List Char} (hds : IsDigits ds) : ∀ c ∈ ds, p c :=
    fun c hc => hdigit c (hds.2 c hc)
  cases h with
  | parts hinteger hfraction hexponent =>
      simp only [List.forall_mem_append]
      refine ⟨hdigits hinteger.isDigits, ?_, ?_⟩
      · cases hfraction with
        | nil => exact fun _ hc => absurd hc List.not_mem_nil
        | digits hds => exact List.forall_mem_cons.mpr ⟨hmark '.' (by simp), hdigits hds⟩
      · cases hexponent with
        | nil => exact fun _ hc => absurd hc List.not_mem_nil
        | digits hletter hsign hds =>
            simp only [List.forall_mem_cons, List.forall_mem_append]
            refine ⟨?_, ?_, hdigits hds⟩
            · rcases hletter with rfl | rfl <;> exact hmark _ (by simp)
            · rcases hsign with rfl | rfl | rfl
              · exact fun _ hc => absurd hc List.not_mem_nil
              · exact List.forall_mem_singleton.mpr (hmark '+' (by simp))
              · exact List.forall_mem_singleton.mpr (hmark '-' (by simp))

/-! ## What is read has the right shape -/

theorem isContents_spanContents (cs : List Char) : IsContents (spanContents cs).1 := by
  fun_induction spanContents cs with
  | case1 cs contents rest heq ih =>
      rw [heq] at ih
      exact .escape (.inl rfl) ih
  | case2 cs contents rest heq ih =>
      rw [heq] at ih
      exact .escape (.inr rfl) ih
  | case3 => exact .nil
  | case4 c cs _ _ hplain contents rest heq ih =>
      rw [heq] at ih
      exact .plain hplain ih
  | case5 => exact .nil

theorem isDigits_spanDigits {cs : List Char} (h : (spanDigits cs).1 ≠ []) :
    IsDigits (spanDigits cs).1 :=
  ⟨h, List.all_eq_true.mp List.all_takeWhile⟩

theorem isInteger_spanInteger {c : Char} (hc : c.isDigit = true) (cs : List Char) :
    IsInteger (spanInteger (c :: cs)).1 := by
  by_cases hzero : c = '0'
  · subst hzero
    exact .zero
  · have hne : (spanInteger (c :: cs)).1 ≠ [] := spanInteger_ne_nil hc
    have hspan : spanInteger (c :: cs) = spanDigits (c :: cs) := by
      rw [spanInteger]
      simpa using hzero
    rw [hspan] at hne ⊢
    have hdigits := isDigits_spanDigits hne
    simp only [spanDigits, List.takeWhile_cons, hc, if_true] at hdigits ⊢
    exact .digits hzero hdigits

/-- A point is part of a fraction if digits follow it. -/
theorem spanFraction_point (cs : List Char) :
    spanFraction ('.' :: cs) =
      if (spanDigits cs).1 = [] then ([], '.' :: cs)
      else ('.' :: (spanDigits cs).1, (spanDigits cs).2) := by
  rw [spanFraction]
  split
  · next heq => rw [heq, if_pos rfl]
  · next digits rest hne heq =>
    rw [heq, if_neg]
    exact hne

theorem isFraction_spanFraction (cs : List Char) : IsFraction (spanFraction cs).1 := by
  by_cases hpoint : ∃ tail, cs = '.' :: tail
  · obtain ⟨tail, rfl⟩ := hpoint
    rw [spanFraction_point]
    by_cases hnil : (spanDigits tail).1 = []
    · rw [if_pos hnil]
      exact .nil
    · rw [if_neg hnil]
      exact .digits (isDigits_spanDigits hnil)
  · rw [spanFraction.eq_2]
    · exact .nil
    · intro tail heq
      exact hpoint ⟨tail, heq⟩

/-- A letter that marks an exponent is part of it if digits follow, perhaps after a sign. -/
theorem spanExponent_mark {mark : Char} (hmark : mark = 'e' ∨ mark = 'E') (cs : List Char) :
    spanExponent (mark :: cs) =
      if (spanDigits (spanSign cs).2).1 = [] then ([], mark :: cs)
      else (mark :: ((spanSign cs).1 ++ (spanDigits (spanSign cs).2).1),
        (spanDigits (spanSign cs).2).2) := by
  rw [spanExponent, if_pos hmark]
  split
  · next heq => rw [heq, if_pos rfl]
  · next digits rest hne heq =>
    rw [heq, if_neg]
    · rfl
    · exact hne

theorem spanSign_cases (cs : List Char) :
    (spanSign cs).1 = [] ∨ (spanSign cs).1 = ['+'] ∨ (spanSign cs).1 = ['-'] := by
  rw [spanSign.eq_def]
  split <;> simp

theorem isExponent_spanExponent (cs : List Char) : IsExponent (spanExponent cs).1 := by
  cases cs with
  | nil => exact .nil
  | cons mark cs =>
      by_cases hmark : mark = 'e' ∨ mark = 'E'
      · rw [spanExponent_mark hmark]
        by_cases hnil : (spanDigits (spanSign cs).2).1 = []
        · rw [if_pos hnil]
          exact .nil
        · rw [if_neg hnil]
          exact .digits hmark (spanSign_cases cs) (isDigits_spanDigits hnil)
      · rw [spanExponent, if_neg hmark]
        exact .nil

/-- What is read from a digit on is a number. -/
theorem isNumber_spanNumber {c : Char} (hc : c.isDigit = true) (cs : List Char) :
    IsNumber (spanNumber (c :: cs)).1 := by
  simp only [spanNumber, List.append_assoc]
  exact .parts (isInteger_spanInteger hc cs) (isFraction_spanFraction _)
    (isExponent_spanExponent _)

/-! ## A number is read back -/

/-- No character that passes the test comes first. -/
def Stops (test : Char → Bool) (rest : List Char) : Prop := ∀ c ∈ rest.head?, test c = false

theorem Stops.mono {test other : Char → Bool} {rest : List Char} (h : Stops test rest)
    (himp : ∀ c, other c = true → test c = true) : Stops other rest := by
  intro c hc
  rw [Bool.eq_false_iff]
  intro hother
  have hfalse := h c hc
  rw [himp c hother] at hfalse
  cases hfalse

theorem stops_cons {test : Char → Bool} {c : Char} (hc : test c = false) (rest : List Char) :
    Stops test (c :: rest) := by
  intro d hd
  cases hd
  exact hc

theorem spanDigits_of_stops {ds rest : List Char} (hds : ∀ c ∈ ds, c.isDigit = true)
    (hrest : Stops Char.isDigit rest) : spanDigits (ds ++ rest) = (ds, rest) := by
  have htake : rest.takeWhile Char.isDigit = [] ∧ rest.dropWhile Char.isDigit = rest := by
    cases rest with
    | nil => exact ⟨rfl, rfl⟩
    | cons c rest =>
        have hc : c.isDigit = false := hrest c rfl
        simp [hc]
  rw [spanDigits, List.takeWhile_append_of_pos hds, List.dropWhile_append_of_pos hds, htake.1,
    htake.2, List.append_nil]

theorem IsInteger.spanInteger_append {cs rest : List Char} (h : IsInteger cs)
    (hrest : Stops Char.isDigit rest) : spanInteger (cs ++ rest) = (cs, rest) := by
  cases h with
  | zero => rfl
  | @digits c cs nonzero hdigits =>
      have hspan : spanInteger (c :: cs ++ rest) = spanDigits (c :: cs ++ rest) := by
        rw [List.cons_append, spanInteger]
        simpa using nonzero
      rw [hspan, spanDigits_of_stops hdigits.2 hrest]

theorem IsFraction.spanFraction_append {cs rest : List Char} (h : IsFraction cs)
    (hrest : Stops (fun c => c.isDigit || c == '.') rest) :
    spanFraction (cs ++ rest) = (cs, rest) := by
  cases h with
  | nil =>
      rw [List.nil_append, spanFraction.eq_2]
      intro tail heq
      have hpoint := hrest '.' (by rw [heq]; rfl)
      simp at hpoint
  | @digits ds hdigits =>
      have hstops : Stops Char.isDigit rest := hrest.mono (by simp +contextual)
      rw [List.cons_append, spanFraction_point, spanDigits_of_stops hdigits.2 hstops,
        if_neg hdigits.1]

theorem spanSign_of_digits {sign ds : List Char}
    (hsign : sign = [] ∨ sign = ['+'] ∨ sign = ['-']) (hds : IsDigits ds) (rest : List Char) :
    spanSign (sign ++ ds ++ rest) = (sign, ds ++ rest) := by
  rcases hsign with rfl | rfl | rfl
  · obtain ⟨d, tail, rfl⟩ := List.exists_cons_of_ne_nil hds.1
    have hd : d.isDigit = true := hds.2 d (by simp)
    rw [List.nil_append, List.cons_append, spanSign.eq_3]
    · rintro rest ⟨rfl, _⟩
      exact absurd hd (by decide)
    · rintro rest ⟨rfl, _⟩
      exact absurd hd (by decide)
  · rfl
  · rfl

theorem IsExponent.spanExponent_append {cs rest : List Char} (h : IsExponent cs)
    (hrest : Stops (fun c => c.isDigit || (c == 'e' || c == 'E')) rest) :
    spanExponent (cs ++ rest) = (cs, rest) := by
  cases h with
  | nil =>
      cases rest with
      | nil => rfl
      | cons c rest =>
          have hc := hrest c rfl
          rw [List.nil_append, spanExponent, if_neg]
          simp_all
  | @digits mark sign ds hmark hsign hdigits =>
      have hstops : Stops Char.isDigit rest := hrest.mono (by simp +contextual)
      rw [List.cons_append, spanExponent_mark hmark, spanSign_of_digits hsign hdigits,
        spanDigits_of_stops hdigits.2 hstops, if_neg hdigits.1]

theorem IsFraction.stops_append {cs rest : List Char} (h : IsFraction cs)
    (hrest : Stops Char.isDigit rest) : Stops Char.isDigit (cs ++ rest) := by
  cases h with
  | nil => exact hrest
  | digits =>
      intro c hc
      cases hc
      decide

theorem IsExponent.stops_append {cs rest : List Char} (h : IsExponent cs)
    (hrest : Stops (fun c => c.isDigit || c == '.') rest) :
    Stops (fun c => c.isDigit || c == '.') (cs ++ rest) := by
  cases h with
  | nil => exact hrest
  | digits hmark =>
      intro c hc
      cases hc
      rcases hmark with rfl | rfl <;> decide

/-- A number is read whole where nothing after it could continue it. -/
theorem IsNumber.spanNumber_append {cs rest : List Char} (h : IsNumber cs)
    (hrest : Stops continuesNumber rest) : spanNumber (cs ++ rest) = (cs, rest) := by
  cases h with
  | @parts integer fraction exponent hinteger hfraction hexponent =>
      have hmark : Stops (fun c => c.isDigit || (c == 'e' || c == 'E')) rest :=
        hrest.mono (by simp +contextual [continuesNumber, or_imp])
      have hpoint : Stops (fun c => c.isDigit || c == '.') (exponent ++ rest) :=
        hexponent.stops_append (hrest.mono (by simp +contextual [continuesNumber]))
      have hdigit : Stops Char.isDigit (fraction ++ (exponent ++ rest)) :=
        hfraction.stops_append (hpoint.mono (by simp +contextual))
      simp only [spanNumber, List.append_assoc]
      rw [hinteger.spanInteger_append hdigit, hfraction.spanFraction_append hpoint,
        hexponent.spanExponent_append hmark]

/-! ## The tokens of a text -/

theorem spelled_of_symbol? {cs rest : List Char} {lexeme : Lexeme}
    (h : symbol? cs = some (lexeme, rest)) : lexeme.Spelled := by
  rw [symbol?.eq_def] at h
  split at h <;> cases h <;> trivial

/-- A lexeme that was read has the text of its kind. -/
theorem spelled_of_read {start : Nat} {c : Char} {cs rest : List Char} {lexeme : Lexeme}
    (h : read start c cs = .ok (lexeme, rest)) : lexeme.Spelled := by
  rw [read] at h
  split at h
  · next heq =>
    cases h
    exact spelled_of_symbol? heq
  · split at h
    · simp only [readString] at h
      split at h <;> cases h
      simp only [Spelled, String.toList_ofList]
      exact isContents_spanContents cs
    · split at h
      · next hname =>
        cases h
        simp only [Spelled, IsName, String.toList_ofList]
        refine ⟨?_, List.all_eq_true.mp List.all_takeWhile⟩
        simp [hname]
      · split at h
        · next hdigit =>
          cases h
          simp only [Spelled, String.toList_ofList]
          exact isNumber_spanNumber hdigit cs
        · cases h

end Lexeme

theorem Reading.spelled_of_ofChars {position : Nat} {cs rest : List Char} {t : Token}
    (h : ofChars position cs = .token t rest) : t.lexeme.Spelled := by
  simp only [ofChars] at h
  split at h
  · cases h
  · split at h
    · next heq =>
      cases h
      exact Lexeme.spelled_of_read heq
    · cases h

theorem Lexed.spelled_of_mem_ofChars {position : Nat} {cs : List Char} {t : Token}
    (ht : t ∈ (ofChars position cs).tokens) : t.lexeme.Spelled := by
  cases h : Reading.ofChars position cs with
  | finished stop =>
      rw [ofChars_of_finished h] at ht
      exact absurd ht List.not_mem_nil
  | failed error stop =>
      rw [ofChars_of_failed h] at ht
      exact absurd ht List.not_mem_nil
  | token first rest =>
      have hlt := Reading.length_lt_of_ofChars h
      rw [ofChars_of_token h, tokens_cons] at ht
      rcases List.mem_cons.mp ht with rfl | ht
      · exact Reading.spelled_of_ofChars h
      · exact spelled_of_mem_ofChars ht
termination_by cs.length

/-- Every token of a text has the text of its kind. -/
theorem Lexed.spelled_of_mem {s : String} {t : Token} (ht : t ∈ (ofText s).tokens) :
    t.lexeme.Spelled :=
  spelled_of_mem_ofChars ht

end QueryExpr
