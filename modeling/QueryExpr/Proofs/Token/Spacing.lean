import QueryExpr.Proofs.Token.Tiling

/-!
# Blanks between tokens

Blanks can be put wherever no token is in the way, and the tokens stay what they are. A string
literal ends at its closing quote whatever comes after it, and no other lexeme has a blank inside.
So a blank can keep a longer lexeme from being read, but it does not make one, and every token has
been the longest lexeme already.

What blanks do change is where tokens stand. Two tokens that touched each other need not touch any
longer, which matters only between a minus sign and a number. Blanks may therefore not be put
between these two.
-/

namespace QueryExpr

namespace Lexeme

/-- The characters that lexemes other than string literals can have after their first one. -/
def isInner (c : Char) : Bool := isNameChar c || c.isDigit || c ∈ ['.', '+', '-', '=']

/-- Only string literals begin with a quote. -/
theorem Spelled.kind_eq_string_iff {lexeme : Lexeme} (h : lexeme.Spelled) :
    lexeme.kind = .string ↔ lexeme.text.toList.head? = some '"' := by
  cases lexeme with
  | operator op => cases op <;> decide
  | number text =>
      obtain ⟨c, cs, htext, hc⟩ := IsNumber.exists_cons h
      have hquote := ne_quote_of_test Char.isDigit rfl hc
      simp [kind, Lexeme.text, htext, hquote]
  | string raw => simp [kind, text]
  | name text =>
      obtain ⟨c, cs, htext⟩ := List.exists_cons_of_ne_nil h.1
      have hquote := ne_quote_of_test isNameChar rfl (h.2 c (by simp [htext]))
      simp [kind, Lexeme.text, htext, hquote]
  | _ => decide

theorem Spelled.isInner_of_mem_tail {lexeme : Lexeme} (h : lexeme.Spelled)
    (hkind : lexeme.kind ≠ .string) : ∀ c ∈ lexeme.text.toList.tail, isInner c = true := by
  cases lexeme with
  | operator op => cases op <;> exact List.all_eq_true.mp rfl
  | number text =>
      have hinner : ∀ c ∈ text.toList, isInner c = true :=
        IsNumber.forall_mem h (by simp +contextual [isInner]) (List.all_eq_true.mp rfl)
      exact fun c hc => hinner c (List.mem_of_mem_tail hc)
  | string raw => exact absurd rfl hkind
  | name text =>
      intro c hc
      have hname : isNameChar c = true := h.2 c (List.mem_of_mem_tail hc)
      simp [isInner, hname]
  | _ => exact List.all_eq_true.mp rfl

/-- A lexeme that was longest is read again in front of something else, as long as this does not
begin with more of what could be inside a lexeme. -/
theorem IsLongest.ofChars_eq_token {lexeme : Lexeme} {after other : List Char}
    (h : lexeme.IsLongest (lexeme.text.toList ++ after))
    (hother : ∀ word, (∀ c ∈ word, isInner c = true) → word <+: other → word <+: after)
    (position : Nat) :
    Reading.ofChars position (lexeme.text.toList ++ other) =
      .token { lexeme, start := position } other := by
  by_cases hkind : lexeme.kind = .string
  · apply Reading.ofChars_text h.spelled
    rw [hkind]
    exact fun _ _ => rfl
  · obtain ⟨found, rest, hread, word, hword⟩ :=
      Reading.exists_ofChars_eq_token h.spelled other position
    have hspelled : found.Spelled := Reading.spelled_of_ofChars hread
    have happend : lexeme.text.toList ++ other = found.text.toList ++ rest :=
      Reading.eq_append_of_ofChars hread
    obtain ⟨c, cs, hcs⟩ := List.exists_cons_of_length_pos (length_pos_of_spelled h.spelled)
    -- What was found begins like the lexeme, so it is no string literal either.
    have hfoundKind : found.kind ≠ .string := by
      rw [Ne, hspelled.kind_eq_string_iff, ← hword, hcs]
      rwa [h.spelled.kind_eq_string_iff, hcs] at hkind
    have hinner : ∀ c ∈ word, isInner c = true := by
      intro d hd
      apply hspelled.isInner_of_mem_tail hfoundKind
      rw [← hword, hcs]
      exact List.mem_append_right cs hd
    rw [← hword, List.append_assoc, List.append_cancel_left_eq] at happend
    have hafter : word <+: after := hother word hinner ⟨rest, happend.symm⟩
    have hsame : found = lexeme := by
      by_contra hne
      have hbegins : found.text.toList <+: lexeme.text.toList ++ after := by
        rw [← hword, List.prefix_append_right_inj]
        exact hafter
      have hlt := h.longest found hspelled hbegins hne
      rw [← hword, List.length_append] at hlt
      omega
    subst hsame
    have hnil : word = [] := List.append_right_eq_self.mp hword
    rw [hnil, List.nil_append] at happend
    rw [hread, happend]

end Lexeme

namespace Lexed

/-- Blanks can be put at this offset: no token is on both sides of it, and it is not where a number
touches the minus sign in front of it. -/
structure IsSeam (l : Lexed) (offset : Nat) : Prop where
  outside : ∀ t ∈ l.tokens, offset ≤ t.start ∨ t.stop ≤ offset
  apart : ∀ minus ∈ l.tokens, ∀ number ∈ l.tokens, minus.lexeme = .operator .sub →
    number.lexeme.kind = .number → minus.stop = offset → number.start ≠ offset

instance (l : Lexed) (offset : Nat) : Decidable (l.IsSeam offset) :=
  decidable_of_iff
    ((∀ t ∈ l.tokens, offset ≤ t.start ∨ t.stop ≤ offset) ∧
      ∀ minus ∈ l.tokens, ∀ number ∈ l.tokens, minus.lexeme = .operator .sub →
        number.lexeme.kind = .number → minus.stop = offset → number.start ≠ offset)
    ⟨fun h => ⟨h.1, h.2⟩, fun h => ⟨h.outside, h.apart⟩⟩

/-- The characters on the right are those on the left, which begin at `offset`, with blanks put
where the tokens leave room for them. -/
inductive Spread (l : Lexed) : (offset : Nat) → List Char → List Char → Prop where
  | nil (offset : Nat) : Spread l offset [] []
  | keep {offset : Nat} {cs ds : List Char} (c : Char)
      (h : Spread l (offset + c.utf8Size) cs ds) : Spread l offset (c :: cs) (c :: ds)
  | insert {offset : Nat} {blank : Char} {cs ds : List Char} (hblank : Text.isBlank blank = true)
      (hseam : l.IsSeam offset) (h : Spread l offset cs ds) : Spread l offset cs (blank :: ds)

namespace Spread

variable {l : Lexed} {offset : Nat} {cs ds more rest : List Char}

theorem refl (l : Lexed) (offset : Nat) (cs : List Char) : l.Spread offset cs cs := by
  induction cs generalizing offset with
  | nil => exact .nil offset
  | cons c cs ih => exact .keep c (ih _)

theorem eq_nil (h : l.Spread offset cs []) : cs = [] := by
  cases h
  rfl

theorem eq_nil_of_not_isSeam (h : l.Spread offset [] ds) (hseam : ¬ l.IsSeam offset) : ds = [] := by
  cases h with
  | nil => rfl
  | insert _ hat => exact absurd hat hseam

/-- Nothing but blanks comes of blanks. -/
theorem forall_isBlank (h : l.Spread offset cs ds) (hcs : ∀ c ∈ cs, Text.isBlank c = true) :
    ∀ c ∈ ds, Text.isBlank c = true := by
  induction h with
  | nil => exact hcs
  | keep c h ih =>
      obtain ⟨hc, htail⟩ := List.forall_mem_cons.mp hcs
      exact List.forall_mem_cons.mpr ⟨hc, ih htail⟩
  | insert hblank _ h ih => exact List.forall_mem_cons.mpr ⟨hblank, ih hcs⟩

/-- The blanks in front of a character, and what comes after it. -/
theorem exists_of_cons {c : Char} (h : l.Spread offset (c :: cs) ds) :
    ∃ blanks tail, ds = blanks ++ c :: tail ∧ (∀ b ∈ blanks, Text.isBlank b = true) ∧
      l.Spread (offset + c.utf8Size) cs tail ∧ (¬ l.IsSeam offset → blanks = []) := by
  induction ds with
  | nil => exact absurd h.eq_nil (List.cons_ne_nil c cs)
  | cons d ds ih =>
      cases h with
      | keep _ h => exact ⟨[], ds, rfl, nofun, h, fun _ => rfl⟩
      | insert hblank hseam h =>
          obtain ⟨blanks, tail, rfl, hblanks, htail, _⟩ := ih h
          exact ⟨d :: blanks, tail, rfl, List.forall_mem_cons.mpr ⟨hblank, hblanks⟩, htail,
            fun hnot => absurd hseam hnot⟩

theorem exists_of_append (h : l.Spread offset (cs ++ more) ds) :
    ∃ first second, ds = first ++ second ∧ l.Spread offset cs first ∧
      l.Spread (offset + Text.byteSize cs) more second := by
  generalize hall : cs ++ more = all at h
  induction h generalizing cs with
  | nil offset =>
      obtain ⟨rfl, rfl⟩ := List.append_eq_nil_iff.mp hall
      exact ⟨[], [], rfl, .nil offset, .nil _⟩
  | @keep offset _ ds c h ih =>
      cases cs with
      | nil =>
          obtain rfl : more = c :: _ := hall
          exact ⟨[], c :: ds, rfl, .nil offset, .keep c h⟩
      | cons d cs =>
          obtain ⟨rfl, htail⟩ := List.cons.inj hall
          obtain ⟨first, second, rfl, hfirst, hsecond⟩ := ih htail
          rw [Nat.add_assoc] at hsecond
          exact ⟨d :: first, second, rfl, .keep d hfirst, hsecond⟩
  | @insert _ blank _ _ hblank hseam h ih =>
      obtain ⟨first, second, rfl, hfirst, hsecond⟩ := ih hall
      exact ⟨blank :: first, second, rfl, .insert hblank hseam hfirst, hsecond⟩

/-- Where nothing can be put, nothing is. -/
theorem exists_of_solid (h : l.Spread offset (cs ++ more) ds)
    (hsolid : ∀ o, offset ≤ o → o < offset + Text.byteSize cs → ¬ l.IsSeam o) :
    ∃ tail, ds = cs ++ tail ∧ l.Spread (offset + Text.byteSize cs) more tail := by
  induction cs generalizing offset ds with
  | nil => exact ⟨ds, rfl, h⟩
  | cons c cs ih =>
      have hpos := c.utf8Size_pos
      rw [Text.byteSize_cons] at hsolid ⊢
      obtain ⟨blanks, after, rfl, -, hafter, hblanks⟩ := exists_of_cons h
      rw [hblanks (hsolid offset (Nat.le_refl _) (by omega))]
      obtain ⟨tail, rfl, htail⟩ := ih hafter fun o hle hlt => hsolid o (by omega) (by omega)
      rw [Nat.add_assoc] at htail
      exact ⟨tail, rfl, htail⟩

theorem exists_of_text {t : Token} (h : l.Spread t.start (t.text.toList ++ more) ds)
    (ht : t ∈ l.tokens) (hspelled : t.lexeme.Spelled) :
    ∃ blanks tail, ds = blanks ++ (t.text.toList ++ tail) ∧
      (∀ b ∈ blanks, Text.isBlank b = true) ∧ l.Spread t.stop more tail ∧
      (¬ l.IsSeam t.start → blanks = []) := by
  obtain ⟨c, cs, hcs⟩ := List.exists_cons_of_length_pos (Lexeme.length_pos_of_spelled hspelled)
  have hpos := c.utf8Size_pos
  have hstop : t.stop = t.start + c.utf8Size + Text.byteSize cs := by
    rw [Token.stop, Token.text, ← Text.byteSize_toList, hcs, Text.byteSize_cons, Nat.add_assoc]
  rw [Token.text, hcs, List.cons_append] at h
  obtain ⟨blanks, after, rfl, hblanks, hafter, hnil⟩ := h.exists_of_cons
  have hinside (o : Nat) (hle : t.start + c.utf8Size ≤ o)
      (hlt : o < t.start + c.utf8Size + Text.byteSize cs) : ¬ l.IsSeam o := by
    intro hseam
    have hout := hseam.outside t ht
    omega
  obtain ⟨tail, rfl, htail⟩ := hafter.exists_of_solid hinside
  rw [← hstop] at htail
  exact ⟨blanks, tail, by rw [Token.text, hcs, List.cons_append], hblanks, htail, hnil⟩

/-- The blanks in front of a token, the token as it was and what comes after it. -/
theorem exists_of_token {t : Token} (ht : t ∈ l.tokens) (hspelled : t.lexeme.Spelled)
    {blanks : List Char} (hblanks : ∀ b ∈ blanks, Text.isBlank b = true)
    (hstart : t.start = offset + Text.byteSize blanks)
    (h : l.Spread offset (blanks ++ (t.text.toList ++ more)) ds) :
    ∃ front tail, ds = front ++ (t.text.toList ++ tail) ∧
      (∀ b ∈ front, Text.isBlank b = true) ∧ l.Spread t.stop more tail ∧
      (front = [] → blanks = []) ∧ (¬ l.IsSeam offset → blanks = [] → front = []) := by
  obtain ⟨first, after, rfl, hfirst, hafter⟩ := h.exists_of_append
  rw [← hstart] at hafter
  obtain ⟨second, tail, rfl, hsecond, htail, hsolid⟩ := hafter.exists_of_text ht hspelled
  have hfront : ∀ b ∈ first ++ second, Text.isBlank b = true :=
    List.forall_mem_append.mpr ⟨hfirst.forall_isBlank hblanks, hsecond⟩
  refine ⟨first ++ second, tail, by rw [List.append_assoc], hfront, htail, ?_, ?_⟩
  · intro hnil
    rw [(List.append_eq_nil_iff.mp hnil).1] at hfirst
    exact hfirst.eq_nil
  · rintro hseam rfl
    rw [hfirst.eq_nil_of_not_isSeam hseam, hsolid (hstart ▸ hseam)]
    rfl

/-- Blanks do not make a word longer that the characters begin with. -/
theorem prefix_of_prefix (h : l.Spread offset cs ds) (hrest : Lexeme.Stops Lexeme.isInner rest)
    {word : List Char} (hword : ∀ c ∈ word, Lexeme.isInner c = true)
    (hbegins : word <+: ds ++ rest) : word <+: cs := by
  induction h generalizing word with
  | nil =>
      cases word with
      | nil => exact List.nil_prefix
      | cons c word =>
          obtain ⟨tail, htail⟩ := hbegins
          have hstops := hrest c (by rw [← List.nil_append rest, ← htail]; rfl)
          rw [hword c (by simp)] at hstops
          cases hstops
  | keep c h ih =>
      cases word with
      | nil => exact List.nil_prefix
      | cons d word =>
          obtain ⟨rfl, htail⟩ := List.cons_prefix_cons.mp hbegins
          exact List.cons_prefix_cons.mpr ⟨rfl, ih (fun c hc => hword c (by simp [hc])) htail⟩
  | insert hblank _ h ih =>
      cases word with
      | nil => exact List.nil_prefix
      | cons c word =>
          obtain ⟨rfl, -⟩ := List.cons_prefix_cons.mp hbegins
          have hinner := Text.isBlank_eq_false Lexeme.isInner (by decide) (hword c (by simp))
          rw [hblank] at hinner
          cases hinner

end Spread

/-- The first of the tokens is a number that starts at this offset. -/
def NumberAt (offset : Nat) (ts : List Token) : Prop :=
  ∃ t ∈ ts.head?, t.lexeme.kind = .number ∧ t.start = offset

theorem not_numberAt_nil (offset : Nat) : ¬ NumberAt offset [] := nofun

theorem numberAt_cons {offset : Nat} {t : Token} {ts : List Token} :
    NumberAt offset (t :: ts) ↔ t.lexeme.kind = .number ∧ t.start = offset := by
  simp [NumberAt]

/-- The tokens say the same, wherever they stand, and numbers touch the same minus signs. -/
inductive Alike : List Token → List Token → Prop where
  | nil : Alike [] []
  | cons {t u : Token} {ts us : List Token} (hlexeme : u.lexeme = t.lexeme)
      (htouch : t.lexeme = .operator .sub → (NumberAt u.stop us ↔ NumberAt t.stop ts))
      (h : Alike ts us) : Alike (t :: ts) (u :: us)

theorem ReadsAs.blanks {blanks rest : List Char} (h : ∀ b ∈ blanks, Text.isBlank b = true)
    (position : Nat) : ReadsAs position blanks rest [] :=
  ofChars_congr (Reading.ofChars_blanks h position rest)

/-- Spread characters are read as tokens that say what the tokens before said. A number at the front
stays there, unless blanks can be put in front of it. -/
theorem Tiles.exists_readsAs {l : Lexed} {position : Nat} {cs ds rest after : List Char}
    {ts : List Token} (h : Tiles position cs ts rest) (hts : ∀ t ∈ ts, t ∈ l.tokens)
    (hblank : ∀ c ∈ rest, Text.isBlank c = true) (hspread : l.Spread position cs ds)
    (hafter : Lexeme.Stops Lexeme.isInner after) (other : Nat) :
    ∃ us, ReadsAs other ds after us ∧ Alike ts us ∧
      (NumberAt other us → NumberAt position ts) ∧
      (¬ l.IsSeam position → NumberAt position ts → NumberAt other us) := by
  induction h generalizing ds other with
  | nil position rest =>
      refine ⟨[], .blanks (hspread.forall_isBlank hblank) other, .nil, ?_, ?_⟩
      · exact fun h => absurd h (not_numberAt_nil _)
      · exact fun _ h => absurd h (not_numberAt_nil _)
  | @cons position blanks tail rest lexeme ts hblanks hlongest _ ih =>
      obtain ⟨hmem, hts⟩ := List.forall_mem_cons.mp hts
      obtain ⟨front, ds, rfl, hfront, hds, hback, hforth⟩ :=
        hspread.exists_of_token hmem hlongest.spelled hblanks rfl
      have hread := ReadsAs.token (hlongest.ofChars_eq_token
        (fun _ hinner hbegins => hds.prefix_of_prefix hafter hinner hbegins)
        (other + Text.byteSize front))
      obtain ⟨us, hreads, halike, hnumber, hnumber'⟩ :=
        ih hts hblank hds (other + Text.byteSize front + lexeme.text.utf8ByteSize)
      rw [← Text.byteSize_toList] at hreads
      refine ⟨⟨lexeme, other + Text.byteSize front⟩ :: us, ?_, .cons rfl ?_ halike, ?_, ?_⟩
      · exact (ReadsAs.blanks hfront other).append (hread.append hreads)
      · -- Were there room for blanks, the minus sign would not touch the number.
        intro hminus
        refine ⟨hnumber, fun hstays => hnumber' (fun hseam => ?_) hstays⟩
        obtain ⟨number, hhead, hkind, hstart⟩ := hstays
        exact hseam.apart _ hmem number (hts number (List.mem_of_mem_head? hhead)) hminus hkind rfl
          hstart
      · rw [numberAt_cons, numberAt_cons]
        rintro ⟨hkind, hstart⟩
        rw [hback (Text.byteSize_eq_zero_iff.mp (Nat.add_eq_left.mp hstart))]
        exact ⟨hkind, rfl⟩
      · rw [numberAt_cons, numberAt_cons]
        rintro hseam ⟨hkind, hstart⟩
        rw [hforth hseam (Text.byteSize_eq_zero_iff.mp (Nat.add_eq_left.mp hstart))]
        exact ⟨hkind, rfl⟩

/-- Characters that split into tokens do so again wherever they stand, with blanks put between the
tokens, as long as nothing that could be inside a lexeme comes next. -/
theorem exists_readsAs_of_spread {position : Nat} {cs ds after : List Char}
    (hlexed : (ofChars position cs).error = none) (h : (ofChars position cs).Spread position cs ds)
    (hafter : Lexeme.Stops Lexeme.isInner after) (other : Nat) :
    ∃ us, ReadsAs other ds after us ∧ Alike (ofChars position cs).tokens us := by
  obtain ⟨rest, htiles, hleaves⟩ := exists_tiles position cs
  rw [hlexed] at hleaves
  cases hleaves with
  | finished hblank =>
      obtain ⟨us, hreads, halike, -⟩ :=
        htiles.exists_readsAs (fun _ ht => ht) hblank h hafter other
      exact ⟨us, hreads, halike⟩

/-- Blanks between the tokens leave characters as the same tokens, wherever they stand. -/
theorem alike_ofChars_of_spread {position : Nat} {cs ds : List Char}
    (hlexed : (ofChars position cs).error = none) (h : (ofChars position cs).Spread position cs ds)
    (other : Nat) :
    (ofChars other ds).error = none ∧
      Alike (ofChars position cs).tokens (ofChars other ds).tokens := by
  have hend : Lexeme.Stops Lexeme.isInner [] := nofun
  obtain ⟨us, hreads, halike⟩ := exists_readsAs_of_spread hlexed h hend other
  obtain ⟨herror, rfl⟩ := hreads.ofChars
  exact ⟨herror, halike⟩

/-- Blanks between its tokens leave a text as the same tokens. -/
theorem alike_of_spread {s s' : String} (hlexed : (ofText s).error = none)
    (h : (ofText s).Spread 0 s.toList s'.toList) :
    (ofText s').error = none ∧ Alike (ofText s).tokens (ofText s').tokens :=
  alike_ofChars_of_spread hlexed h 0

end Lexed

end QueryExpr
