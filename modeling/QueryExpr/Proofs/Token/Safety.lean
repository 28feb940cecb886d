import QueryExpr.Proofs.Token.Tiling

/-!
# Any use of a cursor is safe

A caller may take tokens and single bytes in any order, look ahead, go on after an error, and keep
copies of a cursor to go back to. The cursor can then stand anywhere: inside a character, inside a
string literal, on a backslash. Wherever it stands, it is within the text, and only going back to a
copy makes it move backwards. A token that it yields begins and ends between two characters, so the
text of the token can be cut out of the source.

A session is a cursor in use. What holds of one operation in every session is said once, by
`Session.Safe`; that operations keep a session sound carries it through any number of them.
-/

namespace QueryExpr

namespace Text

/-- The text `inner` can be cut out of the source: both offsets are boundaries between characters,
and `inner` is what stands between them. -/
structure Between (source : String) (start stop : Nat) (inner : String) : Prop where
  start_le_stop : start ≤ stop
  start_valid : String.Pos.Raw.IsValid source ⟨start⟩
  stop_valid : String.Pos.Raw.IsValid source ⟨stop⟩
  slice_eq : slice source start stop = inner

variable {source : String} {front inner rest : List Char}

/-- Where some of the characters end, there is a boundary between two characters. -/
theorem isValid_of_append (h : source.toList = front ++ rest) :
    String.Pos.Raw.IsValid source ⟨byteSize front⟩ := by
  refine String.Pos.Raw.isValid_iff_exists_append.mpr
    ⟨String.ofList front, String.ofList rest, ?_, ?_⟩
  · rw [← String.ofList_append, ← h, String.ofList_toList]
  · rw [← utf8ByteSize_ofList]
    rfl

theorem between_of_append (h : source.toList = front ++ (inner ++ rest)) :
    Between source (byteSize front) (byteSize front + byteSize inner) (String.ofList inner) := by
  have hafter : source.toList = (front ++ inner) ++ rest := h.trans (List.append_assoc ..).symm
  rw [← byteSize_append]
  refine ⟨?_, isValid_of_append h, isValid_of_append hafter, ?_⟩
  · rw [byteSize_append]
    exact Nat.le_add_right _ _
  · have hstart : dropBytes? (byteSize front) source.toList = some (inner ++ rest) :=
      dropBytes?_eq_some_iff.mpr ⟨front, h, rfl⟩
    have hstop : dropBytes? (byteSize (front ++ inner)) source.toList = some rest :=
      dropBytes?_eq_some_iff.mpr ⟨front ++ inner, hafter, rfl⟩
    simp only [slice, hstart, hstop, List.length_append, Nat.add_sub_cancel, List.take_left']

end Text

/-- The token has its place in the source. Its text can be cut out of it, and so can what stands
between the quotes of a string literal. -/
structure Token.StandsIn (t : Token) (source : String) : Prop where
  nonempty : t.start < t.stop
  text : Text.Between source t.start t.stop t.text
  contents : t.lexeme.kind = .string →
    Text.Between source (t.start + 1) (t.stop - 1) t.lexeme.contents

/-! ## Where reading stops -/

theorem Lexeme.stop_of_readString {start stop : Nat} {body : List Char} {error : LexError}
    (h : readString start body = .error (error, stop)) :
    start < stop ∧ stop ≤ start + 1 + Text.byteSize body := by
  have happend := congrArg Text.byteSize (spanContents_append body)
  rw [Text.byteSize_append] at happend
  simp only [readString] at h
  split at h
  · cases h
  · cases h
    omega
  · cases h
    omega

theorem Lexeme.stop_of_read {start stop : Nat} {c : Char} {cs : List Char} {error : LexError}
    (h : read start c cs = .error (error, stop)) :
    start < stop ∧ stop ≤ start + Text.byteSize (c :: cs) := by
  have hpos := c.utf8Size_pos
  rw [Text.byteSize_cons]
  rw [read] at h
  split at h
  · cases h
  · split at h
    · have hstop := stop_of_readString h
      omega
    · split at h
      · cases h
      · split at h
        · cases h
        · cases h
          omega

namespace Reading

variable {cs rest : List Char} {t : Token}

/-- The offset at which reading stopped. -/
def stop : Reading → Nat
  | finished stop => stop
  | token t _ => t.stop
  | failed _ stop => stop

/-- Reading stops somewhere in the characters or at their end. -/
theorem stop_ofChars (position : Nat) (cs : List Char) :
    position ≤ (ofChars position cs).stop ∧
      (ofChars position cs).stop ≤ position + Text.byteSize cs := by
  have hsize : Text.byteSize (cs.takeWhile Text.isBlank) +
      Text.byteSize (cs.dropWhile Text.isBlank) = Text.byteSize cs := by
    rw [← Text.byteSize_append, List.takeWhile_append_dropWhile]
  simp only [ofChars]
  split
  · simp only [stop]
    omega
  · next c tail hdrop =>
    rw [hdrop] at hsize
    split
    · next lexeme rest hread =>
      have happend := congrArg Text.byteSize (Lexeme.read_append hread)
      rw [Text.byteSize_append, Text.byteSize_toList] at happend
      simp only [stop, Token.stop, Token.text]
      omega
    · next error last hread =>
      have hlast := Lexeme.stop_of_read hread
      simp only [stop]
      omega

/-- A token that is read from some characters of the source has its place in the source. -/
theorem standsIn_of_token {source : String} {front : List Char}
    (hsource : source.toList = front ++ cs)
    (h : ofChars (Text.byteSize front) cs = .token t rest) : t.StandsIn source := by
  obtain ⟨blanks, rfl, -, hstart, hlongest⟩ := exists_of_ofChars_eq_token h
  have hwhole : source.toList = (front ++ blanks) ++ (t.lexeme.text.toList ++ rest) := by
    rw [hsource, List.append_assoc]
  have htext := Text.between_of_append hwhole
  rw [Text.byteSize_append, ← hstart, Text.byteSize_toList, String.ofList_toList] at htext
  refine ⟨Token.start_lt_stop hlongest.spelled, htext, fun hkind => ?_⟩
  obtain ⟨lexeme, start⟩ := t
  cases lexeme with
  | string raw =>
      -- The same text, with the quotes counted to what stands before and after.
      have hinner : source.toList =
          ((front ++ blanks) ++ ['"']) ++ (raw.toList ++ (['"'] ++ rest)) := by
        rw [hwhole]
        simp [Lexeme.text]
      have hcontents := Text.between_of_append hinner
      have hquote : Text.byteSize ['"'] = 1 := rfl
      have hstop : (Token.mk (.string raw) start).stop - 1 = start + 1 + raw.utf8ByteSize := by
        have hmark : "\"".utf8ByteSize = 1 := rfl
        simp only [Token.stop, Token.text, Lexeme.text, String.utf8ByteSize_append, hmark]
        omega
      rw [Text.byteSize_append, Text.byteSize_append, ← hstart, hquote, Text.byteSize_toList,
        String.ofList_toList] at hcontents
      rw [hstop]
      exact hcontents
  | _ => cases hkind

end Reading

/-! ## Cursors -/

namespace Cursor

variable {c : Cursor} {t : Token} {kind : Lexeme.Kind}

/-- The cursor is in the text, at its end at most. -/
def Inside (c : Cursor) : Prop := c.position ≤ c.source.utf8ByteSize

theorem length_remaining (c : Cursor) :
    c.remaining.length = c.source.utf8ByteSize - c.position := by
  simp [remaining]

theorem lt_of_peekByte {byte : UInt8} (h : c.peekByte = some byte) :
    c.position < c.source.utf8ByteSize := by
  have hlength := c.length_remaining
  have hpos : 0 < c.remaining.length := by
    cases hremaining : c.remaining with
    | nil =>
        rw [peekByte, hremaining] at h
        cases h
    | cons => exact Nat.succ_pos _
  omega

/-- Inside a character, taking a token fails and moves on by one byte. -/
theorem next_of_dropBytes?_eq_none (h : Text.dropBytes? c.position c.source.toList = none) :
    c.next = (.error (.unexpectedCharacter c.position), { c with position := c.position + 1 }) := by
  rw [next, h]

theorem next_snd {s : String} {front cs : List Char} (h : s.toList = front ++ cs) :
    (next { source := s, position := Text.byteSize front }).2 =
      { source := s, position := (Reading.ofChars (Text.byteSize front) cs).stop } := by
  rw [next_eq h]
  cases Reading.ofChars (Text.byteSize front) cs with
  | finished | token | failed => rfl

/-- Taking a token leads to a place between the cursor and the end of the text. -/
theorem Inside.next (h : c.Inside) :
    c.next.2.source = c.source ∧ c.position ≤ c.next.2.position ∧ c.next.2.Inside := by
  cases hdrop : Text.dropBytes? c.position c.source.toList with
  | none =>
      have hlt : c.position < c.source.utf8ByteSize := by
        apply Nat.lt_of_le_of_ne h
        intro heq
        -- The end of the text is a boundary, and nothing remains after it.
        have hend : Text.dropBytes? c.position c.source.toList = some [] :=
          Text.dropBytes?_eq_some_iff.mpr
            ⟨c.source.toList, (List.append_nil _).symm, (Text.byteSize_toList _).trans heq.symm⟩
        rw [hend] at hdrop
        cases hdrop
      rw [next_of_dropBytes?_eq_none hdrop]
      exact ⟨rfl, Nat.le_succ _, hlt⟩
  | some cs =>
      obtain ⟨front, hfront, hposition⟩ := Text.dropBytes?_eq_some_iff.mp hdrop
      obtain ⟨source, position⟩ := c
      obtain rfl : Text.byteSize front = position := hposition
      have hsize : Text.byteSize front + Text.byteSize cs = source.utf8ByteSize := by
        rw [← Text.byteSize_append, ← hfront, Text.byteSize_toList]
      obtain ⟨hle, hstop⟩ := Reading.stop_ofChars (Text.byteSize front) cs
      rw [next_snd hfront]
      exact ⟨rfl, hle, Nat.le_trans hstop (Nat.le_of_eq hsize)⟩

/-- A token that is taken comes after the place of the cursor and can be cut out of the source. -/
theorem standsIn_of_next (h : c.next.1 = .ok (some t)) :
    c.position ≤ t.start ∧ t.StandsIn c.source := by
  cases hdrop : Text.dropBytes? c.position c.source.toList with
  | none =>
      rw [next_of_dropBytes?_eq_none hdrop] at h
      cases h
  | some cs =>
      obtain ⟨front, hfront, hposition⟩ := Text.dropBytes?_eq_some_iff.mp hdrop
      obtain ⟨source, position⟩ := c
      obtain rfl : Text.byteSize front = position := hposition
      rw [next_eq hfront] at h
      cases hread : Reading.ofChars (Text.byteSize front) cs with
      | finished stop =>
          rw [hread] at h
          cases h
      | failed error stop =>
          rw [hread] at h
          cases h
      | token found rest =>
          rw [hread] at h
          cases h
          have hstart := (Reading.append_of_ofChars hread).1
          exact ⟨hstart ▸ Nat.le_add_right _ _, Reading.standsIn_of_token hfront hread⟩

/-- A token of some kind is taken if and only if it is the next one. -/
theorem take_fst_eq_true_iff :
    (c.take kind).1 = .ok true ↔ ∃ t : Token, c.next.1 = .ok (some t) ∧ t.lexeme.kind = kind := by
  rw [take]
  split
  · next t after hnext =>
    rw [hnext]
    by_cases hkind : t.lexeme.kind = kind
    · simp [hkind]
    · simp [hkind]
  · next after hnext => simp [hnext]
  · next error after hnext => simp [hnext]

theorem take_snd_of_eq (h : (c.take kind).1 = .ok true) : (c.take kind).2 = c.next.2 := by
  obtain ⟨t, ht, hkind⟩ := take_fst_eq_true_iff.mp h
  have hnext : c.next = (.ok (some t), c.next.2) := Prod.ext ht rfl
  rw [take, hnext]
  simp only [if_pos hkind]

theorem take_snd_of_ne (h : (c.take kind).1 ≠ .ok true) : (c.take kind).2 = c := by
  rw [take] at h ⊢
  split
  · next t after hnext =>
    rw [hnext] at h
    by_cases hkind : t.lexeme.kind = kind
    · simp [hkind] at h
    · simp [hkind]
  · rfl
  · rfl

theorem Inside.take (h : c.Inside) (kind : Lexeme.Kind) :
    (c.take kind).2.source = c.source ∧ c.position ≤ (c.take kind).2.position ∧
      (c.take kind).2.Inside := by
  by_cases htake : (c.take kind).1 = .ok true
  · rw [take_snd_of_eq htake]
    exact h.next
  · rw [take_snd_of_ne htake]
    exact ⟨rfl, Nat.le_refl _, h⟩

theorem takeByte_snd_of_false {byte : UInt8} (h : (c.takeByte byte).1 = false) :
    (c.takeByte byte).2 = c := by
  rw [takeByte] at h ⊢
  split
  · next hbyte =>
    rw [if_pos hbyte] at h
    cases h
  · rfl

theorem Inside.takeByte (h : c.Inside) (byte : UInt8) :
    (c.takeByte byte).2.source = c.source ∧ c.position ≤ (c.takeByte byte).2.position ∧
      (c.takeByte byte).2.Inside := by
  rw [Cursor.takeByte]
  split
  · next hbyte => exact ⟨rfl, Nat.le_succ _, lt_of_peekByte hbyte⟩
  · exact ⟨rfl, Nat.le_refl _, h⟩

/-! ## Sessions -/

/-- What a caller can ask of a cursor. The caller can also keep a copy of it and go back to one of
the copies kept so far. -/
inductive Operation where
  | next
  | peek
  | take (kind : Lexeme.Kind)
  | takeByte (byte : UInt8)
  | peekByte
  | remaining
  | isEmpty
  | save
  | restore (index : Nat)

/-- What an operation yields, apart from the cursor that it leaves behind. -/
inductive Answer where
  | token (result : Except LexError (Option Token))
  | taken (result : Except LexError Bool)
  | byte (result : Option UInt8)
  | bytes (result : List UInt8)
  | flag (result : Bool)
  | nothing
  deriving DecidableEq

/-- A cursor in use, with the copies that were kept of it. -/
structure Session where
  current : Cursor
  saved : List Cursor

namespace Session

/-- A cursor at the beginning of a text, before any operation. -/
def start (source : String) : Session where
  current := ofText source
  saved := []

/-- Carries out one operation. There is nothing to go back to under the number of no copy. -/
def perform (s : Session) : Operation → Answer × Session
  | .next => (.token s.current.next.1, { s with current := s.current.next.2 })
  | .peek => (.token s.current.peek, s)
  | .take kind => (.taken (s.current.take kind).1, { s with current := (s.current.take kind).2 })
  | .takeByte byte =>
    (.flag (s.current.takeByte byte).1, { s with current := (s.current.takeByte byte).2 })
  | .peekByte => (.byte s.current.peekByte, s)
  | .remaining => (.bytes s.current.remaining, s)
  | .isEmpty => (.flag s.current.isEmpty, s)
  | .save => (.nothing, { s with saved := s.saved ++ [s.current] })
  | .restore index => (.nothing, { s with current := s.saved[index]?.getD s.current })

/-- The session after several operations, whatever they yielded. -/
def run (s : Session) (operations : List Operation) : Session :=
  operations.foldl (fun s operation => (s.perform operation).2) s

/-- All cursors of the session belong to the source and are inside it. -/
structure Sound (source : String) (s : Session) : Prop where
  current : s.current.source = source ∧ s.current.Inside
  saved : ∀ c ∈ s.saved, c.source = source ∧ c.Inside

/-- What a caller can rely on in a session on the source, whatever the next operation is. -/
structure Safe (source : String) (s : Session) : Prop where
  source_eq : s.current.source = source
  position_le : s.current.position ≤ source.utf8ByteSize
  length_remaining : s.current.position + s.current.remaining.length = source.utf8ByteSize
  /-- Only going back to a copy moves backwards. -/
  forward : ∀ operation, (∀ index, operation ≠ .restore index) →
    s.current.position ≤ (s.perform operation).2.current.position
  restore_eq : ∀ index c, s.saved[index]? = some c → (s.perform (.restore index)).2.current = c
  peek_unmoved : (s.perform .peek).2.current = s.current
  take_unmoved : ∀ kind, (s.perform (.take kind)).1 ≠ .taken (.ok true) →
    (s.perform (.take kind)).2.current = s.current
  takeByte_unmoved : ∀ byte, (s.perform (.takeByte byte)).1 = .flag false →
    (s.perform (.takeByte byte)).2.current = s.current
  take_iff : ∀ kind, (s.perform (.take kind)).1 = .taken (.ok true) ↔
    ∃ t : Token, (s.perform .next).1 = .token (.ok (some t)) ∧ t.lexeme.kind = kind
  take_moves : ∀ kind, (s.perform (.take kind)).1 = .taken (.ok true) →
    (s.perform (.take kind)).2.current = (s.perform .next).2.current
  token : ∀ operation t, (s.perform operation).1 = .token (.ok (some t)) →
    s.current.position ≤ t.start ∧ t.StandsIn source

variable {source : String} {s : Session}

theorem sound_start (source : String) : Sound source (start source) :=
  ⟨⟨rfl, Nat.zero_le _⟩, nofun⟩

/-- One operation keeps a session sound. -/
theorem Sound.perform (h : Sound source s) (operation : Operation) :
    Sound source (s.perform operation).2 := by
  obtain ⟨hsource, hinside⟩ := h.current
  cases operation with
  | next =>
      obtain ⟨hsame, -, hnext⟩ := hinside.next
      exact ⟨⟨hsame.trans hsource, hnext⟩, h.saved⟩
  | take kind =>
      obtain ⟨hsame, -, htake⟩ := hinside.take kind
      exact ⟨⟨hsame.trans hsource, htake⟩, h.saved⟩
  | takeByte byte =>
      obtain ⟨hsame, -, hbyte⟩ := hinside.takeByte byte
      exact ⟨⟨hsame.trans hsource, hbyte⟩, h.saved⟩
  | save =>
      refine ⟨h.current, fun c hc => ?_⟩
      rcases List.mem_append.mp hc with hc | hc
      · exact h.saved c hc
      · obtain rfl := List.mem_singleton.mp hc
        exact h.current
  | restore index =>
      refine ⟨?_, h.saved⟩
      cases hcopy : s.saved[index]? with
      | none =>
          simp only [Session.perform, hcopy, Option.getD_none]
          exact h.current
      | some c =>
          simp only [Session.perform, hcopy, Option.getD_some]
          exact h.saved c (List.mem_of_getElem? hcopy)
  | peek | peekByte | remaining | isEmpty => exact h

/-- Any number of operations keep a session sound. -/
theorem Sound.run (h : Sound source s) (operations : List Operation) :
    Sound source (s.run operations) := by
  induction operations generalizing s with
  | nil => exact h
  | cons operation operations ih => exact ih (h.perform operation)

/-- Only going back to a copy moves backwards. -/
theorem Sound.le_position_perform (h : Sound source s) {operation : Operation}
    (hforward : ∀ index, operation ≠ .restore index) :
    s.current.position ≤ (s.perform operation).2.current.position := by
  have hinside := h.current.2
  cases operation with
  | next => exact hinside.next.2.1
  | take kind => exact (hinside.take kind).2.1
  | takeByte byte => exact (hinside.takeByte byte).2.1
  | restore index => exact absurd rfl (hforward index)
  | peek | peekByte | remaining | isEmpty | save => exact Nat.le_refl _

theorem next_eq_of_token {operation : Operation} {t : Token}
    (h : (s.perform operation).1 = .token (.ok (some t))) : s.current.next.1 = .ok (some t) := by
  cases operation with
  | next | peek => exact Answer.token.inj h
  | _ => cases h

theorem Sound.safe (h : Sound source s) : Safe source s := by
  obtain ⟨hsource, hinside⟩ := h.current
  rw [Inside, hsource] at hinside
  refine
    { source_eq := hsource
      position_le := hinside
      length_remaining := ?_
      forward := fun operation hforward => h.le_position_perform hforward
      restore_eq := ?_
      peek_unmoved := rfl
      take_unmoved := ?_
      takeByte_unmoved := ?_
      take_iff := ?_
      take_moves := ?_
      token := ?_ }
  · rw [s.current.length_remaining, hsource]
    omega
  · intro index c hc
    simp only [Session.perform, hc, Option.getD_some]
  · intro kind htake
    exact take_snd_of_ne fun htrue => htake (congrArg Answer.taken htrue)
  · intro byte hbyte
    exact takeByte_snd_of_false (Answer.flag.inj hbyte)
  · intro kind
    simp only [Session.perform, Answer.taken.injEq, Answer.token.injEq]
    exact take_fst_eq_true_iff
  · intro kind htake
    exact take_snd_of_eq (Answer.taken.inj htake)
  · intro operation t ht
    rw [← hsource]
    exact standsIn_of_next (next_eq_of_token ht)

/-- Any use of a cursor is safe. After any operations, some of which may have failed, the cursor is
in the text and what remains of it can be asked for. The next operation moves it backwards only to a
copy, and not at all if it only looks ahead or does not find the token that it was to take. A token
is taken exactly if it is the next one, and it can be cut out of the text, whatever the place at
which the cursor stood. -/
theorem safe_run (source : String) (operations : List Operation) :
    Safe source ((start source).run operations) :=
  ((sound_start source).run operations).safe

-- Inside a character there is an error for each of its remaining bytes, and then a token.
example :
    ((start "é(").run [.takeByte 0xC3, .save, .next]).current.position = 2 ∧
      (((start "é(").run [.takeByte 0xC3, .save, .next, .restore 0]).perform .peek).1 =
        .token (.error (.unexpectedCharacter 1)) ∧
      (((start "é(").run [.takeByte 0xC3, .save, .next]).perform .next).1 =
        .token (.ok (some ⟨.parenLeft, 2⟩)) := by
  decide +kernel

end Session

end Cursor

end QueryExpr
