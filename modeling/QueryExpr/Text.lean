/-!
# Characters, blanks and byte offsets

Expression text is read character by character, but every position that a caller sees is an offset
into the UTF-8 encoding. This file relates the two: the encoded size of a list of characters, and
the characters that remain from a given offset on. An offset may fall inside a character; nothing
remains to be read there.
-/

namespace QueryExpr.Text

/-- The characters that may stand between tokens: tab, line feed, form feed, carriage return and
space. The vertical tab is not one of them. -/
def isBlank (c : Char) : Bool :=
  c == '\t' || c == '\n' || c == '\x0c' || c == '\r' || c == ' '

/-- The number of bytes that the characters take in UTF-8. -/
def byteSize : List Char → Nat
  | [] => 0
  | c :: cs => c.utf8Size + byteSize cs

@[simp] theorem byteSize_nil : byteSize [] = 0 := rfl

@[simp] theorem byteSize_cons (c : Char) (cs : List Char) :
    byteSize (c :: cs) = c.utf8Size + byteSize cs := rfl

@[simp] theorem byteSize_append (cs ds : List Char) :
    byteSize (cs ++ ds) = byteSize cs + byteSize ds := by
  induction cs with
  | nil => simp
  | cons c cs ih => simp [ih, Nat.add_assoc]

/-- The size of a string is the size of its characters. -/
theorem utf8ByteSize_ofList (cs : List Char) : (String.ofList cs).utf8ByteSize = byteSize cs := by
  induction cs with
  | nil => rfl
  | cons c cs ih => simp [String.ofList_cons, ih]

theorem byteSize_toList (s : String) : byteSize s.toList = s.utf8ByteSize := by
  rw [← utf8ByteSize_ofList, String.ofList_toList]

/-- The characters from byte `offset` on, or `none` if that offset is inside a character or past
the end. -/
def dropBytes? : (offset : Nat) → List Char → Option (List Char)
  | 0, cs => some cs
  | _ + 1, [] => none
  | offset + 1, c :: cs =>
    if c.utf8Size ≤ offset + 1 then dropBytes? (offset + 1 - c.utf8Size) cs else none

/-- An offset has something after it exactly when it is the size of some first part of the text. -/
theorem dropBytes?_eq_some_iff {offset : Nat} {cs rest : List Char} :
    dropBytes? offset cs = some rest ↔ ∃ front, cs = front ++ rest ∧ byteSize front = offset := by
  induction cs generalizing offset with
  | nil =>
    cases offset with
    | zero =>
      simp only [dropBytes?, Option.some.injEq]
      constructor
      · rintro rfl
        exact ⟨[], rfl, rfl⟩
      · rintro ⟨front, h, _⟩
        exact (List.append_eq_nil_iff.mp h.symm).2.symm
    | succ n =>
      simp only [dropBytes?, reduceCtorEq, false_iff]
      rintro ⟨front, h, hs⟩
      rw [(List.append_eq_nil_iff.mp h.symm).1] at hs
      simp at hs
  | cons c cs ih =>
    cases offset with
    | zero =>
      simp only [dropBytes?, Option.some.injEq]
      constructor
      · rintro rfl
        exact ⟨[], rfl, rfl⟩
      · rintro ⟨front, h, hs⟩
        cases front with
        | nil => exact h
        | cons d front =>
          have := d.utf8Size_pos
          simp at hs
          omega
    | succ n =>
      simp only [dropBytes?]
      constructor
      · intro h
        split at h
        · obtain ⟨front, rfl, hs⟩ := ih.mp h
          exact ⟨c :: front, rfl, by simp; omega⟩
        · cases h
      · rintro ⟨front, h, hs⟩
        cases front with
        | nil => simp at hs
        | cons d front =>
          obtain ⟨rfl, rfl⟩ := List.cons.inj h
          simp only [byteSize_cons] at hs
          rw [if_pos (by omega)]
          exact ih.mpr ⟨front, rfl, by omega⟩

/-- Whether two strings differ at most in the case of ASCII letters. -/
def sameIgnoringCase (s t : String) : Bool :=
  s.toList.map Char.toLower == t.toList.map Char.toLower

/-- The text between two offsets, both taken at character boundaries; empty if either is not one. -/
def slice (s : String) (start stop : Nat) : String :=
  match dropBytes? start s.toList, dropBytes? stop s.toList with
  | some tail, some after => String.ofList (tail.take (tail.length - after.length))
  | _, _ => ""

end QueryExpr.Text
