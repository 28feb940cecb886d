import QueryExpr.Token.Sequence

/-!
# The tokens of a text as a list

Facts about all tokens of a text at once. Each token takes at least one byte of the text, so there
are no more tokens than bytes.
-/

namespace QueryExpr

theorem Text.length_le_byteSize (cs : List Char) : cs.length ≤ byteSize cs := by
  induction cs with
  | nil => exact Nat.le_refl 0
  | cons c cs ih =>
      have hpos := c.utf8Size_pos
      rw [List.length_cons, byteSize_cons]
      omega

theorem Text.byteSize_eq_zero_iff {cs : List Char} : byteSize cs = 0 ↔ cs = [] := by
  constructor
  · intro h
    have hle := length_le_byteSize cs
    exact List.length_eq_zero_iff.mp (by omega)
  · rintro rfl
    rfl

namespace Lexed

theorem length_tokens_le (position : Nat) (cs : List Char) :
    (ofChars position cs).tokens.length ≤ cs.length := by
  cases h : Reading.ofChars position cs with
  | finished stop =>
      rw [ofChars_of_finished h]
      exact Nat.zero_le _
  | failed error stop =>
      rw [ofChars_of_failed h]
      exact Nat.zero_le _
  | token t rest =>
      have hlt := Reading.length_lt_of_ofChars h
      have htail := length_tokens_le t.stop rest
      rw [ofChars_of_token h, tokens_cons, List.length_cons]
      omega
termination_by cs.length

/-- A text has no more tokens than bytes. -/
theorem length_tokens_le_utf8ByteSize (s : String) :
    (ofText s).tokens.length ≤ s.utf8ByteSize := by
  rw [← Text.byteSize_toList]
  exact Nat.le_trans (length_tokens_le 0 s.toList) (Text.length_le_byteSize s.toList)

end Lexed

end QueryExpr
