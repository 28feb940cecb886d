import Mathlib.Data.List.Chain
import QueryExpr.Proofs.Expr.Spelling
import QueryExpr.Proofs.Sql.Part

/-!
# Harmless text

The text outside of string literals is harmless if it has only the characters that expressions need,
closes the parentheses that it opens and no others, and begins no comment. Such text stays harmless
when a connective joins it with more of it and when parentheses enclose it, since connectives bring
their own blanks.
-/

namespace QueryExpr.Sql

/-- The characters that a fragment can have outside of string literals. -/
def isPlain (c : Char) : Bool :=
  c.isAlphanum || c ∈ [' ', '_', '.', '+', '-', '*', '/', '<', '>', '=', '!', '|', '(', ')']

/-- The characters of names and numbers. -/
def isWordChar (c : Char) : Bool :=
  c.isAlphanum || c == '_' || c == '.' || c == '+' || c == '-'

/-- As many parentheses are closed as are opened, and none before it is opened. -/
structure Balanced (cs : List Char) : Prop where
  total : cs.count '(' = cs.count ')'
  front : ∀ front, front <+: cs → front.count ')' ≤ front.count '('

/-- No two characters in a row begin a comment. -/
def CommentFree (cs : List Char) : Prop :=
  cs.IsChain fun c e => ¬ (c = '-' ∧ e = '-') ∧ ¬ (c = '/' ∧ e = '*')

/-- Text that does no harm outside of string literals. -/
structure Harmless (cs : List Char) : Prop where
  plain : ∀ c ∈ cs, isPlain c = true
  balanced : Balanced cs
  commentFree : CommentFree cs

variable {cs ds : List Char}

/-! ## Parentheses -/

theorem balanced_of_not_mem (hopening : '(' ∉ cs) (hclosing : ')' ∉ cs) : Balanced cs where
  total := by rw [List.count_eq_zero.mpr hopening, List.count_eq_zero.mpr hclosing]
  front := by
    intro front hfront
    have hnone : ')' ∉ front := fun hmem => hclosing (hfront.subset hmem)
    rw [List.count_eq_zero.mpr hnone]
    exact Nat.zero_le _

theorem Balanced.append (hcs : Balanced cs) (hds : Balanced ds) : Balanced (cs ++ ds) where
  total := by rw [List.count_append, List.count_append, hcs.total, hds.total]
  front := by
    intro front hfront
    rcases List.prefix_or_prefix_of_prefix hfront (List.prefix_append cs ds) with h | ⟨more, rfl⟩
    · exact hcs.front front h
    · have hmore := hds.front more ((List.prefix_append_right_inj cs).mp hfront)
      rw [List.count_append, List.count_append, hcs.total]
      omega

theorem Balanced.enclosed (h : Balanced cs) : Balanced ('(' :: (cs ++ [')'])) where
  total := by simp [List.count_append, h.total]
  front := by
    intro front hfront
    cases front with
    | nil => exact Nat.le_refl 0
    | cons c front =>
        obtain ⟨rfl, htail⟩ := List.cons_prefix_cons.mp hfront
        rcases List.prefix_concat_iff.mp htail with rfl | hinner
        · simp [List.count_append, h.total]
        · have hle := h.front front hinner
          simp only [List.count_cons, beq_self_eq_true, if_true]
          simp
          omega

/-! ## Comments -/

theorem CommentFree.not_infix_minus (h : CommentFree cs) : ¬ ['-', '-'] <:+: cs := by
  intro hinfix
  have hpair := List.IsChain.infix h hinfix
  exact (List.isChain_cons_cons.mp hpair).1.1 ⟨rfl, rfl⟩

theorem CommentFree.not_infix_slash (h : CommentFree cs) : ¬ ['/', '*'] <:+: cs := by
  intro hinfix
  have hpair := List.IsChain.infix h hinfix
  exact (List.isChain_cons_cons.mp hpair).1.2 ⟨rfl, rfl⟩

/-- A character that no comment begins with can come before any text. -/
theorem CommentFree.cons {c : Char} (h : CommentFree cs) (hminus : c ≠ '-') (hslash : c ≠ '/') :
    CommentFree (c :: cs) :=
  List.IsChain.cons h fun _ _ => ⟨fun heq => hminus heq.1, fun heq => hslash heq.1⟩

theorem CommentFree.append (hds : CommentFree ds) (hcs : ∀ c ∈ cs, c ≠ '-' ∧ c ≠ '/') :
    CommentFree (cs ++ ds) := by
  induction cs with
  | nil => exact hds
  | cons c cs ih =>
      obtain ⟨hminus, hslash⟩ := hcs c (by simp)
      exact (ih fun e he => hcs e (by simp [he])).cons hminus hslash

theorem commentFree_of_forall (h : ∀ c ∈ cs, c ≠ '-' ∧ c ≠ '/') : CommentFree cs := by
  have hnil : CommentFree [] := .nil
  simpa using hnil.append h

theorem CommentFree.minus (h : CommentFree cs) (hhead : ∀ c ∈ cs.head?, c ≠ '-') :
    CommentFree ('-' :: cs) := by
  apply List.IsChain.cons h
  intro c hc
  constructor
  · rintro ⟨_, hminus⟩
    exact hhead c hc hminus
  · rintro ⟨hslash, _⟩
    exact absurd hslash (by decide)

/-- A character that no comment begins or goes on with keeps what is around it apart. -/
theorem CommentFree.between {c : Char} (hcs : CommentFree cs) (hds : CommentFree ds)
    (hminus : c ≠ '-') (hslash : c ≠ '/') (hstar : c ≠ '*') : CommentFree (cs ++ c :: ds) := by
  apply List.IsChain.append hcs (hds.cons hminus hslash)
  intro e _ f hf
  cases hf
  exact ⟨fun heq => hminus heq.2, fun heq => hstar heq.2⟩

/-! ## Numbers -/

theorem ne_of_isDigit {c : Char} (h : c.isDigit = true) : c ≠ '-' ∧ c ≠ '/' := by
  constructor
  · rintro rfl
    exact absurd h (by decide)
  · rintro rfl
    exact absurd h (by decide)

theorem commentFree_of_isDigits (h : Lexeme.IsDigits cs) : CommentFree cs :=
  commentFree_of_forall fun c hc => ne_of_isDigit (h.2 c hc)

theorem isWordChar_of_isNumber (h : Lexeme.IsNumber cs) : ∀ c ∈ cs, isWordChar c = true :=
  h.forall_mem (by simp +contextual [isWordChar, Char.isAlphanum]) (by simp [isWordChar])

/-- The only minus sign in a number stands before the digits of its exponent. -/
theorem commentFree_of_isExponent (h : Lexeme.IsExponent cs) : CommentFree cs := by
  cases h with
  | nil => exact List.IsChain.nil
  | @digits mark sign ds hmark hsign hdigits =>
      have hds : CommentFree ds := commentFree_of_isDigits hdigits
      have hsigned : CommentFree (sign ++ ds) := by
        rcases hsign with rfl | rfl | rfl
        · exact hds
        · exact hds.cons (by decide) (by decide)
        · exact hds.minus fun c hc => (ne_of_isDigit (hdigits.2 c (List.mem_of_mem_head? hc))).1
      refine hsigned.cons ?_ ?_ <;> rcases hmark with rfl | rfl <;> decide

theorem commentFree_of_isNumber (h : Lexeme.IsNumber cs) : CommentFree cs := by
  cases h with
  | parts hinteger hfraction hexponent =>
      have htail := commentFree_of_isExponent hexponent
      refine CommentFree.append ?_ fun c hc => ne_of_isDigit (hinteger.isDigits.2 c hc)
      cases hfraction with
      | nil => exact htail
      | digits hdigits =>
          refine CommentFree.cons ?_ (by decide) (by decide)
          exact htail.append fun c hc => ne_of_isDigit (hdigits.2 c hc)

theorem isWordChar_of_isNumeral (h : Expr.IsNumeral cs) : ∀ c ∈ cs, isWordChar c = true := by
  cases h with
  | plain h => exact isWordChar_of_isNumber h
  | negative h =>
      rw [List.forall_mem_cons]
      exact ⟨by decide, isWordChar_of_isNumber h⟩

theorem commentFree_of_isNumeral (h : Expr.IsNumeral cs) : CommentFree cs := by
  cases h with
  | plain h => exact commentFree_of_isNumber h
  | negative h =>
      obtain ⟨c, tail, rfl, hc⟩ := h.exists_cons
      apply (commentFree_of_isNumber h).minus
      intro e he
      cases he
      exact (ne_of_isDigit hc).1

/-! ## Harmless parts -/

theorem harmless_nil : Harmless [] where
  plain := fun _ hc => absurd hc List.not_mem_nil
  balanced := balanced_of_not_mem List.not_mem_nil List.not_mem_nil
  commentFree := List.IsChain.nil

/-- Names and numbers are harmless as far as they begin no comment. -/
theorem harmless_of_isWordChar (hchars : ∀ c ∈ cs, isWordChar c = true) (hfree : CommentFree cs) :
    Harmless cs where
  plain := by
    intro c hc
    have hword := hchars c hc
    simp only [isWordChar, Bool.or_eq_true, beq_iff_eq] at hword
    rcases hword with (((hc | rfl) | rfl) | rfl) | rfl
    · simp [isPlain, hc]
    all_goals decide
  balanced := by
    apply balanced_of_not_mem
    · intro hmem
      exact absurd (hchars _ hmem) (by decide)
    · intro hmem
      exact absurd (hchars _ hmem) (by decide)
  commentFree := hfree

theorem harmless_symbol (c : Connective) : Harmless c.symbol := by
  have hchars : c.symbol.all isPlain = true ∧ '(' ∉ c.symbol ∧ ')' ∉ c.symbol := by
    cases c with
    | operator op => cases op <;> decide
    | concat => decide
  have hfree : CommentFree c.symbol := by
    cases c with
    | operator op =>
        cases op <;> simp [CommentFree, Connective.symbol, Operator.sql, Operator.symbol]
    | concat => simp [CommentFree, Connective.symbol]
  exact ⟨List.all_eq_true.mp hchars.1, balanced_of_not_mem hchars.2.1 hchars.2.2, hfree⟩

theorem Harmless.blank (hcs : Harmless cs) (hds : Harmless ds) : Harmless (cs ++ ' ' :: ds) where
  plain := by
    simp only [List.forall_mem_append, List.forall_mem_cons]
    exact ⟨hcs.plain, by decide, hds.plain⟩
  balanced := by
    have hblank : Balanced [' '] := balanced_of_not_mem (by decide) (by decide)
    exact hcs.balanced.append (hblank.append hds.balanced)
  commentFree := hcs.commentFree.between hds.commentFree (by decide) (by decide) (by decide)

/-- A connective with its blanks joins harmless text. -/
theorem Harmless.connective (hcs : Harmless cs) (hds : Harmless ds) (c : Connective) :
    Harmless (cs ++ ' ' :: (c.symbol ++ ' ' :: ds)) :=
  hcs.blank ((harmless_symbol c).blank hds)

theorem Harmless.enclosed (h : Harmless cs) : Harmless ('(' :: (cs ++ [')'])) where
  plain := by
    simp only [List.forall_mem_cons, List.forall_mem_append]
    exact ⟨by decide, h.plain, by decide, nofun⟩
  balanced := h.balanced.enclosed
  commentFree := by
    have hclosed : CommentFree (cs ++ [')']) :=
      h.commentFree.between List.IsChain.nil (by decide) (by decide) (by decide)
    exact hclosed.cons (by decide) (by decide)

end QueryExpr.Sql
