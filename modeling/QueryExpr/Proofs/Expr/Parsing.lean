import Mathlib.Control.Monad.Basic
import QueryExpr.Proofs.Expr.Invariant
import QueryExpr.Proofs.Token.Sequence

/-!
# What parses, and to which tree

Parsing accepts exactly the texts whose tokens are the yield of a canonical tree that fits in the
limit, and that tree is the result. Nothing else about a text matters: not its blanks, except where
a sign touches digits, and not where its tokens stand.

A limit as great as the text is long never plays a part, since every level takes a token. In general
the limit is compared with the levels of the tree, which may be fewer than its height.
-/

namespace QueryExpr.Expr

variable {limit : Nat} {text : String} {t : Expr}

/-- The yield of a canonical tree parses to this tree, unless too many levels are open at once. -/
theorem ofLexed_of_yields {l : Lexed} (hlexed : l.error = none) (hyields : t.Yields l.tokens)
    (hcanonical : t.Canonical) (limit : Nat) :
    ofLexed limit l = if t.levels ≤ limit then .ok t else .error (.nestingTooDeep limit) := by
  obtain ⟨first, rest, htokens, _⟩ := hyields.exists_cons
  have hrun := ParseState.takes_of_canonical limit hcanonical hyields (Frame.accepts_nil t)
    (Nat.zero_le limit)
  rw [Nat.zero_add] at hrun
  rw [ofLexed, hlexed, htokens]
  rw [htokens] at hrun
  change (ParseState.run limit ParseState.initial (first :: rest) >>= fun s => s.finish _) = _
  rw [ParseState.initial, hrun]
  by_cases hle : t.levels ≤ limit
  · rw [ParseState.within_of_le hle, if_pos hle]
    exact ParseState.finish_after hcanonical _
  · rw [ParseState.within, if_neg hle, if_neg hle]
    rfl

theorem parseWithin_of_yields (hlexed : (Lexed.ofText text).error = none)
    (hyields : t.Yields (Lexed.ofText text).tokens) (hcanonical : t.Canonical) (limit : Nat) :
    parseWithin limit text =
      if t.levels ≤ limit then .ok t else .error (.nestingTooDeep limit) :=
  ofLexed_of_yields hlexed hyields hcanonical limit

theorem exists_run_of_ofLexed {l : Lexed} (h : ofLexed limit l = .ok t) :
    l.error = none ∧
      ∃ s, ParseState.run limit ParseState.initial l.tokens = .ok s ∧
        s.finish l.position = .ok t := by
  obtain ⟨tokens, error, position⟩ := l
  simp only [ofLexed] at h
  split at h
  · cases h
  · cases hrun : ParseState.run limit ParseState.initial tokens with
    | error => rw [hrun] at h; cases h
    | ok s =>
        rw [hrun] at h
        cases error with
        | none => exact ⟨rfl, s, rfl, h⟩
        | some error => cases h

/-- Tokens that parse come without a lexical error and are the yield of their tree. -/
theorem yields_of_ofLexed {l : Lexed} (h : ofLexed limit l = .ok t) :
    l.error = none ∧ t.Yields l.tokens ∧ t.Canonical := by
  obtain ⟨herror, s, hrun, hfinish⟩ := exists_run_of_ofLexed h
  have hread : s.Read l.tokens := (ParseState.Read.operand .nil).run hrun
  exact ⟨herror, hread.finish hfinish⟩

theorem yields_of_parseWithin (h : parseWithin limit text = .ok t) :
    (Lexed.ofText text).error = none ∧ t.Yields (Lexed.ofText text).tokens ∧ t.Canonical :=
  yields_of_ofLexed h

/-- A text that parses at all parses to the same tree under every limit that fits its levels, and
under no other. -/
theorem parseWithin_of_parseWithin {n : Nat} (h : parseWithin n text = .ok t) (limit : Nat) :
    parseWithin limit text =
      if t.levels ≤ limit then .ok t else .error (.nestingTooDeep limit) := by
  obtain ⟨hlexed, hyields, hcanonical⟩ := yields_of_parseWithin h
  exact parseWithin_of_yields hlexed hyields hcanonical limit

/-- Whether a limit is exceeded depends on the tree of a text alone, and the levels of the tree say
when. Under a limit that fits them the text parses to the tree, and under any smaller limit the only
error is that it nests too deeply. -/
theorem limit_exceeded_by_levels {n : Nat} (h : parseWithin n text = .ok t) (limit : Nat) :
    (t.levels ≤ limit → parseWithin limit text = .ok t) ∧
      (limit < t.levels → parseWithin limit text = .error (.nestingTooDeep limit)) := by
  constructor
  · intro hle
    rw [parseWithin_of_parseWithin h, if_pos hle]
  · intro hlt
    rw [parseWithin_of_parseWithin h, if_neg (Nat.not_le_of_lt hlt)]

/-- The right operand of the comparison is read with three operators open, and its call and its
parenthesis open two levels more. The parenthesis on the left is closed by then. -/
theorem limit_exceeded_by_levels_mixed :
    parseWithin 9 "(a)*b+c==f(1, (2))" =
        .ok (.binary .eq
          (.binary .add (.binary .mul (.paren (.attr "a")) (.attr "b")) (.attr "c"))
          (.call "f" [.number "1", .paren (.number "2")])) ∧
      levels (.binary .eq
          (.binary .add (.binary .mul (.paren (.attr "a")) (.attr "b")) (.attr "c"))
          (.call "f" [.number "1", .paren (.number "2")])) = 5 ∧
      parseWithin 5 "(a)*b+c==f(1, (2))" =
        .ok (.binary .eq
          (.binary .add (.binary .mul (.paren (.attr "a")) (.attr "b")) (.attr "c"))
          (.call "f" [.number "1", .paren (.number "2")])) ∧
      parseWithin 4 "(a)*b+c==f(1, (2))" = .error (.nestingTooDeep 4) := by
  have hparse : parseWithin 9 "(a)*b+c==f(1, (2))" =
      .ok (.binary .eq
        (.binary .add (.binary .mul (.paren (.attr "a")) (.attr "b")) (.attr "c"))
        (.call "f" [.number "1", .paren (.number "2")])) := by
    decide +kernel
  exact ⟨hparse, by decide, (limit_exceeded_by_levels hparse 5).1 (by decide),
    (limit_exceeded_by_levels hparse 4).2 (by decide)⟩

/-- A limit lets no tree pass whose levels exceed it. -/
theorem levels_le_of_parseWithin (h : parseWithin limit text = .ok t) : t.levels ≤ limit := by
  have hparse := parseWithin_of_parseWithin h limit
  rw [h] at hparse
  split at hparse
  · next hle => exact hle
  · cases hparse

/-- How high the trees can be that a limit lets pass. -/
theorem two_mul_height_le_of_parseWithin (h : parseWithin limit text = .ok t) :
    2 * t.height ≤ limit * (limit + 3) := by
  have hlevels := levels_le_of_parseWithin h
  have hchain := chain_le_levels t
  calc 2 * t.height
      ≤ t.levels * (t.levels + 1) + 2 * t.chain := two_mul_height_le t
    _ ≤ t.levels * (t.levels + 1) + 2 * t.levels := by omega
    _ = t.levels * (t.levels + 3) := by ring
    _ ≤ limit * (limit + 3) := Nat.mul_le_mul hlevels (by omega)

/-- The limit bounds the height of a tree only as far as the levels of the tree do. From as many
levels as the tree has up to its height, a limit lets the tree pass although it is higher. -/
theorem height_le_limit_iff {n : Nat} (h : parseWithin n text = .ok t) :
    (∀ limit, (parseWithin limit text = .ok t → t.height ≤ limit) ↔
        limit < t.levels ∨ t.height ≤ limit) ∧
      ((∀ limit, parseWithin limit text = .ok t → t.height ≤ limit) ↔ t.height ≤ t.levels) := by
  have hparse := parseWithin_of_parseWithin h
  have hok : ∀ limit, parseWithin limit text = .ok t ↔ t.levels ≤ limit := by
    intro limit
    rw [hparse]
    split <;> simp_all
  simp only [hok]
  constructor
  · intro limit
    omega
  · constructor
    · exact fun hall => hall t.levels (Nat.le_refl _)
    · exact fun hle limit hlevels => Nat.le_trans hle hlevels

theorem height_le_limit_iff_parenthesized :
    parseWithin 1 "(a)+b" = .ok (.binary .add (.paren (.attr "a")) (.attr "b")) ∧
      (∀ limit,
        (parseWithin limit "(a)+b" = .ok (.binary .add (.paren (.attr "a")) (.attr "b")) →
            height (.binary .add (.paren (.attr "a")) (.attr "b")) ≤ limit) ↔
          limit < levels (.binary .add (.paren (.attr "a")) (.attr "b")) ∨
            height (.binary .add (.paren (.attr "a")) (.attr "b")) ≤ limit) ∧
      ((∀ limit,
        parseWithin limit "(a)+b" = .ok (.binary .add (.paren (.attr "a")) (.attr "b")) →
          height (.binary .add (.paren (.attr "a")) (.attr "b")) ≤ limit) ↔
        height (.binary .add (.paren (.attr "a")) (.attr "b")) ≤
          levels (.binary .add (.paren (.attr "a")) (.attr "b"))) := by
  have hparse : parseWithin 1 "(a)+b" =
      .ok (.binary .add (.paren (.attr "a")) (.attr "b")) := by
    decide +kernel
  exact ⟨hparse, height_le_limit_iff hparse⟩

/-- Parentheses around the first operand of a chain are closed before the chain begins, so a limit
of one lets a tree of height two pass. -/
theorem height_exceeds_limit :
    ¬ ∀ (text : String) (limit : Nat) (t : Expr),
      parseWithin limit text = .ok t → t.height ≤ limit := by
  intro h
  have hparse : parseWithin 1 "(a)+b" = .ok (.binary .add (.paren (.attr "a")) (.attr "b")) := by
    decide +kernel
  have hheight := h _ _ _ hparse
  simp [height] at hheight

end QueryExpr.Expr
