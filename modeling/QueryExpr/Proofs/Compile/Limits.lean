import QueryExpr.Proofs.Compile.Fragment
import QueryExpr.Proofs.Expr.Limit

/-!
# Limits only reject

Whoever lowers a limit gets fewer results and no other ones. A text that is short enough and does
not nest too deeply compiles as it did before, or fails with the error that it failed with before.
Every other text is rejected with an error that says which limit it exceeds.
-/

namespace QueryExpr

/-- The error says that the text exceeds a limit. -/
def CompileError.IsLimit : CompileError → Prop
  | tooLong .. | parse (.nestingTooDeep _) => True
  | _ => False

namespace Limits

/-- No limit of `o` is greater than that of `p`. Any limit is less than none. -/
structure Tightens (o p : Limits) : Prop where
  depth : o.maxDepth ≤ p.maxDepth
  length : ∀ n, p.maxLength = some n → ∃ m, o.maxLength = some m ∧ m ≤ n

/-- The text has no more bytes than the limits allow. -/
def AllowsLength (limits : Limits) (text : String) : Prop :=
  ∀ n, limits.maxLength = some n → text.utf8ByteSize ≤ n.toNat

theorem allowsLength_of_eq_none {limits : Limits} (h : limits.maxLength = none) (text : String) :
    limits.AllowsLength text := by
  intro n hn
  rw [h] at hn
  cases hn

theorem allowsLength_or (limits : Limits) (text : String) :
    limits.AllowsLength text ∨ ∃ n, limits.maxLength = some n ∧ n.toNat < text.utf8ByteSize := by
  cases hmax : limits.maxLength with
  | none => exact .inl (allowsLength_of_eq_none hmax text)
  | some m =>
      rcases Nat.lt_or_ge m.toNat text.utf8ByteSize with hlt | hle
      · exact .inr ⟨m, rfl, hlt⟩
      · left
        intro n hn
        rw [hmax] at hn
        cases hn
        exact hle

theorem Tightens.allowsLength {o p : Limits} (h : o.Tightens p) {text : String}
    (hlength : o.AllowsLength text) : p.AllowsLength text := by
  intro n hn
  obtain ⟨m, hm, hle⟩ := h.length n hn
  exact Nat.le_trans (hlength m hm) (UInt64.le_iff_toNat_le.mp hle)

theorem checkLength_of_lt {limits : Limits} {text : String} {n : UInt64}
    (hn : limits.maxLength = some n) (h : n.toNat < text.utf8ByteSize) :
    limits.checkLength text = .error (.tooLong text.utf8ByteSize n.toNat) := by
  simp only [checkLength, hn, if_pos h]

theorem AllowsLength.checkLength {limits : Limits} {text : String}
    (h : limits.AllowsLength text) : limits.checkLength text = .ok () := by
  rw [Limits.checkLength]
  split
  · rfl
  · next n hn => exact if_neg (Nat.not_lt.mpr (h n hn))

end Limits

variable {σ : Type} [QueryContext σ]

theorem compileWithin_of_allowsLength {limits : Limits} {text : String}
    (h : limits.AllowsLength text) (context : σ) :
    compileWithin limits text context =
      match Expr.parseWithin limits.maxDepth.toNat text with
      | .error error => .error (.parse error)
      | .ok tree => tree.compile context := by
  rw [compileWithin, h.checkLength]
  rfl

theorem compileWithin_of_lt {limits : Limits} {text : String} {n : UInt64}
    (hn : limits.maxLength = some n) (h : n.toNat < text.utf8ByteSize) (context : σ) :
    compileWithin limits text context = .error (.tooLong text.utf8ByteSize n.toNat) := by
  rw [compileWithin, Limits.checkLength_of_lt hn h]
  rfl

/-- A text of the allowed length gives the same result under tighter limits, or it nests too deeply
for them. -/
theorem Limits.Tightens.compileWithin_eq_or {o p : Limits} (h : o.Tightens p) {text : String}
    (hlength : o.AllowsLength text) (context : σ) :
    compileWithin o text context = compileWithin p text context ∨
      compileWithin o text context = .error (.parse (.nestingTooDeep o.maxDepth.toNat)) := by
  rw [compileWithin_of_allowsLength hlength,
    compileWithin_of_allowsLength (h.allowsLength hlength)]
  rcases Expr.cutOff_parseWithin (UInt64.le_iff_toNat_le.mp h.depth) text with hparse | hparse
  · exact .inl (by rw [hparse])
  · exact .inr (by rw [hparse])

/-- Whatever the text is, under tighter limits it gives the same result or exceeds a limit. -/
theorem Limits.Tightens.eq_or_isLimit {o p : Limits} (h : o.Tightens p) (text : String)
    (context : σ) :
    compileWithin o text context = compileWithin p text context ∨
      ∃ error, compileWithin o text context = .error error ∧ error.IsLimit := by
  rcases o.allowsLength_or text with hlength | ⟨n, hn, hlt⟩
  · rcases h.compileWithin_eq_or hlength context with hsame | hdeep
    · exact .inl hsame
    · exact .inr ⟨_, hdeep, trivial⟩
  · exact .inr ⟨_, compileWithin_of_lt hn hlt context, trivial⟩

/-- Limits only reject. A text that is too long for the tighter limits fails for that reason. Any
other text gives what it gives under the looser limits, or it nests too deeply for the tighter ones.
So a result stays as it is or becomes an error about a limit, and an error stays as it is or becomes
an error about a limit. -/
theorem Limits.Tightens.only_rejects {o p : Limits} (h : o.Tightens p) (text : String)
    (context : σ) :
    (∀ n, o.maxLength = some n → n.toNat < text.utf8ByteSize →
        compileWithin o text context = .error (.tooLong text.utf8ByteSize n.toNat)) ∧
      ((∀ n, o.maxLength = some n → text.utf8ByteSize ≤ n.toNat) →
        compileWithin o text context = compileWithin p text context ∨
          compileWithin o text context = .error (.parse (.nestingTooDeep o.maxDepth.toNat))) ∧
      (∀ result, compileWithin p text context = .ok result →
        compileWithin o text context = .ok result ∨
          ∃ error, compileWithin o text context = .error error ∧ error.IsLimit) ∧
      ∀ error, compileWithin p text context = .error error →
        ∃ other, compileWithin o text context = .error other ∧
          (other = error ∨ other.IsLimit) := by
  refine ⟨?_, fun hlength => h.compileWithin_eq_or hlength context, ?_, ?_⟩
  · intro n hn hlt
    exact compileWithin_of_lt hn hlt context
  · intro result hresult
    rw [← hresult]
    exact h.eq_or_isLimit text context
  · intro error herror
    rcases h.eq_or_isLimit text context with hsame | ⟨other, hother, hlimit⟩
    · exact ⟨error, hsame.trans herror, .inl rfl⟩
    · exact ⟨other, hother, .inr hlimit⟩

theorem Limits.Tightens.only_rejects_nested :
    Limits.Tightens { maxLength := some 4, maxDepth := 0 } { maxDepth := 1 } ∧
      (∀ n, (some 4 : Option UInt64) = some n → "(id)".utf8ByteSize ≤ n.toNat) ∧
      ∃ after, compileWithin { maxDepth := 1 } "(id)" (Schema.shopOrders .postgres) =
          .ok ("(orders.id)", after) ∧
        (compileWithin { maxLength := some 4, maxDepth := 0 } "(id)"
            (Schema.shopOrders .postgres) = .ok ("(orders.id)", after) ∨
          ∃ error, compileWithin { maxLength := some 4, maxDepth := 0 } "(id)"
            (Schema.shopOrders .postgres) = .error error ∧ error.IsLimit) ∧
        (compileWithin { maxLength := some 4, maxDepth := 0 } "(id)"
            (Schema.shopOrders .postgres) =
              compileWithin { maxDepth := 1 } "(id)" (Schema.shopOrders .postgres) ∨
          compileWithin { maxLength := some 4, maxDepth := 0 } "(id)"
            (Schema.shopOrders .postgres) = .error (.parse (.nestingTooDeep 0))) := by
  have htightens : Limits.Tightens { maxLength := some 4, maxDepth := 0 } { maxDepth := 1 } :=
    ⟨by decide, nofun⟩
  have hlength (n : UInt64) (hn : (some 4 : Option UInt64) = some n) :
      "(id)".utf8ByteSize ≤ n.toNat := by
    cases hn
    decide
  have hfragment : (compileWithin { maxDepth := 1 } "(id)"
      (Schema.shopOrders .postgres)).map Prod.fst = .ok "(orders.id)" := by
    decide +kernel
  obtain ⟨after, hcompile⟩ := exists_of_map_fst_eq_ok hfragment
  obtain ⟨-, hdepth, hresult, -⟩ :=
    htightens.only_rejects "(id)" (Schema.shopOrders .postgres)
  exact ⟨htightens, hlength, after, hcompile, hresult _ hcompile, hdepth hlength⟩

end QueryExpr
