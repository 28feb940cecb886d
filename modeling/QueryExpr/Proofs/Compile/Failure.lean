import QueryExpr.Proofs.Compile.Success

/-!
# What failed compilation met

A leaf that cannot be compiled says why in its error. An attribute fails for one reason, and a
reference for one of two: there is no relationship of that name, or there is one that cannot be used
in this way. One lemma for each of them says when it fails and with which error.
-/

namespace QueryExpr

theorem bind_eq_error_iff {ε α β : Type} {x : Except ε α} {f : α → Except ε β} {error : ε} :
    x >>= f = .error error ↔ x = .error error ∨ ∃ a, x = .ok a ∧ f a = .error error := by
  cases x with
  | error failure =>
      constructor
      · intro h
        cases h
        exact .inl rfl
      · rintro (h | ⟨a, hok, -⟩)
        · cases h
          rfl
        · cases hok
  | ok a =>
      constructor
      · intro h
        exact .inr ⟨a, rfl, h⟩
      · rintro (herror | ⟨b, hok, h⟩)
        · cases herror
        · cases hok
          exact h

namespace Expr

variable {σ : Type} [QueryContext σ] {context : σ} {error : CompileError}

theorem relationshipNamed_eq_error_iff {name : String} :
    relationshipNamed name context = .error error ↔
      QueryContext.relationship? context name = none ∧ .invalidRelationship name = error := by
  rw [relationshipNamed]
  cases QueryContext.relationship? context name with
  | none => rw [Except.error.injEq, eq_self, true_and]
  | some r =>
      constructor
      · intro herror
        cases herror
      · rintro ⟨hnone, -⟩
        cases hnone

theorem relationshipNamed_eq_ok_iff {name : String} {r : Relationship} :
    relationshipNamed name context = .ok r ↔ QueryContext.relationship? context name = some r :=
  ⟨relationshipNamed_eq_ok, relationshipNamed_of_relationship?⟩

theorem compileAttribute_eq_error_iff {name : String} :
    compileAttribute name context = .error error ↔
      ¬ QueryContext.hasAttribute context name = true ∧ .invalidAttribute name = error := by
  rw [compileAttribute]
  constructor
  · intro herror
    split at herror
    · cases herror
    · next h =>
      cases herror
      exact ⟨h, rfl⟩
  · rintro ⟨h, rfl⟩
    exact if_neg h

theorem compileRelated_eq_error_iff {relationship column : String} :
    compileRelated relationship column context = .error error ↔
      QueryContext.relationship? context relationship = none ∧
          .invalidRelationship relationship = error ∨
        ∃ r, QueryContext.relationship? context relationship = some r ∧ r.kind ≠ .belongsTo ∧
          r.kind ≠ .hasOne ∧ .wrongKind r.name r.kind = error := by
  rw [compileRelated, bind_eq_error_iff]
  refine or_congr relationshipNamed_eq_error_iff
    (exists_congr fun r => and_congr relationshipNamed_eq_ok_iff ?_)
  constructor
  · intro herror
    split at herror
    · cases herror
    · cases herror
    · next hbelongs hone =>
      cases herror
      exact ⟨hbelongs, hone, rfl⟩
  · rintro ⟨hbelongs, hone, rfl⟩
    split
    · next hkind => exact absurd hkind hbelongs
    · next hkind => exact absurd hkind hone
    · rfl

theorem compileCount_eq_error_iff {relationship : String} :
    compileCount relationship context = .error error ↔
      QueryContext.relationship? context relationship = none ∧
          .invalidRelationship relationship = error ∨
        ∃ r, QueryContext.relationship? context relationship = some r ∧ r.kind ≠ .hasMany ∧
          .wrongKind r.name r.kind = error := by
  rw [compileCount, bind_eq_error_iff]
  refine or_congr relationshipNamed_eq_error_iff
    (exists_congr fun r => and_congr relationshipNamed_eq_ok_iff ?_)
  constructor
  · intro herror
    split at herror
    · cases herror
    · next hmany =>
      cases herror
      exact ⟨hmany, rfl⟩
  · rintro ⟨hmany, rfl⟩
    split
    · next hkind => exact absurd hkind hmany
    · rfl

end Expr

end QueryExpr
