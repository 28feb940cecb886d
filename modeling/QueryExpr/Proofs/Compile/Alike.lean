import QueryExpr.Compile.Limits

/-!
# What compilation sees of a context

Compilation learns about a context only by asking it, and changes it only by adding joins. Two
contexts, possibly of different types, can therefore be compared from outside: if related contexts
give the same answers and stay related when the same join is added to both, compiling a text in
either of them yields the same fragment or the same error, and the contexts that are left are
related again.
-/

namespace QueryExpr

variable {σ τ : Type} [QueryContext σ] [QueryContext τ] {alike : σ → τ → Prop}

/-- Contexts that are related this way answer alike and stay related. -/
structure QueryContext.Indistinct (alike : σ → τ → Prop) : Prop where
  table {s : σ} {t : τ} (h : alike s t) : table s = table t
  primaryKey {s : σ} {t : τ} (h : alike s t) : primaryKey s = primaryKey t
  hasAttribute {s : σ} {t : τ} (h : alike s t) (name : String) :
    hasAttribute s name = hasAttribute t name
  relationship? {s : σ} {t : τ} (h : alike s t) (name : String) :
    relationship? s name = relationship? t name
  quote {s : σ} {t : τ} (h : alike s t) (value : String) : quote s value = quote t value
  joinAlong {s : σ} {t : τ} (h : alike s t) (r : Relationship) :
    alike (joinAlong s r) (joinAlong t r)
  joinClause {s : σ} {t : τ} (h : alike s t) (clause : String) :
    alike (joinClause s clause) (joinClause t clause)

/-- The same error, or the same result with related contexts. -/
inductive SameOutcome {σ τ α : Type} (alike : σ → τ → Prop) :
    Except CompileError (α × σ) → Except CompileError (α × τ) → Prop where
  | error (error : CompileError) : SameOutcome alike (.error error) (.error error)
  | ok (a : α) {s : σ} {t : τ} (h : alike s t) : SameOutcome alike (.ok (a, s)) (.ok (a, t))

theorem SameOutcome.bind {σ τ α β : Type} {alike : σ → τ → Prop}
    {x : Except CompileError (α × σ)} {y : Except CompileError (α × τ)}
    {f : α × σ → Except CompileError (β × σ)} {g : α × τ → Except CompileError (β × τ)}
    (h : SameOutcome alike x y)
    (hfg : ∀ a s t, alike s t → SameOutcome alike (f (a, s)) (g (a, t))) :
    SameOutcome alike (x >>= f) (y >>= g) := by
  cases h with
  | error error => exact .error error
  | ok a h => exact hfg a _ _ h

/-- What is read off related contexts in the same way is the same. -/
theorem SameOutcome.map_eq {σ τ α β : Type} {alike : σ → τ → Prop}
    {x : Except CompileError (α × σ)} {y : Except CompileError (α × τ)} {f : σ → β} {g : τ → β}
    (h : SameOutcome alike x y) (hfg : ∀ s t, alike s t → f s = g t) :
    x.map (fun (a, s) => (a, f s)) = y.map (fun (a, t) => (a, g t)) := by
  cases h with
  | error error => rfl
  | @ok a s t h => exact congrArg (fun b => Except.ok (a, b)) (hfg s t h)

namespace Expr

variable {s : σ} {t : τ}

theorem sameOutcome_compileAll {es : List Expr}
    (each : ∀ e ∈ es, ∀ {s : σ} {t : τ}, alike s t →
      SameOutcome alike (compile e s) (compile e t)) (h : alike s t) :
    SameOutcome alike (compileAll es s) (compileAll es t) := by
  induction es generalizing s t with
  | nil => exact .ok [] h
  | cons e es ih =>
      rw [compileAll, compileAll]
      refine (each e (by simp) h).bind fun sql s t h => ?_
      refine (ih (fun f hf => each f (by simp [hf])) h).bind fun parts s t h => ?_
      exact .ok (sql :: parts) h

variable (halike : QueryContext.Indistinct alike)

include halike

theorem relationshipNamed_eq_of_alike (h : alike s t) (name : String) :
    relationshipNamed name s = relationshipNamed name t := by
  rw [relationshipNamed, relationshipNamed, halike.relationship? h]

theorem sameOutcome_compileAttribute (h : alike s t) (name : String) :
    SameOutcome alike (compileAttribute name s) (compileAttribute name t) := by
  rw [compileAttribute, compileAttribute, halike.hasAttribute h, halike.table h]
  split
  · exact .ok _ h
  · exact .error _

theorem sameOutcome_compileRelated (h : alike s t) (relationship column : String) :
    SameOutcome alike (compileRelated relationship column s)
      (compileRelated relationship column t) := by
  rw [compileRelated, compileRelated, relationshipNamed_eq_of_alike halike h]
  cases relationshipNamed relationship t with
  | error error => exact .error error
  | ok r =>
      -- Both sides go on with the same relationship, so its kind decides for both.
      obtain ⟨name, kind, target, key, primary⟩ := r
      cases kind with
      | belongsTo | hasOne => exact .ok _ (halike.joinAlong h _)
      | _ => exact .error _

theorem sameOutcome_compileCount (h : alike s t) (relationship : String) :
    SameOutcome alike (compileCount relationship s) (compileCount relationship t) := by
  rw [compileCount, compileCount, relationshipNamed_eq_of_alike halike h]
  cases relationshipNamed relationship t with
  | error error => exact .error error
  | ok r =>
      obtain ⟨name, kind, target, key, primary⟩ := r
      rw [halike.table h, halike.primaryKey h]
      cases kind with
      | hasMany => exact .ok _ (halike.joinClause h _)
      | _ => exact .error _

/-- Every tree compiles to the same in related contexts. -/
theorem sameOutcome_compile (e : Expr) (h : alike s t) :
    SameOutcome alike (compile e s) (compile e t) := by
  induction e using Expr.induction generalizing s t with
  | paren inner ih =>
      rw [compile, compile]
      exact (ih h).bind fun sql s t h => .ok _ h
  | binary op left right ihleft ihright =>
      rw [compile, compile]
      refine (ihleft h).bind fun lhs s t h => ?_
      exact (ihright h).bind fun rhs s t h => .ok _ h
  | call name arguments ih =>
      rw [compile, compile]
      cases Function.ofName? name with
      | none => exact .error _
      | some f =>
          exact (sameOutcome_compileAll ih h).bind fun parts s t h => .ok _ h
  | attr name => exact sameOutcome_compileAttribute halike h name
  | related relationship column => exact sameOutcome_compileRelated halike h relationship column
  | count relationship => exact sameOutcome_compileCount halike h relationship
  | string raw =>
      rw [compile, compile, halike.quote h]
      exact .ok _ h
  | null | number => exact .ok _ h

end Expr

/-- Every text compiles to the same in related contexts, whatever the limits are. -/
theorem sameOutcome_compileWithin (halike : QueryContext.Indistinct alike) {s : σ} {t : τ}
    (h : alike s t) (limits : Limits) (text : String) :
    SameOutcome alike (compileWithin limits text s) (compileWithin limits text t) := by
  rw [compileWithin, compileWithin]
  cases limits.checkLength text with
  | error error => exact .error error
  | ok =>
      cases Expr.parseWithin limits.maxDepth.toNat text with
      | error error => exact .error _
      | ok tree => exact Expr.sameOutcome_compile halike tree h

end QueryExpr
