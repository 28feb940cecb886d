import QueryExpr.Compile.Limits

/-!
# What successful compilation did

One lemma for each kind of tree says what must have happened for its compilation to succeed: which
parts were compiled, from which context each of them started, and how their fragments were put
together. Whatever holds of all successful compilations follows from these by induction on the tree.
For the leaves that name something in the schema, a second lemma says what is enough for success.
-/

namespace QueryExpr

theorem exists_of_bind_eq_ok {ε α β : Type} {x : Except ε α} {f : α → Except ε β} {b : β}
    (h : x >>= f = .ok b) : ∃ a, x = .ok a ∧ f a = .ok b := by
  cases x with
  | error => cases h
  | ok a => exact ⟨a, rfl, h⟩

theorem exists_of_map_fst_eq_ok {ε α β : Type} {x : Except ε (α × β)} {a : α}
    (h : x.map Prod.fst = .ok a) : ∃ b, x = .ok (a, b) := by
  cases x with
  | error => cases h
  | ok pair =>
      cases h
      exact ⟨pair.2, rfl⟩

namespace Expr

variable {σ : Type} [QueryContext σ] {context after : σ} {sql : String}

theorem relationshipNamed_eq_ok {name : String} {r : Relationship}
    (h : relationshipNamed name context = .ok r) :
    QueryContext.relationship? context name = some r := by
  rw [relationshipNamed] at h
  split at h
  · next heq =>
    cases h
    exact heq
  · cases h

theorem compile_paren_eq_ok {inner : Expr}
    (h : compile (.paren inner) context = .ok (sql, after)) :
    ∃ part, compile inner context = .ok (part, after) ∧ sql = "(" ++ part ++ ")" := by
  rw [compile] at h
  obtain ⟨⟨part, next⟩, hinner, h⟩ := exists_of_bind_eq_ok h
  cases h
  exact ⟨part, hinner, rfl⟩

theorem compile_binary_eq_ok {op : Operator} {left right : Expr}
    (h : compile (.binary op left right) context = .ok (sql, after)) :
    ∃ lhs middle rhs, compile left context = .ok (lhs, middle) ∧
      compile right middle = .ok (rhs, after) ∧ sql = lhs ++ " " ++ op.sql ++ " " ++ rhs := by
  rw [compile] at h
  obtain ⟨⟨lhs, middle⟩, hleft, h⟩ := exists_of_bind_eq_ok h
  obtain ⟨⟨rhs, last⟩, hright, h⟩ := exists_of_bind_eq_ok h
  cases h
  exact ⟨lhs, middle, rhs, hleft, hright, rfl⟩

theorem compile_call_eq_ok {name : String} {arguments : List Expr}
    (h : compile (.call name arguments) context = .ok (sql, after)) :
    name = Function.concat.name ∧
      ∃ parts, compileAll arguments context = .ok (parts, after) ∧
        sql = " || ".intercalate parts := by
  rw [compile, Function.ofName?] at h
  split at h
  · cases h
  · next f hf =>
    split at hf
    · next hname =>
      cases hf
      obtain ⟨⟨parts, last⟩, hparts, h⟩ := exists_of_bind_eq_ok h
      cases h
      exact ⟨hname, parts, hparts, rfl⟩
    · cases hf

theorem compile_attr_eq_ok {name : String}
    (h : compile (.attr name) context = .ok (sql, after)) :
    QueryContext.hasAttribute context name = true ∧
      sql = QueryContext.table context ++ "." ++ name ∧ after = context := by
  change compileAttribute name context = .ok (sql, after) at h
  rw [compileAttribute] at h
  split at h
  · next hattribute =>
    cases h
    exact ⟨hattribute, rfl, rfl⟩
  · cases h

theorem compile_related_eq_ok {relationship column : String}
    (h : compile (.related relationship column) context = .ok (sql, after)) :
    ∃ r, QueryContext.relationship? context relationship = some r ∧
      (r.kind = .belongsTo ∨ r.kind = .hasOne) ∧ sql = r.targetTable ++ "." ++ column ∧
      after = QueryContext.joinAlong context r := by
  change compileRelated relationship column context = .ok (sql, after) at h
  rw [compileRelated] at h
  obtain ⟨r, hr, h⟩ := exists_of_bind_eq_ok h
  refine ⟨r, relationshipNamed_eq_ok hr, ?_⟩
  split at h
  · next hkind =>
    cases h
    exact ⟨.inl hkind, rfl, rfl⟩
  · next hkind =>
    cases h
    exact ⟨.inr hkind, rfl, rfl⟩
  · cases h

theorem compile_count_eq_ok {relationship : String}
    (h : compile (.count relationship) context = .ok (sql, after)) :
    ∃ r, QueryContext.relationship? context relationship = some r ∧ r.kind = .hasMany ∧
      sql = countTable relationship ++ ".count" ∧
      after = QueryContext.joinClause context (r.countClause (countTable relationship)
        (QueryContext.table context) (QueryContext.primaryKey context)) := by
  change compileCount relationship context = .ok (sql, after) at h
  rw [compileCount] at h
  obtain ⟨r, hr, h⟩ := exists_of_bind_eq_ok h
  refine ⟨r, relationshipNamed_eq_ok hr, ?_⟩
  split at h
  · next hkind =>
    cases h
    exact ⟨hkind, rfl, rfl⟩
  · cases h

theorem compileAll_cons_eq_ok {e : Expr} {es : List Expr} {parts : List String}
    (h : compileAll (e :: es) context = .ok (parts, after)) :
    ∃ first middle rest, compile e context = .ok (first, middle) ∧
      compileAll es middle = .ok (rest, after) ∧ parts = first :: rest := by
  rw [compileAll] at h
  obtain ⟨⟨first, middle⟩, hfirst, h⟩ := exists_of_bind_eq_ok h
  obtain ⟨⟨rest, last⟩, hrest, h⟩ := exists_of_bind_eq_ok h
  cases h
  exact ⟨first, middle, rest, hfirst, hrest, rfl⟩

theorem compileAttribute_of_hasAttribute {name : String}
    (h : QueryContext.hasAttribute context name = true) :
    compileAttribute name context = .ok (QueryContext.table context ++ "." ++ name, context) := by
  rw [compileAttribute, if_pos h]

theorem relationshipNamed_of_relationship? {name : String} {r : Relationship}
    (h : QueryContext.relationship? context name = some r) :
    relationshipNamed name context = pure r := by
  rw [relationshipNamed, h]
  rfl

theorem compileRelated_of_kind {relationship column : String} {r : Relationship}
    (h : QueryContext.relationship? context relationship = some r)
    (hkind : r.kind = .belongsTo ∨ r.kind = .hasOne) :
    compileRelated relationship column context =
      .ok (r.targetTable ++ "." ++ column, QueryContext.joinAlong context r) := by
  rw [compileRelated, relationshipNamed_of_relationship? h, pure_bind]
  rcases hkind with hkind | hkind
  · rw [hkind]
    rfl
  · rw [hkind]
    rfl

theorem compileCount_of_kind {relationship : String} {r : Relationship}
    (h : QueryContext.relationship? context relationship = some r) (hkind : r.kind = .hasMany) :
    compileCount relationship context =
      .ok (countTable relationship ++ ".count",
        QueryContext.joinClause context (r.countClause (countTable relationship)
          (QueryContext.table context) (QueryContext.primaryKey context))) := by
  rw [compileCount, relationshipNamed_of_relationship? h, pure_bind, hkind]
  rfl

end Expr

/-- A text that compiles also parses, and its fragment is that of its tree. -/
theorem exists_of_compileWithin_eq_ok {σ : Type} [QueryContext σ] {limits : Limits} {text : String}
    {context after : σ} {sql : String}
    (h : compileWithin limits text context = .ok (sql, after)) :
    ∃ t, Expr.parseWithin limits.maxDepth.toNat text = .ok t ∧
      t.compile context = .ok (sql, after) := by
  rw [compileWithin] at h
  obtain ⟨_, _, h⟩ := exists_of_bind_eq_ok h
  split at h
  · cases h
  · next t hparse => exact ⟨t, hparse, h⟩

end QueryExpr
