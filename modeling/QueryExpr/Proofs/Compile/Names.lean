import QueryExpr.Proofs.Compile.Resolution

/-!
# Names and errors

A tree refers to a schema by name: to attributes and relationships of the model that its query is
rooted in, and to functions. A node whose name is not declared, or is declared as a relationship of
a kind that cannot be used there, is rejected with an error of its own.

Compilation in a scope of the schema succeeds for exactly the trees without a rejected node. For
every other tree it ends with the error of the first rejected node in preorder, so a call is looked
at before its arguments, and operands and arguments from left to right.
-/

namespace QueryExpr

namespace Expr

/-- The name that a node refers to, if it refers to one. -/
def identifier? : Expr → Option String
  | .call name _ | .attr name | .related name _ | .count name => some name
  | .paren _ | .binary .. | .null | .string _ | .number _ => none

end Expr

theorem NameMap.contains_iff {α : Type} {m : NameMap α} {name : String} :
    m.contains name = true ↔ name ∈ m.names := by
  rw [NameMap.contains, NameMap.get?, List.lookup_isSome_iff, NameMap.names, List.mem_map]
  constructor
  · rintro ⟨entry, hentry, hname⟩
    exact ⟨entry, hentry, (beq_iff_eq.mp hname).symm⟩
  · rintro ⟨entry, hentry, rfl⟩
    exact ⟨entry, hentry, beq_self_eq_true _⟩

/-- The model declares the relationship, and none of that name before it. -/
def Model.Declares (m : Model) (r : Relationship) : Prop :=
  ∃ before after, m.relationships = before ++ r :: after ∧ ∀ q ∈ before, q.name ≠ r.name

theorem Model.relationship?_eq_some_iff {m : Model} {name : String} {r : Relationship} :
    m.relationship? name = some r ↔ m.Declares r ∧ r.name = name := by
  rw [relationship?, List.find?_eq_some_iff_append, Declares]
  constructor
  · rintro ⟨hname, before, after, hsplit, hbefore⟩
    cases beq_iff_eq.mp hname
    refine ⟨⟨before, after, hsplit, fun q hq heq => ?_⟩, rfl⟩
    have hother := hbefore q hq
    simp [heq] at hother
  · rintro ⟨⟨before, after, hsplit, hbefore⟩, rfl⟩
    refine ⟨beq_self_eq_true _, before, after, hsplit, fun q hq => ?_⟩
    simp [hbefore q hq]

namespace Schema

/-- The model of that name has the attribute. -/
def DeclaresAttribute (schema : Schema) (model name : String) : Prop :=
  ∃ m, schema.get? model = some m ∧ name ∈ m.attributes.names

/-- The model of that name has the relationship. -/
def Declares (schema : Schema) (model : String) (r : Relationship) : Prop :=
  ∃ m, schema.get? model = some m ∧ m.Declares r

/-- The node cannot be compiled in a query on the model, for the reason that the error gives. -/
inductive Rejects (schema : Schema) (model : String) : Expr → CompileError → Prop where
  | attr {name : String} (h : ¬ schema.DeclaresAttribute model name) :
      Rejects schema model (.attr name) (.invalidAttribute name)
  | call {name : String} {arguments : List Expr} (h : name ≠ "concat") :
      Rejects schema model (.call name arguments) (.invalidFunction name)
  | related {name column : String} (h : ∀ r, schema.Declares model r → r.name ≠ name) :
      Rejects schema model (.related name column) (.invalidRelationship name)
  | relatedKind {column : String} {r : Relationship} (h : schema.Declares model r)
      (hbelongs : r.kind ≠ .belongsTo) (hone : r.kind ≠ .hasOne) :
      Rejects schema model (.related r.name column) (.wrongKind r.name r.kind)
  | count {name : String} (h : ∀ r, schema.Declares model r → r.name ≠ name) :
      Rejects schema model (.count name) (.invalidRelationship name)
  | countKind {r : Relationship} (h : schema.Declares model r) (hmany : r.kind ≠ .hasMany) :
      Rejects schema model (.count r.name) (.wrongKind r.name r.kind)

/-- The node cannot be compiled in a query on the model. -/
def Invalid (schema : Schema) (model : String) (node : Expr) : Prop :=
  ∃ error, schema.Rejects model node error

variable {schema : Schema} {model : String}

/-- The error is about the name that the node refers to. -/
theorem Rejects.identifier?_eq {node : Expr} {error : CompileError}
    (h : schema.Rejects model node error) : error.identifier? = node.identifier? := by
  cases h <;> rfl

theorem registry_hasAttribute_iff {name : String} :
    schema.registry.hasAttribute model name = true ↔ schema.DeclaresAttribute model name := by
  rw [registry, Option.any_eq_true, DeclaresAttribute]
  simp only [NameMap.contains_iff]

theorem registry_relationship?_eq_some_iff {name : String} {r : Relationship} :
    schema.registry.relationship? model name = some r ↔
      schema.Declares model r ∧ r.name = name := by
  have hbind : schema.registry.relationship? model name =
      (schema.get? model).bind fun m => m.relationship? name := rfl
  rw [hbind, Option.bind_eq_some_iff, Declares]
  simp only [Model.relationship?_eq_some_iff]
  constructor
  · rintro ⟨m, hm, hdeclares, hname⟩
    exact ⟨⟨m, hm, hdeclares⟩, hname⟩
  · rintro ⟨⟨m, hm, hdeclares⟩, hname⟩
    exact ⟨m, hm, hdeclares, hname⟩

theorem registry_relationship?_eq_none_iff {name : String} :
    schema.registry.relationship? model name = none ↔
      ∀ r, schema.Declares model r → r.name ≠ name := by
  rw [Option.eq_none_iff_forall_ne_some]
  constructor
  · intro h r hdeclares hname
    exact h r (registry_relationship?_eq_some_iff.mpr ⟨hdeclares, hname⟩)
  · intro h r hlookup
    obtain ⟨hdeclares, hname⟩ := registry_relationship?_eq_some_iff.mp hlookup
    exact h r hdeclares hname

section Scope

variable {s : Scope}

theorem hasAttribute_iff (hregistry : s.registry = schema.registry) {name : String} :
    QueryContext.hasAttribute s name = true ↔ schema.DeclaresAttribute s.model name := by
  rw [← registry_hasAttribute_iff, ← hregistry]
  rfl

theorem relationship?_eq_some_iff (hregistry : s.registry = schema.registry) {name : String}
    {r : Relationship} :
    QueryContext.relationship? s name = some r ↔ schema.Declares s.model r ∧ r.name = name := by
  rw [← registry_relationship?_eq_some_iff, ← hregistry]
  rfl

theorem relationship?_eq_none_iff (hregistry : s.registry = schema.registry) {name : String} :
    QueryContext.relationship? s name = none ↔
      ∀ r, schema.Declares s.model r → r.name ≠ name := by
  rw [← registry_relationship?_eq_none_iff, ← hregistry]
  rfl

/-- The pass stops at the nodes that are rejected, with the errors that they are rejected with. -/
theorem refuses_iff (hregistry : s.registry = schema.registry) {node : Expr}
    {error : CompileError} :
    Expr.Refuses s node error ↔ schema.Rejects s.model node error := by
  constructor
  · intro h
    cases h with
    | call hname => exact .call hname
    | attr hattribute => exact .attr (mt (hasAttribute_iff hregistry).mpr hattribute)
    | related hlookup => exact .related ((relationship?_eq_none_iff hregistry).mp hlookup)
    | relatedKind hlookup hbelongs hone =>
        obtain ⟨hdeclares, rfl⟩ := (relationship?_eq_some_iff hregistry).mp hlookup
        exact .relatedKind hdeclares hbelongs hone
    | count hlookup => exact .count ((relationship?_eq_none_iff hregistry).mp hlookup)
    | countKind hlookup hmany =>
        obtain ⟨hdeclares, rfl⟩ := (relationship?_eq_some_iff hregistry).mp hlookup
        exact .countKind hdeclares hmany
  · intro h
    cases h with
    | call hname => exact .call hname
    | attr hattribute => exact .attr (mt (hasAttribute_iff hregistry).mp hattribute)
    | related hnone => exact .related ((relationship?_eq_none_iff hregistry).mpr hnone)
    | relatedKind hdeclares hbelongs hone =>
        have hlookup := (relationship?_eq_some_iff hregistry).mpr ⟨hdeclares, rfl⟩
        exact .relatedKind hlookup hbelongs hone
    | count hnone => exact .count ((relationship?_eq_none_iff hregistry).mpr hnone)
    | countKind hdeclares hmany =>
        have hlookup := (relationship?_eq_some_iff hregistry).mpr ⟨hdeclares, rfl⟩
        exact .countKind hlookup hmany

/-- A node is resolved if nothing speaks against it. -/
theorem resolves_iff (hregistry : s.registry = schema.registry) {node : Expr} :
    s.resolves node = true ↔ ¬ schema.Invalid s.model node := by
  rw [← not_iff_not, not_not, ← Scope.exists_refuses_iff, Invalid]
  exact exists_congr fun error => refuses_iff hregistry

/-- A walk comes to its end if no node is rejected. -/
theorem exists_walk_eq_ok_iff (hregistry : s.registry = schema.registry) {nodes : List Expr} :
    (∃ os after, Expr.walk nodes s = .ok (os, after)) ↔
      ∀ node ∈ nodes, ¬ schema.Invalid s.model node := by
  simp only [Scope.exists_walk_eq_ok_iff, resolves_iff hregistry]

/-- A walk ends with the error of the first node that is rejected. -/
theorem walk_eq_error_iff (hregistry : s.registry = schema.registry) {nodes : List Expr}
    {error : CompileError} :
    Expr.walk nodes s = .error error ↔
      ∃ before node after, nodes = before ++ node :: after ∧
        (∀ valid ∈ before, ¬ schema.Invalid s.model valid) ∧
        schema.Rejects s.model node error := by
  simp only [Scope.walk_eq_error_iff, resolves_iff hregistry, refuses_iff hregistry]

/-- Compilation checks all names and reports the first offence. In a scope of the schema, whatever
joins it has, exactly the trees without an invalid node compile. Any other tree fails with the error
of its first invalid node in preorder, and that error has the name in it that the node refers to. -/
theorem compile_checks_names (hregistry : s.registry = schema.registry) (e : Expr) :
    ((∃ sql after, e.compile s = .ok (sql, after)) ↔
        ∀ node ∈ e.nodes, ¬ schema.Invalid s.model node) ∧
      ∀ error, e.compile s = .error error ↔
        ∃ before node after, e.nodes = before ++ node :: after ∧
          (∀ valid ∈ before, ¬ schema.Invalid s.model valid) ∧
          schema.Rejects s.model node error ∧ error.identifier? = node.identifier? := by
  constructor
  · rw [Expr.exists_compile_eq_ok_iff, exists_walk_eq_ok_iff hregistry]
  · intro error
    rw [Expr.compile_eq_error_iff, walk_eq_error_iff hregistry]
    constructor
    · rintro ⟨before, node, after, hsplit, hbefore, hrejects⟩
      exact ⟨before, node, after, hsplit, hbefore, hrejects, hrejects.identifier?_eq⟩
    · rintro ⟨before, node, after, hsplit, hbefore, hrejects, -⟩
      exact ⟨before, node, after, hsplit, hbefore, hrejects⟩

theorem compile_checks_names_shop :
    ({ shopOrders .postgres with joins := [.raw "CROSS JOIN t"] } : Scope).registry =
        shop.registry ∧
      Expr.compile (.call "concat" [.attr "total", .binary .add (.count "customer")
          (.call "upper" [.attr "colour"])])
        { shopOrders .postgres with joins := [.raw "CROSS JOIN t"] } =
          .error (.wrongKind "customer" .belongsTo) ∧
      ∃ before node after, Expr.nodes (.call "concat" [.attr "total",
          .binary .add (.count "customer") (.call "upper" [.attr "colour"])]) =
            before ++ node :: after ∧
        (∀ valid ∈ before, ¬ shop.Invalid "Order" valid) ∧
        shop.Rejects "Order" node (.wrongKind "customer" .belongsTo) ∧
        (CompileError.wrongKind "customer" .belongsTo).identifier? = node.identifier? := by
  have hcompile : Expr.compile (.call "concat" [.attr "total", .binary .add (.count "customer")
      (.call "upper" [.attr "colour"])])
      { shopOrders .postgres with joins := [.raw "CROSS JOIN t"] } =
        .error (.wrongKind "customer" .belongsTo) := rfl
  exact ⟨rfl, hcompile, ((compile_checks_names rfl _).2 _).mp hcompile⟩

end Scope

end Schema

end QueryExpr
