import QueryExpr.Json.Limits
import QueryExpr.Json.Schema
import QueryExpr.Proofs.Schema.NameMap

/-!
# Reading back what was written

Whatever is written as JSON is read back as it was. An encoding leaves nothing out, so no default is
needed to read it. The attributes of a model are written in ascending order and added to an empty
set, and the models of a schema are inserted in the order in which the schema holds them. The
relationships of a model stay a list, in their order and with all of their repetitions.
-/

namespace QueryExpr

/-- Items that are read back one by one are read back as a list. -/
theorem Json.list?_map {α : Type} {item? : Json → Option α} {toJson : α → Json}
    (h : ∀ a, item? (toJson a) = some a) (as : List α) :
    (array (as.map toJson)).list? item? = some as := by
  have hitem : item? ∘ toJson = fun a => pure a := funext h
  rw [list?, List.mapM_map, hitem, List.mapM_pure, List.map_id']
  rfl

@[simp] theorem RelationshipKind.ofJson?_toJson (kind : RelationshipKind) :
    ofJson? kind.toJson = some kind := by
  simp [ofJson?, toJson]

@[simp] theorem Dialect.ofJson?_toJson (d : Dialect) : ofJson? d.toJson = some d := by
  simp [ofJson?, toJson]

@[simp] theorem Relationship.ofJson?_toJson (r : Relationship) : ofJson? r.toJson = some r := by
  simp [ofJson?, toJson, Json.required, Json.optional, NameMap.lookup_entry]

@[simp] theorem Model.ofJson?_toJson (m : Model) : ofJson? m.toJson = some m := by
  have hattributes := Json.list?_map Json.string?_string m.attributes.names
  have hrelationships := Json.list?_map Relationship.ofJson?_toJson m.relationships
  simp [ofJson?, toJson, Json.required, Json.optional, NameMap.lookup_entry, hattributes,
    hrelationships, NameSet.insertAll_names]

/-- Members that describe models put these models in the schema. -/
theorem Schema.insertMembers_map (s : Schema) (entries : List (String × Model)) :
    s.insertMembers (entries.map fun (name, m) => (name, m.toJson)) =
      some ⟨entries.foldl (fun models entry => models.insert entry.1 entry.2) s.models⟩ := by
  induction entries generalizing s with
  | nil => rfl
  | cons entry entries ih =>
      rw [List.map_cons, insertMembers, Model.ofJson?_toJson]
      exact ih (s.insert entry.1 entry.2)

@[simp] theorem Schema.ofJson?_toJson (s : Schema) : ofJson? s.toJson = some s := by
  rw [toJson, ofJson?, insertMembers_map]
  exact congrArg (some ∘ Schema.mk) s.models.foldl_insert_toList

theorem Limits.length?_ofWord (n : UInt64) : length? (.ofWord n) = some (some n) :=
  congrArg (Option.map some) (Json.word?_ofWord n)

@[simp] theorem Limits.ofJson?_toJson (limits : Limits) : ofJson? limits.toJson = some limits := by
  obtain ⟨maxLength, maxDepth⟩ := limits
  cases maxLength with
  | none => simp [ofJson?, toJson, Json.optional, NameMap.lookup_entry, length?]
  | some n => simp [ofJson?, toJson, Json.optional, NameMap.lookup_entry, length?_ofWord]

end QueryExpr
