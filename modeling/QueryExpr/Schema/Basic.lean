import QueryExpr.NameMap
import QueryExpr.Schema.Relationship

/-!
# Models, schemas and registries

A model describes a table to expressions: its columns and its relationships. A schema is a
collection of models by name. A registry is all that compilation asks about models, two look-ups; a
schema is one source of it and an application may have another.
-/

namespace QueryExpr

/-- What expressions may use of a table. -/
structure Model where
  table : String
  primaryKey : String := defaultPrimaryKey
  attributes : NameSet := .empty
  /-- The relationships in the order of their declarations. Of two with one name the first
  counts. -/
  relationships : List Relationship := []
  deriving DecidableEq

namespace Model

/-- A model that only has a table. -/
def ofTable (table : String) : Model := { table }

/-- Chooses another primary key. -/
def withPrimaryKey (primaryKey : String) (m : Model) : Model := { m with primaryKey }

/-- Declares more attributes. -/
def withAttributes (names : List String) (m : Model) : Model :=
  { m with attributes := NameSet.insertAll m.attributes names }

/-- Declares one more relationship. -/
def withRelationship (r : Relationship) (m : Model) : Model :=
  { m with relationships := m.relationships ++ [r] }

/-- The first relationship of that name. -/
def relationship? (m : Model) (name : String) : Option Relationship :=
  m.relationships.find? (·.name == name)

end Model

/-- The two questions that compilation asks about models. -/
structure Registry where
  /-- Whether the model has an attribute of that name. -/
  hasAttribute : (model name : String) → Bool
  /-- The relationship that the model knows by that name. The record may have another name of its
  own. -/
  relationship? : (model name : String) → Option Relationship

/-- A collection of models by name. -/
structure Schema where
  models : NameMap Model
  deriving DecidableEq

namespace Schema

/-- The schema without models. -/
def empty : Schema := ⟨.empty⟩

/-- Declares a model, in place of an earlier one of the same name. -/
def insert (s : Schema) (name : String) (m : Model) : Schema := ⟨s.models.insert name m⟩

/-- The model of that name. -/
def get? (s : Schema) (name : String) : Option Model := s.models.get? name

@[simp] theorem get?_insert (s : Schema) (name other : String) (m : Model) :
    (s.insert name m).get? other = if other = name then some m else s.get? other := by
  simp [insert, get?]

/-- Answers questions from the models of the schema. -/
def registry (s : Schema) : Registry where
  hasAttribute model name := (s.get? model).any (·.attributes.contains name)
  relationship? model name := s.get? model >>= (·.relationship? name)

end Schema

end QueryExpr
