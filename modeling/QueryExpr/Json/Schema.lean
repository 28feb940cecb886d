import QueryExpr.Json.Basic
import QueryExpr.Schema.Basic
import QueryExpr.Sql.Dialect

/-!
# Schemas as JSON

A schema is an object that has a member for each model. Writing a model gives all of its members;
reading one fills in the primary keys and the two lists where they are missing, ignores members that
it does not know, and otherwise rejects whatever has the wrong type. Null is not the same as
missing.

Models and relationships are written as objects. They can also be read from an array, which gives
the members in their order: a tail of it that consists of defaults can be missing, and there is no
room in it for members that are not known.
-/

namespace QueryExpr

/-- A kind as JSON is its name. -/
def RelationshipKind.toJson (kind : RelationshipKind) : Json := .string kind.name

/-- Reads a kind. -/
def RelationshipKind.ofJson? (j : Json) : Option RelationshipKind :=
  j.variant? >>= RelationshipKind.ofName?

/-- A dialect as JSON is its configuration name. -/
def Dialect.toJson (d : Dialect) : Json := .string d.code

/-- Reads a dialect. -/
def Dialect.ofJson? (j : Json) : Option Dialect :=
  j.variant? >>= Dialect.ofCode?

namespace Relationship

/-- A relationship as JSON. -/
def toJson (r : Relationship) : Json :=
  .object [
    ("name", .string r.name),
    ("kind", r.kind.toJson),
    ("target_table", .string r.targetTable),
    ("foreign_key", .string r.foreignKey),
    ("target_primary_key", .string r.targetPrimaryKey)]

/-- The fields of a relationship, in the order in which an array gives them. -/
def fields : List String :=
  ["name", "kind", "target_table", "foreign_key", "target_primary_key"]

/-- Reads a relationship. -/
def ofJson? (j : Json) : Option Relationship := do
  let members ← j.members? fields
  let name ← Json.required members "name" Json.string?
  let kind ← Json.required members "kind" RelationshipKind.ofJson?
  let targetTable ← Json.required members "target_table" Json.string?
  let foreignKey ← Json.required members "foreign_key" Json.string?
  let targetPrimaryKey ←
    Json.optional members "target_primary_key" defaultPrimaryKey Json.string?
  return { name, kind, targetTable, foreignKey, targetPrimaryKey }

end Relationship

namespace Model

/-- A model as JSON. -/
def toJson (m : Model) : Json :=
  .object [
    ("table_name", .string m.table),
    ("primary_key", .string m.primaryKey),
    ("attributes", .array (m.attributes.names.map Json.string)),
    ("relationships", .array (m.relationships.map Relationship.toJson))]

/-- The fields of a model, in the order in which an array gives them. -/
def fields : List String := ["table_name", "primary_key", "attributes", "relationships"]

/-- Reads a model. -/
def ofJson? (j : Json) : Option Model := do
  let members ← j.members? fields
  let table ← Json.required members "table_name" Json.string?
  let primaryKey ← Json.optional members "primary_key" defaultPrimaryKey Json.string?
  let attributes ← Json.optional members "attributes" [] (Json.list? Json.string?)
  let relationships ← Json.optional members "relationships" [] (Json.list? Relationship.ofJson?)
  return { table, primaryKey, attributes := NameSet.insertAll .empty attributes, relationships }

end Model

namespace Schema

/-- A schema as JSON. -/
def toJson (s : Schema) : Json :=
  .object (s.models.toList.map fun (name, m) => (name, m.toJson))

/-- Declares the models that the members of an object describe, in their order. -/
def insertMembers (s : Schema) : List (String × Json) → Option Schema
  | [] => some s
  | (name, value) :: members => do
    let m ← Model.ofJson? value
    insertMembers (s.insert name m) members

/-- Reads a schema. -/
def ofJson? : Json → Option Schema
  | .object members => insertMembers .empty members
  | _ => none

end Schema

end QueryExpr
