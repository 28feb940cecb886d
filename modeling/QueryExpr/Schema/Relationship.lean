/-!
# Relationships between models

A relationship leads from the records of one model to the records of another table. Its kind says
which of the two tables holds the key that ties them together, and how many records the other end
may have.
-/

namespace QueryExpr

/-- How two models are associated. An expression can follow the first two kinds and count the third;
the last two can be described but not used. -/
inductive RelationshipKind where
  | belongsTo
  | hasOne
  | hasMany
  | hasAndBelongsToMany
  | through
  deriving DecidableEq

namespace RelationshipKind

/-- The name shown to a user. -/
def name : RelationshipKind → String
  | belongsTo => "BelongsTo"
  | hasOne => "HasOne"
  | hasMany => "HasMany"
  | hasAndBelongsToMany => "HasAndBelongsToMany"
  | through => "Through"

/-- The kind with the given name. Case matters. -/
def ofName? (s : String) : Option RelationshipKind :=
  [belongsTo, hasOne, hasMany, hasAndBelongsToMany, through].find? (·.name == s)

@[simp] theorem ofName?_name (kind : RelationshipKind) : ofName? kind.name = some kind := by
  cases kind <;> decide

end RelationshipKind

/-- The primary key of a table for which none is given. -/
def defaultPrimaryKey : String := "id"

/-- A relationship, as one end declares it. -/
structure Relationship where
  /-- What expressions call it. -/
  name : String
  kind : RelationshipKind
  /-- The table at the other end. -/
  targetTable : String
  /-- The column that ties the two tables together. The declaring table has it if it belongs to the
  target; otherwise the target has it. -/
  foreignKey : String
  /-- The primary key of the target. -/
  targetPrimaryKey : String := defaultPrimaryKey
  deriving DecidableEq

end QueryExpr
