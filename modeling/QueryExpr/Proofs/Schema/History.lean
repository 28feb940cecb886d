import QueryExpr.Proofs.Schema.NameMap
import QueryExpr.Schema.Basic

/-!
# How models and schemas come about

A model is built by calls that begin with its table, and a schema by declaring models. What is left
of such a history can be said without following it: a model has the primary key that was chosen
last, the attributes of all calls together, and under each name the relationship that was declared
first. A schema has the model that was declared last under a name.

Each of these holds of a whole history because one call adds to it what that call says.
-/

namespace QueryExpr

namespace Model

/-- A call that builds a model further. -/
inductive Call where
  | primaryKey (name : String)
  | attributes (names : List String)
  | relationship (r : Relationship)

namespace Call

/-- The primary key that the call chooses. -/
def primaryKey? : Call → Option String
  | primaryKey name => some name
  | _ => none

/-- The names of the attributes that the call declares. -/
def attributeNames : Call → List String
  | attributes names => names
  | _ => []

/-- The relationship that the call declares, if it has that name. -/
def relationship? (name : String) : Call → Option Relationship
  | relationship r => if r.name = name then some r else none
  | _ => none

end Call

/-- The model after a call. -/
def perform (m : Model) : Call → Model
  | .primaryKey name => m.withPrimaryKey name
  | .attributes names => m.withAttributes names
  | .relationship r => m.withRelationship r

variable (m : Model) (call : Call) (calls : List Call) (name : String)

theorem table_perform : (m.perform call).table = m.table := by
  cases call <;> rfl

theorem primaryKey_perform :
    (m.perform call).primaryKey = call.primaryKey?.getD m.primaryKey := by
  cases call <;> rfl

theorem contains_perform :
    (m.perform call).attributes.contains name = true ↔
      name ∈ call.attributeNames ∨ m.attributes.contains name = true := by
  cases call with
  | attributes names => exact NameSet.contains_insertAll m.attributes names name
  | primaryKey | relationship =>
      simp [perform, withPrimaryKey, withRelationship, Call.attributeNames]

theorem relationship?_perform :
    (m.perform call).relationship? name = (m.relationship? name).or (call.relationship? name) := by
  cases call with
  | relationship r =>
      simp only [perform, withRelationship, Model.relationship?, List.find?_append,
        Call.relationship?, List.find?_singleton, beq_iff_eq]
  | primaryKey | attributes => exact (Option.or_none).symm

theorem table_foldl_perform : (calls.foldl perform m).table = m.table := by
  induction calls generalizing m with
  | nil => rfl
  | cons call calls ih => rw [List.foldl_cons, ih, table_perform]

theorem primaryKey_foldl_perform :
    (calls.foldl perform m).primaryKey =
      (calls.reverse.findSome? Call.primaryKey?).getD m.primaryKey := by
  induction calls generalizing m with
  | nil => rfl
  | cons call calls ih =>
      rw [List.foldl_cons, ih, primaryKey_perform, List.reverse_cons, List.findSome?_append]
      -- A key that is chosen by one of the later calls hides the one of this call.
      cases calls.reverse.findSome? Call.primaryKey? with
      | some name => rfl
      | none => cases call <;> rfl

theorem contains_foldl_perform :
    (calls.foldl perform m).attributes.contains name = true ↔
      (∃ call ∈ calls, name ∈ call.attributeNames) ∨ m.attributes.contains name = true := by
  induction calls generalizing m with
  | nil => simp
  | cons call calls ih =>
      simp only [List.foldl_cons, ih, contains_perform, List.mem_cons, exists_eq_or_imp, or_assoc]
      exact or_left_comm

theorem relationship?_foldl_perform :
    (calls.foldl perform m).relationship? name =
      (m.relationship? name).or (calls.findSome? (Call.relationship? name)) := by
  induction calls generalizing m with
  | nil => exact (Option.or_none).symm
  | cons call calls ih =>
      rw [List.foldl_cons, ih, relationship?_perform, Option.or_assoc, List.findSome?_cons]
      cases call.relationship? name <;> rfl

/-- How a model was built. -/
structure History where
  table : String
  calls : List Call

namespace History

/-- The model that was built. -/
def model (h : History) : Model := h.calls.foldl perform (.ofTable h.table)

/-- The primary key that was chosen last. -/
def primaryKey (h : History) : String :=
  (h.calls.reverse.findSome? Call.primaryKey?).getD defaultPrimaryKey

/-- Some call declares the attribute. -/
def Declares (h : History) (name : String) : Prop := ∃ call ∈ h.calls, name ∈ call.attributeNames

/-- The first relationship that was declared under the name. -/
def relationship? (h : History) (name : String) : Option Relationship :=
  h.calls.findSome? (Call.relationship? name)

variable (h : History) (name : String)

theorem table_model : h.model.table = h.table :=
  table_foldl_perform (.ofTable h.table) h.calls

theorem primaryKey_model : h.model.primaryKey = h.primaryKey :=
  primaryKey_foldl_perform (.ofTable h.table) h.calls

theorem contains_model : h.model.attributes.contains name = true ↔ h.Declares name := by
  rw [model, contains_foldl_perform, Declares]
  exact or_iff_left Bool.false_ne_true

theorem relationship?_model : h.model.relationship? name = h.relationship? name :=
  relationship?_foldl_perform (.ofTable h.table) h.calls name

end History

end Model

namespace Schema

/-- The schema that comes of declaring models one after the other. -/
def build (declarations : List (String × Model.History)) : Schema :=
  declarations.foldl (fun s declaration => s.insert declaration.1 declaration.2.model) .empty

/-- How the model was built that was declared last under the name. -/
def last? (declarations : List (String × Model.History)) (name : String) : Option Model.History :=
  declarations.reverse.lookup name

theorem get?_foldl_insert (s : Schema) (declarations : List (String × Model.History))
    (name : String) :
    (declarations.foldl (fun s declaration => s.insert declaration.1 declaration.2.model) s).get?
        name =
      ((last? declarations name).map Model.History.model).or (s.get? name) := by
  induction declarations generalizing s with
  | nil => rfl
  | cons declaration declarations ih =>
      rw [List.foldl_cons, ih, get?_insert, last?, last?, List.reverse_cons, List.lookup_append,
        Option.map_or, Option.or_assoc, NameMap.lookup_entry]
      split <;> rfl

/-- The schema has the model that was declared last. -/
theorem get?_build (declarations : List (String × Model.History)) (name : String) :
    (build declarations).get? name = (last? declarations name).map Model.History.model := by
  rw [build, get?_foldl_insert]
  exact Option.or_none

end Schema

end QueryExpr
