import Mathlib.Logic.Relation
import QueryExpr.Proofs.Json.RoundTrip

/-!
# Changes that do not matter

Two objects can differ and still describe the same value. A member with a name that the reader does
not ask for can be put anywhere, and a member that holds the default of its name can be left out, if
it is the only one of that name. Either can be done inside an object that is part of another one, or
of an array that stands for another one. Such an array has no room for other members, and it can do
without a default only at its end.

The reader asks for members by name and takes a default only where nothing is found. So it is enough
to know what such a change does to a single look-up: the answer is the same as before, or a default
is gone, or a member that was found has been changed itself. A change to an array is one to the
members that it stands for.
-/

namespace QueryExpr

namespace Json

variable {α : Type} {item? : Json → Option α} {edit : Json → Json → Prop}

/-- What a reader looks for in a record. -/
structure Format where
  /-- The names that the reader asks for, in the order of the items of an array. -/
  names : List String
  /-- The members that can be left out, each with its default. -/
  defaults : List (String × Json)
  /-- How the value of a member can be changed. -/
  inner : (name : String) → Json → Json → Prop := fun _ _ _ => False

/-- A change to an object that does not matter to a reader, or to an array in its place. -/
inductive Edit (format : Format) : Json → Json → Prop where
  | add (front back : List (String × Json)) {name : String} (value : Json)
      (h : name ∉ format.names) :
      Edit format (object (front ++ back)) (object (front ++ (name, value) :: back))
  | remove (front back : List (String × Json)) {name : String} {value : Json}
      (hdefault : format.defaults.lookup name = some value)
      (honce : ∀ member ∈ front ++ back, member.1 ≠ name) :
      Edit format (object (front ++ (name, value) :: back)) (object (front ++ back))
  | change (front back : List (String × Json)) {name : String} {value value' : Json}
      (h : format.inner name value value') :
      Edit format (object (front ++ (name, value) :: back))
        (object (front ++ (name, value') :: back))
  | removeItem (front : List Json) {name : String} {value : Json}
      (hname : format.names[front.length]? = some name)
      (hdefault : format.defaults.lookup name = some value) :
      Edit format (array (front ++ [value])) (array front)
  | changeItem (front back : List Json) {name : String} {value value' : Json}
      (hname : format.names[front.length]? = some name) (h : format.inner name value value') :
      Edit format (array (front ++ value :: back)) (array (front ++ value' :: back))

/-- A change to one of the items of an array. -/
inductive ItemEdit (edit : Json → Json → Prop) : Json → Json → Prop where
  | item (front back : List Json) {j j' : Json} (h : edit j j') :
      ItemEdit edit (array (front ++ j :: back)) (array (front ++ j' :: back))

/-- A change keeps whatever was decoded before. -/
def Keeps (item? : Json → Option α) (edit : Json → Json → Prop) : Prop :=
  ∀ ⦃j j'⦄, edit j j' → ∀ ⦃a⦄, item? j = some a → item? j' = some a

/-- Any number of changes keep whatever was decoded before. -/
def Tolerates (item? : Json → Option α) (edit : Json → Json → Prop) : Prop :=
  Keeps item? (Relation.ReflTransGen edit)

/-- Where nothing can be changed, nothing is lost. -/
theorem keeps_of_not (h : ∀ j j', ¬ edit j j') : Keeps item? edit :=
  fun j j' hedit => absurd hedit (h j j')

theorem keeps_never : Keeps item? fun _ _ => False :=
  keeps_of_not fun _ _ => not_false

theorem Keeps.tolerates (h : Keeps item? edit) : Tolerates item? edit := by
  intro j j' hedits a hread
  induction hedits with
  | refl => exact hread
  | tail _ hedit ih => exact h hedit ih

theorem Keeps.list? (h : Keeps item? edit) : Keeps (list? item?) (ItemEdit edit) := by
  rintro _ _ ⟨front, back, hedit⟩ as hread
  simp only [Json.list?, List.mapM_append, List.mapM_cons, Option.bind_eq_bind,
    Option.bind_eq_some_iff] at hread ⊢
  obtain ⟨before, hbefore, rest, ⟨a, ha, hrest⟩, has⟩ := hread
  exact ⟨before, hbefore, rest, ⟨a, h hedit ha, hrest⟩, has⟩

theorem lookup_append_cons (front back : List (String × Json)) (name other : String)
    (value : Json) :
    (front ++ (name, value) :: back).lookup other =
      (front.lookup other).or (if other = name then some value else back.lookup other) := by
  rw [List.lookup_append, NameMap.lookup_entry]

/-- An item of an array is a member with the name that has its place. -/
theorem zip_append_cons {names : List String} {front : List Json} {name : String}
    (h : names[front.length]? = some name) (value : Json) (back : List Json) :
    names.zip (front ++ value :: back) =
      names.zip front ++ (name, value) :: (names.drop (front.length + 1)).zip back := by
  induction front generalizing names with
  | nil =>
      cases names with
      | nil => cases h
      | cons other names =>
          cases h
          rfl
  | cons item front ih =>
      cases names with
      | nil => cases h
      | cons other names => exact congrArg ((other, item) :: ·) (ih h)

/-- The items before it are members with other names. -/
theorem ne_of_mem_zip {names : List String} {front : List Json} {name : String}
    (hnodup : names.Nodup) (h : names[front.length]? = some name) :
    ∀ member ∈ names.zip front, member.1 ≠ name := by
  induction front generalizing names with
  | nil =>
      rw [List.zip_nil_right]
      nofun
  | cons item front ih =>
      cases names with
      | nil => nofun
      | cons other names =>
          obtain ⟨hother, hnodup⟩ := List.nodup_cons.mp hnodup
          have hmem : name ∈ names := List.mem_of_getElem? h
          rw [List.zip_cons_cons, List.forall_mem_cons]
          exact ⟨(ne_of_mem_of_not_mem hmem hother).symm, ih hnodup h⟩

theorem members?_array_eq_some_iff {fields : List String} {items : List Json}
    {members : List (String × Json)} :
    (array items).members? fields = some members ↔
      items.length ≤ fields.length ∧ fields.zip items = members := by
  rw [members?]
  split
  · next h => simp [h]
  · next h => simp [h]

theorem lookup_eq_none {members : List (String × Json)} {name : String}
    (h : ∀ member ∈ members, member.1 ≠ name) : members.lookup name = none := by
  rw [List.lookup_eq_none_iff]
  exact fun member hmember => bne_iff_ne.mpr (h member hmember).symm

namespace Edit

variable {format : Format} {members members' : List (String × Json)} {name : String}
  {value? : Json → Option α} {a : α}

/-- A change keeps the form of a record and changes its members. -/
theorem exists_members {j j' : Json} (h : Edit format j j') (hnodup : format.names.Nodup)
    (hmembers : j.members? format.names = some members) :
    ∃ members', j'.members? format.names = some members' ∧
      Edit format (object members) (object members') := by
  cases h with
  | add front back value hname =>
      cases hmembers
      exact ⟨_, rfl, .add front back value hname⟩
  | remove front back hdefault honce =>
      cases hmembers
      exact ⟨_, rfl, .remove front back hdefault honce⟩
  | change front back hinner =>
      cases hmembers
      exact ⟨_, rfl, .change front back hinner⟩
  | @removeItem front name value hname hdefault =>
      obtain ⟨hlength, rfl⟩ := members?_array_eq_some_iff.mp hmembers
      refine ⟨_, members?_array_eq_some_iff.mpr ⟨?_, rfl⟩, ?_⟩
      · rw [List.length_append] at hlength
        exact Nat.le_of_add_right_le hlength
      · have hbefore := ne_of_mem_zip hnodup hname
        rw [← List.append_nil (format.names.zip front)] at hbefore
        have hremove := Edit.remove (format.names.zip front) [] hdefault hbefore
        rw [List.append_nil] at hremove
        rwa [zip_append_cons hname, List.zip_nil_right]
  | @changeItem front back name value value' hname hinner =>
      obtain ⟨hlength, rfl⟩ := members?_array_eq_some_iff.mp hmembers
      refine ⟨_, members?_array_eq_some_iff.mpr ⟨?_, rfl⟩, ?_⟩
      · rw [List.length_append] at hlength ⊢
        exact hlength
      · rw [zip_append_cons hname, zip_append_cons hname]
        exact .change _ _ hinner

/-- What becomes of a member that is asked for: it stays, a default goes, or its value changes. -/
theorem lookup (h : Edit format (object members) (object members')) (hname : name ∈ format.names) :
    members'.lookup name = members.lookup name ∨
      (∃ value, format.defaults.lookup name = some value ∧ members.lookup name = some value ∧
        members'.lookup name = none) ∨
      ∃ value value', format.inner name value value' ∧ members.lookup name = some value ∧
        members'.lookup name = some value' := by
  cases h with
  | @add front back other value hother =>
      have hne : name ≠ other := fun heq => hother (heq ▸ hname)
      rw [lookup_append_cons, if_neg hne, List.lookup_append]
      exact .inl rfl
  | @remove front back other value hdefault honce =>
      by_cases heq : name = other
      · subst heq
        obtain ⟨hfront, hback⟩ := List.forall_mem_append.mp honce
        rw [lookup_append_cons, if_pos rfl, List.lookup_append, lookup_eq_none hfront,
          lookup_eq_none hback]
        exact .inr (.inl ⟨value, hdefault, rfl, rfl⟩)
      · rw [lookup_append_cons, if_neg heq, List.lookup_append]
        exact .inl rfl
  | @change front back other value value' hinner =>
      rw [lookup_append_cons, lookup_append_cons]
      by_cases heq : name = other
      · subst heq
        rw [if_pos rfl, if_pos rfl]
        -- A member of that name in front of the changed one is the one that counts.
        cases front.lookup name with
        | none => exact .inr (.inr ⟨value, value', hinner, rfl, rfl⟩)
        | some found => exact .inl rfl
      · rw [if_neg heq, if_neg heq]
        exact .inl rfl

/-- A member without a default is read as before. -/
theorem required (h : Edit format (object members) (object members'))
    (hname : name ∈ format.names) (hdefault : format.defaults.lookup name = none)
    (hinner : Keeps value? (format.inner name))
    (hread : Json.required members name value? = some a) :
    Json.required members' name value? = some a := by
  rw [Json.required] at hread ⊢
  rcases h.lookup hname with heq | ⟨value, hvalue, -⟩ | ⟨value, value', hchange, hfound, hfound'⟩
  · rw [heq]
    exact hread
  · rw [hdefault] at hvalue
    cases hvalue
  · rw [hfound] at hread
    rw [hfound']
    exact hinner hchange hread

/-- A member with a default is read as before, also if it is gone. -/
theorem optional {default : α} {held : Json} (h : Edit format (object members) (object members'))
    (hname : name ∈ format.names) (hdefault : format.defaults.lookup name = some held)
    (hheld : value? held = some default) (hinner : Keeps value? (format.inner name))
    (hread : Json.optional members name default value? = some a) :
    Json.optional members' name default value? = some a := by
  rw [Json.optional] at hread ⊢
  rcases h.lookup hname with
    heq | ⟨value, hvalue, hfound, hgone⟩ | ⟨value, value', hchange, hfound, hfound'⟩
  · rw [heq]
    exact hread
  · obtain rfl := Option.some.inj (hdefault.symm.trans hvalue)
    rw [hfound] at hread
    rw [hgone, ← hheld]
    exact hread
  · rw [hfound] at hread
    rw [hfound']
    exact hinner hchange hread

end Edit

end Json

open Json (Format Edit Keeps)

/-- The members of a relationship. -/
def Relationship.format : Format where
  names := ["name", "kind", "target_table", "foreign_key", "target_primary_key"]
  defaults := [("target_primary_key", .string defaultPrimaryKey)]

theorem Relationship.keeps_ofJson? : Keeps ofJson? (Edit format) := by
  intro j j' h r hread
  simp only [ofJson?, Option.bind_eq_bind, Option.bind_eq_some_iff] at hread ⊢
  obtain ⟨members, hmembers, name, hname, kind, hkind, table, htable, key, hkey, primary, hprimary,
    hr⟩ := hread
  obtain ⟨members', hmembers', h⟩ := h.exists_members (by decide) hmembers
  refine ⟨members', hmembers', name, ?_, kind, ?_, table, ?_, key, ?_, primary, ?_, hr⟩
  · exact h.required (by decide) rfl Json.keeps_never hname
  · exact h.required (by decide) rfl Json.keeps_never hkind
  · exact h.required (by decide) rfl Json.keeps_never htable
  · exact h.required (by decide) rfl Json.keeps_never hkey
  · exact h.optional (by decide) rfl rfl Json.keeps_never hprimary

/-- The members of a model. Each of its relationships can be changed. -/
def Model.format : Format where
  names := ["table_name", "primary_key", "attributes", "relationships"]
  defaults := [
    ("primary_key", .string defaultPrimaryKey),
    ("attributes", .array []),
    ("relationships", .array [])]
  inner name j j' := name = "relationships" ∧ Json.ItemEdit (Edit Relationship.format) j j'

theorem Model.keeps_ofJson? : Keeps ofJson? (Edit format) := by
  intro j j' h m hread
  simp only [ofJson?, Option.bind_eq_bind, Option.bind_eq_some_iff] at hread ⊢
  obtain ⟨members, hmembers, table, htable, primary, hprimary, attributes, hattributes,
    relationships, hrelationships, hm⟩ := hread
  obtain ⟨members', hmembers', h⟩ := h.exists_members (by decide) hmembers
  have houter {α : Type} {value? : Json → Option α} {name : String} (hne : name ≠ "relationships") :
      Keeps value? (format.inner name) := Json.keeps_of_not fun _ _ hinner => hne hinner.1
  have hinner : Keeps (Json.list? Relationship.ofJson?) (format.inner "relationships") :=
    fun _ _ hinner => Relationship.keeps_ofJson?.list? hinner.2
  refine ⟨members', hmembers', table, ?_, primary, ?_, attributes, ?_, relationships, ?_, hm⟩
  · exact h.required (by decide) rfl (houter (by decide)) htable
  · exact h.optional (by decide) rfl rfl (houter (by decide)) hprimary
  · exact h.optional (by decide) rfl rfl (houter (by decide)) hattributes
  · exact h.optional (by decide) rfl rfl hinner hrelationships

/-- A change to one of the models of a schema. -/
inductive Schema.ModelEdit : Json → Json → Prop where
  | member (front back : List (String × Json)) (name : String) {j j' : Json}
      (h : Edit Model.format j j') :
      ModelEdit (.object (front ++ (name, j) :: back)) (.object (front ++ (name, j') :: back))

theorem Schema.insertMembers_replace {front back : List (String × Json)} {name : String}
    {j j' : Json} (h : Edit Model.format j j') {s whole : Schema}
    (hread : s.insertMembers (front ++ (name, j) :: back) = some whole) :
    s.insertMembers (front ++ (name, j') :: back) = some whole := by
  induction front generalizing s with
  | nil =>
      simp only [List.nil_append, insertMembers, Option.bind_eq_bind,
        Option.bind_eq_some_iff] at hread ⊢
      obtain ⟨m, hm, hrest⟩ := hread
      exact ⟨m, Model.keeps_ofJson? h hm, hrest⟩
  | cons member front ih =>
      simp only [List.cons_append, insertMembers, Option.bind_eq_bind,
        Option.bind_eq_some_iff] at hread ⊢
      obtain ⟨m, hm, hrest⟩ := hread
      exact ⟨m, hm, ih hrest⟩

theorem Schema.keeps_ofJson? : Keeps ofJson? ModelEdit := by
  rintro _ _ ⟨front, back, name, h⟩ s hread
  exact insertMembers_replace h hread

/-- The members of limits. -/
def Limits.format : Format where
  names := ["max_length", "max_depth"]
  defaults := [("max_length", .null), ("max_depth", .integer Expr.defaultLimit)]

theorem Limits.keeps_ofJson? : Keeps ofJson? (Edit format) := by
  intro j j' h limits hread
  simp only [ofJson?, Option.bind_eq_bind, Option.bind_eq_some_iff] at hread ⊢
  obtain ⟨members, hmembers, maxLength, hlength, maxDepth, hdepth, hlimits⟩ := hread
  obtain ⟨members', hmembers', h⟩ := h.exists_members (by decide) hmembers
  refine ⟨members', hmembers', maxLength, ?_, maxDepth, ?_, hlimits⟩
  · exact h.optional (by decide) rfl rfl Json.keeps_never hlength
  · exact h.optional (by decide) rfl rfl Json.keeps_never hdepth

namespace Json

/-- Schemas, limits and dialects are read back from JSON as they were written. Whatever is read from
JSON is still read after any number of changes to its objects, where members with other names are
added or members left out that hold a default, be they part of other objects or of arrays. -/
theorem reads_back_and_tolerates :
    (∀ s : Schema, Schema.ofJson? s.toJson = some s) ∧
      (∀ limits : Limits, Limits.ofJson? limits.toJson = some limits) ∧
      (∀ d : Dialect, Dialect.ofJson? d.toJson = some d) ∧
      Tolerates Relationship.ofJson? (Edit Relationship.format) ∧
      Tolerates Model.ofJson? (Edit Model.format) ∧
      Tolerates Schema.ofJson? Schema.ModelEdit ∧
      Tolerates Limits.ofJson? (Edit Limits.format) := by
  refine ⟨Schema.ofJson?_toJson, Limits.ofJson?_toJson, Dialect.ofJson?_toJson, ?_, ?_, ?_, ?_⟩
  · exact Relationship.keeps_ofJson?.tolerates
  · exact Model.keeps_ofJson?.tolerates
  · exact Schema.keeps_ofJson?.tolerates
  · exact Limits.keeps_ofJson?.tolerates

theorem reads_back_and_tolerates_order :
    let customer : Relationship :=
      { name := "customer", kind := .belongsTo, targetTable := "customers",
        foreignKey := "customer_id" }
    let order : Model := (Model.ofTable "orders").withRelationship customer
    let members := [
      ("name", string "customer"),
      ("kind", string "BelongsTo"),
      ("target_table", string "customers"),
      ("foreign_key", string "customer_id")]
    Schema.ofJson? (object [
        ("Order", object [
          ("table_name", string "orders"),
          ("comment", null),
          ("primary_key", string "id"),
          ("relationships", array [object members])])]) =
        some (Schema.empty.insert "Order" order) ∧
      Schema.ofJson? (object [
        ("Order", array [string "orders", string "id", array [], array [object members]])]) =
        some (Schema.empty.insert "Order" order) ∧
      Limits.ofJson? (Limits.toJson { maxLength := some 512 }) = some { maxLength := some 512 } ∧
      Dialect.ofJson? Dialect.mysql.toJson = some .mysql := by
  intro customer order members
  obtain ⟨hschema, hlimits, hdialect, -, -, htolerates, -⟩ := reads_back_and_tolerates
  have hcustomer : Edit Relationship.format customer.toJson (object members) :=
    .remove members [] rfl (by decide)
  have harray : Schema.ofJson? (object [
      ("Order", array [string "orders", string "id", array [], array [customer.toJson]])]) =
        some (Schema.empty.insert "Order" order) := rfl
  refine ⟨htolerates ?_ (hschema _), htolerates ?_ harray, hlimits _, hdialect _⟩
  · have hrelationships : Edit Model.format order.toJson
        (object [("table_name", string "orders"), ("primary_key", string "id"),
          ("attributes", array []), ("relationships", array [object members])]) :=
      .change [_, _, _] [] ⟨rfl, .item [] [] hcustomer⟩
    have hattributes : Edit Model.format
        (object [("table_name", string "orders"), ("primary_key", string "id"),
          ("attributes", array []), ("relationships", array [object members])])
        (object [("table_name", string "orders"), ("primary_key", string "id"),
          ("relationships", array [object members])]) :=
      .remove [_, _] [_] rfl (by simp)
    refine .head (.member [] [] "Order" hrelationships)
      (.head (.member [] [] "Order" hattributes) ?_)
    exact .single (.member [] [] "Order" (.add [_] [_, _] null (by decide)))
  · have hrelationships : Edit Model.format
        (array [string "orders", string "id", array [], array [customer.toJson]])
        (array [string "orders", string "id", array [], array [object members]]) :=
      .changeItem [_, _, _] [] rfl ⟨rfl, .item [] [] hcustomer⟩
    exact .single (.member [] [] "Order" hrelationships)

end Json

end QueryExpr
