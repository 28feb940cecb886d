/-!
# Finite maps from names

A map holds its entries in ascending order of names, by code points, and each name once. The order
is part of the type, so two maps with the same entries are equal however they came about. A set of
names is a map without values.
-/

namespace QueryExpr

/-- A finite map from names. -/
structure NameMap (α : Type) where
  /-- The entries. -/
  toList : List (String × α)
  ascending : toList.Pairwise fun a b => a.1 < b.1
  deriving DecidableEq

/-- A finite set of names. -/
abbrev NameSet : Type := NameMap Unit

namespace NameMap

variable {α : Type}

/-- Puts an entry in its place in an ascending list, over an earlier entry of the same name. -/
def insertEntry (name : String) (value : α) : List (String × α) → List (String × α)
  | [] => [(name, value)]
  | entry :: entries =>
    if name < entry.1 then (name, value) :: entry :: entries
    else if name = entry.1 then (name, value) :: entries
    else entry :: insertEntry name value entries

theorem name_of_mem_insertEntry {name : String} {value : α} {entries : List (String × α)}
    {entry : String × α} (h : entry ∈ insertEntry name value entries) :
    entry.1 = name ∨ entry ∈ entries := by
  induction entries with
  | nil => simp_all [insertEntry]
  | cons head entries ih =>
    unfold insertEntry at h
    split at h
    · simp only [List.mem_cons] at h ⊢
      rcases h with rfl | h
      · exact .inl rfl
      · exact .inr h
    · split at h
      · simp only [List.mem_cons] at h ⊢
        rcases h with rfl | h
        · exact .inl rfl
        · exact .inr (.inr h)
      · simp only [List.mem_cons] at h ⊢
        rcases h with rfl | h
        · exact .inr (.inl rfl)
        · exact (ih h).imp_right .inr

theorem pairwise_insertEntry {name : String} {value : α} {entries : List (String × α)}
    (h : entries.Pairwise fun a b => a.1 < b.1) :
    (insertEntry name value entries).Pairwise fun a b => a.1 < b.1 := by
  induction entries with
  | nil => simp [insertEntry]
  | cons head entries ih =>
    obtain ⟨hhead, htail⟩ := List.pairwise_cons.mp h
    unfold insertEntry
    split
    · next hlt =>
      refine List.pairwise_cons.mpr ⟨fun entry he => ?_, h⟩
      rcases List.mem_cons.mp he with rfl | he
      · exact hlt
      · exact String.lt_trans hlt (hhead entry he)
    · split
      · next heq => exact List.pairwise_cons.mpr ⟨fun entry he => heq ▸ hhead entry he, htail⟩
      · next hlt hne =>
        refine List.pairwise_cons.mpr ⟨fun entry he => ?_, ih htail⟩
        rcases name_of_mem_insertEntry he with h | h
        · rw [h]
          exact Std.lt_of_le_of_ne (String.not_lt.mp hlt) (Ne.symm hne)
        · exact hhead entry h

/-- The map without entries. -/
def empty : NameMap α := ⟨[], .nil⟩

/-- The value of a name. -/
def get? (m : NameMap α) (name : String) : Option α := m.toList.lookup name

/-- Whether the name has an entry. -/
def contains (m : NameMap α) (name : String) : Bool := (m.get? name).isSome

/-- Gives the name a value, in place of the one it may have had. -/
def insert (m : NameMap α) (name : String) (value : α) : NameMap α :=
  ⟨insertEntry name value m.toList, pairwise_insertEntry m.ascending⟩

/-- The names, in ascending order. -/
def names (m : NameMap α) : List String := m.toList.map Prod.fst

@[simp] theorem get?_empty (name : String) : (empty : NameMap α).get? name = none := rfl

theorem lookup_entry (name other : String) (value : α) (entries : List (String × α)) :
    ((name, value) :: entries).lookup other =
      if other = name then some value else entries.lookup other := by
  rw [List.lookup_cons]
  by_cases h : other = name
  · simp [h]
  · simp [h, beq_eq_false_iff_ne.mpr h]

@[simp] theorem get?_insert (m : NameMap α) (name other : String) (value : α) :
    (m.insert name value).get? other = if other = name then some value else m.get? other := by
  suffices h : ∀ entries : List (String × α), (insertEntry name value entries).lookup other =
      if other = name then some value else entries.lookup other from h m.toList
  intro entries
  induction entries with
  | nil => exact lookup_entry name other value []
  | cons head entries ih =>
    obtain ⟨key, old⟩ := head
    unfold insertEntry
    split
    · exact lookup_entry ..
    · split
      · next heq =>
        dsimp only at heq
        subst heq
        rw [lookup_entry, lookup_entry]
        split <;> rfl
      · next hne =>
        dsimp only at hne
        rw [lookup_entry, lookup_entry, ih]
        split
        · next heq => simp [heq, Ne.symm hne]
        · rfl

end NameMap

namespace NameSet

/-- Adds names to a set. -/
def insertAll (s : NameSet) (names : List String) : NameSet :=
  names.foldl (fun s name => s.insert name ()) s

end NameSet

end QueryExpr
