import QueryExpr.NameMap

/-!
# Maps and sets built step by step

A map is what comes of inserting its entries one after the other, in the order in which it holds
them: each name is greater than the ones before it, so its entry goes to the end. For a set this
means that adding the names of the set to nothing gives the set back.

What is in a set does not depend on how the names were added.
-/

namespace QueryExpr

namespace NameMap

variable {α : Type}

theorem ext {m m' : NameMap α} (h : m.toList = m'.toList) : m = m' := by
  cases m
  cases m'
  cases h
  rfl

/-- The entry of a name that is greater than all the others goes to the end. -/
theorem insertEntry_of_forall_lt {name : String} {value : α} {entries : List (String × α)}
    (h : ∀ entry ∈ entries, entry.1 < name) :
    insertEntry name value entries = entries ++ [(name, value)] := by
  induction entries with
  | nil => rfl
  | cons entry entries ih =>
      obtain ⟨hentry, hrest⟩ := List.forall_mem_cons.mp h
      have hnot : ¬ name < entry.1 := String.lt_asymm hentry
      have hne : name ≠ entry.1 := fun heq => String.lt_irrefl _ (heq ▸ hentry)
      rw [insertEntry, if_neg hnot, if_neg hne, ih hrest]
      rfl

/-- Ascending entries that come after those of a map are put there. -/
theorem toList_foldl_insert {entries : List (String × α)} {m : NameMap α}
    (h : (m.toList ++ entries).Pairwise fun a b => a.1 < b.1) :
    (entries.foldl (fun m entry => m.insert entry.1 entry.2) m).toList = m.toList ++ entries := by
  induction entries generalizing m with
  | nil => exact (List.append_nil _).symm
  | cons entry entries ih =>
      have hbefore : ∀ other ∈ m.toList, other.1 < entry.1 := fun other hother =>
        (List.pairwise_append.mp h).2.2 other hother entry List.mem_cons_self
      have hinsert : (m.insert entry.1 entry.2).toList = m.toList ++ [entry] :=
        insertEntry_of_forall_lt hbefore
      -- The first entry moves from what is still to be inserted to the end of the map.
      rw [List.append_cons, ← hinsert] at h
      rw [List.foldl_cons, ih h, hinsert, ← List.append_cons]

/-- A map is what comes of inserting its entries. -/
theorem foldl_insert_toList (m : NameMap α) :
    m.toList.foldl (fun m entry => m.insert entry.1 entry.2) .empty = m :=
  ext (toList_foldl_insert (m := .empty) m.ascending)

end NameMap

namespace NameSet

/-- A set is what comes of adding its names. -/
theorem insertAll_names (s : NameSet) : insertAll .empty s.names = s := by
  rw [insertAll, NameMap.names, List.foldl_map]
  exact s.foldl_insert_toList

theorem contains_insert (s : NameSet) (name other : String) :
    (s.insert name ()).contains other = true ↔ other = name ∨ s.contains other = true := by
  rw [NameMap.contains, NameMap.get?_insert]
  split
  · next h => simp [h]
  · next h => simp [h, NameMap.contains]

/-- A set has the names that it had and those that were added. -/
theorem contains_insertAll (s : NameSet) (names : List String) (other : String) :
    (insertAll s names).contains other = true ↔ other ∈ names ∨ s.contains other = true := by
  induction names generalizing s with
  | nil => simp [insertAll]
  | cons name names ih =>
      rw [insertAll, List.foldl_cons, ← insertAll, ih, contains_insert, List.mem_cons, or_assoc]
      exact or_left_comm

end NameSet

end QueryExpr
