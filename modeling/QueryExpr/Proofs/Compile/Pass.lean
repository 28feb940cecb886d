import QueryExpr.Proofs.Compile.Walk

/-!
# Compilation as one pass from left to right

What a context answers may change with every join that is added to it: its table and its key, what
it offers and how it quotes. So it matters which context a part of a tree meets. Compilation goes
once over the nodes in preorder, and each node meets the context that the nodes before it have left.

Only references change the context, each of them by one join. The relations of this file say so node
by node, without the compiler: which nodes the pass gets over, what they write and which context
they leave, and at which nodes it stops. Nothing is assumed about the context.
-/

namespace QueryExpr

/-- What stands between the quotes of a literal, and the value of the literal. A backslash is not
part of the value but takes along the character after it; at the end it stands for itself. -/
inductive Text.StandsFor : List Char → List Char → Prop where
  | nil : StandsFor [] []
  | plain {c : Char} {raw value : List Char} (hc : c ≠ '\\') (h : StandsFor raw value) :
      StandsFor (c :: raw) (c :: value)
  | escaped (c : Char) {raw value : List Char} (h : StandsFor raw value) :
      StandsFor ('\\' :: c :: raw) (c :: value)
  | last : StandsFor ['\\'] ['\\']

theorem Text.standsFor_iff {raw value : List Char} :
    StandsFor raw value ↔ value = decodeEscapes raw := by
  constructor
  · intro h
    induction h with
    | nil | last => rfl
    | plain hc _ ih => rw [decodeEscapes_cons hc, ih]
    | escaped c _ ih => rw [decodeEscapes, ih]
  · rintro rfl
    fun_induction decodeEscapes raw with
    | case1 c cs ih => exact .escaped c ih
    | case2 c cs hlast ih =>
        by_cases hc : c = '\\'
        · subst hc
          cases cs with
          | nil => exact .last
          | cons d tail => exact absurd rfl (hlast d tail rfl)
        · exact .plain hc ih
    | case3 => exact .nil

/-- A literal has one value, the one that compilation quotes. -/
theorem Text.standsFor_toList_iff {raw value : String} :
    StandsFor raw.toList value.toList ↔ value = literalValue raw := by
  rw [standsFor_iff, ← String.toList_inj, literalValue, String.toList_ofList]

namespace Expr

variable {σ : Type} [QueryContext σ]

open QueryContext

/-- The pass gets over the node. It writes the leaf, if the node is one, and leaves a context. -/
inductive Passes (context : σ) : Expr → List Occurrence → σ → Prop where
  | paren (inner : Expr) : Passes context (.paren inner) [] context
  | binary (op : Operator) (left right : Expr) : Passes context (.binary op left right) [] context
  | call (arguments : List Expr) : Passes context (.call "concat" arguments) [] context
  | null : Passes context .null [⟨.null, "null"⟩] context
  | string {raw value : String} (hvalue : Text.StandsFor raw.toList value.toList) :
      Passes context (.string raw) [⟨.string raw, quote context value⟩] context
  | number (text : String) : Passes context (.number text) [⟨.number text, text⟩] context
  | attr {name : String} (hattribute : hasAttribute context name = true) :
      Passes context (.attr name) [⟨.attr name, table context ++ "." ++ name⟩] context
  | related {name column : String} {r : Relationship}
      (hlookup : relationship? context name = some r)
      (hkind : r.kind = .belongsTo ∨ r.kind = .hasOne) :
      Passes context (.related name column)
        [⟨.related name column, r.targetTable ++ "." ++ column⟩] (joinAlong context r)
  /-- The clause has the table and the key in it that the context had before. -/
  | count {name : String} {r : Relationship} (hlookup : relationship? context name = some r)
      (hkind : r.kind = .hasMany) :
      Passes context (.count name) [⟨.count name, name ++ "__count___inner" ++ ".count"⟩]
        (joinClause context ("LEFT JOIN (SELECT " ++ r.foreignKey ++ ", COUNT(*) AS count FROM " ++
          r.targetTable ++ " GROUP BY " ++ r.foreignKey ++ ") AS " ++ (name ++ "__count___inner") ++
          " ON " ++ (name ++ "__count___inner") ++ "." ++ r.foreignKey ++ " = " ++ table context ++
          "." ++ primaryKey context))

/-- The pass stops at the node with the error. -/
inductive Refuses (context : σ) : Expr → CompileError → Prop where
  | call {name : String} {arguments : List Expr} (hname : name ≠ "concat") :
      Refuses context (.call name arguments) (.invalidFunction name)
  | attr {name : String} (hattribute : ¬ hasAttribute context name = true) :
      Refuses context (.attr name) (.invalidAttribute name)
  | related {name column : String} (hlookup : relationship? context name = none) :
      Refuses context (.related name column) (.invalidRelationship name)
  | relatedKind {name column : String} {r : Relationship}
      (hlookup : relationship? context name = some r) (hbelongs : r.kind ≠ .belongsTo)
      (hone : r.kind ≠ .hasOne) : Refuses context (.related name column) (.wrongKind r.name r.kind)
  | count {name : String} (hlookup : relationship? context name = none) :
      Refuses context (.count name) (.invalidRelationship name)
  | countKind {name : String} {r : Relationship} (hlookup : relationship? context name = some r)
      (hmany : r.kind ≠ .hasMany) : Refuses context (.count name) (.wrongKind r.name r.kind)

/-- The pass gets over all the nodes, each in the context that the one before it leaves. -/
inductive PassesAll : σ → List Expr → List Occurrence → σ → Prop where
  | nil (context : σ) : PassesAll context [] [] context
  | cons {context middle after : σ} {node : Expr} {nodes : List Expr} {os more : List Occurrence}
      (hnode : Passes context node os middle) (hnodes : PassesAll middle nodes more after) :
      PassesAll context (node :: nodes) (os ++ more) after

/-! ## One node -/

variable {context after : σ} {os : List Occurrence} {error : CompileError}

theorem visit_eq_ok_iff_of_isLeaf {e : Expr} (h : e.IsLeaf) :
    visit e context = .ok (os, after) ↔
      ∃ text, compile e context = .ok (text, after) ∧ os = [⟨e, text⟩] := by
  rw [visit_of_isLeaf h]
  constructor
  · intro hvisit
    obtain ⟨⟨text, last⟩, htext, hvisit⟩ := exists_of_bind_eq_ok hvisit
    cases hvisit
    exact ⟨text, htext, rfl⟩
  · rintro ⟨text, htext, rfl⟩
    rw [htext]
    rfl

theorem passes_of_visit_call {name : String} {arguments : List Expr}
    (h : visit (.call name arguments) context = .ok (os, after)) :
    Passes context (.call name arguments) os after := by
  rw [visit] at h
  split at h
  · cases h
  · next f hf =>
    rw [Function.ofName?] at hf
    split at hf
    · next hname =>
      cases hname
      cases h
      exact .call arguments
    · cases hf

/-- The pass goes on after a node exactly as visiting the node does. -/
theorem visit_eq_ok_iff {e : Expr} :
    visit e context = .ok (os, after) ↔ Passes context e os after := by
  constructor
  · intro h
    cases e with
    | paren inner =>
        cases h
        exact .paren inner
    | binary op left right =>
        cases h
        exact .binary op left right
    | call name arguments => exact passes_of_visit_call h
    | null =>
        cases h
        exact .null
    | string raw =>
        cases h
        exact .string (Text.standsFor_toList_iff.mpr rfl)
    | number text =>
        cases h
        exact .number text
    | attr name =>
        obtain ⟨text, htext, rfl⟩ := (visit_eq_ok_iff_of_isLeaf (e := .attr name) trivial).mp h
        obtain ⟨hattribute, rfl, rfl⟩ := compile_attr_eq_ok htext
        exact .attr hattribute
    | related name column =>
        obtain ⟨text, htext, rfl⟩ :=
          (visit_eq_ok_iff_of_isLeaf (e := .related name column) trivial).mp h
        obtain ⟨r, hlookup, hkind, rfl, rfl⟩ := compile_related_eq_ok htext
        exact .related hlookup hkind
    | count name =>
        obtain ⟨text, htext, rfl⟩ := (visit_eq_ok_iff_of_isLeaf (e := .count name) trivial).mp h
        obtain ⟨r, hlookup, hkind, rfl, rfl⟩ := compile_count_eq_ok htext
        rw [countTable_eq]
        exact .count hlookup hkind
  · intro h
    cases h with
    | @attr name hattribute =>
        exact (visit_eq_ok_iff_of_isLeaf (e := .attr name) trivial).mpr
          ⟨_, compileAttribute_of_hasAttribute hattribute, rfl⟩
    | @related name column r hlookup hkind =>
        exact (visit_eq_ok_iff_of_isLeaf (e := .related name column) trivial).mpr
          ⟨_, compileRelated_of_kind hlookup hkind, rfl⟩
    | @count name r hlookup hkind =>
        rw [← countTable_eq]
        exact (visit_eq_ok_iff_of_isLeaf (e := .count name) trivial).mpr
          ⟨_, compileCount_of_kind hlookup hkind, rfl⟩
    | @string raw value hvalue =>
        rw [Text.standsFor_toList_iff.mp hvalue]
        rfl
    | _ => rfl

/-- The pass stops at a node exactly where visiting the node fails. -/
theorem visit_eq_error_iff {e : Expr} :
    visit e context = .error error ↔ Refuses context e error := by
  cases e with
  | paren | binary | null | string | number => exact ⟨nofun, nofun⟩
  | call name arguments =>
      rw [visit_call_eq_error_iff]
      constructor
      · rintro ⟨hname, rfl⟩
        exact .call hname
      · intro h
        cases h with
        | call hname => exact ⟨hname, rfl⟩
  | attr name =>
      refine (visit_eq_error_iff_of_isLeaf (e := .attr name) trivial).trans
        (compileAttribute_eq_error_iff.trans ?_)
      constructor
      · rintro ⟨hattribute, rfl⟩
        exact .attr hattribute
      · intro h
        cases h with
        | attr hattribute => exact ⟨hattribute, rfl⟩
  | related name column =>
      refine (visit_eq_error_iff_of_isLeaf (e := .related name column) trivial).trans
        (compileRelated_eq_error_iff.trans ?_)
      constructor
      · rintro (⟨hlookup, rfl⟩ | ⟨r, hlookup, hbelongs, hone, rfl⟩)
        · exact .related hlookup
        · exact .relatedKind hlookup hbelongs hone
      · intro h
        cases h with
        | related hlookup => exact .inl ⟨hlookup, rfl⟩
        | relatedKind hlookup hbelongs hone => exact .inr ⟨_, hlookup, hbelongs, hone, rfl⟩
  | count name =>
      refine (visit_eq_error_iff_of_isLeaf (e := .count name) trivial).trans
        (compileCount_eq_error_iff.trans ?_)
      constructor
      · rintro (⟨hlookup, rfl⟩ | ⟨r, hlookup, hmany, rfl⟩)
        · exact .count hlookup
        · exact .countKind hlookup hmany
      · intro h
        cases h with
        | count hlookup => exact .inl ⟨hlookup, rfl⟩
        | countKind hlookup hmany => exact .inr ⟨_, hlookup, hmany, rfl⟩

/-! ## All nodes -/

theorem walk_eq_ok_iff {nodes : List Expr} :
    walk nodes context = .ok (os, after) ↔ PassesAll context nodes os after := by
  induction nodes generalizing context os with
  | nil =>
      constructor
      · intro h
        cases h
        exact .nil after
      · intro h
        cases h with
        | nil => rfl
  | cons node nodes ih =>
      simp only [walk_cons_eq_ok_iff, visit_eq_ok_iff, ih]
      constructor
      · rintro ⟨first, middle, rest, hnode, hnodes, rfl⟩
        exact .cons hnode hnodes
      · intro h
        cases h with
        | @cons _ middle _ _ _ first rest hnode hnodes =>
            exact ⟨first, middle, rest, hnode, hnodes, rfl⟩

/-- A walk that fails gets over some nodes and stops at the one after them. -/
theorem walk_eq_error_iff {nodes : List Expr} :
    walk nodes context = .error error ↔
      ∃ before node rest os middle, nodes = before ++ node :: rest ∧
        PassesAll context before os middle ∧ Refuses middle node error := by
  induction nodes generalizing context with
  | nil =>
      constructor
      · nofun
      · rintro ⟨before, node, rest, os, middle, hsplit, -⟩
        simp at hsplit
  | cons first nodes ih =>
      simp only [walk_cons_eq_error_iff, visit_eq_ok_iff, visit_eq_error_iff, ih]
      constructor
      · rintro (hrefuses | ⟨os, middle, hpasses, before, node, rest, more, last, rfl, hbefore,
          hnode⟩)
        · exact ⟨[], first, nodes, [], context, rfl, .nil context, hrefuses⟩
        · exact ⟨first :: before, node, rest, os ++ more, last, rfl, .cons hpasses hbefore, hnode⟩
      · rintro ⟨before, node, rest, os, last, hsplit, hbefore, hnode⟩
        cases hbefore with
        | nil =>
            cases hsplit
            exact .inl hnode
        | @cons _ middle _ _ before os more hpasses hbefore =>
            cases hsplit
            exact .inr ⟨os, middle, hpasses, before, node, rest, more, last, rfl, hbefore, hnode⟩

/-- Compilation is a single pass from left to right, in any context. It succeeds if the pass gets
over all nodes of the tree; the context is then the one after the last of them, and the fragment is
put together from what was written for the leaves. Otherwise it fails with the error of the node at
which the pass stops. -/
theorem compile_is_pass (e : Expr) (context : σ) :
    (∀ sql after, compile e context = .ok (sql, after) ↔
        ∃ os, PassesAll context e.nodes os after ∧ Assembles e os sql) ∧
      ∀ error, compile e context = .error error ↔
        ∃ before node rest os middle, e.nodes = before ++ node :: rest ∧
          PassesAll context before os middle ∧ Refuses middle node error := by
  constructor
  · intro sql after
    simp only [compile_eq_ok_iff, walk_eq_ok_iff]
  · intro error
    rw [compile_eq_error_iff, walk_eq_error_iff]

end Expr

end QueryExpr
