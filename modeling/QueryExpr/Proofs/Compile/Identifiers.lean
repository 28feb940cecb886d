import QueryExpr.Proofs.Compile.Literals
import QueryExpr.Proofs.Compile.Names

/-!
# The names that errors give

Compilation in a scope fails at the first node that the scope cannot resolve: a call of an unknown
function, an attribute that the model does not have, or a reference to a relationship that the model
does not have or that is of the wrong kind. The error should give the name that is written at this
node.

It does so in all cases but one. A relationship of the wrong kind is reported by the name in its
record, and a registry may find the record under another name. Then the error gives a name that
need not occur in the expression. So what errors say can be relied on as far as the registry keeps
the names that it is asked for.
-/

namespace QueryExpr

/-- The error is about a name in the expression and not about its text as a whole. -/
def CompileError.IsAboutName : CompileError → Prop
  | invalidFunction _ | invalidAttribute _ | invalidRelationship _ | wrongKind .. => True
  | parse _ | tooLong .. => False

namespace Expr

/-- The relationship that a node refers to, by the name that is written before the dot. -/
def relationshipName? : Expr → Option String
  | .related name _ | .count name => some name
  | _ => none

/-- The name is a word other than null in whatever case, so an expression can refer to a
relationship by it. -/
def IsReferable (name : String) : Prop :=
  Lexeme.IsName name.toList ∧ Text.sameIgnoringCase name "null" = false

end Expr

namespace Scope

/-- If the text fails to compile for a name in it, the error gives the name that is written at the
first node that cannot be resolved. -/
def ReportsWrittenName (s : Scope) (text : String) : Prop :=
  ∀ error, compile text s = .error error → error.IsAboutName →
    ∃ tree node name, Expr.parse text = .ok tree ∧ s.offence? tree = some node ∧
      node.identifier? = some name ∧ error.identifier? = some name

/-- If a relationship is found under the name, it has that name. -/
def KeepsName (s : Scope) (name : String) : Prop :=
  ∀ r, s.registry.relationship? s.model name = some r → r.name = name

open QueryExpr.Expr (Refuses)

variable {s : Scope} {node : Expr} {error : CompileError}

/-! ## What the error says -/

theorem isAboutName_of_refuses (h : Refuses s node error) : error.IsAboutName := by
  cases h <;> trivial

theorem exists_identifier_of_refuses (h : Refuses s node error) :
    ∃ name, node.identifier? = some name := by
  cases h <;> exact ⟨_, rfl⟩

theorem keepsName_of_eq_none {name : String} (h : s.registry.relationship? s.model name = none) :
    s.KeepsName name := by
  intro r hr
  rw [h] at hr
  cases hr

theorem keepsName_iff_of_eq_some {name : String} {r : Relationship}
    (h : s.registry.relationship? s.model name = some r) : s.KeepsName name ↔ r.name = name := by
  constructor
  · exact fun hkeeps => hkeeps r h
  · intro hname q hq
    rw [h] at hq
    cases hq
    exact hname

/-- The error gives the name at the node, unless the node is a reference and the relationship that
is found under its name has another name. -/
theorem identifier?_eq_iff_of_refuses (h : Refuses s node error) :
    error.identifier? = node.identifier? ↔
      ∀ name, node.relationshipName? = some name → s.KeepsName name := by
  cases h with
  | call | attr => exact ⟨fun _ _ => nofun, fun _ => rfl⟩
  | related hlookup | count hlookup =>
      refine ⟨fun _ name hname => ?_, fun _ => rfl⟩
      cases hname
      exact keepsName_of_eq_none hlookup
  | relatedKind hlookup | countKind hlookup =>
      -- Here the error has the name from the record, and the node the one that is written.
      have hkeeps := keepsName_iff_of_eq_some hlookup
      constructor
      · intro hidentifier name hname
        cases hname
        exact hkeeps.mpr (Option.some.inj hidentifier)
      · intro hnames
        exact congrArg some (hkeeps.mp (hnames _ rfl))

end Scope

/-! ## Texts that fail -/

section

variable {σ : Type} [QueryContext σ] {context : σ} {text : String} {tree : Expr}
  {error : CompileError}

/-- The default limits leave the length open, so a text is parsed whatever its length. -/
theorem compile_eq_match (text : String) (context : σ) :
    compile text context =
      match Expr.parse text with
      | .error cause => .error (.parse cause)
      | .ok tree => tree.compile context :=
  compileWithin_of_allowsLength (Limits.allowsLength_of_eq_none rfl text) context

theorem compile_of_parse (h : Expr.parse text = .ok tree) :
    compile text context = tree.compile context := by
  rw [compile_eq_match, h]

theorem exists_tree_of_isAboutName (h : compile text context = .error error)
    (hname : error.IsAboutName) :
    ∃ tree, Expr.parse text = .ok tree ∧ tree.compile context = .error error := by
  rw [compile_eq_match] at h
  cases hparse : Expr.parse text with
  | error cause =>
      rw [hparse] at h
      cases h
      exact hname.elim
  | ok tree =>
      rw [hparse] at h
      exact ⟨tree, rfl, h⟩

end

namespace Expr

theorem parse_toText_of_levels_eq_zero {e : Expr} (h : e.Spelled) (hkeywords : e.AvoidsKeywords)
    (hcanonical : e.Canonical) (hlevels : e.levels = 0) : parse e.toText = .ok e := by
  rw [parse, parseWithin_toText_of_canonical h hkeywords hcanonical, hlevels]
  exact if_pos (Nat.zero_le defaultLimit)

/-- In a tree without a name that is taken for a keyword, no node has such a name. -/
theorem AvoidsKeywords.of_mem_nodes {e node : Expr} (h : e.AvoidsKeywords)
    (hnode : node ∈ e.nodes) : node.AvoidsKeywords := by
  refine forall_mem_nodes ?_ ?_ ?_ h node hnode
  · intro inner h
    cases h with
    | paren hinner => exact hinner
  · intro op left right h
    cases h with
    | binary hleft hright => exact ⟨hleft, hright⟩
  · intro name arguments h
    cases h with
    | call _ harguments => exact harguments

theorem isReferable_of_relationshipName? {node : Expr} {name : String} (hspelled : node.Spelled)
    (hkeywords : node.AvoidsKeywords) (h : node.relationshipName? = some name) :
    IsReferable name := by
  cases node with
  | related =>
      cases h
      cases hspelled with
      | related hname =>
        cases hkeywords with
        | related hnull => exact ⟨hname, hnull⟩
  | count =>
      cases h
      cases hspelled with
      | count hname =>
        cases hkeywords with
        | count hnull => exact ⟨hname, hnull⟩
  | _ => cases h

/-- Every reference in a text that parses is by a referable name. -/
theorem isReferable_of_parse {text : String} {tree node : Expr} {name : String}
    (h : parse text = .ok tree) (hnode : node ∈ tree.nodes)
    (hname : node.relationshipName? = some name) : IsReferable name := by
  have hkeywords := (yields_of_parseWithin h).2.1.avoidsKeywords
  exact isReferable_of_relationshipName? ((spelled_of_parseWithin h).of_mem_nodes hnode)
    (hkeywords.of_mem_nodes hnode) hname

end Expr

namespace Scope

open QueryExpr.Expr (IsReferable)

variable {s : Scope}

/-- Every kind of relationship is wrong for one of the two forms of reference. So whatever is found
under a name that an expression can refer to, some expression fails for it. -/
theorem exists_offence_of_lookup {name : String} {r : Relationship} (hname : IsReferable name)
    (h : s.registry.relationship? s.model name = some r) :
    ∃ text node, Expr.parse text = .ok node ∧ s.offence? node = some node ∧
      node.relationshipName? = some name := by
  obtain ⟨hword, hnull⟩ := hname
  by_cases hkind : r.kind = .hasMany
  · have hcolumn : Lexeme.IsName "id".toList := Lexeme.isName_of_all (by decide) rfl
    have hparse := Expr.parse_toText_of_levels_eq_zero (.related hword hcolumn)
      (.related hnull (by decide +kernel)) .related rfl
    refine ⟨_, _, hparse, ?_, rfl⟩
    simp [offence?, Expr.nodes, resolves, h, hkind]
  · have hparse := Expr.parse_toText_of_levels_eq_zero (.count hword) (.count hnull) .count rfl
    refine ⟨_, _, hparse, ?_, rfl⟩
    simp [offence?, Expr.nodes, resolves, h, hkind]

/-- Whether the written name is reported is decided at the first node that is not resolved. -/
theorem reportsWrittenName_iff (s : Scope) (text : String) :
    s.ReportsWrittenName text ↔
      ∀ tree node name, Expr.parse text = .ok tree → s.offence? tree = some node →
        node.relationshipName? = some name → s.KeepsName name := by
  constructor
  · intro hreports tree node name hparse hoffence
    obtain ⟨error, hrefuses⟩ := exists_refuses_of_offence? hoffence
    have hcompile := compile_eq_error_iff.mpr ⟨node, hoffence, hrefuses⟩
    obtain ⟨other, first, written, hother, hfirst, hwritten, hreported⟩ :=
      hreports error ((compile_of_parse hparse).trans hcompile) (isAboutName_of_refuses hrefuses)
    obtain rfl := Except.ok.inj (hparse.symm.trans hother)
    obtain rfl := Option.some.inj (hoffence.symm.trans hfirst)
    exact (identifier?_eq_iff_of_refuses hrefuses).mp (hreported.trans hwritten.symm) name
  · intro hkeeps error hcompile hname
    obtain ⟨tree, hparse, hcompile⟩ := exists_tree_of_isAboutName hcompile hname
    obtain ⟨node, hoffence, hrefuses⟩ := compile_eq_error_iff.mp hcompile
    obtain ⟨name, hwritten⟩ := exists_identifier_of_refuses hrefuses
    have hreported := (identifier?_eq_iff_of_refuses hrefuses).mpr
      fun name => hkeeps tree node name hparse hoffence
    exact ⟨tree, node, name, hparse, hoffence, hwritten, hreported.trans hwritten⟩

/-- A schema finds a relationship by the name that it has. -/
theorem keepsName_of_schema {schema : Schema} (hregistry : s.registry = schema.registry)
    (name : String) : s.KeepsName name := by
  intro r hlookup
  exact ((Schema.relationship?_eq_some_iff hregistry).mp hlookup).2

/-- So errors give the written names in every scope of a schema. -/
theorem reportsWrittenName_of_schema {schema : Schema} (hregistry : s.registry = schema.registry)
    (text : String) : s.ReportsWrittenName text := by
  rw [reportsWrittenName_iff]
  intro tree node name _ _ _
  exact keepsName_of_schema hregistry name

/-- Errors give the written names exactly as far as the registry keeps names. For one text it comes
down to the first node that cannot be resolved: if this node is a reference, then a relationship
that is found under its name has that name. For all texts it comes down to all names that an
expression can refer to a relationship by. -/
theorem errors_give_written_names_iff (s : Scope) :
    (∀ text, s.ReportsWrittenName text ↔
        ∀ tree node name, Expr.parse text = .ok tree → s.offence? tree = some node →
          node.relationshipName? = some name → s.KeepsName name) ∧
      ((∀ text, s.ReportsWrittenName text) ↔ ∀ name, IsReferable name → s.KeepsName name) := by
  refine ⟨reportsWrittenName_iff s, ?_, ?_⟩
  · intro hreports name hname r hlookup
    obtain ⟨text, node, hparse, hoffence, hnode⟩ := exists_offence_of_lookup hname hlookup
    have hkeeps := (reportsWrittenName_iff s text).mp (hreports text)
    exact hkeeps node node name hparse hoffence hnode r hlookup
  · intro hkeeps text
    rw [reportsWrittenName_iff]
    intro tree node name hparse hoffence hname
    exact hkeeps name (Expr.isReferable_of_parse hparse (List.mem_of_find?_eq_some hoffence) hname)

/-- A query on employees, in a registry that finds under boss a relationship called manager. -/
def employees : Scope where
  registry :=
    { hasAttribute := fun _ _ => false
      relationship? := fun model name =>
        if model = "Employee" ∧ name = "boss" then
          some { name := "manager", kind := .belongsTo, targetTable := "people",
                 foreignKey := "boss_id" }
        else none }
  model := "Employee"
  table := "employees"
  primaryKey := "id"

/-- An employee has one boss only, and the error for counting them is about a manager. -/
theorem written_name_lost : ¬ ∀ (s : Scope) (text : String), s.ReportsWrittenName text := by
  intro h
  have htree : Expr.parse "boss.count" = .ok (.count "boss") := by decide +kernel
  have hcompile : compile "boss.count" employees = .error (.wrongKind "manager" .belongsTo) :=
    compile_of_parse htree
  obtain ⟨tree, node, name, hparse, hoffence, hwritten, hreported⟩ :=
    h employees "boss.count" _ hcompile trivial
  obtain rfl := Except.ok.inj (htree.symm.trans hparse)
  have hnode : employees.offence? (.count "boss") = some (.count "boss") := rfl
  obtain rfl := Option.some.inj (hnode.symm.trans hoffence)
  have hname : some "manager" = some "boss" := hreported.trans hwritten.symm
  simp at hname

end Scope

end QueryExpr
