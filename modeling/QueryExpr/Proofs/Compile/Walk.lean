import QueryExpr.Proofs.Compile.Failure
import QueryExpr.Proofs.Sql.Part

/-!
# Compiling as a walk over the nodes

Compilation follows the structure of a tree, and what it does to the query is done node by node: a
walk over the nodes in preorder, with the context passed on from each node to the next. Of a call
only the name matters, parentheses and operators do nothing, and a leaf is compiled on its own. The
walk yields the texts of the leaves from left to right, and the fragment is assembled from them.

Compiling a tree and walking over its nodes come to the same, for every context: they fail with the
same error, or they succeed with the same context and with texts that the fragment is made of.
-/

namespace QueryExpr

/-- What is written for an operator between two fragments. -/
inductive Operator.InSql : Operator → String → Prop where
  | mul : InSql .mul "*"
  | div : InSql .div "/"
  | add : InSql .add "+"
  | sub : InSql .sub "-"
  | lt : InSql .lt "<"
  | le : InSql .le "<="
  | gt : InSql .gt ">"
  | ge : InSql .ge ">="
  | eq : InSql .eq "="
  | ne : InSql .ne "!="

theorem Operator.inSql_sql (op : Operator) : op.InSql op.sql := by
  cases op <;> constructor

theorem Operator.InSql.unique {op : Operator} {symbol symbol' : String} (h : op.InSql symbol)
    (h' : op.InSql symbol') : symbol = symbol' := by
  cases h <;> cases h' <;> rfl

namespace Expr

mutual

/-- The nodes of a tree in preorder: each one before its operands or arguments, and these from left
to right. -/
def nodes : Expr → List Expr
  | .paren inner => .paren inner :: nodes inner
  | .binary op left right => .binary op left right :: (nodes left ++ nodes right)
  | .call name arguments => .call name arguments :: nodesAll arguments
  | leaf => [leaf]

/-- The nodes of several trees. -/
def nodesAll : List Expr → List Expr
  | [] => []
  | e :: es => nodes e ++ nodesAll es

end

instance : DecidablePred IsLeaf := fun e => by
  cases e <;> unfold IsLeaf <;> infer_instance

/-- The leaves of a tree from left to right. -/
def leaves (e : Expr) : List Expr := e.nodes.filter fun node => node.IsLeaf

/-- The leaves of several trees. -/
def leavesAll (es : List Expr) : List Expr := (nodesAll es).filter fun node => node.IsLeaf

theorem leaves_binary (op : Operator) (left right : Expr) :
    (binary op left right).leaves = left.leaves ++ right.leaves :=
  List.filter_append left.nodes right.nodes

theorem leavesAll_cons (e : Expr) (es : List Expr) :
    leavesAll (e :: es) = e.leaves ++ leavesAll es :=
  List.filter_append e.nodes (nodesAll es)

theorem exists_of_mem_nodesAll {es : List Expr} {node : Expr} (h : node ∈ nodesAll es) :
    ∃ e ∈ es, node ∈ e.nodes := by
  induction es with
  | nil => exact absurd h List.not_mem_nil
  | cons e es ih =>
      rcases List.mem_append.mp h with hmem | hmem
      · exact ⟨e, by simp, hmem⟩
      · obtain ⟨f, hf, hnode⟩ := ih hmem
        exact ⟨f, by simp [hf], hnode⟩

/-- A property that every node passes on to its operands and arguments holds of all nodes of a tree
if it holds of the tree. -/
theorem forall_mem_nodes {p : Expr → Prop} (hparen : ∀ {inner}, p (.paren inner) → p inner)
    (hbinary : ∀ {op left right}, p (.binary op left right) → p left ∧ p right)
    (hcall : ∀ {name arguments}, p (.call name arguments) → ∀ e ∈ arguments, p e) {e : Expr}
    (h : p e) : ∀ node ∈ e.nodes, p node := by
  induction e using Expr.induction with
  | paren inner ih => exact List.forall_mem_cons.mpr ⟨h, ih (hparen h)⟩
  | binary op left right ihleft ihright =>
      obtain ⟨hleft, hright⟩ := hbinary h
      refine List.forall_mem_cons.mpr ⟨h, ?_⟩
      exact List.forall_mem_append.mpr ⟨ihleft hleft, ihright hright⟩
  | call name arguments ih =>
      refine List.forall_mem_cons.mpr ⟨h, fun node hnode => ?_⟩
      obtain ⟨e, he, hmem⟩ := exists_of_mem_nodesAll hnode
      exact ih e he (hcall h e he) node hmem
  | _ => exact List.forall_mem_singleton.mpr h

/-- A leaf in the place that it has in a fragment, with the text that it is written as there. -/
structure Occurrence where
  leaf : Expr
  text : String

mutual

/-- The fragment of the tree when its leaves, from left to right, are written as the given texts.
Everything else in it is the parentheses and operators of the tree and what stands between the
arguments of its calls. -/
inductive Assembles : Expr → List Occurrence → String → Prop where
  | paren {inner : Expr} {os : List Occurrence} {sql : String} (hinner : Assembles inner os sql) :
      Assembles (.paren inner) os ("(" ++ sql ++ ")")
  | binary {op : Operator} {left right : Expr} {ls rs : List Occurrence} {lhs symbol rhs : String}
      (hop : op.InSql symbol) (hleft : Assembles left ls lhs) (hright : Assembles right rs rhs) :
      Assembles (.binary op left right) (ls ++ rs) (lhs ++ " " ++ symbol ++ " " ++ rhs)
  | call {name : String} {arguments : List Expr} {os : List Occurrence} {parts : List String}
      (harguments : AssemblesAll arguments os parts) :
      Assembles (.call name arguments) os (" || ".intercalate parts)
  | leaf {e : Expr} {text : String} (h : e.IsLeaf) : Assembles e [⟨e, text⟩] text

/-- The fragments of several trees. -/
inductive AssemblesAll : List Expr → List Occurrence → List String → Prop where
  | nil : AssemblesAll [] [] []
  | cons {e : Expr} {es : List Expr} {os more : List Occurrence} {sql : String}
      {parts : List String} (he : Assembles e os sql) (hes : AssemblesAll es more parts) :
      AssemblesAll (e :: es) (os ++ more) (sql :: parts)

end

theorem Assembles.of_paren {inner : Expr} {os : List Occurrence} {sql : String}
    (h : Assembles (.paren inner) os sql) :
    ∃ part, Assembles inner os part ∧ sql = "(" ++ part ++ ")" := by
  cases h with
  | paren hinner => exact ⟨_, hinner, rfl⟩
  | leaf hleaf => exact hleaf.elim

theorem Assembles.of_binary {op : Operator} {left right : Expr} {os : List Occurrence}
    {sql : String} (h : Assembles (.binary op left right) os sql) :
    ∃ ls rs lhs symbol rhs, op.InSql symbol ∧ Assembles left ls lhs ∧ Assembles right rs rhs ∧
      os = ls ++ rs ∧ sql = lhs ++ " " ++ symbol ++ " " ++ rhs := by
  cases h with
  | binary hop hleft hright => exact ⟨_, _, _, _, _, hop, hleft, hright, rfl, rfl⟩
  | leaf hleaf => exact hleaf.elim

theorem Assembles.of_call {name : String} {arguments : List Expr} {os : List Occurrence}
    {sql : String} (h : Assembles (.call name arguments) os sql) :
    ∃ parts, AssemblesAll arguments os parts ∧ sql = " || ".intercalate parts := by
  cases h with
  | call harguments => exact ⟨_, harguments, rfl⟩
  | leaf hleaf => exact hleaf.elim

theorem AssemblesAll.of_cons {e : Expr} {es : List Expr} {os : List Occurrence}
    {parts : List String} (h : AssemblesAll (e :: es) os parts) :
    ∃ first more sql rest, Assembles e first sql ∧ AssemblesAll es more rest ∧
      os = first ++ more ∧ parts = sql :: rest := by
  cases h with
  | cons he hes => exact ⟨_, _, _, _, he, hes, rfl, rfl⟩

theorem AssemblesAll.leaves_eq {es : List Expr} {os : List Occurrence} {parts : List String}
    (h : AssemblesAll es os parts)
    (each : ∀ e ∈ es, ∀ {os : List Occurrence} {sql : String},
      Assembles e os sql → os.map Occurrence.leaf = e.leaves) :
    os.map Occurrence.leaf = leavesAll es := by
  induction es generalizing os parts with
  | nil =>
      cases h
      rfl
  | cons e es ih =>
      obtain ⟨first, more, sql, rest, he, hes, rfl, -⟩ := h.of_cons
      rw [List.map_append, each e (by simp) he, ih hes fun f hf => each f (by simp [hf]),
        leavesAll_cons]

/-- The occurrences in a fragment are those of the leaves of its tree. -/
theorem Assembles.leaves_eq {e : Expr} {os : List Occurrence} {sql : String}
    (h : Assembles e os sql) : os.map Occurrence.leaf = e.leaves := by
  induction e using Expr.induction generalizing os sql with
  | paren inner ih =>
      obtain ⟨part, hinner, -⟩ := h.of_paren
      exact ih hinner
  | binary op left right ihleft ihright =>
      obtain ⟨ls, rs, lhs, symbol, rhs, -, hleft, hright, rfl, -⟩ := h.of_binary
      rw [List.map_append, ihleft hleft, ihright hright, leaves_binary]
  | call name arguments ih =>
      obtain ⟨parts, harguments, -⟩ := h.of_call
      exact harguments.leaves_eq ih
  | _ =>
      cases h with
      | leaf => rfl

/-- Where occurrences of the leaves of the same tree come first, they come apart from the rest in
one way only. -/
theorem Assembles.append_inj {e : Expr} {os os' rest rest' : List Occurrence} {sql sql' : String}
    (h : Assembles e os sql) (h' : Assembles e os' sql') (happend : os ++ rest = os' ++ rest') :
    os = os' ∧ rest = rest' := by
  apply List.append_inj happend
  rw [← List.length_map Occurrence.leaf, h.leaves_eq, ← h'.leaves_eq, List.length_map]

theorem AssemblesAll.unique {es : List Expr} {os os' : List Occurrence} {parts parts' : List String}
    (h : AssemblesAll es os parts) (h' : AssemblesAll es os' parts') (hos : os = os')
    (each : ∀ e ∈ es, ∀ {os os' : List Occurrence} {sql sql' : String},
      Assembles e os sql → Assembles e os' sql' → os = os' → sql = sql') :
    parts = parts' := by
  induction es generalizing os os' parts parts' with
  | nil =>
      cases h
      cases h'
      rfl
  | cons e es ih =>
      obtain ⟨first, more, sql, rest, he, hes, rfl, rfl⟩ := h.of_cons
      obtain ⟨first', more', sql', rest', he', hes', rfl, rfl⟩ := h'.of_cons
      obtain ⟨hfirst, hmore⟩ := he.append_inj he' hos
      have htail := ih hes hes' hmore fun f hf => each f (by simp [hf])
      rw [each e (by simp) he he' hfirst, htail]

/-- The texts of the leaves determine the fragment. -/
theorem Assembles.unique {e : Expr} {os os' : List Occurrence} {sql sql' : String}
    (h : Assembles e os sql) (h' : Assembles e os' sql') (hos : os = os') : sql = sql' := by
  induction e using Expr.induction generalizing os os' sql sql' with
  | paren inner ih =>
      obtain ⟨part, hinner, rfl⟩ := h.of_paren
      obtain ⟨part', hinner', rfl⟩ := h'.of_paren
      rw [ih hinner hinner' hos]
  | binary op left right ihleft ihright =>
      obtain ⟨ls, rs, lhs, symbol, rhs, hop, hleft, hright, rfl, rfl⟩ := h.of_binary
      obtain ⟨ls', rs', lhs', symbol', rhs', hop', hleft', hright', rfl, rfl⟩ := h'.of_binary
      obtain ⟨hls, hrs⟩ := hleft.append_inj hleft' hos
      rw [hop.unique hop', ihleft hleft hleft' hls, ihright hright hright' hrs]
  | call name arguments ih =>
      obtain ⟨parts, harguments, rfl⟩ := h.of_call
      obtain ⟨parts', harguments', rfl⟩ := h'.of_call
      rw [harguments.unique harguments' hos ih]
  | _ =>
      cases h
      cases h'
      cases hos
      rfl

variable {σ : Type}

/-- Two computations fail with the same error, or leave the same context and related results. -/
inductive Agree {α β : Type} (p : α → β → Prop) :
    Except CompileError (α × σ) → Except CompileError (β × σ) → Prop where
  | error (error : CompileError) : Agree p (.error error) (.error error)
  | ok {a : α} {b : β} (after : σ) (h : p a b) : Agree p (.ok (a, after)) (.ok (b, after))

theorem Agree.bind {α β γ δ : Type} {p : α → β → Prop} {q : γ → δ → Prop}
    {x : Except CompileError (α × σ)} {y : Except CompileError (β × σ)}
    {f : α × σ → Except CompileError (γ × σ)} {g : β × σ → Except CompileError (δ × σ)}
    (h : Agree p x y) (hfg : ∀ a b after, p a b → Agree q (f (a, after)) (g (b, after))) :
    Agree q (x >>= f) (y >>= g) := by
  cases h with
  | error error => exact .error error
  | ok after h => exact hfg _ _ after h

theorem Agree.error_iff {α β : Type} {p : α → β → Prop} {x : Except CompileError (α × σ)}
    {y : Except CompileError (β × σ)} (h : Agree p x y) {error : CompileError} :
    y = .error error ↔ x = .error error := by
  cases h with
  | error => rw [Except.error.injEq, Except.error.injEq]
  | ok => exact ⟨nofun, nofun⟩

theorem Agree.exists_left {α β : Type} {p : α → β → Prop} {x : Except CompileError (α × σ)}
    {y : Except CompileError (β × σ)} (h : Agree p x y) {b : β} {after : σ}
    (hy : y = .ok (b, after)) : ∃ a, x = .ok (a, after) ∧ p a b := by
  cases h with
  | error => cases hy
  | ok _ hab =>
      cases hy
      exact ⟨_, rfl, hab⟩

theorem Agree.exists_right {α β : Type} {p : α → β → Prop} {x : Except CompileError (α × σ)}
    {y : Except CompileError (β × σ)} (h : Agree p x y) {a : α} {after : σ}
    (hx : x = .ok (a, after)) : ∃ b, y = .ok (b, after) ∧ p a b := by
  cases h with
  | error => cases hx
  | ok _ hab =>
      cases hx
      exact ⟨_, rfl, hab⟩

variable [QueryContext σ]

/-- What compilation does at a node, apart from the nodes below it. -/
def visit : Expr → σ → Except CompileError (List Occurrence × σ)
  | .paren _, context | .binary .., context => return ([], context)
  | .call name _, context =>
    match Function.ofName? name with
    | none => throw (.invalidFunction name)
    | some _ => return ([], context)
  | leaf, context => do
    let (text, context) ← compile leaf context
    return ([⟨leaf, text⟩], context)

/-- Visits nodes one after the other, each in the context that the one before it leaves. -/
def walk : List Expr → σ → Except CompileError (List Occurrence × σ)
  | [], context => return ([], context)
  | node :: nodes, context => do
    let (os, context) ← visit node context
    let (more, context) ← walk nodes context
    return (os ++ more, context)

theorem walk_append (nodes more : List Expr) (context : σ) :
    walk (nodes ++ more) context = do
      let (os, context) ← walk nodes context
      let (rest, context) ← walk more context
      return (os ++ rest, context) := by
  induction nodes generalizing context with
  | nil => exact (bind_pure (walk more context)).symm
  | cons node nodes ih =>
      simp only [List.cons_append, walk, ih, bind_assoc, pure_bind, List.append_assoc]

theorem walk_cons_eq_ok_iff {node : Expr} {nodes : List Expr} {context after : σ}
    {os : List Occurrence} :
    walk (node :: nodes) context = .ok (os, after) ↔
      ∃ first middle rest, visit node context = .ok (first, middle) ∧
        walk nodes middle = .ok (rest, after) ∧ os = first ++ rest := by
  rw [walk]
  constructor
  · intro h
    obtain ⟨⟨first, middle⟩, hfirst, h⟩ := exists_of_bind_eq_ok h
    obtain ⟨⟨rest, last⟩, hrest, h⟩ := exists_of_bind_eq_ok h
    cases h
    exact ⟨first, middle, rest, hfirst, hrest, rfl⟩
  · rintro ⟨first, middle, rest, hfirst, hrest, rfl⟩
    have hnode : visit node context = pure (first, middle) := hfirst
    have hnodes : walk nodes middle = pure (rest, after) := hrest
    simp only [hnode, hnodes, pure_bind]
    rfl

theorem walk_cons_eq_error_iff {node : Expr} {nodes : List Expr} {context : σ}
    {error : CompileError} :
    walk (node :: nodes) context = .error error ↔
      visit node context = .error error ∨
        ∃ first middle, visit node context = .ok (first, middle) ∧
          walk nodes middle = .error error := by
  rw [walk, bind_eq_error_iff]
  refine or_congr Iff.rfl ⟨?_, ?_⟩
  · rintro ⟨⟨first, middle⟩, hvisit, h⟩
    rcases bind_eq_error_iff.mp h with hwalk | ⟨rest, -, h⟩
    · exact ⟨first, middle, hvisit, hwalk⟩
    · cases h
  · rintro ⟨first, middle, hvisit, hwalk⟩
    exact ⟨(first, middle), hvisit, bind_eq_error_iff.mpr (.inl hwalk)⟩

theorem walk_cons_of_visit {node : Expr} {context : σ} (h : visit node context = .ok ([], context))
    (nodes : List Expr) : walk (node :: nodes) context = walk nodes context := by
  rw [walk, h]
  exact bind_pure (walk nodes context)

theorem visit_of_isLeaf {e : Expr} (h : e.IsLeaf) (context : σ) :
    visit e context = do
      let (text, context) ← compile e context
      return ([⟨e, text⟩], context) := by
  cases e with
  | paren | binary | call => exact h.elim
  | _ => rfl

theorem visit_call_eq_error_iff {name : String} {arguments : List Expr} {context : σ}
    {error : CompileError} :
    visit (.call name arguments) context = .error error ↔
      name ≠ Function.concat.name ∧ .invalidFunction name = error := by
  rw [visit, Function.ofName?]
  constructor
  · intro herror
    split at herror
    · next h =>
      cases herror
      refine ⟨fun hname => ?_, rfl⟩
      rw [if_pos hname] at h
      cases h
    · cases herror
  · rintro ⟨hname, rfl⟩
    rw [if_neg hname]
    rfl

theorem visit_eq_error_iff_of_isLeaf {e : Expr} (h : e.IsLeaf) {context : σ}
    {error : CompileError} :
    visit e context = .error error ↔ compile e context = .error error := by
  rw [visit_of_isLeaf h]
  cases compile e context with
  | error =>
      constructor
      · intro herror
        cases herror
        rfl
      · intro herror
        cases herror
        rfl
  | ok => exact ⟨nofun, nofun⟩

theorem nodes_of_isLeaf {e : Expr} (h : e.IsLeaf) : e.nodes = [e] := by
  cases e with
  | paren | binary | call => exact h.elim
  | _ => rfl

theorem agree_walk_of_isLeaf {e : Expr} (h : e.IsLeaf) (context : σ) :
    Agree (Assembles e) (walk e.nodes context) (compile e context) := by
  simp only [nodes_of_isLeaf h, walk, visit_of_isLeaf h, bind_assoc, pure_bind, List.append_nil]
  cases compile e context with
  | error error => exact .error error
  | ok result => exact .ok result.2 (.leaf h)

theorem agree_walk_nodesAll {es : List Expr}
    (each : ∀ e ∈ es, ∀ context : σ,
      Agree (Assembles e) (walk e.nodes context) (compile e context)) (context : σ) :
    Agree (AssemblesAll es) (walk (nodesAll es) context) (compileAll es context) := by
  induction es generalizing context with
  | nil => exact .ok context .nil
  | cons e es ih =>
      rw [nodesAll, walk_append, compileAll]
      refine (each e (by simp) context).bind fun os sql middle hfirst => ?_
      refine (ih (fun f hf => each f (by simp [hf])) middle).bind fun more parts after hrest => ?_
      exact .ok after (.cons hfirst hrest)

/-- Compiling a tree comes to the same as walking over its nodes. -/
theorem agree_walk (e : Expr) (context : σ) :
    Agree (Assembles e) (walk e.nodes context) (compile e context) := by
  induction e using Expr.induction generalizing context with
  | paren inner ih =>
      -- Nothing is left to do after the walk, and compilation puts the parentheses on.
      rw [nodes, walk_cons_of_visit rfl, compile, ← bind_pure (walk inner.nodes context)]
      refine (ih context).bind fun os sql after hinner => ?_
      exact .ok after (.paren hinner)
  | binary op left right ihleft ihright =>
      rw [nodes, walk_cons_of_visit rfl, walk_append, compile]
      refine (ihleft context).bind fun ls lhs middle hleft => ?_
      refine (ihright middle).bind fun rs rhs after hright => ?_
      exact .ok after (.binary op.inSql_sql hleft hright)
  | call name arguments ih =>
      rw [nodes, compile]
      cases hname : Function.ofName? name with
      | none =>
          simp only [walk, visit, hname]
          exact .error _
      | some f =>
          have hvisit : visit (.call name arguments) context = .ok ([], context) := by
            simp only [visit, hname]
            rfl
          rw [walk_cons_of_visit hvisit, ← bind_pure (walk (nodesAll arguments) context)]
          refine (agree_walk_nodesAll ih context).bind fun os parts after harguments => ?_
          exact .ok after (.call harguments)
  | _ =>
      apply agree_walk_of_isLeaf
      trivial

/-- A tree fails to compile with the error that the walk over its nodes ends with. -/
theorem compile_eq_error_iff {e : Expr} {context : σ} {error : CompileError} :
    compile e context = .error error ↔ walk e.nodes context = .error error :=
  (agree_walk e context).error_iff

/-- A tree compiles if the walk over its nodes comes to an end, and then the fragment is assembled
from the texts of the leaves. -/
theorem compile_eq_ok_iff {e : Expr} {context after : σ} {sql : String} :
    compile e context = .ok (sql, after) ↔
      ∃ os, walk e.nodes context = .ok (os, after) ∧ Assembles e os sql := by
  constructor
  · exact (agree_walk e context).exists_left
  · rintro ⟨os, hwalk, hos⟩
    obtain ⟨sql', hcompile, hos'⟩ := (agree_walk e context).exists_right hwalk
    rw [hcompile, hos'.unique hos rfl]

theorem exists_compile_eq_ok_iff {e : Expr} {context : σ} :
    (∃ sql after, compile e context = .ok (sql, after)) ↔
      ∃ os after, walk e.nodes context = .ok (os, after) := by
  constructor
  · rintro ⟨sql, after, hcompile⟩
    obtain ⟨os, hwalk, -⟩ := (agree_walk e context).exists_left hcompile
    exact ⟨os, after, hwalk⟩
  · rintro ⟨os, after, hwalk⟩
    obtain ⟨sql, hcompile, -⟩ := (agree_walk e context).exists_right hwalk
    exact ⟨sql, after, hcompile⟩

end Expr

end QueryExpr
