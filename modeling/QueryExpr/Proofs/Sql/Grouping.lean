import QueryExpr.Proofs.Sql.Part

/-!
# How a database groups a fragment

A database sees no tree in a fragment; it groups the operands by the precedence of what stands
between them. `read?` does this for a list of parts. It keeps a tree of all that was read since the
last parenthesis was opened, and puts each new operand in its place on the right edge of that tree.

Reading the parts of a tree gives `regroup` of the tree, whatever the tree is. A tree that already
groups as its precedences ask is read back unchanged, and every tree that was read groups so.
Together, a tree is read back from its parts if and only if it is canonical.
-/

namespace QueryExpr.Sql

/-- How tightly a connective binds in PostgreSQL: products, sums, concatenation, comparisons. -/
def Connective.precedence : Connective → Nat
  | operator .mul | operator .div => 3
  | operator .add | operator .sub => 2
  | concat => 1
  | operator .lt | operator .le | operator .gt | operator .ge | operator .eq | operator .ne => 0

/-- A grouped fragment. -/
inductive Tree where
  | operand (o : Operand)
  | paren (inner : Tree)
  | binary (c : Connective) (left right : Tree)
  deriving DecidableEq

namespace Tree

variable {c k : Connective} {t u v : Tree}

/-- The parts of the fragment, from left to right. -/
def parts : Tree → List Part
  | operand o => [.operand o]
  | paren inner => .opening :: parts inner ++ [.closing]
  | binary c left right => parts left ++ .connective c :: parts right

/-- The connective at the root, if there is one, binds at least as tightly as `precedence`. -/
def BindsAtLeast (precedence : Nat) : Tree → Prop
  | binary c _ _ => precedence ≤ c.precedence
  | _ => True

/-- Connectives group by precedence and to the left. -/
inductive Canonical : Tree → Prop where
  | operand {o : Operand} : Canonical (operand o)
  | paren {inner : Tree} (hinner : Canonical inner) : Canonical (paren inner)
  | binary {c : Connective} {left right : Tree} (hleft : Canonical left) (hright : Canonical right)
      (leftBinds : left.BindsAtLeast c.precedence)
      (rightBinds : right.BindsAtLeast (c.precedence + 1)) : Canonical (binary c left right)

/-- Puts a connective and its right operand in their place. The connective takes all of the tree as
its left operand, unless the tree ends in one for a connective that binds less tightly. -/
def attach (c : Connective) (right : Tree) : Tree → Tree
  | binary k left last =>
      if k.precedence < c.precedence then binary k left (attach c right last)
      else binary c (binary k left last) right
  | t => binary c t right

/-- What was read before an operand: nothing, or a tree and a connective that waits. -/
abbrev Pending : Type := Option (Tree × Connective)

/-- Puts an operand after what was read before it. -/
def place : Pending → Tree → Tree
  | none, t => t
  | some (before, c), t => attach c t before

/-- What comes of a tree when its parts are read after `pending`. -/
def regroup (pending : Pending) : Tree → Tree
  | operand o => place pending (operand o)
  | paren inner => place pending (paren (regroup none inner))
  | binary c left right => regroup (some (regroup pending left, c)) right

end Tree

mutual

/-- Reads a fragment where an operand is expected. The frames hold what was read before each
parenthesis that is open. -/
def readOperand (frames : List Tree.Pending) (pending : Tree.Pending) : List Part → Option Tree
  | .opening :: rest => readOperand (pending :: frames) none rest
  | .operand o :: rest => readRest frames (Tree.place pending (.operand o)) rest
  | _ => none

/-- Reads a fragment after the operand or the operands that `t` consists of. -/
def readRest (frames : List Tree.Pending) (t : Tree) : List Part → Option Tree
  | .connective c :: rest => readOperand frames (some (t, c)) rest
  | .closing :: rest =>
      match frames with
      | pending :: frames => readRest frames (Tree.place pending (.paren t)) rest
      | [] => none
  | [] => if frames = [] then some t else none
  | _ => none

end

/-- Groups the parts of a fragment. -/
def read? (parts : List Part) : Option Tree := readOperand [] none parts

namespace Tree

variable {c k : Connective} {t u v : Tree}

theorem attach_of_bindsAtLeast (h : t.BindsAtLeast c.precedence) (right : Tree) :
    attach c right t = binary c t right := by
  cases t with
  | binary k left last => rw [attach, if_neg (Nat.not_lt.mpr h)]
  | _ => rfl

/-- Attaching a connective and then one that binds more tightly puts the second one inside the right
operand of the first. -/
theorem attach_attach (h : c.precedence < k.precedence) (t u v : Tree) :
    attach k v (attach c u t) = attach c (attach k v u) t := by
  induction t with
  | binary o left last _ ih =>
      by_cases ho : o.precedence < c.precedence
      · rw [attach, if_pos ho, attach, if_pos (Nat.lt_trans ho h), ih, attach, if_pos ho]
      · rw [attach, if_neg ho, attach, if_pos h, attach, if_neg ho]
  | _ => simp only [attach, if_pos h]

theorem BindsAtLeast.mono {p q : Nat} (h : t.BindsAtLeast q) (hpq : p ≤ q) : t.BindsAtLeast p := by
  cases t with
  | binary => exact Nat.le_trans hpq h
  | _ => trivial

theorem BindsAtLeast.attach {p : Nat} (ht : t.BindsAtLeast p) (hc : p ≤ c.precedence) (u : Tree) :
    (Tree.attach c u t).BindsAtLeast p := by
  cases t with
  | binary k left last =>
      rw [Tree.attach]
      split
      · exact ht
      · exact hc
  | _ => exact hc

/-- Attaching an operand keeps a tree canonical. -/
theorem Canonical.attach (ht : t.Canonical) (hu : u.Canonical) (operand : ∀ p, u.BindsAtLeast p) :
    (Tree.attach c u t).Canonical := by
  induction ht with
  | operand => exact .binary .operand hu trivial (operand _)
  | paren hinner => exact .binary (.paren hinner) hu trivial (operand _)
  | @binary k left last hleft hlast leftBinds lastBinds _ ih =>
      rw [Tree.attach]
      split
      · next hlt => exact .binary hleft ih leftBinds (lastBinds.attach hlt u)
      · next hge =>
        exact .binary (.binary hleft hlast leftBinds lastBinds) hu (Nat.not_lt.mp hge) (operand _)

/-- What was read before an operand is canonical. -/
def Pending.Canonical : Pending → Prop
  | none => True
  | some (before, _) => before.Canonical

theorem Pending.Canonical.place {pending : Pending} (hpending : pending.Canonical)
    (ht : t.Canonical) (operand : ∀ p, t.BindsAtLeast p) : (Tree.place pending t).Canonical := by
  cases pending with
  | none => exact ht
  | some pending => exact Tree.Canonical.attach hpending ht operand

/-- Whatever is read is canonical. -/
theorem canonical_regroup (t : Tree) (pending : Pending) (hpending : pending.Canonical) :
    (regroup pending t).Canonical := by
  induction t generalizing pending with
  | operand o => exact hpending.place .operand fun _ => trivial
  | paren inner ih => exact hpending.place (.paren (ih none trivial)) fun _ => trivial
  | binary c left right ihleft ihright => exact ihright _ (ihleft pending hpending)

/-- The pending connective binds less tightly than the tree that comes after it. -/
def Pending.Admits (t : Tree) : Pending → Prop
  | none => True
  | some (_, c) => t.BindsAtLeast (c.precedence + 1)

/-- A canonical tree is read as a whole where what is pending lets it. -/
theorem Canonical.regroup_eq (ht : t.Canonical) (pending : Pending) (h : pending.Admits t) :
    regroup pending t = place pending t := by
  induction ht generalizing pending with
  | operand => rfl
  | paren _ ih =>
      rw [regroup, ih none trivial]
      rfl
  | @binary c left right hleft hright leftBinds rightBinds ihleft ihright =>
      have hplaced : pending.Admits left := by
        cases pending with
        | none => trivial
        | some pending => exact leftBinds.mono h
      have hright : Pending.Admits right (some (place pending left, c)) := rightBinds
      rw [regroup, ihleft pending hplaced, ihright _ hright]
      cases pending with
      | none => exact attach_of_bindsAtLeast leftBinds right
      | some pending =>
          obtain ⟨before, k⟩ := pending
          have hlt : k.precedence < c.precedence := h
          simp only [place]
          rw [attach_attach hlt, attach_of_bindsAtLeast leftBinds]

/-- Reading the parts of a tree, in any place of a fragment, gives the tree regrouped. -/
theorem readOperand_parts (t : Tree) (frames : List Pending) (pending : Pending)
    (rest : List Part) :
    readOperand frames pending (t.parts ++ rest) = readRest frames (t.regroup pending) rest := by
  induction t generalizing frames pending rest with
  | operand o => rfl
  | paren inner ih =>
      simp only [parts, List.cons_append, List.append_assoc]
      rw [readOperand, ih]
      rfl
  | binary c left right ihleft ihright =>
      rw [parts, List.append_assoc, ihleft, List.cons_append, readRest, ihright]
      rfl

theorem read?_parts (t : Tree) : read? t.parts = some (t.regroup none) := by
  have h := readOperand_parts t [] none []
  rw [List.append_nil] at h
  rw [read?, h, readRest, if_pos rfl]

/-- A tree is read back from its parts exactly if it is canonical. -/
theorem read?_parts_eq_some_iff (t : Tree) : read? t.parts = some t ↔ t.Canonical := by
  rw [read?_parts, Option.some.injEq]
  constructor
  · intro h
    rw [← h]
    exact canonical_regroup t none trivial
  · intro h
    exact h.regroup_eq none trivial

/-- Several trees joined from left to right, if there are any. -/
def concat? : List Tree → Option Tree
  | [] => none
  | t :: ts => some (ts.foldl (.binary .concat) t)

theorem parts_foldl (t : Tree) (ts : List Tree) :
    (ts.foldl (.binary .concat) t).parts =
      [.connective .concat].intercalate ((t :: ts).map parts) := by
  induction ts generalizing t with
  | nil => simp
  | cons u ts ih =>
      rw [List.foldl_cons, ih]
      cases ts with
      | nil => simp [parts]
      | cons v ts => simp [parts]

theorem bindsAtLeast_foldl_iff (t u : Tree) (us : List Tree) (p : Nat) :
    ((u :: us).foldl (.binary .concat) t).BindsAtLeast p ↔ p ≤ 1 := by
  induction us generalizing t u with
  | nil => exact Iff.rfl
  | cons v vs ih => exact ih (.binary .concat t u) v

/-- Trees joined from left to right are canonical if none but the first is joined itself. -/
theorem canonical_foldl_iff {t : Tree} (ht : t.BindsAtLeast 1) (ts : List Tree) :
    (ts.foldl (.binary .concat) t).Canonical ↔
      t.Canonical ∧ ∀ u ∈ ts, u.Canonical ∧ u.BindsAtLeast 2 := by
  induction ts generalizing t with
  | nil => simp
  | cons u ts ih =>
      have hroot : (Tree.binary .concat t u).BindsAtLeast 1 := Nat.le_refl 1
      rw [List.foldl_cons, ih hroot, List.forall_mem_cons, ← and_assoc]
      apply and_congr_left
      intro _
      constructor
      · intro h
        cases h with
        | binary hleft hright _ rightBinds => exact ⟨hleft, hright, rightBinds⟩
      · rintro ⟨hleft, hright, rightBinds⟩
        exact .binary hleft hright ht rightBinds

end Tree

end QueryExpr.Sql
