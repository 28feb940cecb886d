import Mathlib.Data.List.Chain
import QueryExpr.Compile.Basic
import QueryExpr.Compile.Scope

/-!
# The parts of a fragment

An SQL fragment is text, but it is put together from parts: parentheses, connectives, and the
operands between them. A connective has a blank on each side, and nothing else puts blanks into a
fragment. The parts of a tree say what its fragment is made of before they become text, and the
fragment that compilation yields is their spelling.

Compiling looks at the schema only for the tables that attributes belong to. Joins do not change
what a fragment looks like.
-/

namespace QueryExpr

namespace Sql

/-- What stands between two operands. Concatenation comes from calls, the rest from operators. -/
inductive Connective where
  | operator (op : Operator)
  | concat
  deriving DecidableEq

/-- An operand without parts of its own. A word is a number, a qualified name or the null value. -/
inductive Operand where
  | literal (value : String)
  | word (text : List Char)
  deriving DecidableEq

/-- A part of a fragment. -/
inductive Part where
  | opening
  | closing
  | connective (c : Connective)
  | operand (o : Operand)
  deriving DecidableEq

/-- The connective as it is written. -/
def Connective.symbol : Connective → List Char
  | operator op => op.sql.toList
  | concat => ['|', '|']

/-- The operand as it is written. -/
def Operand.text (d : Dialect) : Operand → List Char
  | literal value => (d.quote value).toList
  | word text => text

/-- The part as it is written, with the blanks around a connective. -/
def Part.text (d : Dialect) : Part → List Char
  | opening => ['(']
  | closing => [')']
  | connective c => ' ' :: (c.symbol ++ [' '])
  | operand o => o.text d

/-- The text of several parts. -/
def spell (d : Dialect) (parts : List Part) : List Char := parts.flatMap (Part.text d)

@[simp] theorem spell_nil (d : Dialect) : spell d [] = [] := rfl

@[simp] theorem spell_cons (d : Dialect) (p : Part) (parts : List Part) :
    spell d (p :: parts) = p.text d ++ spell d parts := rfl

@[simp] theorem spell_append (d : Dialect) (parts more : List Part) :
    spell d (parts ++ more) = spell d parts ++ spell d more := by
  simp [spell]

/-- An operand cannot come right after this part. -/
def Part.EndsOperand : Part → Prop
  | closing | operand _ => True
  | opening | connective _ => False

/-- An operand begins with this part. -/
def Part.BeginsOperand : Part → Prop
  | opening | operand _ => True
  | closing | connective _ => False

/-- No operand comes right after another. -/
def Separated (parts : List Part) : Prop :=
  parts.IsChain fun p q => p.EndsOperand → ¬ q.BeginsOperand

theorem Separated.connective {parts more : List Part} (hparts : Separated parts)
    (hmore : Separated more) (c : Connective) :
    Separated (parts ++ .connective c :: more) := by
  refine hparts.append (hmore.cons ?_) ?_
  · intro _ _ hends
    exact False.elim hends
  · intro p _ q hq _ hbegins
    cases hq
    exact hbegins

theorem Separated.enclosed {parts : List Part} (hparts : Separated parts) :
    Separated (.opening :: parts ++ [.closing]) := by
  rw [List.cons_append]
  refine List.IsChain.cons (hparts.append (List.isChain_singleton _) ?_) ?_
  · intro p _ q hq _ hbegins
    cases hq
    exact hbegins
  · intro _ _ hends
    exact False.elim hends

theorem mem_intercalate_of_mem {α : Type} {x sep : α} {l : List α} {lists : List (List α)}
    (hl : l ∈ lists) (hx : x ∈ l) : x ∈ [sep].intercalate lists := by
  induction lists with
  | nil => exact absurd hl List.not_mem_nil
  | cons m lists ih =>
      cases lists with
      | nil =>
          rw [List.intercalate_singleton, ← List.mem_singleton.mp hl]
          exact hx
      | cons k lists =>
          rw [List.intercalate_cons_cons, List.append_assoc]
          rcases List.mem_cons.mp hl with rfl | hl
          · exact List.mem_append_left _ hx
          · exact List.mem_append_right _ (List.mem_append_right _ (ih hl))

theorem exists_mem_of_mem_intercalate {α : Type} {x sep : α} {lists : List (List α)}
    (h : x ∈ [sep].intercalate lists) : x = sep ∨ ∃ l ∈ lists, x ∈ l := by
  induction lists with
  | nil => exact absurd h List.not_mem_nil
  | cons l lists ih =>
      cases lists with
      | nil =>
          rw [List.intercalate_singleton] at h
          exact .inr ⟨l, by simp, h⟩
      | cons m lists =>
          rw [List.intercalate_cons_cons, List.append_assoc, List.mem_append, List.mem_append,
            List.mem_singleton] at h
          rcases h with h | h | h
          · exact .inr ⟨l, by simp, h⟩
          · exact .inl h
          · refine (ih h).imp_right ?_
            rintro ⟨k, hk, hx⟩
            exact ⟨k, by simp [hk], hx⟩

/-- What connectives join one after the other has every property that joining keeps. -/
theorem forall_intercalate {motive : List Part → Prop} {c : Connective} (empty : motive [])
    (joined : ∀ parts more, motive parts → motive more →
      motive (parts ++ .connective c :: more))
    {lists : List (List Part)} (h : ∀ parts ∈ lists, motive parts) :
    motive ([.connective c].intercalate lists) := by
  induction lists with
  | nil => exact empty
  | cons parts lists ih =>
      cases lists with
      | nil =>
          rw [List.intercalate_singleton]
          exact h parts (by simp)
      | cons more lists =>
          rw [List.intercalate_cons_cons, List.append_assoc]
          exact joined parts _ (h parts (by simp)) (ih fun ps hps => h ps (by simp [hps]))

/-- What comes after an operand begins with a closing parenthesis or with a blank. -/
theorem Separated.head_eq {p : Part} {parts : List Part} (h : Separated (p :: parts))
    (hends : p.EndsOperand) (d : Dialect) {c : Char} (hc : c ∈ (spell d parts).head?) :
    c = ')' ∨ c = ' ' := by
  cases parts with
  | nil => cases hc
  | cons q parts =>
      have hbegins : ¬ q.BeginsOperand := (List.isChain_cons_cons.mp h).1 hends
      cases q with
      | closing =>
          cases hc
          exact .inl rfl
      | connective =>
          cases hc
          exact .inr rfl
      | opening | operand => exact absurd trivial hbegins

/-- The tables that a fragment can name: the one the query is rooted in, and one for each
relationship. -/
structure Tables where
  root : String
  target : (relationship : String) → String

end Sql

namespace Expr

open Sql

/-- A tree without subtrees that is not a call either. -/
def IsLeaf : Expr → Prop
  | .paren _ | .binary .. | .call .. => False
  | _ => True

/-- The operand that a leaf becomes. -/
def operand (tables : Tables) : Expr → Operand
  | .attr name => .word (tables.root ++ "." ++ name).toList
  | .related relationship column => .word (tables.target relationship ++ "." ++ column).toList
  | .count relationship => .word (countTable relationship ++ ".count").toList
  | .string raw => .literal (Text.literalValue raw)
  | .number text => .word text.toList
  | _ => .word "null".toList

mutual

/-- The parts of the fragment for a tree. -/
def parts (tables : Tables) : Expr → List Part
  | .paren inner => .opening :: parts tables inner ++ [.closing]
  | .binary op left right =>
      parts tables left ++ .connective (.operator op) :: parts tables right
  | .call _ arguments => [.connective .concat].intercalate (partsAll tables arguments)
  | leaf => [.operand (leaf.operand tables)]

/-- The parts for each of several trees. -/
def partsAll (tables : Tables) : List Expr → List (List Part)
  | [] => []
  | e :: es => parts tables e :: partsAll tables es

end

theorem IsLeaf.parts_eq {e : Expr} (h : e.IsLeaf) (tables : Tables) :
    e.parts tables = [.operand (e.operand tables)] := by
  cases e with
  | paren | binary | call => exact False.elim h
  | _ => rfl

theorem partsAll_eq_map (tables : Tables) (es : List Expr) :
    partsAll tables es = es.map (parts tables) := by
  induction es with
  | nil => rfl
  | cons e es ih => rw [partsAll, ih, List.map_cons]

/-- The parts of a tree have every property that its operands have and that parentheses and
connectives keep. -/
theorem forall_parts {motive : List Part → Prop} (empty : motive [])
    (enclosed : ∀ parts, motive parts → motive (.opening :: parts ++ [.closing]))
    (joined : ∀ c parts more, motive parts → motive more →
      motive (parts ++ .connective c :: more))
    {tables : Tables} (e : Expr) (leaf : ∀ o, .operand o ∈ e.parts tables → motive [.operand o]) :
    motive (e.parts tables) := by
  induction e using Expr.induction with
  | paren inner ih =>
      exact enclosed _ (ih fun o ho => leaf o (by simp [parts, ho]))
  | binary op left right ihleft ihright =>
      exact joined _ _ _ (ihleft fun o ho => leaf o (by simp [parts, ho]))
        (ihright fun o ho => leaf o (by simp [parts, ho]))
  | call name arguments ih =>
      rw [parts, partsAll_eq_map] at leaf ⊢
      apply forall_intercalate empty (joined .concat)
      intro list hlist
      obtain ⟨e, he, rfl⟩ := List.mem_map.mp hlist
      exact ih e he fun o ho => leaf o (mem_intercalate_of_mem hlist ho)
  | _ => exact leaf _ (List.mem_singleton.mpr rfl)

theorem separated_parts (tables : Tables) (e : Expr) : Separated (e.parts tables) := by
  have hnil : Separated [] := List.IsChain.nil
  refine e.forall_parts hnil ?_ ?_ ?_
  · intro parts hparts
    exact hparts.enclosed
  · intro c parts more hparts hmore
    exact hparts.connective hmore c
  · intro o _
    exact List.isChain_singleton _

end Expr

end QueryExpr
