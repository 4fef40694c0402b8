import Mathlib
import OpenCog.Util.Tree

/-! Combo trees with boolean connectives. What the logical rules do not look into is a vertex
of a type `α` of its own, and its value is a function of the whole subtree below it. -/
namespace OpenCog.Comboreduct

open Util

variable {α : Type}

/-- An input of the tree, negated when `idx` is negative. -/
structure Argument where
  idx : Int
  idx_ne : idx ≠ 0
  deriving DecidableEq

theorem Argument.one_ne : (1 : Int) ≠ 0 := by decide

theorem Argument.two_ne : (2 : Int) ≠ 0 := by decide

theorem Argument.neg_one_ne : (-1 : Int) ≠ 0 := by decide

def Argument.isNegated (a : Argument) : Bool := a.idx < 0

def Argument.negate (a : Argument) : Argument := ⟨-a.idx, by simpa using a.idx_ne⟩

@[simp] theorem Argument.negate_negate (a : Argument) : a.negate.negate = a := by
  simp [negate]

inductive Vertex (α : Type) where
  | logicalAnd
  | logicalOr
  | logicalTrue
  | logicalFalse
  | argument (a : Argument)
  | other (a : α)
  deriving DecidableEq

/-- What an iterator of the tree gives access to: a vertex and its children. -/
structure Subtree (α : Type) where
  root : Vertex α
  children : Forest (Vertex α)
  deriving DecidableEq

def siblings : Forest (Vertex α) → List (Subtree α)
  | .nil => []
  | .cons a c n => ⟨a, c⟩ :: siblings n

def ofSiblings : List (Subtree α) → Forest (Vertex α)
  | [] => .nil
  | t :: ts => .cons t.root t.children (ofSiblings ts)

@[simp] theorem siblings_ofSiblings (ts : List (Subtree α)) : siblings (ofSiblings ts) = ts := by
  induction ts with
  | nil => rfl
  | cons t ts ih => rw [ofSiblings, siblings, ih]

def Subtree.isChildless (t : Subtree α) : Bool := (siblings t.children).isEmpty

structure Assignment (α : Type) where
  input : Nat → Bool
  other : α → Forest (Vertex α) → Bool

def Assignment.argument (σ : Assignment α) (a : Argument) : Bool :=
  if 0 < a.idx then σ.input a.idx.natAbs else !σ.input a.idx.natAbs

@[simp] theorem Assignment.argument_negate (σ : Assignment α) (a : Argument) :
    σ.argument a.negate = !σ.argument a := by
  have ha := a.idx_ne
  simp only [Assignment.argument, Argument.negate, Int.natAbs_neg]
  by_cases h : 0 < a.idx
  · rw [if_pos h, if_neg (by omega)]
  · rw [if_neg h, if_pos (by omega), Bool.not_not]

def Vertex.value (σ : Assignment α) (children : Forest (Vertex α)) (values : List Bool) :
    Vertex α → Bool
  | .logicalAnd => values.all id
  | .logicalOr => values.any id
  | .logicalTrue => true
  | .logicalFalse => false
  | .argument a => σ.argument a
  | .other a => σ.other a children

def values (σ : Assignment α) : Forest (Vertex α) → List Bool
  | .nil => []
  | .cons a c n => a.value σ c (values σ c) :: values σ n

def eval (σ : Assignment α) (t : Subtree α) : Bool :=
  t.root.value σ t.children (values σ t.children)

theorem values_eq (σ : Assignment α) (f : Forest (Vertex α)) :
    values σ f = (siblings f).map (eval σ) := by
  induction f with
  | nil => rfl
  | cons a c n ihc ihn => rw [values, siblings, List.map_cons, ihn, eval]

variable {σ : Assignment α} {f : Forest (Vertex α)} {a : Argument}

@[simp] theorem eval_logicalTrue : eval σ ⟨.logicalTrue, f⟩ = true := rfl

@[simp] theorem eval_logicalFalse : eval σ ⟨.logicalFalse, f⟩ = false := rfl

@[simp] theorem eval_argument : eval σ ⟨.argument a, f⟩ = σ.argument a := rfl

@[simp] theorem eval_logicalAnd :
    eval σ ⟨.logicalAnd, f⟩ = true ↔ ∀ t ∈ siblings f, eval σ t = true := by
  simp [eval, Vertex.value, values_eq]

@[simp] theorem eval_logicalOr :
    eval σ ⟨.logicalOr, f⟩ = true ↔ ∃ t ∈ siblings f, eval σ t = true := by
  simp [eval, Vertex.value, values_eq]

end OpenCog.Comboreduct
