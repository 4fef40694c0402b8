import Mathlib
import OpenCog.Util.Tree

/-! A node of a tree with everything below it, and the list of its children. -/
namespace OpenCog.Util

variable {V : Type}

structure Branch (V : Type) where
  root : V
  below : Forest V
  deriving DecidableEq

namespace Forest

def branches : Forest V → List (Branch V)
  | nil => []
  | cons v c n => ⟨v, c⟩ :: branches n

def ofBranches : List (Branch V) → Forest V
  | [] => nil
  | t :: l => cons t.root t.below (ofBranches l)

@[simp] theorem branches_ofBranches (l : List (Branch V)) : (ofBranches l).branches = l := by
  induction l with
  | nil => rfl
  | cons t l ih => rw [ofBranches, branches, ih]

@[simp] theorem ofBranches_branches (f : Forest V) : ofBranches f.branches = f := by
  induction f with
  | nil => rfl
  | cons v c n _ ihn => rw [branches, ofBranches, ihn]

/-- A node counts twice what one next to its parent would. -/
def heft : Forest V → Nat
  | nil => 0
  | cons _ c n => 1 + 2 * heft c + heft n

end Forest

namespace Branch

def children (t : Branch V) : List (Branch V) := t.below.branches

def node (v : V) (l : List (Branch V)) : Branch V := ⟨v, Forest.ofBranches l⟩

@[simp] theorem root_node (v : V) (l : List (Branch V)) : (node v l).root = v := rfl

@[simp] theorem children_node (v : V) (l : List (Branch V)) : (node v l).children = l :=
  Forest.branches_ofBranches l

@[simp] theorem node_children (t : Branch V) : node t.root t.children = t := by
  rw [node, children, Forest.ofBranches_branches]

def isChildless (t : Branch V) : Bool := t.children.isEmpty

def hasOneChild (t : Branch V) : Bool := t.children.length == 1

def heft (t : Branch V) : Nat := 1 + 2 * t.below.heft

/-- The weight of siblings. -/
def hefts (l : List (Branch V)) : Nat := (l.map heft).sum

@[simp] theorem hefts_nil : hefts ([] : List (Branch V)) = 0 := rfl

@[simp] theorem hefts_cons (t : Branch V) (l : List (Branch V)) :
    hefts (t :: l) = t.heft + hefts l := by
  rw [hefts, List.map_cons, List.sum_cons, hefts]

@[simp] theorem hefts_append (l m : List (Branch V)) : hefts (l ++ m) = hefts l + hefts m := by
  rw [hefts, List.map_append, List.sum_append, hefts, hefts]

theorem heft_pos (t : Branch V) : 0 < t.heft := by
  rw [heft]
  omega

theorem hefts_branches (f : Forest V) : hefts f.branches = f.heft := by
  induction f with
  | nil => rfl
  | cons v c n _ ihn => rw [Forest.branches, hefts_cons, ihn, heft, Forest.heft]

theorem heft_eq (t : Branch V) : t.heft = 1 + 2 * hefts t.children := by
  rw [children, hefts_branches, heft]

@[simp] theorem heft_node (v : V) (l : List (Branch V)) :
    (node v l).heft = 1 + 2 * hefts l := by
  rw [heft_eq, children_node]

theorem hefts_perm {l m : List (Branch V)} (h : l.Perm m) : hefts l = hefts m :=
  (h.map heft).sum_eq

theorem hefts_sublist {l m : List (Branch V)} (h : l.Sublist m) : hefts l ≤ hefts m := by
  induction h with
  | slnil => exact Nat.le_refl _
  | cons t _ ih =>
    rw [hefts_cons]
    omega
  | cons_cons t _ ih =>
    rw [hefts_cons, hefts_cons]
    omega

theorem heft_le_hefts {t : Branch V} {l : List (Branch V)} (h : t ∈ l) : t.heft ≤ hefts l := by
  have := hefts_sublist (List.singleton_sublist.mpr h)
  rwa [hefts_cons, hefts_nil, Nat.add_zero] at this

theorem heft_lt_of_mem {t s : Branch V} (h : s ∈ t.children) : s.heft < t.heft := by
  have := heft_le_hefts h
  rw [heft_eq t]
  omega

end Branch

end OpenCog.Util
