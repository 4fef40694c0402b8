import OpenCog.Util.Tree

/-! The shape of a tree below a node, whose children a forest lists. -/
namespace OpenCog.Util.Forest

variable {α : Type}

/-- `number_of_children`, of a node with these children. -/
def count : Forest α → Nat
  | nil => 0
  | cons _ _ n => n.count + 1

/-- `child`: what the child holds, and its own children. -/
def child : Forest α → Nat → Option (α × Forest α)
  | nil, _ => none
  | cons a c _, 0 => some (a, c)
  | cons _ _ n, k + 1 => n.child k

def maxDepth : Forest α → Nat
  | nil => 0
  | cons _ c n => max (c.maxDepth + 1) n.maxDepth

/-- The greatest number of children below the node. -/
def maxBranchingBelow : Forest α → Nat
  | nil => 0
  | cons _ c n => max (max c.maxBranchingBelow c.count) n.maxBranchingBelow

def maxBranching (t : Forest α) : Nat := max t.maxBranchingBelow t.count

theorem count_nil : (nil : Forest α).count = 0 := rfl

theorem child_lt {t : Forest α} {k : Nat} {r : α × Forest α} (h : t.child k = some r) :
    k < t.count := by
  induction t generalizing k with
  | nil => cases h
  | cons a c n _ ihn =>
    cases k with
    | zero => exact Nat.succ_pos _
    | succ k => exact Nat.succ_lt_succ (ihn h)

theorem child_eq_none {t : Forest α} {k : Nat} : t.child k = none ↔ t.count ≤ k := by
  induction t generalizing k with
  | nil => simp [child, count]
  | cons a c n _ ihn =>
    cases k with
    | zero => simp [child, count]
    | succ k => simp [child, count, ihn]

theorem count_eq_zero {t : Forest α} : t.count = 0 ↔ t = nil := by
  cases t <;> simp [count]

theorem count_append (s t : Forest α) : (s.append t).count = s.count + t.count := by
  induction s with
  | nil => simp [append, count]
  | cons a c n _ ihn => rw [append, count, count, ihn]; omega

end OpenCog.Util.Forest
