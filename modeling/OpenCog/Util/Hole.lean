import OpenCog.Util.Tree

/-! A tree with a hole for some siblings, the innermost part first, and what the operations at an
iterator are to a node that stands in the hole. -/
namespace OpenCog.Util

/-- The hole is for the children of the root, for those of a node that siblings follow, or for what
follows a node. -/
inductive Hole (α : Type) where
  | root (a : α)
  | under (a : α) (n : Forest α) (up : Hole α)
  | beside (a : α) (c : Forest α) (up : Hole α)

namespace Forest

variable {α : Type}

/-- `++i`: the first child, or what comes after the subtree. -/
def afterNode (i : Nat) : Option Nat → Forest (Node α) → Option (Option Nat)
  | _, nil => none
  | up, cons a c n =>
    if a.loc = i then some (c.follow (n.follow up))
    else match c.afterNode i (n.follow up) with
      | some r => some r
      | none => n.afterNode i up

/-- The operation changes what is at the iterator only. -/
def ChangesAt (i : Nat) (op : Forest (Node α) → Forest (Node α)) : Prop :=
  op nil = nil ∧ ∀ a c n, a.loc ≠ i → op (cons a c n) = cons a (op c) (op n)

/-- The operation looks for the iterator, and knows what comes after the forest. -/
def LooksFor (i : Nat) (op : Option Nat → Forest (Node α) → Option (Option Nat)) : Prop :=
  (∀ up, op up nil = none) ∧ ∀ up a c n, a.loc ≠ i →
    op up (cons a c n) = (op (n.follow up) c).or (op up n)

theorem changesAt_insertAbove (i : Nat) (w : Node α) : ChangesAt i (insertAbove i w) :=
  ⟨rfl, fun a c n h => by rw [insertAbove, if_neg h]⟩

theorem changesAt_flatten (i : Nat) : ChangesAt (α := α) i (flatten i) :=
  ⟨rfl, fun a c n h => by rw [flatten, if_neg h]⟩

theorem changesAt_erase (i : Nat) : ChangesAt (α := α) i (erase i) :=
  ⟨rfl, fun a c n h => by rw [erase, if_neg h]⟩

theorem looksFor_afterSubtree (i : Nat) : LooksFor (α := α) i (afterSubtree i) := by
  refine ⟨fun up => rfl, fun up a c n h => ?_⟩
  rw [afterSubtree, if_neg h]
  cases afterSubtree i (n.follow up) c <;> rfl

theorem looksFor_afterNode (i : Nat) : LooksFor (α := α) i (afterNode i) := by
  refine ⟨fun up => rfl, fun up a c n h => ?_⟩
  rw [afterNode, if_neg h]
  cases afterNode i (n.follow up) c <;> rfl

variable {i : Nat} {t : Forest (Node α)}

theorem notMem_locs_cons {a : Node α} {c n : Forest (Node α)} :
    i ∉ (cons a c n).locs ↔ a.loc ≠ i ∧ i ∉ c.locs ∧ i ∉ n.locs := by
  simp [locs, eq_comm]

theorem ChangesAt.of_notMem {op : Forest (Node α) → Forest (Node α)} (h : ChangesAt i op)
    (hi : i ∉ t.locs) : op t = t := by
  induction t with
  | nil => exact h.1
  | cons a c n ihc ihn =>
    obtain ⟨ha, hc, hn⟩ := notMem_locs_cons.mp hi
    rw [h.2 a c n ha, ihc hc, ihn hn]

theorem LooksFor.of_notMem {op : Option Nat → Forest (Node α) → Option (Option Nat)}
    (h : LooksFor i op) (hi : i ∉ t.locs) (up : Option Nat) : op up t = none := by
  induction t generalizing up with
  | nil => exact h.1 up
  | cons a c n ihc ihn =>
    obtain ⟨ha, hc, hn⟩ := notMem_locs_cons.mp hi
    rw [h.2 up a c n ha, ihc hc, ihn hn, Option.none_or]

end Forest

namespace Hole

variable {α β : Type}

def fill : Hole α → Forest α → Forest α
  | root a, f => .cons a f .nil
  | under a n up, f => up.fill (.cons a f n)
  | beside a c up, f => up.fill (.cons a c f)

def map (g : α → β) : Hole α → Hole β
  | root a => root (g a)
  | under a n up => under (g a) (n.map g) (up.map g)
  | beside a c up => beside (g a) (c.map g) (up.map g)

theorem map_fill (g : α → β) (up : Hole α) (f : Forest α) :
    (up.fill f).map g = (up.map g).fill (f.map g) := by
  induction up generalizing f with
  | root a => rfl
  | under a n up ih => exact ih (.cons a f n)
  | beside a c up ih => exact ih (.cons a c f)

def locs : Hole (Node α) → List Nat
  | root a => [a.loc]
  | under a n up => a.loc :: (n.locs ++ up.locs)
  | beside a c up => a.loc :: (c.locs ++ up.locs)

/-- The node after the hole. -/
def after : Hole (Node α) → Option Nat
  | root _ => none
  | under _ n up => n.follow up.after
  | beside _ _ up => up.after

theorem locs_fill (up : Hole (Node α)) (f : Forest (Node α)) :
    (up.fill f).locs.Perm (f.locs ++ up.locs) := by
  induction up generalizing f with
  | root a =>
    rw [fill, Forest.locs, Forest.locs, List.append_nil, locs]
    exact @List.perm_append_comm _ [a.loc] f.locs
  | under a n up ih =>
    refine (ih (.cons a f n)).trans ?_
    rw [Forest.locs, locs, List.cons_append, List.append_assoc]
    exact List.perm_middle.symm
  | beside a c up ih =>
    refine (ih (.cons a c f)).trans ?_
    rw [Forest.locs, locs, List.cons_append]
    refine List.Perm.trans (List.Perm.cons _ ?_) List.perm_middle.symm
    rw [← List.append_assoc]
    exact List.perm_append_comm.append_right _

variable {up : Hole (Node α)} {f : Forest (Node α)} {i : Nat}

theorem notMem_locs (h : (up.fill f).locs.Nodup) (hi : i ∈ f.locs) : i ∉ up.locs := fun hup =>
  (List.nodup_append.mp ((locs_fill up f).nodup_iff.mp h)).2.2 i hi i hup rfl

theorem fill_changesAt {op : Forest (Node α) → Forest (Node α)} (h : Forest.ChangesAt i op)
    (hi : i ∉ up.locs) : op (up.fill f) = up.fill (op f) := by
  induction up generalizing f with
  | root a =>
    rw [locs, List.mem_singleton] at hi
    rw [fill, h.2 a f .nil (Ne.symm hi), h.1, fill]
  | under a n up ih =>
    simp only [locs, List.mem_cons, List.mem_append, not_or] at hi
    rw [fill, ih hi.2.2, h.2 a f n (Ne.symm hi.1), h.of_notMem hi.2.1, fill]
  | beside a c up ih =>
    simp only [locs, List.mem_cons, List.mem_append, not_or] at hi
    rw [fill, ih hi.2.2, h.2 a c f (Ne.symm hi.1), h.of_notMem hi.2.1, fill]

theorem fill_looksFor {op : Option Nat → Forest (Node α) → Option (Option Nat)}
    (h : Forest.LooksFor i op) (hi : i ∉ up.locs) : op none (up.fill f) = op up.after f := by
  induction up generalizing f with
  | root a =>
    rw [locs, List.mem_singleton] at hi
    rw [fill, h.2 none a f .nil (Ne.symm hi), h.1, Option.or_none]
    rfl
  | under a n up ih =>
    simp only [locs, List.mem_cons, List.mem_append, not_or] at hi
    rw [fill, ih hi.2.2, h.2 _ a f n (Ne.symm hi.1), h.of_notMem hi.2.1, Option.or_none, after]
  | beside a c up ih =>
    simp only [locs, List.mem_cons, List.mem_append, not_or] at hi
    rw [fill, ih hi.2.2, h.2 _ a c f (Ne.symm hi.1), h.of_notMem hi.2.1, Option.none_or, after]

end Hole

end OpenCog.Util
