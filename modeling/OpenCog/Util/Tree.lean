import Mathlib.Logic.Function.Basic
import Mathlib.Data.List.Nodup

/-! Trees as `tree.h` links them: a node has a first child and a next sibling. An iterator
is the location of a node, and stays with the node while the links around it change. -/
namespace OpenCog.Util

inductive Forest (α : Type) where
  | nil
  | cons (data : α) (children next : Forest α)
  deriving DecidableEq

structure Node (α : Type) where
  loc : Nat
  data : α
  deriving DecidableEq

namespace Forest

variable {α β : Type}

def append : Forest α → Forest α → Forest α
  | nil, t => t
  | cons a c n, t => cons a c (n.append t)

theorem append_nil (t : Forest α) : t.append nil = t := by
  induction t with
  | nil => rfl
  | cons a c n _ ihn => rw [append, ihn]

def map (f : α → β) : Forest α → Forest β
  | nil => nil
  | cons a c n => cons (f a) (c.map f) (n.map f)

/-- The nodes, parents before children. -/
def locs : Forest (Node α) → List Nat
  | nil => []
  | cons a c n => a.loc :: (c.locs ++ n.locs)

/-- A copy: the same data in other nodes. -/
def copy (t : Forest (Node α)) : Forest α := t.map Node.data

/-! ## Changes at an iterator -/

/-- `*i = x` -/
def setData (i : Nat) (x : α) : Forest (Node α) → Forest (Node α)
  | nil => nil
  | cons a c n =>
    cons (if a.loc = i then { a with data := x } else a) (c.setData i x) (n.setData i x)

/-- The new node takes the place of the one it stands above. -/
def insertAbove (i : Nat) (w : Node α) : Forest (Node α) → Forest (Node α)
  | nil => nil
  | cons a c n =>
    if a.loc = i then cons w (cons a c nil) n else cons a (c.insertAbove i w) (n.insertAbove i w)

/-- The children become the next siblings. -/
def flatten (i : Nat) : Forest (Node α) → Forest (Node α)
  | nil => nil
  | cons a c n =>
    if a.loc = i then cons a nil (c.append n) else cons a (c.flatten i) (n.flatten i)

def erase (i : Nat) : Forest (Node α) → Forest (Node α)
  | nil => nil
  | cons a c n => if a.loc = i then n else cons a (c.erase i) (n.erase i)

/-- The next sibling, or what comes after the parent. -/
def follow (up : Option Nat) : Forest (Node α) → Option Nat
  | nil => up
  | cons a _ _ => some a.loc

@[simp] theorem follow_nil (up : Option Nat) : (nil : Forest (Node α)).follow up = up := rfl

/-- The iterator that `erase` returns: the node after the subtree, if that node is here at
all; `up` is what comes after the whole forest. -/
def afterSubtree (i : Nat) : Option Nat → Forest (Node α) → Option (Option Nat)
  | _, nil => none
  | up, cons a c n =>
    if a.loc = i then some (n.follow up)
    else match c.afterSubtree i (n.follow up) with
      | some r => some r
      | none => n.afterSubtree i up

/-! ## Wrapped nodes -/

/-- The forest with a node put above each one that has a wrapper. -/
def wrap (σ : Nat → Option (Node α)) : Forest (Node α) → Forest (Node α)
  | nil => nil
  | cons a c n =>
    match σ a.loc with
    | none => cons a (c.wrap σ) (n.wrap σ)
    | some w => cons w (cons a (c.wrap σ) nil) (n.wrap σ)

variable {σ τ : Nat → Option (Node α)} {t : Forest (Node α)} {i : Nat} {w : Node α}

theorem wrap_none {a : Node α} {c n : Forest (Node α)} (h : σ a.loc = none) :
    (cons a c n).wrap σ = cons a (c.wrap σ) (n.wrap σ) := by
  simp only [wrap, h]

theorem wrap_some {a : Node α} {c n : Forest (Node α)} (h : σ a.loc = some w) :
    (cons a c n).wrap σ = cons w (cons a (c.wrap σ) nil) (n.wrap σ) := by
  simp only [wrap, h]

theorem wrap_congr (h : ∀ j ∈ t.locs, σ j = τ j) : t.wrap σ = t.wrap τ := by
  induction t with
  | nil => rfl
  | cons a c n ihc ihn =>
    have hc := ihc fun j hj => h j (by simp [locs, hj])
    have hn := ihn fun j hj => h j (by simp [locs, hj])
    have ha := h a.loc (by simp [locs])
    cases hσ : σ a.loc with
    | none => rw [wrap_none hσ, wrap_none (ha ▸ hσ), hc, hn]
    | some w => rw [wrap_some hσ, wrap_some (ha ▸ hσ), hc, hn]

theorem wrap_update (h : i ∉ t.locs) (v : Option (Node α)) :
    t.wrap (Function.update σ i v) = t.wrap σ := by
  refine wrap_congr fun j hj => ?_
  have hj : j ≠ i := fun he => h (he ▸ hj)
  rw [Function.update_of_ne hj]

/-- The wrappers are nodes of their own. -/
structure Wrappers (t : Forest (Node α)) (σ : Nat → Option (Node α)) : Prop where
  nodup : t.locs.Nodup
  apart : ∀ j w, σ j = some w → w.loc ∉ t.locs
  inj : ∀ j k w w', σ j = some w → σ k = some w' → w.loc = w'.loc → j = k

theorem nodup_cons {a : Node α} {c n : Forest (Node α)} (h : (cons a c n).locs.Nodup) :
    a.loc ∉ c.locs ∧ a.loc ∉ n.locs ∧ c.locs.Nodup ∧ n.locs.Nodup := by
  simp only [locs, List.nodup_cons, List.mem_append, not_or, List.nodup_append] at h
  exact ⟨h.1.1, h.1.2, h.2.1, h.2.2.1⟩

namespace Wrappers

theorem children {a : Node α} {c n : Forest (Node α)} (h : Wrappers (cons a c n) σ) :
    Wrappers c σ :=
  ⟨(nodup_cons h.nodup).2.2.1, fun j w hj hm => h.apart j w hj (by simp [locs, hm]), h.inj⟩

theorem next {a : Node α} {c n : Forest (Node α)} (h : Wrappers (cons a c n) σ) :
    Wrappers n σ :=
  ⟨(nodup_cons h.nodup).2.2.2, fun j w hj hm => h.apart j w hj (by simp [locs, hm]), h.inj⟩

theorem head_ne {a : Node α} {c n : Forest (Node α)} (h : Wrappers (cons a c n) σ)
    (hi : σ i = some w) : a.loc ≠ w.loc := fun he => h.apart i w hi (by simp [locs, he])

theorem insertAbove (h : Wrappers t σ) (hi : σ i = none) (hw : ∀ j v, σ j = some v → v.loc ≠ i)
    (x : Node α) : (t.wrap σ).insertAbove i x = t.wrap (Function.update σ i (some x)) := by
  induction t with
  | nil => rfl
  | cons a c n ihc ihn =>
    have hc := ihc h.children
    have hn := ihn h.next
    by_cases ha : a.loc = i
    · obtain ⟨hac, han, -, -⟩ := nodup_cons h.nodup
      subst ha
      rw [wrap_none hi, wrap_some (Function.update_self ..), wrap_update hac, wrap_update han]
      simp only [Forest.insertAbove, if_pos]
    · cases hσ : σ a.loc with
      | none =>
        rw [wrap_none hσ, wrap_none (by rw [Function.update_of_ne ha, hσ])]
        simp only [Forest.insertAbove, if_neg ha, hc, hn]
      | some v =>
        rw [wrap_some hσ, wrap_some (by rw [Function.update_of_ne ha, hσ])]
        simp only [Forest.insertAbove, if_neg (hw _ v hσ), if_neg ha, hc, hn]

theorem setWrapper (h : Wrappers t σ) (hi : σ i = some w) (x : α) :
    (t.wrap σ).setData w.loc x =
      t.wrap (Function.update σ i (some { w with data := x })) := by
  induction t with
  | nil => rfl
  | cons a c n ihc ihn =>
    have hc := ihc h.children
    have hn := ihn h.next
    have haw := h.head_ne hi
    by_cases ha : a.loc = i
    · subst ha
      rw [wrap_some hi, wrap_some (Function.update_self ..)]
      simp only [setData, if_pos, if_neg haw, hc, hn]
    · cases hσ : σ a.loc with
      | none =>
        rw [wrap_none hσ, wrap_none (by rw [Function.update_of_ne ha, hσ])]
        simp only [setData, if_neg haw, hc, hn]
      | some v =>
        have hv : v.loc ≠ w.loc := fun he => ha (h.inj _ _ _ _ hσ hi he)
        rw [wrap_some hσ, wrap_some (by rw [Function.update_of_ne ha, hσ])]
        simp only [setData, if_neg haw, if_neg hv, hc, hn]

theorem setData (hw : ∀ j v, σ j = some v → v.loc ≠ i) (x : α) :
    (t.wrap σ).setData i x = (t.setData i x).wrap σ := by
  induction t with
  | nil => rfl
  | cons a c n ihc ihn =>
    have ha : (if a.loc = i then { a with data := x } else a).loc = a.loc := by split <;> rfl
    cases hσ : σ a.loc with
    | none =>
      rw [wrap_none hσ, Forest.setData, Forest.setData, wrap_none (by rw [ha, hσ]), ihc, ihn]
    | some v =>
      rw [wrap_some hσ, Forest.setData, Forest.setData, Forest.setData, Forest.setData,
        wrap_some (by rw [ha, hσ]), ihc, ihn, if_neg (hw _ v hσ)]

theorem unwrap (h : Wrappers t σ) (hi : σ i = some w) :
    ((t.wrap σ).flatten w.loc).erase w.loc = t.wrap (Function.update σ i none) := by
  induction t with
  | nil => rfl
  | cons a c n ihc ihn =>
    have hc := ihc h.children
    have hn := ihn h.next
    have haw := h.head_ne hi
    by_cases ha : a.loc = i
    · obtain ⟨hac, han, -, -⟩ := nodup_cons h.nodup
      subst ha
      rw [wrap_some hi, wrap_none (Function.update_self ..), wrap_update hac, wrap_update han]
      simp only [flatten, erase, if_pos, append]
    · cases hσ : σ a.loc with
      | none =>
        rw [wrap_none hσ, wrap_none (by rw [Function.update_of_ne ha, hσ])]
        simp only [flatten, erase, if_neg haw, hc, hn]
      | some v =>
        have hv : v.loc ≠ w.loc := fun he => ha (h.inj _ _ _ _ hσ hi he)
        rw [wrap_some hσ, wrap_some (by rw [Function.update_of_ne ha, hσ])]
        simp only [flatten, erase, if_neg haw, if_neg hv, hc, hn]

/-- What comes after an emptied wrapper is the node it stood above. -/
theorem after_unwrap (h : Wrappers t σ) (hi : σ i = some w) (up : Option Nat) :
    ((t.wrap σ).flatten w.loc).afterSubtree w.loc up =
      if i ∈ t.locs then some (some i) else none := by
  induction t generalizing up with
  | nil => rfl
  | cons a c n ihc ihn =>
    have hc := ihc h.children
    have hn := ihn h.next
    have haw := h.head_ne hi
    by_cases ha : a.loc = i
    · subst ha
      rw [wrap_some hi, if_pos (by simp [locs])]
      simp only [flatten, if_pos, append, afterSubtree, follow]
    · have hmem : i ∈ (cons a c n).locs ↔ i ∈ c.locs ∨ i ∈ n.locs := by
        simp [locs, Ne.symm ha]
      have hrest : ∀ up', (match ((c.wrap σ).flatten w.loc).afterSubtree w.loc up' with
          | some r => some r
          | none => ((n.wrap σ).flatten w.loc).afterSubtree w.loc up) =
          if i ∈ (cons a c n).locs then some (some i) else none := by
        intro up'
        rw [hc up', hn up]
        by_cases h1 : i ∈ c.locs
        · simp [h1, hmem]
        · by_cases h2 : i ∈ n.locs <;> simp [h1, h2, hmem]
      cases hσ : σ a.loc with
      | none =>
        rw [wrap_none hσ]
        simp only [flatten, if_neg haw, afterSubtree]
        exact hrest _
      | some v =>
        have hv : v.loc ≠ w.loc := fun he => ha (h.inj _ _ _ _ hσ hi he)
        rw [wrap_some hσ]
        simp only [flatten, if_neg haw, if_neg hv, afterSubtree, follow_nil]
        have hrest := hrest (follow up ((n.wrap σ).flatten w.loc))
        cases hx : ((c.wrap σ).flatten w.loc).afterSubtree w.loc
            (follow up ((n.wrap σ).flatten w.loc)) with
        | none => simpa only [hx] using hrest
        | some r => simpa only [hx] using hrest

end Wrappers

end Forest

end OpenCog.Util
