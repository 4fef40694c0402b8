import OpenCog.Util.Hole
import OpenCog.Comboreduct.Vertex
import OpenCog.Comboreduct.Lowering

/-! The clean reduction: the subtrees under a null vertex go, and after them the junctors that have
no children left. -/
namespace OpenCog.Comboreduct

open Util

/-- The builtin that marks a subtree for removal. -/
inductive Marker where
  | nullVertex
  deriving DecidableEq

abbrev nullVertex : Vertex Marker := .other .nullVertex

def isJunctor : Vertex Marker → Bool
  | .logicalAnd | .logicalOr => true
  | _ => false

/-! ## The rules -/

def eraseNullVertices : Forest (Vertex Marker) → Forest (Vertex Marker)
  | .nil => .nil
  | .cons v c n => if v = nullVertex then eraseNullVertices n else .cons v c (eraseNullVertices n)

def removeNullVertices : Rule (Vertex Marker) := fun v c => some (v, eraseNullVertices c)

def eraseDanglingJunctors : Forest (Vertex Marker) → Forest (Vertex Marker)
  | .nil => .nil
  | .cons v c n =>
    if isJunctor v ∧ c = .nil then eraseDanglingJunctors n else .cons v c (eraseDanglingJunctors n)

def removeDanglingJunctors : Rule (Vertex Marker) := fun v c => some (v, eraseDanglingJunctors c)

def cleanReduction (fuel : Nat) (tr : Forest (Vertex Marker)) : Option (Forest (Vertex Marker)) := do
  let tr ← downwards (fun _ => true) removeNullVertices fuel tr
  upwards removeDanglingJunctors tr

/-- The depth of the tree is less than the number of its nodes. -/
def cleanReduce (tr : Forest (Vertex Marker)) : Option (Forest (Vertex Marker)) :=
  cleanReduction (weight (fun _ => 1) tr + 1) tr

/-! ## What is left -/

def withoutNulls : Forest (Vertex Marker) → Forest (Vertex Marker)
  | .nil => .nil
  | .cons v c n => if v = nullVertex then withoutNulls n else .cons v (withoutNulls c) (withoutNulls n)

def withoutDangling : Forest (Vertex Marker) → Forest (Vertex Marker)
  | .nil => .nil
  | .cons v c n =>
    if isJunctor v ∧ withoutDangling c = .nil then withoutDangling n
    else .cons v (withoutDangling c) (withoutDangling n)

/-- The rules remove children of the nodes they are applied to, never the root. -/
def belowRoots {V : Type} (g : Forest V → Forest V) : Forest V → Forest V
  | .nil => .nil
  | .cons v c n => .cons v (g c) (belowRoots g n)

def clean (tr : Forest (Vertex Marker)) : Forest (Vertex Marker) :=
  belowRoots withoutDangling (belowRoots withoutNulls tr)

theorem belowRoots_eraseNullVertices (f : Forest (Vertex Marker)) :
    belowRoots withoutNulls (eraseNullVertices f) = withoutNulls f := by
  induction f with
  | nil => rfl
  | cons v c n _ ihn =>
    rw [eraseNullVertices, withoutNulls]
    split
    · exact ihn
    · rw [belowRoots, ihn]

theorem weight_eraseNullVertices (f : Forest (Vertex Marker)) :
    weight (fun _ => 1) (eraseNullVertices f) ≤ weight (fun _ => 1) f := by
  induction f with
  | nil => exact Nat.le_refl _
  | cons v c n _ ihn =>
    rw [eraseNullVertices]
    split
    · rw [weight]
      omega
    · rw [weight, weight]
      omega

theorem downwards_removeNullVertices {fuel : Nat} {f : Forest (Vertex Marker)}
    (h : weight (fun _ => 1) f < fuel) :
    downwards (fun _ => true) removeNullVertices fuel f = some (belowRoots withoutNulls f) := by
  induction fuel generalizing f with
  | zero => omega
  | succ fuel ih =>
    cases f with
    | nil => rfl
    | cons v c n =>
      have hc := weight_eraseNullVertices c
      rw [weight] at h
      simp only [downwards, applyAt, removeNullVertices, if_pos, Option.bind_eq_bind,
        Option.bind_some]
      rw [ih (f := eraseNullVertices c) (by omega), ih (f := n) (by omega),
        belowRoots_eraseNullVertices, belowRoots]
      rfl

theorem eraseDanglingJunctors_belowRoots (f : Forest (Vertex Marker)) :
    eraseDanglingJunctors (belowRoots withoutDangling f) = withoutDangling f := by
  induction f with
  | nil => rfl
  | cons v c n _ ihn => rw [belowRoots, eraseDanglingJunctors, withoutDangling, ihn]

theorem upwards_removeDanglingJunctors (f : Forest (Vertex Marker)) :
    upwards removeDanglingJunctors f = some (belowRoots withoutDangling f) := by
  induction f with
  | nil => rfl
  | cons v c n ihc ihn =>
    rw [upwards, ihc, ihn]
    simp only [removeDanglingJunctors, Option.bind_eq_bind, Option.bind_some,
      eraseDanglingJunctors_belowRoots, belowRoots]
    rfl

theorem cleanReduce_eq (f : Forest (Vertex Marker)) : cleanReduce f = some (clean f) := by
  rw [cleanReduce, cleanReduction, downwards_removeNullVertices (Nat.lt_succ_self _),
    Option.bind_eq_bind, Option.bind_some, upwards_removeDanglingJunctors, clean]

/-! ## Trees that are clean -/

def ProperAt (c : Forest (Vertex Marker)) : Vertex Marker → Prop
  | .logicalAnd | .logicalOr => c ≠ .nil
  | .logicalTrue | .logicalFalse | .argument _ => c = .nil
  | .other _ => False

/-- Trees of `and`, `or`, constants and arguments in which no junctor is childless. -/
def Proper : Forest (Vertex Marker) → Prop
  | .nil => True
  | .cons v c n => ProperAt c v ∧ Proper c ∧ Proper n

def Unmarked : Forest (Vertex Marker) → Prop
  | .nil => True
  | .cons v c n => v ≠ nullVertex ∧ Unmarked c ∧ Unmarked n

def NoDangling : Forest (Vertex Marker) → Prop
  | .nil => True
  | .cons v c n => (isJunctor v = true → c ≠ .nil) ∧ NoDangling c ∧ NoDangling n

variable {v : Vertex Marker} {c f n : Forest (Vertex Marker)}

theorem ProperAt.ne_null (h : ProperAt c v) : v ≠ nullVertex := by
  rintro rfl
  exact h

theorem ProperAt.ne_nil (h : ProperAt c v) (hv : isJunctor v = true) : c ≠ .nil := by
  cases v with
  | logicalAnd => exact h
  | logicalOr => exact h
  | _ => cases hv

theorem ProperAt.isJunctor (h : ProperAt c v) (hc : c ≠ .nil) : isJunctor v = true := by
  cases v with
  | logicalAnd => rfl
  | logicalOr => rfl
  | other m => cases h
  | _ => exact absurd h hc

theorem ProperAt.of_isJunctor (hv : Comboreduct.isJunctor v = true) (hc : c ≠ .nil) :
    ProperAt c v := by
  cases v with
  | logicalAnd => exact hc
  | logicalOr => exact hc
  | _ => cases hv

theorem Proper.unmarked (h : Proper f) : Unmarked f := by
  induction f with
  | nil => trivial
  | cons v c n ihc ihn => exact ⟨h.1.ne_null, ihc h.2.1, ihn h.2.2⟩

theorem Proper.noDangling (h : Proper f) : NoDangling f := by
  induction f with
  | nil => trivial
  | cons v c n ihc ihn => exact ⟨h.1.ne_nil, ihc h.2.1, ihn h.2.2⟩

theorem withoutNulls_of_unmarked (h : Unmarked f) : withoutNulls f = f := by
  induction f with
  | nil => rfl
  | cons v c n ihc ihn =>
    obtain ⟨hv, hc, hn⟩ := h
    rw [withoutNulls, if_neg hv, ihc hc, ihn hn]

theorem withoutDangling_of_noDangling (h : NoDangling f) : withoutDangling f = f := by
  induction f with
  | nil => rfl
  | cons v c n ihc ihn =>
    obtain ⟨hv, hc, hn⟩ := h
    rw [withoutDangling, ihc hc, ihn hn, if_neg fun h => hv h.1 h.2]

/-! ## A marked subtree of a clean tree -/

def ProperHole : Hole (Vertex Marker) → Prop
  | .root _ => True
  | .under a n up => isJunctor a = true ∧ Proper n ∧ ProperHole up
  | .beside a c up => ProperAt c a ∧ Proper c ∧ ProperHole up

/-- The tree in which the parents go that have no child left. -/
def collapse {V : Type} : Hole V → Forest V → Forest V
  | .root a, f => .cons a f .nil
  | .under _ n up, .nil => collapse up n
  | .under a n up, .cons b c m => collapse up (.cons a (.cons b c m) n)
  | .beside a c up, f => collapse up (.cons a c f)

variable {up : Hole (Vertex Marker)}

theorem collapse_of_ne_nil {V : Type} {up : Hole V} {f : Forest V} (h : f ≠ .nil) :
    collapse up f = up.fill f := by
  induction up generalizing f with
  | root a => rfl
  | under a n up ih =>
    cases f with
    | nil => exact absurd rfl h
    | cons b c m => exact ih (by simp)
  | beside a c up ih => exact ih (by simp)

theorem collapse_eq_fill {V : Type} {up : Hole V} {f : Forest V}
    (h : ∀ a n u, up = .under a n u → f ≠ .nil) : collapse up f = up.fill f := by
  cases up with
  | root a => rfl
  | under a n up => exact collapse_of_ne_nil (h a n up rfl)
  | beside a c up => exact @collapse_of_ne_nil _ up (.cons a c f) (by simp)

theorem withoutNulls_fill (h : ProperHole up) (f : Forest (Vertex Marker)) :
    belowRoots withoutNulls (up.fill f) = up.fill (withoutNulls f) := by
  induction up generalizing f with
  | root a => rfl
  | under a n up ih =>
    obtain ⟨ha, hn, hup⟩ := h
    have hnull : a ≠ nullVertex := by
      rintro rfl
      cases ha
    rw [Hole.fill, ih hup, withoutNulls, if_neg hnull,
      withoutNulls_of_unmarked hn.unmarked, Hole.fill]
  | beside a c up ih =>
    obtain ⟨ha, hc, hup⟩ := h
    rw [Hole.fill, ih hup, withoutNulls, if_neg ha.ne_null,
      withoutNulls_of_unmarked hc.unmarked, Hole.fill]

theorem withoutDangling_fill (h : ProperHole up) (f : Forest (Vertex Marker)) :
    belowRoots withoutDangling (up.fill f) = collapse up (withoutDangling f) := by
  induction up generalizing f with
  | root a => rfl
  | under a n up ih =>
    obtain ⟨ha, hn, hup⟩ := h
    rw [Hole.fill, ih hup, withoutDangling, withoutDangling_of_noDangling hn.noDangling]
    cases withoutDangling f with
    | nil => rw [if_pos ⟨ha, rfl⟩, collapse]
    | cons b c m => rw [if_neg (fun h => by cases h.2), collapse]
  | beside a c up ih =>
    obtain ⟨ha, hc, hup⟩ := h
    rw [Hole.fill, ih hup, withoutDangling, withoutDangling_of_noDangling hc.noDangling,
      if_neg fun h => ha.ne_nil h.1 h.2, collapse]

/-- The marked subtree goes, and the parents that only led to it. -/
theorem clean_fill (hup : ProperHole up) (hn : Proper n) (t : Forest (Vertex Marker)) :
    clean (up.fill (.cons nullVertex t n)) = collapse up n := by
  rw [clean, withoutNulls_fill hup, withoutNulls, if_pos rfl, withoutNulls_of_unmarked hn.unmarked,
    withoutDangling_fill hup, withoutDangling_of_noDangling hn.noDangling]

end OpenCog.Comboreduct
