import Mathlib.Data.Prod.Lex
import OpenCog.Comboreduct.MetaRules

/-! Rules that lower a measure of the trees: the leaves first, then the weight of the nodes. A
pass of such a rule ends, and so does the loop that repeats its rules until nothing changes. -/
namespace OpenCog.Comboreduct

open Util

variable {V : Type} (w : V → Nat)

/-- The childless nodes. -/
def leafCount : Forest V → Nat
  | .nil => 0
  | .cons _ c n => max 1 (leafCount c) + leafCount n

def weight : Forest V → Nat
  | .nil => 0
  | .cons v c n => w v + weight c + weight n

def Less (f g : Forest V) : Prop :=
  leafCount f < leafCount g ∨ leafCount f = leafCount g ∧ weight w f < weight w g

/-- Nothing has changed, or the measure is lower. -/
def Lowers (f g : Forest V) : Prop := f = g ∨ Less w f g

/-- The rule has a result at every node and lowers what is there. -/
def Rule.Lowers (r : Rule V) : Prop :=
  ∀ v c, ∃ v' c', r v c = some (v', c') ∧
    Comboreduct.Lowers w (.cons v' c' .nil) (.cons v c .nil)

variable {w} {f g h c c' n n' : Forest V} {v v' : V}

@[simp] theorem leafCount_append (f g : Forest V) :
    leafCount (f.append g) = leafCount f + leafCount g := by
  induction f with
  | nil => simp [Forest.append, leafCount]
  | cons v c n _ ihn => simp only [Forest.append, leafCount, ihn, Nat.add_assoc]

@[simp] theorem weight_append (f g : Forest V) :
    weight w (f.append g) = weight w f + weight w g := by
  induction f with
  | nil => simp [Forest.append, weight]
  | cons v c n _ ihn => simp only [Forest.append, weight, ihn, Nat.add_assoc]

theorem eq_nil_of_leafCount (h : leafCount f = 0) : f = .nil := by
  cases f with
  | nil => rfl
  | cons v c n =>
    rw [leafCount] at h
    omega

theorem Less.trans (h₁ : Less w f g) (h₂ : Less w g h) : Less w f h := by
  unfold Less at *
  omega

theorem Less.irrefl : ¬ Less w f f := by
  unfold Less
  omega

theorem Lowers.refl (f : Forest V) : Lowers w f f := .inl rfl

theorem Lowers.trans (h₁ : Lowers w f g) (h₂ : Lowers w g h) : Lowers w f h := by
  rcases h₁ with rfl | h₁
  · exact h₂
  · rcases h₂ with rfl | h₂
    · exact .inr h₁
    · exact .inr (h₁.trans h₂)

theorem Lowers.next (h : Lowers w n n') : Lowers w (.cons v c n) (.cons v c n') := by
  rcases h with rfl | h
  · exact .refl _
  · right
    simp only [Less, leafCount, weight] at h ⊢
    omega

theorem Lowers.node (h : Lowers w (.cons v c .nil) (.cons v' c' .nil)) :
    Lowers w (.cons v c n) (.cons v' c' n) := by
  rcases h with h | h
  · obtain ⟨rfl, rfl, -⟩ := Forest.cons.inj h
    exact .refl _
  · right
    simp only [Less, leafCount, weight] at h ⊢
    omega

theorem less_wellFounded : WellFounded (Less w) := by
  have hwf := (InvImage.wf (fun f => (leafCount f, weight w f))
    (Prod.lex Nat.lt_wfRel Nat.lt_wfRel).wf)
  refine Subrelation.wf (fun {f g} h => ?_) hwf
  rcases h with h | ⟨h, hw⟩
  · exact Prod.Lex.left _ _ h
  · exact Prod.lex_def.mpr (.inr ⟨h, hw⟩)

section Passes

variable (hw : ∀ v, 0 < w v)
include hw

/-- A forest that becomes empty leaves a leaf where its parent is. -/
theorem Lowers.below (h : Lowers w c c') : Lowers w (.cons v c n) (.cons v c' n) := by
  rcases h with rfl | h
  · exact .refl _
  right
  have hnil : leafCount c = 0 → weight w c = 0 := fun h0 => by
    rw [eq_nil_of_leafCount h0, weight]
  have hpos : 0 < leafCount c' → 0 < weight w c' := by
    cases c' with
    | nil => exact fun h0 => absurd h0 (Nat.lt_irrefl 0)
    | cons u d m =>
      have := hw u
      intro _
      rw [weight]
      omega
  simp only [Less, leafCount, weight] at h ⊢
  omega

/-- What is below the node and beside it is lower than the node with all of it. -/
theorem less_children : Less w c (.cons v c n) := by
  have := hw v
  simp only [Less, leafCount, weight]
  omega

theorem less_next : Less w n (.cons v c n) := by
  have := hw v
  simp only [Less, leafCount, weight]
  omega

theorem upwards_lowers {r : Rule V} (hr : r.Lowers w) (f : Forest V) :
    ∃ f', upwards r f = some f' ∧ Lowers w f' f := by
  induction f with
  | nil => exact ⟨.nil, rfl, .refl _⟩
  | cons v c n ihc ihn =>
    obtain ⟨c', hc, hlow⟩ := ihc
    obtain ⟨n', hn, hnext⟩ := ihn
    obtain ⟨v', c'', hat, hnode⟩ := hr v c'
    refine ⟨.cons v' c'' n', ?_, (hnode.node.trans (hlow.below hw)).trans hnext.next⟩
    simp only [upwards, hc, hat, hn, Option.bind_eq_bind, Option.bind_some]
    rfl

theorem downwards_lowers {r : Rule V} (hr : r.Lowers w) (visits : V → Bool) (f : Forest V) :
    ∃ f', Downwards visits r f f' ∧ Lowers w f' f := by
  induction f using less_wellFounded (w := w) |>.induction with
  | _ f ih =>
  cases f with
  | nil => exact ⟨.nil, .nil, .refl _⟩
  | cons v c n =>
    obtain ⟨v', c', hat, hnode⟩ : ∃ v' c', applyAt visits r v c = some (v', c') ∧
        Lowers w (.cons v' c' .nil) (.cons v c .nil) := by
      rw [applyAt]
      split
      · exact hr v c
      · exact ⟨v, c, rfl, .refl _⟩
    have hless : Less w c' (.cons v c n) := by
      rcases hnode.node (n := n) with h | h
      · rw [← h]
        exact less_children hw
      · exact (less_children hw).trans h
    obtain ⟨c'', hbelow, hlow⟩ := ih c' hless
    obtain ⟨n', hnext, hlow'⟩ := ih n (less_next hw)
    exact ⟨_, .cons hat hbelow hnext, ((hlow.below hw).trans hnode.node).trans hlow'.next⟩

end Passes

/-- A loop ends when each of its rounds lowers the tree: at a tree that the round leaves as it
is. -/
theorem iterative_terminates [DecidableEq V] {round : Nat → Forest V → Option (Forest V)}
    (hround : ∀ f, ∃ f', Lowers w f' f ∧ ∃ enough, ∀ fuel ≥ enough, round fuel f = some f')
    (f : Forest V) :
    ∃ f' enough, ∀ fuel ≥ enough, round fuel f' = some f' ∧
      ∀ rounds ≥ enough, iterative (round fuel) rounds f = some f' := by
  induction f using (less_wellFounded (w := w)).induction with
  | _ f ih =>
  obtain ⟨f₁, hlow, enough, hrun⟩ := hround f
  rcases hlow with rfl | hless
  · refine ⟨f₁, enough + 1, fun fuel hfuel => ⟨hrun fuel (by omega), fun rounds hrounds => ?_⟩⟩
    cases rounds with
    | zero => omega
    | succ rounds =>
      rw [iterative, hrun fuel (by omega), Option.bind_eq_bind, Option.bind_some, if_pos rfl]
      rfl
  · obtain ⟨f', enough', hrest⟩ := ih f₁ hless
    refine ⟨f', max enough enough' + 1, fun fuel hfuel => ?_⟩
    obtain ⟨hfix, hloop⟩ := hrest fuel (by omega)
    refine ⟨hfix, fun rounds hrounds => ?_⟩
    cases rounds with
    | zero => omega
    | succ rounds =>
      have hne : f₁ ≠ f := fun h => Less.irrefl (h ▸ hless)
      rw [iterative, hrun fuel (by omega), Option.bind_eq_bind, Option.bind_some, if_neg hne]
      exact hloop rounds (by omega)

end OpenCog.Comboreduct
