import Mathlib.Logic.Relation

/-! Reachability in a relation that grows by one edge at a time. -/
namespace OpenCog.EdgeClosure

open Relation

variable {α : Type*} {r : α → α → Prop} {x y a b : α}

def insertEdge (r : α → α → Prop) (x y : α) : α → α → Prop :=
  fun a b => r a b ∨ (a = x ∧ b = y)

/-- No two distinct elements reach each other; edges from an element to itself are allowed. -/
def Acyclic (r : α → α → Prop) : Prop :=
  ∀ a b, ReflTransGen r a b → ReflTransGen r b a → a = b

theorem reach_insertEdge_of_reach (h : ReflTransGen r a b) :
    ReflTransGen (insertEdge r x y) a b :=
  ReflTransGen.mono (fun _ _ => Or.inl) _ _ h

/-- What an edge adds: the ways into its source, on to the ways out of its target. -/
theorem reach_insertEdge :
    ReflTransGen (insertEdge r x y) a b ↔
      ReflTransGen r a b ∨ (ReflTransGen r a x ∧ ReflTransGen r y b) := by
  constructor
  · intro h
    induction h with
    | refl => exact Or.inl .refl
    | tail _ edge ih =>
      rcases edge with old | ⟨rfl, rfl⟩
      · rcases ih with reached | ⟨into, out⟩
        · exact Or.inl (reached.tail old)
        · exact Or.inr ⟨into, out.tail old⟩
      · rcases ih with reached | ⟨into, -⟩
        · exact Or.inr ⟨reached, .refl⟩
        · exact Or.inr ⟨into, .refl⟩
  · rintro (reached | ⟨into, out⟩)
    · exact reach_insertEdge_of_reach reached
    · apply (reach_insertEdge_of_reach into).trans
      exact (reach_insertEdge_of_reach out).head (Or.inr ⟨rfl, rfl⟩)

/-- An edge from an element to itself reaches nothing new. -/
theorem reach_insertSelf :
    ReflTransGen (insertEdge r x x) a b ↔ ReflTransGen r a b := by
  rw [reach_insertEdge]
  exact ⟨fun h => h.elim id fun ⟨into, out⟩ => into.trans out, Or.inl⟩

/-- An element without edges out of it reaches itself only. -/
theorem reach_of_isolated (h : ∀ b, r a b → b = a) (hr : ReflTransGen r a b) : b = a := by
  induction hr with
  | refl => rfl
  | tail _ edge ih => exact h _ (ih ▸ edge)

theorem reach_to_isolated (h : ∀ a, r a b → a = b) (hr : ReflTransGen r a b) : a = b := by
  induction hr using ReflTransGen.head_induction_on with
  | refl => rfl
  | head edge _ ih => exact h _ (ih ▸ edge)

theorem rank_le_of_reach (rank : α → Nat) (h : ∀ a b, r a b → a = b ∨ rank b < rank a)
    (hr : ReflTransGen r a b) : a = b ∨ rank b < rank a := by
  induction hr with
  | refl => exact Or.inl rfl
  | tail _ edge ih =>
    rcases h _ _ edge with rfl | hlt
    · exact ih
    · rcases ih with rfl | hle
      · exact Or.inr hlt
      · exact Or.inr (Nat.lt_trans hlt hle)

theorem acyclic_of_rank (rank : α → Nat) (h : ∀ a b, r a b → a = b ∨ rank b < rank a) :
    Acyclic r := by
  intro a b hab hba
  rcases rank_le_of_reach rank h hab with he | hlt
  · exact he
  · rcases rank_le_of_reach rank h hba with he | hgt
    · exact he.symm
    · exact absurd hlt (Nat.lt_asymm hgt)

end OpenCog.EdgeClosure
