import Mathlib.Data.Fintype.Card
import Mathlib.Logic.Relation
import Mathlib.Tactic.Common

/-! Accessibility in a relation on finitely many elements: accessible is what no cycle leads to,
and what can be listed with everything after its predecessors. -/
namespace OpenCog.Lib

variable {α : Type*} {r : α → α → Prop} {x y : α}

/-- Some cycle leads to `x`. -/
def BehindCycle (r : α → α → Prop) (x : α) : Prop :=
  ∃ c, Relation.TransGen r c c ∧ Relation.ReflTransGen r c x

theorem BehindCycle.tail (h : BehindCycle r x) (hr : r x y) : BehindCycle r y := by
  obtain ⟨c, hc, hx⟩ := h
  exact ⟨c, hc, hx.tail hr⟩

theorem BehindCycle.of_transGen (h : Relation.TransGen r x x) : BehindCycle r x :=
  ⟨x, h, .refl⟩

/-- What a cycle leads to has a predecessor that a cycle leads to. -/
theorem BehindCycle.pred (h : BehindCycle r x) : ∃ y, r y x ∧ BehindCycle r y := by
  obtain ⟨c, hc, hx⟩ := h
  rcases Relation.ReflTransGen.cases_tail hx with rfl | ⟨y, hy, hr⟩
  · obtain ⟨y, hy, hr⟩ := Relation.TransGen.tail'_iff.mp hc
    exact ⟨y, hr, x, hc, hy⟩
  · exact ⟨y, hr, c, hc, hy⟩

theorem not_behindCycle_of_acc (h : Acc r x) : ¬ BehindCycle r x := by
  induction h with
  | intro x _ ih =>
    intro hx
    obtain ⟨y, hr, hy⟩ := hx.pred
    exact ih y hr hy

theorem acc_of_not_behindCycle [Finite α] (h : ¬ BehindCycle r x) : Acc r x := by
  let s : α → α → Prop := fun y z => Relation.TransGen r y z ∧ ¬ BehindCycle r z
  have htrans : IsTrans α s := ⟨fun _ _ _ hab hbc => ⟨hab.1.trans hbc.1, hbc.2⟩⟩
  have hirrefl : Std.Irrefl s := ⟨fun _ hy => hy.2 (.of_transGen hy.1)⟩
  have hacc : Acc s x := (Finite.wellFounded_of_trans_of_irrefl s).apply x
  induction hacc with
  | intro x _ ih =>
    constructor
    intro y hr
    exact ih y ⟨.single hr, h⟩ fun hy => h (hy.tail hr)

theorem acc_iff_not_behindCycle [Finite α] : Acc r x ↔ ¬ BehindCycle r x :=
  ⟨not_behindCycle_of_acc, acc_of_not_behindCycle⟩

/-- Every element comes after its predecessors. -/
def InOrder (r : α → α → Prop) (l : List α) : Prop :=
  ∀ before x after, l = before ++ x :: after → ∀ y, r y x → y ∈ before

theorem inOrder_nil : InOrder r [] := by
  intro before x after h
  simp at h

theorem InOrder.concat {l : List α} (h : InOrder r l) (hx : ∀ y, r y x → y ∈ l) :
    InOrder r (l ++ [x]) := by
  intro before z after e y hy
  rcases after.eq_nil_or_concat with rfl | ⟨after', w, rfl⟩
  · obtain ⟨rfl, rfl⟩ := List.append_singleton_inj.mp e
    exact hx y hy
  · rw [List.concat_eq_append, ← List.cons_append, ← List.append_assoc] at e
    exact h before z after' (List.append_singleton_inj.mp e).1 y hy

theorem InOrder.acc {l : List α} (h : InOrder r l) (hx : x ∈ l) : Acc r x := by
  induction l using List.reverseRecOn generalizing x with
  | nil => cases hx
  | append_singleton l z ih =>
    have hl : InOrder r l := by
      intro before y after e
      exact h before y (after ++ [z]) (by rw [e, List.append_assoc, List.cons_append])
    rcases List.mem_append.mp hx with hx | hx
    · exact ih hl hx
    · obtain rfl := List.mem_singleton.mp hx
      constructor
      intro y hy
      exact ih hl (h l x [] rfl y hy)

/-- In a list without repetitions the predecessors stand at lower indices. -/
theorem InOrder.idxOf_lt [DecidableEq α] {l : List α} (h : InOrder r l) (hnd : l.Nodup)
    (hx : x ∈ l) (hr : r y x) : l.idxOf y < l.idxOf x := by
  obtain ⟨before, after, rfl⟩ := List.append_of_mem hx
  have hy : y ∈ before := h before x after rfl y hr
  have hxb : x ∉ before := fun hb =>
    (List.nodup_append.mp hnd).2.2 x hb x List.mem_cons_self rfl
  rw [List.idxOf_append_of_mem hy, List.idxOf_append_of_notMem hxb]
  exact Nat.lt_add_right _ (List.idxOf_lt_length_iff.mpr hy)

end OpenCog.Lib
