import Mathlib.Order.RelClasses
import Mathlib.Data.List.Basic
import Mathlib.Tactic.Common

/-! The elements of a list that none of it dominates, in a strict order, as the list grows. -/
namespace OpenCog.Lib

variable {α : Type*} (r : α → α → Prop)

/-- `r a b` is read as `a` dominates `b`. -/
def Undominated (l : List α) (a : α) : Prop := a ∈ l ∧ ∀ b ∈ l, ¬ r b a

variable {r} {l : List α} {a b c : α}

theorem Undominated.cons (h : Undominated r l a) (hc : ¬ r c a) : Undominated r (c :: l) a := by
  refine ⟨List.mem_cons_of_mem c h.1, fun b hb => ?_⟩
  rcases List.mem_cons.mp hb with rfl | hb
  · exact hc
  · exact h.2 b hb

/-- Each element is undominated, or something undominated dominates it. -/
theorem exists_undominated [IsStrictOrder α r] (ha : a ∈ l) :
    ∃ b, Undominated r l b ∧ (b = a ∨ r b a) := by
  induction l generalizing a with
  | nil => cases ha
  | cons c l ih =>
    by_cases hal : a ∈ l
    · obtain ⟨b, hb, hba⟩ := ih hal
      by_cases hcb : r c b
      · refine ⟨c, ⟨List.mem_cons_self, fun d hd => ?_⟩, .inr ?_⟩
        · rcases List.mem_cons.mp hd with rfl | hd
          · exact irrefl d
          · exact fun hdc => hb.2 d hd (IsTrans.trans _ _ _ hdc hcb)
        · rcases hba with rfl | hba
          · exact hcb
          · exact IsTrans.trans _ _ _ hcb hba
      · exact ⟨b, hb.cons hcb, hba⟩
    · obtain rfl : a = c := (List.mem_cons.mp ha).resolve_right hal
      by_cases hd : ∃ d ∈ l, r d a
      · obtain ⟨d, hd, hda⟩ := hd
        obtain ⟨b, hb, hbd⟩ := ih hd
        have hba : r b a := by
          rcases hbd with rfl | hbd
          · exact hda
          · exact IsTrans.trans _ _ _ hbd hda
        exact ⟨b, hb.cons (asymm hba), .inr hba⟩
      · refine ⟨a, ⟨List.mem_cons_self, fun b hb => ?_⟩, .inl rfl⟩
        rcases List.mem_cons.mp hb with rfl | hb
        · exact irrefl b
        · exact fun hba => hd ⟨b, hb, hba⟩

theorem exists_mem_iff_exists_undominated [IsStrictOrder α r] :
    (∃ b ∈ l, r b c) ↔ ∃ b, Undominated r l b ∧ r b c := by
  constructor
  · rintro ⟨b, hb, hbc⟩
    obtain ⟨d, hd, rfl | hdb⟩ := exists_undominated (r := r) hb
    · exact ⟨d, hd, hbc⟩
    · exact ⟨d, hd, IsTrans.trans _ _ _ hdb hbc⟩
  · rintro ⟨b, hb, hbc⟩
    exact ⟨b, hb.1, hbc⟩

/-- One more element drops what it dominates, and stays unless it is dominated. -/
theorem undominated_concat [IsStrictOrder α r] :
    Undominated r (l ++ [c]) a ↔
      Undominated r l a ∧ ¬ r c a ∨ a = c ∧ ∀ b ∈ l, ¬ r b c := by
  simp only [Undominated, List.mem_append, List.mem_singleton]
  constructor
  · rintro ⟨ha | rfl, h⟩
    · exact .inl ⟨⟨ha, fun b hb => h b (.inl hb)⟩, h c (.inr rfl)⟩
    · exact .inr ⟨rfl, fun b hb => h b (.inl hb)⟩
  · rintro (⟨⟨ha, h⟩, hc⟩ | ⟨rfl, h⟩)
    · refine ⟨.inl ha, fun b hb => ?_⟩
      rcases hb with hb | rfl
      · exact h b hb
      · exact hc
    · refine ⟨.inr rfl, fun b hb => ?_⟩
      rcases hb with hb | rfl
      · exact h b hb
      · exact irrefl b

end OpenCog.Lib
