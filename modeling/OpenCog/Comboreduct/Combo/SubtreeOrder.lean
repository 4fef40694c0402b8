import OpenCog.Comboreduct.Combo.Eval
import OpenCog.Comboreduct.FlatNormalForm
import OpenCog.Util.Branch
import OpenCog.Util.SortedRanges

/-! `lexicographic_subtree_order`: the vertices first, then the children from left to right. -/
namespace OpenCog.Comboreduct.Combo

open Util

variable {C : Type} [LinearOrder C]

/-- `operator<` of arguments, and its converse. -/
def argumentCmp (a b : Argument) : Ordering :=
  if absoluteValueOrder a.idx b.idx then .lt
  else if absoluteValueOrder b.idx a.idx then .gt else .eq

/-- The place of the type in the variant. -/
def Vertex.which : Vertex C → Nat
  | .contin _ => 0
  | .builtin _ => 1
  | .argument _ => 3

/-- Values of one type by their order, the builtins as they are enumerated. -/
def vertexCmp : Vertex C → Vertex C → Ordering
  | .contin c, .contin d => compare c d
  | .builtin b, .builtin d => compare b.ctorIdx d.ctorIdx
  | .argument a, .argument b => argumentCmp a b
  | v, w => compare v.which w.which

def forestCmp : Forest (Vertex C) → Forest (Vertex C) → Ordering
  | .nil, .nil => .eq
  | .nil, .cons .. => .lt
  | .cons .., .nil => .gt
  | .cons v c n, .cons w d m => (vertexCmp v w).then ((forestCmp c d).then (forestCmp n m))

abbrev Tree (C : Type) : Type := Branch (Vertex C)

def subtreeCmp (s t : Tree C) : Ordering :=
  (vertexCmp s.root t.root).then (forestCmp s.below t.below)

/-! ## The order is total -/

theorem argumentCmp_eq_swap (a b : Argument) : argumentCmp a b = (argumentCmp b a).swap := by
  unfold argumentCmp absoluteValueOrder
  split_ifs <;> first | rfl | omega

theorem argumentCmp_isLE {a b : Argument} :
    (argumentCmp a b).isLE = true ↔ NotAfter a.idx b.idx := by
  unfold argumentCmp NotAfter
  by_cases h : absoluteValueOrder a.idx b.idx
  · have hn : ¬ absoluteValueOrder b.idx a.idx := by
      unfold absoluteValueOrder at *
      split_ifs at * <;> omega
    simp [h, hn]
  · by_cases h' : absoluteValueOrder b.idx a.idx <;> simp [h, h']

instance : Std.TransCmp argumentCmp where
  eq_swap := argumentCmp_eq_swap _ _
  isLE_trans h h' :=
    argumentCmp_isLE.mpr (IsTrans.trans _ _ _ (argumentCmp_isLE.mp h) (argumentCmp_isLE.mp h'))

instance : Std.LawfulEqCmp argumentCmp where
  eq_of_compare {a b} h := by
    have hab : NotAfter a.idx b.idx := argumentCmp_isLE.mp (by rw [h]; rfl)
    have hba : NotAfter b.idx a.idx :=
      argumentCmp_isLE.mp (by rw [argumentCmp_eq_swap, h]; rfl)
    cases a
    cases b
    congr
    exact antisymm hab hba

theorem builtin_eq {b d : Builtin} (h : b.ctorIdx = d.ctorIdx) : b = d := by
  cases b <;> cases d <;> first | rfl | cases h

instance : Std.TransCmp (vertexCmp (C := C)) where
  eq_swap {v w} := by
    cases v <;> cases w <;> simp only [vertexCmp, Vertex.which]
    all_goals first | rfl | exact Std.OrientedCmp.eq_swap
  isLE_trans {u v w} huv hvw := by
    cases u <;> cases v <;> cases w <;> simp only [vertexCmp, Vertex.which] at *
    all_goals
      first
        | rfl
        | exact Std.TransCmp.isLE_trans huv hvw
        | exact absurd huv (by decide)
        | exact absurd hvw (by decide)

instance : Std.LawfulEqCmp (vertexCmp (C := C)) where
  compare_self {v} := by
    cases v <;> exact Std.ReflCmp.compare_self
  eq_of_compare {v w} h := by
    cases v with
    | contin c =>
      cases w with
      | contin d => exact congrArg _ (compare_eq_iff_eq.mp h)
      | builtin d => cases h
      | argument b => cases h
    | builtin b =>
      cases w with
      | contin d => cases h
      | builtin d => exact congrArg _ (builtin_eq (compare_eq_iff_eq.mp h))
      | argument b => cases h
    | argument a =>
      cases w with
      | contin d => cases h
      | builtin d => cases h
      | argument b => exact congrArg _ (@Std.LawfulEqCmp.eq_of_compare _ argumentCmp _ _ _ h)

theorem forestCmp_eq_swap (f g : Forest (Vertex C)) : forestCmp f g = (forestCmp g f).swap := by
  induction f generalizing g with
  | nil => cases g <;> rfl
  | cons v c n ihc ihn =>
    cases g with
    | nil => rfl
    | cons w d m =>
      rw [forestCmp, forestCmp, ihc d, ihn m, @Std.OrientedCmp.eq_swap _ vertexCmp,
        Ordering.swap_then, Ordering.swap_then]

theorem eq_of_forestCmp {f g : Forest (Vertex C)} (h : forestCmp f g = .eq) : f = g := by
  induction f generalizing g with
  | nil =>
    cases g with
    | nil => rfl
    | cons w d m => cases h
  | cons v c n ihc ihn =>
    cases g with
    | nil => cases h
    | cons w d m =>
      rw [forestCmp, Ordering.then_eq_eq, Ordering.then_eq_eq] at h
      rw [Std.LawfulEqCmp.eq_of_compare h.1, ihc h.2.1, ihn h.2.2]

theorem forestCmp_self (f : Forest (Vertex C)) : forestCmp f f = .eq := by
  induction f with
  | nil => rfl
  | cons v c n ihc ihn =>
    rw [forestCmp, @Std.ReflCmp.compare_self _ vertexCmp, ihc, ihn]
    rfl

theorem forestCmp_lt_trans {f g h : Forest (Vertex C)} (hfg : forestCmp f g = .lt)
    (hgh : forestCmp g h = .lt) : forestCmp f h = .lt := by
  induction f generalizing g h with
  | nil =>
    cases h with
    | nil => cases g <;> cases hgh
    | cons w e k => rfl
  | cons u c n ihc ihn =>
    cases g with
    | nil => cases hfg
    | cons v d m =>
      cases h with
      | nil => cases hgh
      | cons w e k =>
        simp only [forestCmp, Ordering.then_eq_lt] at hfg hgh ⊢
        rcases hfg with huv | ⟨huv, hfg⟩
        · rcases hgh with hvw | ⟨hvw, -⟩
          · exact .inl (Std.TransCmp.lt_trans huv hvw)
          · exact .inl (Std.TransCmp.lt_of_lt_of_eq huv hvw)
        · rcases hgh with hvw | ⟨hvw, hgh⟩
          · exact .inl (Std.TransCmp.lt_of_eq_of_lt huv hvw)
          · refine .inr ⟨Std.TransCmp.eq_trans huv hvw, ?_⟩
            rcases hfg with hcd | ⟨hcd, hnm⟩
            · rcases hgh with hde | ⟨hde, -⟩
              · exact .inl (ihc hcd hde)
              · exact .inl (eq_of_forestCmp hde ▸ hcd)
            · rcases hgh with hde | ⟨hde, hmk⟩
              · exact .inl (eq_of_forestCmp hcd ▸ hde)
              · exact .inr ⟨eq_of_forestCmp hcd ▸ hde, ihn hnm hmk⟩

theorem forestCmp_isLE {f g : Forest (Vertex C)} :
    (forestCmp f g).isLE = true ↔ forestCmp f g = .lt ∨ f = g := by
  cases h : forestCmp f g with
  | lt => simp
  | eq => simp [eq_of_forestCmp h]
  | gt =>
    have : f ≠ g := by
      rintro rfl
      rw [forestCmp_self] at h
      cases h
    simp [this]

instance : Std.TransCmp (forestCmp (C := C)) where
  eq_swap := forestCmp_eq_swap _ _
  isLE_trans {f g h} hfg hgh := by
    rcases forestCmp_isLE.mp hfg with hfg | rfl
    · rcases forestCmp_isLE.mp hgh with hgh | rfl
      · exact forestCmp_isLE.mpr (.inl (forestCmp_lt_trans hfg hgh))
      · exact forestCmp_isLE.mpr (.inl hfg)
    · exact hgh

instance : Std.LawfulEqCmp (forestCmp (C := C)) where
  compare_self := forestCmp_self _
  eq_of_compare := eq_of_forestCmp

theorem subtreeCmp_eq (s t : Tree C) :
    subtreeCmp s t = forestCmp (.cons s.root s.below .nil) (.cons t.root t.below .nil) := by
  rw [forestCmp, forestCmp, Ordering.then_eq, subtreeCmp]

instance : Std.TransCmp (subtreeCmp (C := C)) where
  eq_swap := by
    intro s t
    rw [subtreeCmp_eq, subtreeCmp_eq]
    exact Std.OrientedCmp.eq_swap
  isLE_trans := by
    intro s t u
    rw [subtreeCmp_eq, subtreeCmp_eq, subtreeCmp_eq]
    exact Std.TransCmp.isLE_trans

instance : Std.LawfulEqCmp (subtreeCmp (C := C)) where
  compare_self := by
    intro s
    rw [subtreeCmp_eq]
    exact Std.ReflCmp.compare_self
  eq_of_compare := by
    intro s t h
    rw [subtreeCmp_eq] at h
    have := Std.LawfulEqCmp.eq_of_compare h
    cases s
    cases t
    simp_all

end OpenCog.Comboreduct.Combo
