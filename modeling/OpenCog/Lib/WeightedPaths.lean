import Mathlib

/-! Walks in a graph with costs, and estimates of the cost that is left. -/
namespace WeightedPaths

variable {σ K : Type} [AddCommGroup K] {edge : σ → σ → Prop} {cost : σ → σ → K}

/-- There is a walk from the first to the second place at this cost. -/
inductive Walk (edge : σ → σ → Prop) (cost : σ → σ → K) (a : σ) : σ → K → Prop
  | nil : Walk edge cost a a 0
  | snoc {b d : σ} {c : K} (w : Walk edge cost a b c) (e : edge b d) :
      Walk edge cost a d (c + cost b d)

/-- The cost of a sequence of places. -/
def pathCost (cost : σ → σ → K) : List σ → K
  | a :: b :: l => cost a b + pathCost cost (b :: l)
  | _ => 0

/-- The places lead from the first to the second one. -/
structure Leads (edge : σ → σ → Prop) (a b : σ) (l : List σ) : Prop where
  steps : l.IsChain edge
  first : l.head? = some a
  last : l.getLast? = some b

theorem Leads.map {ι : Type} {step : ι → ι → Prop} {f : ι → σ} {i j : ι} {l : List ι}
    (hl : Leads step i j l) (hf : ∀ i j, step i j → edge (f i) (f j)) :
    Leads edge (f i) (f j) (l.map f) :=
  ⟨List.isChain_map_of_isChain f hf hl.steps, by rw [List.head?_map, hl.first]; rfl,
    by rw [List.getLast?_map, hl.last]; rfl⟩

theorem head?_concat_concat (l : List σ) (b d : σ) : (l ++ [b] ++ [d]).head? = (l ++ [b]).head? := by
  cases l <;> rfl

theorem pathCost_concat (l : List σ) (b d : σ) (hl : l.getLast? = some b) :
    pathCost cost (l ++ [d]) = pathCost cost l + cost b d := by
  induction l with
  | nil => cases hl
  | cons x l ih =>
    cases l with
    | nil =>
      obtain rfl : x = b := Option.some.inj hl
      simp [pathCost]
    | cons y l =>
      rw [List.getLast?_cons_cons] at hl
      have h := ih hl
      rw [List.cons_append, List.cons_append, pathCost, pathCost, ← List.cons_append, h, add_assoc]

theorem Walk.leads {a b : σ} {c : K} (w : Walk edge cost a b c) :
    ∃ l, Leads edge a b l ∧ pathCost cost l = c := by
  induction w with
  | nil => exact ⟨[a], ⟨List.isChain_singleton a, rfl, rfl⟩, rfl⟩
  | @snoc b d c w e ih =>
    obtain ⟨l, hl, rfl⟩ := ih
    refine ⟨l ++ [d], ⟨?_, ?_, List.getLast?_concat⟩, pathCost_concat l b d hl.last⟩
    · refine List.isChain_append.mpr ⟨hl.steps, List.isChain_singleton d, ?_⟩
      intro x hx y hy
      obtain rfl := Option.some.inj (hl.last.symm.trans hx)
      obtain rfl : d = y := by simpa using hy
      exact e
    · rw [List.head?_append, hl.first]
      rfl

theorem Leads.walk {a b : σ} {l : List σ} (hl : Leads edge a b l) :
    Walk edge cost a b (pathCost cost l) := by
  induction l using List.reverseRecOn generalizing b with
  | nil => cases hl.first
  | append_singleton l d ih =>
    obtain rfl : d = b := Option.some.inj (List.getLast?_concat.symm.trans hl.last)
    rcases List.eq_nil_or_concat l with rfl | ⟨l', x, rfl⟩
    · obtain rfl : d = a := Option.some.inj hl.first
      exact .nil
    · obtain ⟨hsteps, -, hjoin⟩ := List.isChain_append.mp hl.steps
      rw [List.concat_eq_append] at *
      have hlast : (l' ++ [x]).getLast? = some x := List.getLast?_concat
      have hfirst := (head?_concat_concat l' x d).symm.trans hl.first
      rw [pathCost_concat _ x d hlast]
      exact (ih ⟨hsteps, hfirst, hlast⟩).snoc (hjoin x hlast d rfl)

section Ordered
variable [LinearOrder K] [IsOrderedAddMonoid K] {h : σ → K}

/-- A way from the first to the second place, and none costs less. -/
structure Shortest (edge : σ → σ → Prop) (cost : σ → σ → K) (a b : σ) (l : List σ) : Prop where
  leads : Leads edge a b l
  least : ∀ l', Leads edge a b l' → pathCost cost l ≤ pathCost cost l'

theorem Walk.nonneg (hcost : ∀ a b, edge a b → 0 ≤ cost a b) {a b : σ} {c : K}
    (w : Walk edge cost a b c) : 0 ≤ c := by
  induction w with
  | nil => exact le_refl 0
  | snoc _ e ih => exact add_nonneg ih (hcost _ _ e)

/-- One step does not lower the estimate by more than it costs. -/
def Consistent (edge : σ → σ → Prop) (cost : σ → σ → K) (h : σ → K) : Prop :=
  ∀ a b, edge a b → h a ≤ cost a b + h b

theorem Walk.estimate (hh : Consistent edge cost h) {a b : σ} {c : K}
    (w : Walk edge cost a b c) : h a ≤ c + h b := by
  induction w with
  | nil => rw [zero_add]
  | @snoc b d c _ e ih =>
    refine ih.trans ?_
    rw [add_assoc]
    exact add_le_add_right (hh b d e) c

/-- Where the places reached so far pass on what they cost, a walk stays among them or goes
through a place that is reached and not done with. -/
theorem Walk.leaves {reached done : σ → K → Prop} {a : σ}
    (hstart : reached a 0 ∨ done a 0)
    (hpass : ∀ b g, done b g → ∀ d, edge b d → ∃ g', (reached d g' ∨ done d g') ∧ g' ≤ g + cost b d)
    {b : σ} {c : K} (w : Walk edge cost a b c) :
    (∃ g, done b g ∧ g ≤ c) ∨ ∃ d g c', reached d g ∧ Walk edge cost d b c' ∧ g + c' ≤ c := by
  induction w with
  | nil =>
    rcases hstart with hr | hd
    · exact .inr ⟨a, 0, 0, hr, .nil, by rw [add_zero]⟩
    · exact .inl ⟨0, hd, le_refl 0⟩
  | @snoc b d c _ e ih =>
    rcases ih with ⟨g, hd, hle⟩ | ⟨x, g, c', hr, w', hle⟩
    · obtain ⟨g', hnew, hg'⟩ := hpass b g hd d e
      have hbound : g' ≤ c + cost b d := hg'.trans (add_le_add_left hle _)
      rcases hnew with hnew | hnew
      · exact .inr ⟨d, g', 0, hnew, .nil, by rwa [add_zero]⟩
      · exact .inl ⟨g', hnew, hbound⟩
    · refine .inr ⟨x, g, c' + cost b d, hr, w'.snoc e, ?_⟩
      rw [← add_assoc]
      exact add_le_add_left hle _

/-- The least sum of cost and estimate among the reached places is that of a shortest walk. -/
theorem least_of_front (reached done : σ → K → Prop) {a n : σ} {g : K}
    (hcons : Consistent edge cost h) (hstart : reached a 0 ∨ done a 0)
    (hpass : ∀ b g, done b g → ∀ d, edge b d → ∃ g', (reached d g' ∨ done d g') ∧ g' ≤ g + cost b d)
    (hnew : ∀ g', ¬ done n g') (hleast : ∀ d g', reached d g' → g + h n ≤ g' + h d)
    {c : K} (w : Walk edge cost a n c) : g ≤ c := by
  rcases w.leaves hstart hpass with ⟨g', hd, -⟩ | ⟨d, g', c', hr, w', hle⟩
  · exact absurd hd (hnew g')
  · have hest := w'.estimate hcons
    have hsum : g + h n ≤ c + h n := by
      calc g + h n ≤ g' + h d := hleast d g' hr
        _ ≤ g' + (c' + h n) := add_le_add_right hest g'
        _ = g' + c' + h n := (add_assoc _ _ _).symm
        _ ≤ c + h n := add_le_add_left hle _
    exact le_of_add_le_add_right hsum

end Ordered

end WeightedPaths
