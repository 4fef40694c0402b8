import Mathlib.Algebra.Group.Basic
import Mathlib.Data.Finset.Image
import Mathlib.Data.Finset.SDiff

/-!
# Clauses of literals

A clause is a finite set of literals, a form is a list of clauses. Read as a disjunction of
conjunctions (`Dnf`) a form keeps its value when a clause that another one lies in is left
out (`Covers.dnf`), and a resolvent says nothing that its two clauses do not say
(`resolvent_implies`). Read as a conjunction of disjunctions (`Cnf`) it is the negation of
the form of the negated literals (`cnf_iff_negated`), and a common factor comes out of it
(`cnf_factor`).
-/
namespace OpenCog.Lib.Clauses

variable {L : Type} {v : L → Prop} {f g : List (Finset L)} {c d : Finset L} {l p : L}

def Conj (v : L → Prop) (c : Finset L) : Prop := ∀ l ∈ c, v l

def Disj (v : L → Prop) (c : Finset L) : Prop := ∃ l ∈ c, v l

def Dnf (v : L → Prop) (f : List (Finset L)) : Prop := ∃ c ∈ f, Conj v c

def Cnf (v : L → Prop) (f : List (Finset L)) : Prop := ∀ c ∈ f, Disj v c

theorem Conj.mono (h : Conj v d) (hcd : c ⊆ d) : Conj v c := fun l hl => h l (hcd hl)

theorem Dnf.mono (h : Dnf v f) (hfg : f ⊆ g) : Dnf v g :=
  let ⟨c, hc, hv⟩ := h
  ⟨c, hfg hc, hv⟩

/-! ## Absorption -/

/-- Every clause of `f` has a clause of `g` inside. -/
def Covers (f g : List (Finset L)) : Prop := ∀ c ∈ f, ∃ d ∈ g, d ⊆ c

theorem Covers.refl (f : List (Finset L)) : Covers f f := fun c hc => ⟨c, hc, fun _ h => h⟩

theorem Covers.trans {h : List (Finset L)} (hfg : Covers f g) (hgh : Covers g h) :
    Covers f h := by
  intro c hc
  obtain ⟨d, hd, hdc⟩ := hfg c hc
  obtain ⟨e, he, hed⟩ := hgh d hd
  exact ⟨e, he, hed.trans hdc⟩

theorem Covers.append_right (hfg : Covers f g) (h : List (Finset L)) :
    Covers (f ++ h) (g ++ h) := by
  intro c hc
  rcases List.mem_append.1 hc with hc | hc
  · obtain ⟨d, hd, hdc⟩ := hfg c hc
    exact ⟨d, List.mem_append_left _ hd, hdc⟩
  · exact ⟨c, List.mem_append_right _ hc, fun _ h => h⟩

theorem Covers.dnf (hfg : Covers f g) (h : Dnf v f) : Dnf v g := by
  obtain ⟨c, hc, hv⟩ := h
  obtain ⟨d, hd, hdc⟩ := hfg c hc
  exact ⟨d, hd, hv.mono hdc⟩

/-- No clause lies properly inside another one. -/
def Minimal (f : List (Finset L)) : Prop := ∀ c ∈ f, ∀ d ∈ f, ¬ c ⊂ d

theorem Minimal.eq_of_subset (h : Minimal f) (hc : c ∈ f) (hd : d ∈ f) (hcd : c ⊆ d) :
    c = d := by
  by_contra hne
  exact h c hc d hd (Finset.ssubset_iff_subset_ne.2 ⟨hcd, hne⟩)

/-! ## Negated literals -/

section Negation

variable [InvolutiveNeg L]

/-- A literal and its negation have opposite values. -/
def Valuation (v : L → Prop) : Prop := ∀ l, -l ≠ l → (v (-l) ↔ ¬ v l)

/-- No literal stands in the clause with its negation. -/
def Consistent (c : Finset L) : Prop := ∀ l ∈ c, -l ∉ c

theorem Consistent.neg_ne (h : Consistent c) (hl : l ∈ c) : -l ≠ l :=
  fun he => h l hl (he.symm ▸ hl)

theorem not_conj_of_inconsistent (hv : Valuation v) (hl : l ∈ c) (hn : -l ∈ c)
    (hne : -l ≠ l) : ¬ Conj v c :=
  fun h => (hv l hne).1 (h _ hn) (h l hl)

variable [DecidableEq L]

def negated (c : Finset L) : Finset L := c.image (-·)

@[simp] theorem mem_negated : l ∈ negated c ↔ -l ∈ c := by
  simp only [negated, Finset.mem_image]
  constructor
  · rintro ⟨k, hk, rfl⟩
    rwa [neg_neg]
  · exact fun h => ⟨-l, h, neg_neg l⟩

@[simp] theorem negated_negated (c : Finset L) : negated (negated c) = c := by
  ext l
  simp

@[simp] theorem negated_eq_empty : negated c = ∅ ↔ c = ∅ := by
  rw [negated, Finset.image_eq_empty]

theorem conj_negated (hv : Valuation v) (hc : ∀ l ∈ c, -l ≠ l) :
    Conj v (negated c) ↔ ¬ Disj v c := by
  constructor
  · rintro h ⟨l, hl, hvl⟩
    exact (hv l (hc l hl)).1 (h (-l) (by simpa using hl)) hvl
  · intro h l hl
    rw [mem_negated] at hl
    rw [← neg_neg l, hv _ (hc _ hl)]
    exact fun hvl => h ⟨-l, hl, hvl⟩

theorem cnf_iff_negated (hv : Valuation v) (hf : ∀ c ∈ f, ∀ l ∈ c, -l ≠ l) :
    Cnf v f ↔ ¬ Dnf v (f.map negated) := by
  constructor
  · rintro h ⟨c, hc, hvc⟩
    obtain ⟨d, hd, rfl⟩ := List.mem_map.1 hc
    exact (conj_negated hv (hf d hd)).1 hvc (h d hd)
  · intro h c hc
    by_contra hn
    exact h ⟨negated c, List.mem_map_of_mem hc, (conj_negated hv (hf c hc)).2 hn⟩

/-! ## Resolution -/

def resolvent (p : L) (c d : Finset L) : Finset L := ((c ∪ d).erase p).erase (-p)

theorem mem_resolvent : l ∈ resolvent p c d ↔ l ≠ -p ∧ l ≠ p ∧ (l ∈ c ∨ l ∈ d) := by
  simp [resolvent]

theorem resolvent_implies (hv : Valuation v) (hc : Consistent c) (hd : Consistent d)
    (hpc : p ∈ c) (hpd : -p ∈ d) (h : Conj v (resolvent p c d)) : Conj v c ∨ Conj v d := by
  have hne := hc.neg_ne hpc
  by_cases hp : v p
  · refine .inl fun l hl => ?_
    by_cases hlp : l = p
    · exact hlp ▸ hp
    · apply h l (mem_resolvent.2 ⟨?_, hlp, .inl hl⟩)
      rintro rfl
      exact hc p hpc hl
  · refine .inr fun l hl => ?_
    by_cases hlp : l = -p
    · exact hlp ▸ (hv p hne).2 hp
    · apply h l (mem_resolvent.2 ⟨hlp, ?_, .inr hl⟩)
      rintro rfl
      exact hd l hl hpd

end Negation

/-! ## Common factors -/

section Factor

variable [DecidableEq L]

theorem disj_sdiff (hdc : d ⊆ c) : Disj v c ↔ Disj v d ∨ Disj v (c \ d) := by
  constructor
  · rintro ⟨l, hl, hv⟩
    by_cases hd : l ∈ d
    · exact .inl ⟨l, hd, hv⟩
    · exact .inr ⟨l, Finset.mem_sdiff.2 ⟨hl, hd⟩, hv⟩
  · rintro (⟨l, hl, hv⟩ | ⟨l, hl, hv⟩)
    · exact ⟨l, hdc hl, hv⟩
    · exact ⟨l, (Finset.mem_sdiff.1 hl).1, hv⟩

theorem cnf_factor (hd : ∀ c ∈ f, d ⊆ c) :
    Cnf v f ↔ Disj v d ∨ Cnf v (f.map (· \ d)) := by
  constructor
  · intro h
    by_cases hv : Disj v d
    · exact .inl hv
    · refine .inr fun e he => ?_
      obtain ⟨c, hc, rfl⟩ := List.mem_map.1 he
      exact ((disj_sdiff (hd c hc)).1 (h c hc)).resolve_left hv
  · rintro (h | h) c hc
    · exact (disj_sdiff (hd c hc)).2 (.inl h)
    · exact (disj_sdiff (hd c hc)).2 (.inr (h _ (List.mem_map_of_mem hc)))

end Factor

end OpenCog.Lib.Clauses
