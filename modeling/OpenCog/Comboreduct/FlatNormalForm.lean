import OpenCog.Comboreduct.Vertex
import OpenCog.Lib.Clauses

/-! Flat normal forms: lists of clauses over integers, where a mapper numbers the subtrees
that the integers stand for. -/
namespace OpenCog.Comboreduct

open Util
open Lib.Clauses

variable {α : Type}

/-! ## Clauses -/

/-- The order -1, 1, -2, 2, -3, 3, … -/
def absoluteValueOrder (a b : Int) : Prop :=
  if a = -b then a < b else a.natAbs < b.natAbs

instance : DecidableRel absoluteValueOrder := fun a b => by
  unfold absoluteValueOrder
  infer_instance

def NotAfter (a b : Int) : Prop := ¬ absoluteValueOrder b a

theorem notAfter_iff {a b : Int} :
    NotAfter a b ↔ a.natAbs < b.natAbs ∨ a.natAbs = b.natAbs ∧ a ≤ b := by
  unfold NotAfter absoluteValueOrder
  split <;> omega

instance : DecidableRel NotAfter := fun _ _ => inferInstanceAs (Decidable ¬ _)

instance : IsTrans Int NotAfter := ⟨fun a b c => by simp only [notAfter_iff]; omega⟩

instance : Std.Antisymm NotAfter := ⟨fun a b => by simp only [notAfter_iff]; omega⟩

instance : Std.Total NotAfter := ⟨fun a b => by simp only [notAfter_iff]; omega⟩

abbrev Clause := Finset Int

abbrev Nf := List Clause

/-- The literals as an iterator meets them. -/
def listed (c : Clause) : List Int := c.sort NotAfter

@[simp] theorem mem_listed {c : Clause} {l : Int} : l ∈ listed c ↔ l ∈ c := Finset.mem_sort ..

@[simp] theorem length_listed (c : Clause) : (listed c).length = c.card := Finset.length_sort ..

def adjacentFind (p : Int → Int → Bool) : List Int → Bool
  | a :: b :: ls => p a b || adjacentFind p (b :: ls)
  | _ => false

def tautology (c : Clause) : Bool := adjacentFind (fun a b => a == -b) (listed c)

def subsetEq (c₁ c₂ : Clause) : Bool := c₂.card ≥ c₁.card && c₁ ⊆ c₂

def subset (c₁ c₂ : Clause) : Bool := c₂.card > c₁.card && c₁ ⊆ c₂

@[simp] theorem subsetEq_iff {c₁ c₂ : Clause} : subsetEq c₁ c₂ = true ↔ c₁ ⊆ c₂ := by
  simp only [subsetEq, Bool.and_eq_true, decide_eq_true_eq]
  exact ⟨And.right, fun h => ⟨Finset.card_le_card h, h⟩⟩

@[simp] theorem subset_iff {c₁ c₂ : Clause} : subset c₁ c₂ = true ↔ c₁ ⊂ c₂ := by
  simp only [subset, Bool.and_eq_true, decide_eq_true_eq]
  constructor
  · rintro ⟨hc, hs⟩
    refine Finset.ssubset_iff_subset_ne.2 ⟨hs, ?_⟩
    rintro rfl
    exact absurd hc (lt_irrefl _)
  · exact fun h => ⟨Finset.card_lt_card h, h.subset⟩

def numberOfLiterals (f : Nf) : Nat := (f.map Finset.card).sum

/-! ## Tautologies

A literal and its negation are neighbours in the order. -/

theorem adjacentFind_neg {ls : List Int} (hs : ls.Pairwise NotAfter) (hn : ls.Nodup) :
    adjacentFind (fun a b => a == -b) ls = true ↔ ∃ l ∈ ls, l ≠ 0 ∧ -l ∈ ls := by
  induction ls with
  | nil => simp [adjacentFind]
  | cons a ls ih =>
    cases ls with
    | nil =>
      simp only [adjacentFind, List.mem_singleton, exists_eq_left]
      constructor
      · exact fun h => by cases h
      · rintro ⟨h, hn⟩
        omega
    | cons b ls =>
      have hab := notAfter_iff.1 (List.rel_of_pairwise_cons hs (List.mem_cons_self ..))
      have hne : a ≠ b := fun h => (List.nodup_cons.1 hn).1 (h ▸ List.mem_cons_self ..)
      simp only [adjacentFind, Bool.or_eq_true, beq_iff_eq, ih hs.of_cons hn.of_cons]
      constructor
      · rintro (rfl | ⟨l, hl, h0, hm⟩)
        · exact ⟨-b, by simp, by omega, by simp⟩
        · exact ⟨l, List.mem_cons_of_mem _ hl, h0, List.mem_cons_of_mem _ hm⟩
      · -- the head is at most `b`, and whatever comes after `b` is at least `b`
        have key : ∀ l ∈ b :: ls, l = -a → a = -b := by
          rintro l hl rfl
          rcases List.mem_cons.1 hl with h | h
          · omega
          · have hbl := notAfter_iff.1 (List.rel_of_pairwise_cons hs.of_cons h)
            omega
        rintro ⟨l, hl, h0, hm⟩
        rcases List.mem_cons.1 hl with rfl | hl'
        · rcases List.mem_cons.1 hm with h | hm'
          · omega
          · exact .inl (key _ hm' rfl)
        · rcases List.mem_cons.1 hm with h | hm'
          · exact .inl (key _ hl' (by omega))
          · exact .inr ⟨l, hl', h0, hm'⟩

theorem tautology_iff {c : Clause} : tautology c = true ↔ ∃ l ∈ c, l ≠ 0 ∧ -l ∈ c := by
  have h := adjacentFind_neg (Finset.pairwise_sort c NotAfter) (Finset.sort_nodup c NotAfter)
  simpa [tautology, listed] using h

theorem consistent_of_not_tautology {c : Clause} (h0 : 0 ∉ c) (ht : tautology c ≠ true) :
    Consistent c := by
  intro l hl hn
  refine ht (tautology_iff.2 ⟨l, hl, ?_, hn⟩)
  rintro rfl
  exact h0 hl

theorem zero_notMem_of_consistent {c : Clause} (h : Consistent c) : 0 ∉ c :=
  fun h0 => h.neg_ne h0 rfl

/-! ## Implications -/

/-- The clauses that follow from a literal of `c₁` and its negation in `c₂`. -/
def implications (c₁ c₂ : Clause) : Nf :=
  (listed c₁).flatMap fun l₁ => (listed c₂).filterMap fun l₂ =>
    if l₁ = -l₂ then
      let c := ((c₁ ∪ c₂).erase l₁).erase l₂
      if tautology c then none else some c
    else none

theorem mem_implications {c₁ c₂ c : Clause} (h : c ∈ implications c₁ c₂) :
    ∃ p ∈ c₁, -p ∈ c₂ ∧ c = resolvent p c₁ c₂ ∧ tautology c ≠ true := by
  obtain ⟨l₁, hl₁, h⟩ := List.mem_flatMap.1 h
  obtain ⟨l₂, hl₂, h⟩ := List.mem_filterMap.1 h
  rw [mem_listed] at hl₁ hl₂
  by_cases he : l₁ = -l₂
  · rw [if_pos he] at h
    by_cases ht : tautology (((c₁ ∪ c₂).erase l₁).erase l₂) = true
    · simp only [if_pos ht] at h
      cases h
    · simp only [if_neg ht] at h
      obtain rfl := Option.some.inj h
      obtain rfl : l₂ = -l₁ := by omega
      exact ⟨l₁, hl₁, hl₂, rfl, ht⟩
  · rw [if_neg he] at h
    cases h

theorem subset_of_mem_implications {c₁ c₂ c : Clause} (h : c ∈ implications c₁ c₂) :
    c ⊆ c₁ ∪ c₂ := by
  obtain ⟨p, -, -, rfl, -⟩ := mem_implications h
  exact fun l hl => Finset.mem_union.2 (mem_resolvent.1 hl).2.2

/-! ## Pairwise erasure -/

/-- `c₁` against the clauses before it: those that stay, and whether `c₁` does. -/
def eraseBefore (p : Clause → Clause → Bool) (c₁ : Clause) : Nf → Nf × Bool
  | [] => ([], true)
  | c₂ :: f =>
    if p c₁ c₂ then eraseBefore p c₁ f
    else if p c₂ c₁ then (c₂ :: f, false)
    else
      let r := eraseBefore p c₁ f
      (c₂ :: r.1, r.2)

/-- What a clause leaves of the ones before it, with itself unless it is erased. -/
def eraseStep (p : Clause → Clause → Bool) (before : Nf) (c₁ : Clause) : Nf :=
  let r := eraseBefore p c₁ before
  if r.2 then r.1 ++ [c₁] else r.1

def pairwiseEraseIf (f : Nf) (p : Clause → Clause → Bool) : Nf := f.foldl (eraseStep p) []

section Erasing

variable {c : Clause} {f before : Nf}

theorem eraseBefore_sublist (p : Clause → Clause → Bool) (c : Clause) (f : Nf) :
    (eraseBefore p c f).1.Sublist f := by
  induction f with
  | nil => exact .slnil
  | cons d f ih =>
    simp only [eraseBefore]
    split
    · exact ih.cons d
    · split
      · exact .refl _
      · exact ih.cons_cons d

theorem eraseBefore_mem_or {d : Clause} (hd : d ∈ f) :
    d ∈ (eraseBefore subsetEq c f).1 ∨ c ⊆ d := by
  induction f with
  | nil => cases hd
  | cons e f ih =>
    simp only [eraseBefore]
    rcases List.mem_cons.1 hd with rfl | hd
    · by_cases hcd : subsetEq c d = true
      · exact .inr (subsetEq_iff.1 hcd)
      · rw [if_neg hcd]
        left
        split <;> exact List.mem_cons_self ..
    · split
      · exact ih hd
      · split
        · exact .inl (List.mem_cons_of_mem _ hd)
        · exact (ih hd).imp_left (List.mem_cons_of_mem _)

theorem eraseBefore_erased (hr : (eraseBefore subsetEq c f).2 = false) :
    ∃ d ∈ (eraseBefore subsetEq c f).1, d ⊆ c := by
  induction f with
  | nil => cases hr
  | cons e f ih =>
    simp only [eraseBefore] at hr ⊢
    by_cases hce : subsetEq c e = true
    · rw [if_pos hce] at hr ⊢
      exact ih hr
    · rw [if_neg hce] at hr ⊢
      by_cases hec : subsetEq e c = true
      · rw [if_pos hec]
        exact ⟨e, List.mem_cons_self .., subsetEq_iff.1 hec⟩
      · rw [if_neg hec] at hr ⊢
        obtain ⟨d, hd, hdc⟩ := ih hr
        exact ⟨d, List.mem_cons_of_mem _ hd, hdc⟩

theorem eraseBefore_apart (hr : (eraseBefore subsetEq c f).2 = true) :
    ∀ d ∈ (eraseBefore subsetEq c f).1, ¬ c ⊆ d ∧ ¬ d ⊆ c := by
  induction f with
  | nil => exact fun d hd => absurd hd (List.not_mem_nil)
  | cons e f ih =>
    intro d hd
    simp only [eraseBefore] at hr hd
    by_cases hce : subsetEq c e = true
    · rw [if_pos hce] at hr hd
      exact ih hr d hd
    · rw [if_neg hce] at hr hd
      by_cases hec : subsetEq e c = true
      · rw [if_pos hec] at hr
        cases hr
      · rw [if_neg hec] at hr hd
        rcases List.mem_cons.1 hd with rfl | hd
        · exact ⟨fun h => hce (subsetEq_iff.2 h), fun h => hec (subsetEq_iff.2 h)⟩
        · exact ih hr d hd

theorem eraseStep_subset : eraseStep subsetEq before c ⊆ before ++ [c] := by
  have hs := (eraseBefore_sublist subsetEq c before).subset
  intro d hd
  simp only [eraseStep] at hd
  split at hd
  · exact List.append_subset.2 ⟨fun _ h => List.mem_append_left _ (hs h),
      List.subset_append_right ..⟩ hd
  · exact List.mem_append_left _ (hs hd)

theorem eraseStep_covers : Covers (before ++ [c]) (eraseStep subsetEq before c) := by
  -- what holds the clause inside, or what the clause lies in, stands for the clause
  have hc : ∃ d ∈ eraseStep subsetEq before c, d ⊆ c := by
    simp only [eraseStep]
    cases hr : (eraseBefore subsetEq c before).2 with
    | true =>
      rw [if_pos rfl]
      exact ⟨c, List.mem_append_right _ (List.mem_singleton_self c), fun _ h => h⟩
    | false =>
      rw [if_neg Bool.false_ne_true]
      exact eraseBefore_erased hr
  intro d hd
  obtain ⟨e, he, hec⟩ := hc
  rcases List.mem_append.1 hd with hd | hd
  · rcases eraseBefore_mem_or (c := c) hd with hm | hcd
    · refine ⟨d, ?_, fun _ h => h⟩
      simp only [eraseStep]
      split
      · exact List.mem_append_left _ hm
      · exact hm
    · exact ⟨e, he, hec.trans hcd⟩
  · obtain rfl := List.mem_singleton.1 hd
    exact ⟨e, he, hec⟩

theorem eraseStep_minimal (hm : Minimal before) : Minimal (eraseStep subsetEq before c) := by
  have hs := (eraseBefore_sublist subsetEq c before).subset
  have hm' : Minimal (eraseBefore subsetEq c before).1 :=
    fun d hd e he => hm d (hs hd) e (hs he)
  simp only [eraseStep]
  cases hr : (eraseBefore subsetEq c before).2 with
  | false =>
    rw [if_neg Bool.false_ne_true]
    exact hm'
  | true =>
    rw [if_pos rfl]
    have hap := eraseBefore_apart hr
    intro d hd e he hde
    rcases List.mem_append.1 hd with hd | hd <;> rcases List.mem_append.1 he with he | he
    · exact hm' d hd e he hde
    · exact (hap d hd).2 (List.mem_singleton.1 he ▸ hde.subset)
    · exact (hap e he).1 (List.mem_singleton.1 hd ▸ hde.subset)
    · rw [List.mem_singleton.1 hd, List.mem_singleton.1 he] at hde
      exact hde.ne rfl

theorem foldl_eraseStep_spec (hm : Minimal before) :
    f.foldl (eraseStep subsetEq) before ⊆ before ++ f ∧
    Covers (before ++ f) (f.foldl (eraseStep subsetEq) before) ∧
    Minimal (f.foldl (eraseStep subsetEq) before) := by
  induction f generalizing before with
  | nil =>
    rw [List.append_nil]
    exact ⟨fun _ h => h, .refl _, hm⟩
  | cons c f ih =>
    rw [List.foldl_cons, List.append_cons]
    obtain ⟨hs, hc, hm'⟩ := ih (eraseStep_minimal (c := c) hm)
    refine ⟨fun d hd => ?_, (eraseStep_covers.append_right f).trans hc, hm'⟩
    rcases List.mem_append.1 (hs hd) with hd | hd
    · exact List.mem_append_left _ (eraseStep_subset hd)
    · exact List.mem_append_right _ hd

theorem pairwiseEraseIf_spec (f : Nf) :
    pairwiseEraseIf f subsetEq ⊆ f ∧ Covers f (pairwiseEraseIf f subsetEq) ∧
    Minimal (pairwiseEraseIf f subsetEq) :=
  foldl_eraseStep_spec fun _ hc => absurd hc List.not_mem_nil

end Erasing

end OpenCog.Comboreduct
