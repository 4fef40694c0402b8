import OpenCog.Comboreduct.NfMapper

/-! The rules `reduce_ors` and `reduce_ands`, which resolve the clauses of a form against each
other and write what is left back. -/
namespace OpenCog.Comboreduct

open Util Lib.Clauses

variable {α : Type}

/-! ## The loops over pairs of clauses -/

/-- The list with both iterators in it; `c2` runs through what stands before `c1`. -/
structure Cursors where
  before : Nf
  c2 : Clause
  between : Nf
  c1 : Clause
  after : Nf

namespace Cursors

def clauses (s : Cursors) : Nf := s.before ++ s.c2 :: (s.between ++ s.c1 :: s.after)

/-- The other clauses that an implication lies in are erased; the two it comes from are
replaced when it lies properly inside. -/
def absorb (s : Cursors) (impl : Clause) : Cursors where
  before := s.before.filter fun c => !subsetEq impl c
  c2 := if subset impl s.c2 then impl else s.c2
  between := s.between.filter fun c => !subsetEq impl c
  c1 := if subset impl s.c1 then impl else s.c1
  after := s.after.filter fun c => !subsetEq impl c

def resolve (s : Cursors) : Cursors := (implications s.c1 s.c2).foldl absorb s

theorem length_foldl_absorb (impls : Nf) (s : Cursors) :
    (impls.foldl absorb s).between.length ≤ s.between.length ∧
    (impls.foldl absorb s).after.length ≤ s.after.length := by
  induction impls generalizing s with
  | nil => exact ⟨le_rfl, le_rfl⟩
  | cons impl impls ih =>
    obtain ⟨hb, ha⟩ := ih (s.absorb impl)
    exact ⟨hb.trans (List.length_filter_le ..), ha.trans (List.length_filter_le ..)⟩

end Cursors

structure Cursor where
  before : Nf
  c1 : Clause
  after : Nf

def Cursor.clauses (s : Cursor) : Nf := s.before ++ s.c1 :: s.after

/-- `c2` runs up to `c1`. -/
def sweep (before between : Nf) (c1 : Clause) (after : Nf) : Cursor :=
  match between with
  | [] => ⟨before, c1, after⟩
  | c2 :: rest =>
    let s := Cursors.resolve ⟨before, c2, rest, c1, after⟩
    sweep (s.before ++ [s.c2]) s.between s.c1 s.after
termination_by between.length
decreasing_by exact Nat.lt_succ_of_le (Cursors.length_foldl_absorb _ _).1

theorem length_sweep (before between : Nf) (c1 : Clause) (after : Nf) :
    (sweep before between c1 after).after.length ≤ after.length := by
  fun_induction sweep before between c1 after with
  | case1 => exact le_rfl
  | case2 before c1 after c2 rest s ih =>
    exact ih.trans (Cursors.length_foldl_absorb _ _).2

def resolveFrom (before after : Nf) : Nf :=
  match after with
  | [] => before
  | c1 :: rest =>
    let s := sweep [] before c1 rest
    resolveFrom (s.before ++ [s.c1]) s.after
termination_by after.length
decreasing_by exact Nat.lt_succ_of_le (length_sweep ..)

/-- The double loop over the clauses. -/
def resolveClauses (f : Nf) : Nf := resolveFrom [] f

/-! ## What the loops keep -/

/-- `g` says what `f` says, with literals of `f` only. -/
structure ReducedFrom (f g : Nf) : Prop where
  value : ∀ v, Valuation v → (Dnf v g ↔ Dnf v f)
  consistent : ∀ c ∈ g, Consistent c
  literals : ∀ c ∈ g, ∀ l ∈ c, ∃ d ∈ f, l ∈ d
  minimal : Minimal g

namespace Cursors

variable {s : Cursors} {impl c : Clause} {f : Nf}

theorem mem_clauses : c ∈ s.clauses ↔
    c ∈ s.before ∨ c = s.c2 ∨ c ∈ s.between ∨ c = s.c1 ∨ c ∈ s.after := by
  simp [clauses]

theorem c1_mem (s : Cursors) : s.c1 ∈ s.clauses := by simp [clauses]

theorem c2_mem (s : Cursors) : s.c2 ∈ s.clauses := by simp [clauses]

/-- The implication says nothing that the two clauses do not say. -/
structure Implied (s : Cursors) (impl : Clause) : Prop where
  consistent : Consistent impl
  implies : ∀ v, Valuation v → Conj v impl → Conj v s.c1 ∨ Conj v s.c2

theorem replaced_subset {impl c : Clause} : (if subset impl c then impl else c) ⊆ c := by
  split
  · rename_i h
    exact (subset_iff.1 h).subset
  · exact fun _ h => h

theorem Implied.absorb {impl' : Clause} (h : s.Implied impl') (impl : Clause) :
    (s.absorb impl).Implied impl' :=
  ⟨h.consistent, fun v hv hi => (h.implies v hv hi).imp
    (fun hc => hc.mono replaced_subset) (fun hc => hc.mono replaced_subset)⟩

theorem mem_of_mem_absorb (h : c ∈ (s.absorb impl).clauses) :
    c ∈ s.clauses ∨ c = impl ∧ (impl ⊂ s.c1 ∨ impl ⊂ s.c2) := by
  rw [mem_clauses] at h ⊢
  rcases h with h | h | h | h | h
  · exact .inl (.inl (List.mem_filter.1 h).1)
  · by_cases hs : subset impl s.c2 = true
    · exact .inr ⟨by rw [h, absorb, if_pos hs], .inr (subset_iff.1 hs)⟩
    · exact .inl (.inr (.inl (by rw [h, absorb, if_neg hs])))
  · exact .inl (.inr (.inr (.inl (List.mem_filter.1 h).1)))
  · by_cases hs : subset impl s.c1 = true
    · exact .inr ⟨by rw [h, absorb, if_pos hs], .inl (subset_iff.1 hs)⟩
    · exact .inl (.inr (.inr (.inr (.inl (by rw [h, absorb, if_neg hs])))))
  · exact .inl (.inr (.inr (.inr (.inr (List.mem_filter.1 h).1))))

theorem absorb_keeps (h : c ∈ s.clauses) : c ∈ (s.absorb impl).clauses ∨ impl ⊆ c := by
  by_cases hi : impl ⊆ c
  · exact .inr hi
  · have hf : (!subsetEq impl c) = true := by
      rw [Bool.not_eq_true', ← Bool.not_eq_true, subsetEq_iff]
      exact hi
    have hr : (if subset impl c then impl else c) = c :=
      if_neg fun hs => hi (subset_iff.1 hs).subset
    left
    rw [mem_clauses] at h ⊢
    rcases h with h | rfl | h | rfl | h
    · exact .inl (List.mem_filter.2 ⟨h, hf⟩)
    · exact .inr (.inl hr.symm)
    · exact .inr (.inr (.inl (List.mem_filter.2 ⟨h, hf⟩)))
    · exact .inr (.inr (.inr (.inl hr.symm)))
    · exact .inr (.inr (.inr (.inr (List.mem_filter.2 ⟨h, hf⟩))))

theorem not_ssubset_of_filter {g : Nf} (h : c ∈ g.filter fun c => !subsetEq impl c) :
    ¬ impl ⊂ c := by
  intro hs
  have hn := (List.mem_filter.1 h).2
  rw [subsetEq_iff.2 hs.subset] at hn
  cases hn

theorem not_ssubset_replaced {d : Clause} (h : c = if subset impl d then impl else d) :
    ¬ impl ⊂ c := by
  intro hs
  by_cases hd : subset impl d = true
  · rw [if_pos hd] at h
    exact hs.ne h.symm
  · rw [if_neg hd] at h
    exact hd (subset_iff.2 (h ▸ hs))

/-- The implication lies properly inside nothing that is left. -/
theorem not_ssubset_of_mem_absorb (h : c ∈ (s.absorb impl).clauses) : ¬ impl ⊂ c := by
  rw [mem_clauses] at h
  rcases h with h | h | h | h | h
  · exact not_ssubset_of_filter h
  · exact not_ssubset_replaced h
  · exact not_ssubset_of_filter h
  · exact not_ssubset_replaced h
  · exact not_ssubset_of_filter h

theorem absorb_value {v : Int → Prop} (hv : Valuation v) (hi : s.Implied impl) :
    Dnf v (s.absorb impl).clauses ↔ Dnf v s.clauses := by
  constructor
  · rintro ⟨c, hc, h⟩
    rcases mem_of_mem_absorb hc with hc | ⟨rfl, -⟩
    · exact ⟨c, hc, h⟩
    · rcases hi.implies v hv h with h | h
      · exact ⟨s.c1, s.c1_mem, h⟩
      · exact ⟨s.c2, s.c2_mem, h⟩
  · rintro ⟨c, hc, h⟩
    have hkeep : c ∈ (s.absorb impl).clauses ∨ impl ⊆ c := absorb_keeps hc
    rcases hkeep with hc | hic
    · exact ⟨c, hc, h⟩
    · rcases (hi.absorb impl).implies v hv (h.mono hic) with h | h
      · exact ⟨_, c1_mem _, h⟩
      · exact ⟨_, c2_mem _, h⟩

theorem absorb_reducedFrom (h : ReducedFrom f s.clauses) (hi : s.Implied impl) :
    ReducedFrom f (s.absorb impl).clauses where
  value v hv := (absorb_value hv hi).trans (h.value v hv)
  consistent c hc := by
    rcases mem_of_mem_absorb hc with hc | ⟨rfl, -⟩
    · exact h.consistent c hc
    · exact hi.consistent
  literals c hc l hl := by
    rcases mem_of_mem_absorb hc with hc | ⟨rfl, hs | hs⟩
    · exact h.literals c hc l hl
    · exact h.literals _ s.c1_mem l (hs.subset hl)
    · exact h.literals _ s.c2_mem l (hs.subset hl)
  minimal c hc d hd hcd := by
    rcases mem_of_mem_absorb hc with hc' | ⟨rfl, -⟩
    · rcases mem_of_mem_absorb hd with hd | ⟨rfl, hs | hs⟩
      · exact h.minimal c hc' d hd hcd
      · exact h.minimal c hc' _ s.c1_mem (hcd.trans hs)
      · exact h.minimal c hc' _ s.c2_mem (hcd.trans hs)
    · exact not_ssubset_of_mem_absorb hd hcd

theorem foldl_absorb_reducedFrom {impls : Nf} (h : ReducedFrom f s.clauses)
    (hi : ∀ impl ∈ impls, s.Implied impl) : ReducedFrom f (impls.foldl absorb s).clauses := by
  induction impls generalizing s with
  | nil => exact h
  | cons impl impls ih =>
    apply ih (absorb_reducedFrom h (hi impl (List.mem_cons_self ..)))
    exact fun i hm => (hi i (List.mem_cons_of_mem _ hm)).absorb impl

theorem implied_of_mem (h1 : Consistent s.c1) (h2 : Consistent s.c2)
    (h : impl ∈ implications s.c1 s.c2) : s.Implied impl := by
  obtain ⟨p, hp1, hp2, rfl, ht⟩ := mem_implications h
  refine ⟨consistent_of_not_tautology (fun h0 => ?_) ht, fun v hv hi =>
    resolvent_implies hv h1 h2 hp1 hp2 hi⟩
  rcases (mem_resolvent.1 h0).2.2 with h0 | h0
  · exact zero_notMem_of_consistent h1 h0
  · exact zero_notMem_of_consistent h2 h0

theorem resolve_reducedFrom (h : ReducedFrom f s.clauses) :
    ReducedFrom f s.resolve.clauses :=
  foldl_absorb_reducedFrom h fun _ =>
    implied_of_mem (h.consistent _ s.c1_mem) (h.consistent _ s.c2_mem)

end Cursors

theorem sweep_reducedFrom {f before between after : Nf} {c1 : Clause}
    (h : ReducedFrom f (before ++ (between ++ c1 :: after))) :
    ReducedFrom f (sweep before between c1 after).clauses := by
  fun_induction sweep before between c1 after with
  | case1 before c1 after => exact h
  | case2 before c1 after c2 rest s ih =>
    apply ih
    have hr := Cursors.resolve_reducedFrom (s := ⟨before, c2, rest, c1, after⟩) h
    rwa [← List.append_cons]

theorem resolveFrom_reducedFrom {f before after : Nf} (h : ReducedFrom f (before ++ after)) :
    ReducedFrom f (resolveFrom before after) := by
  fun_induction resolveFrom before after with
  | case1 before => exact List.append_nil before ▸ h
  | case2 before c1 rest s ih =>
    apply ih
    have hr : ReducedFrom f ([] ++ (before ++ c1 :: rest)) := h
    have hsweep := sweep_reducedFrom hr
    rwa [← List.append_cons]

theorem resolveFrom_ne_nil {before after : Nf} (h : before ++ after ≠ []) :
    resolveFrom before after ≠ [] := by
  fun_induction resolveFrom before after with
  | case1 before => exact List.append_nil before ▸ h
  | case2 before c1 rest s ih => exact ih (by simp)

/-- What the rules make of the clauses of a form. -/
def reduced (f : Nf) : Nf :=
  resolveClauses (pairwiseEraseIf (f.filter fun c => !tautology c) subsetEq)

theorem dnf_filter {f : Nf} {v : Int → Prop} (hv : Valuation v) :
    Dnf v (f.filter fun c => !tautology c) ↔ Dnf v f := by
  constructor
  · exact fun h => h.mono (List.filter_subset_self _)
  · rintro ⟨c, hc, h⟩
    refine ⟨c, List.mem_filter.2 ⟨hc, ?_⟩, h⟩
    rw [Bool.not_eq_true', ← Bool.not_eq_true, tautology_iff]
    rintro ⟨l, hl, h0, hn⟩
    exact not_conj_of_inconsistent hv hl hn (by omega) h

theorem reduced_reducedFrom {f : Nf} (h0 : ∀ c ∈ f, 0 ∉ c) : ReducedFrom f (reduced f) := by
  obtain ⟨hs, hc, hm⟩ := pairwiseEraseIf_spec (f.filter fun c => !tautology c)
  apply resolveFrom_reducedFrom
  rw [List.nil_append]
  refine ⟨fun v hv => ?_, fun c hcm => ?_, fun c hcm l hl => ?_, hm⟩
  · exact Iff.trans ⟨fun h => h.mono hs, hc.dnf⟩ (dnf_filter hv)
  · obtain ⟨hcf, ht⟩ := List.mem_filter.1 (hs hcm)
    apply consistent_of_not_tautology (h0 c hcf)
    simpa using ht
  · exact ⟨c, (List.mem_filter.1 (hs hcm)).1, hl⟩

theorem reduced_ne_nil {f : Nf} (h : f.filter (fun c => !tautology c) ≠ []) :
    reduced f ≠ [] := by
  obtain ⟨-, hc, -⟩ := pairwiseEraseIf_spec (f.filter fun c => !tautology c)
  obtain ⟨c, hcm⟩ := List.exists_mem_of_ne_nil _ h
  obtain ⟨d, hd, -⟩ := hc c hcm
  exact resolveFrom_ne_nil (List.ne_nil_of_mem hd)

/-! ## The rules -/

def reduceOrs [DecidableEq α] (t : Subtree α) : Option (Subtree α) :=
  if t.root ≠ .logicalOr then some t
  else
    let (mapper, f₀) := addDnf (siblings t.children)
    let f := resolveClauses (pairwiseEraseIf (f₀.filter fun c => !tautology c) subsetEq)
    if numberOfLiterals f₀ ≠ numberOfLiterals f then extractDnf mapper f else some t

/-- The literals that `intersect` keeps of the clauses after the first. -/
def intersectWith (intersect : Clause) : Nf → Clause
  | [] => intersect
  | c :: f =>
    if intersect = ∅ then intersect
    else if c.card = 1 then ∅
    else intersectWith (intersect ∩ c) f

def commonFactor : Nf → Clause
  | c :: d :: f => if 1 < c.card then intersectWith c (d :: f) else ∅
  | _ => ∅

/-- `or` over what is left of the conjunction and the literals of the factor. -/
def putFactor (t conj : Subtree α) (intersect : Clause) : Subtree α :=
  let rest := if t.isChildless then [] else [⟨.logicalAnd, t.children⟩]
  let factor := if 1 < intersect.card then siblings conj.children else [conj]
  ⟨.logicalOr, ofSiblings (rest ++ factor)⟩

/-- The form that the clauses are written back as, without the literals of `d`. -/
def negatedWithout (f : Nf) (d : Clause) : Nf := f.map fun c => negated (c \ d)

def writeAnds (mapper : List (Subtree α)) (f : Nf) (intersect : Clause) :
    Option (Subtree α) := do
  let t ← extractCnf mapper (negatedWithout f intersect)
  if intersect = ∅ then return t
  else
    let conj ← extractConjunction mapper (negated intersect)
    return putFactor t conj (negated intersect)

def reduceAnds [DecidableEq α] (t : Subtree α) : Option (Subtree α) :=
  if t.root ≠ .logicalAnd then some t
  else
    let (mapper, f₀) := addCnf (siblings t.children)
    let f₁ := (f₀.map negated).filter fun c => !tautology c
    if f₁ = [] then some ⟨.logicalTrue, .nil⟩
    else
      let f := resolveClauses (pairwiseEraseIf f₁ subsetEq)
      let intersect := commonFactor f
      if numberOfLiterals f₀ ≠ numberOfLiterals f ∨ intersect ≠ ∅ then
        writeAnds mapper f intersect
      else some t

/-! ### The common factor -/

variable {mapper : List (Subtree α)} {t : Subtree α} {c intersect : Clause} {f : Nf}

theorem intersectWith_subset (h : intersectWith intersect f ≠ ∅) :
    intersectWith intersect f ⊆ intersect ∧ ∀ c ∈ f, intersectWith intersect f ⊆ c := by
  induction f generalizing intersect with
  | nil => exact ⟨fun _ hl => hl, fun _ hc => absurd hc List.not_mem_nil⟩
  | cons d f ih =>
    simp only [intersectWith] at h ⊢
    by_cases he : intersect = ∅
    · rw [if_pos he] at h
      exact absurd he h
    · rw [if_neg he] at h ⊢
      by_cases hd : d.card = 1
      · rw [if_pos hd] at h
        exact absurd rfl h
      · rw [if_neg hd] at h ⊢
        obtain ⟨hi, hf⟩ := ih h
        refine ⟨hi.trans Finset.inter_subset_left, fun c hc => ?_⟩
        rcases List.mem_cons.1 hc with rfl | hc
        · exact hi.trans Finset.inter_subset_right
        · exact hf c hc

theorem commonFactor_subset (h : commonFactor f ≠ ∅) :
    2 ≤ f.length ∧ ∀ c ∈ f, commonFactor f ⊆ c := by
  unfold commonFactor at h ⊢
  split at h
  · rename_i c d f
    split at h
    · rename_i hc
      obtain ⟨hi, hf⟩ := intersectWith_subset h
      simp only [if_pos hc]
      refine ⟨by simp, fun e he => ?_⟩
      rcases List.mem_cons.1 he with rfl | he
      · exact hi
      · exact hf e he
    · exact absurd rfl h
  · exact absurd rfl h

theorem extractConjunction_factor (h : Creatable mapper c) (hc : c ≠ ∅) :
    ∃ conj, extractConjunction mapper c = some conj ∧
      ∀ σ, (∃ u ∈ (if 1 < c.card then siblings conj.children else [conj]), eval σ u = true) ↔
        Disj (litValue σ mapper) c := by
  by_cases h1 : c.card = 1
  · obtain ⟨l, rfl⟩ := Finset.card_eq_one.1 h1
    obtain ⟨u, hu, hv⟩ := extractConjunction_one h
    refine ⟨u, hu, fun σ => ?_⟩
    rw [if_neg (by simp)]
    simp [Disj, hv σ]
  · have hpos := Finset.card_pos.2 (Finset.nonempty_iff_ne_empty.2 hc)
    obtain ⟨ts, hts, hs⟩ := extractConjunction_many h h1
    refine ⟨_, hts, fun σ => ?_⟩
    rw [if_pos (by omega), siblings_ofSiblings, hs.disj]

theorem eval_putFactor {conj : Subtree α} {σ : Assignment α} {v : Int → Prop}
    (h : (∃ u ∈ (if 1 < c.card then siblings conj.children else [conj]), eval σ u = true) ↔
      Disj v c) :
    eval σ (putFactor t conj c) = true ↔
      (siblings t.children ≠ [] ∧ ∀ u ∈ siblings t.children, eval σ u = true) ∨
        Disj v c := by
  rw [putFactor, eval_logicalOr, siblings_ofSiblings, ← h]
  by_cases hn : siblings t.children = []
  · simp [Subtree.isChildless, hn]
  · simp [Subtree.isChildless, hn]

theorem cnf_negatedWithout {v : Int → Prop} (hv : Valuation v) (h0 : ∀ c ∈ f, 0 ∉ c)
    (hd : ∀ c ∈ f, intersect ⊆ c) :
    ¬ Dnf v f ↔ Disj v (negated intersect) ∨ Cnf v (negatedWithout f intersect) := by
  have hneg : (f.map negated).map negated = f := by
    rw [List.map_map]
    exact (List.map_congr_left fun c _ => negated_negated c).trans (List.map_id f)
  have hs : negatedWithout f intersect = (f.map negated).map (· \ negated intersect) := by
    rw [negatedWithout, List.map_map]
    refine List.map_congr_left fun c _ => ?_
    ext l
    simp
  have hne : ∀ c ∈ f.map negated, ∀ l ∈ c, -l ≠ l := by
    intro c hc l hl he
    obtain ⟨d, hd, rfl⟩ := List.mem_map.1 hc
    obtain rfl : l = 0 := by omega
    exact h0 d hd (by simpa using hl)
  have hcnf := cnf_iff_negated hv hne
  rw [hneg] at hcnf
  rw [← hcnf, hs]
  apply cnf_factor
  intro c hc l hl
  obtain ⟨d, hm, rfl⟩ := List.mem_map.1 hc
  exact mem_negated.2 (hd d hm (mem_negated.1 hl))

/-- Either every clause is the factor, or none is. -/
theorem negatedWithout_empty (hm : Minimal f) (hd : ∀ c ∈ f, intersect ⊆ c) :
    (∀ c ∈ negatedWithout f intersect, c = ∅) ∨ ∀ c ∈ negatedWithout f intersect, c ≠ ∅ := by
  by_cases hi : intersect ∈ f
  · left
    intro c hc
    obtain ⟨d, hdm, rfl⟩ := List.mem_map.1 hc
    rw [negated_eq_empty, Finset.sdiff_eq_empty_iff_subset,
      hm.eq_of_subset hi hdm (hd d hdm)]
  · right
    intro c hc he
    obtain ⟨d, hdm, rfl⟩ := List.mem_map.1 hc
    rw [negated_eq_empty, Finset.sdiff_eq_empty_iff_subset] at he
    exact hi (Finset.Subset.antisymm (hd d hdm) he ▸ hdm)

theorem extractCnf_negatedWithout (hm : Minimal f) (hd : ∀ c ∈ f, intersect ⊆ c)
    (hcr : ∀ c ∈ negatedWithout f intersect, Creatable mapper c) (hf : f ≠ []) :
    (extractCnf mapper (negatedWithout f intersect) = some ⟨.logicalFalse, .nil⟩ ∧
      ∀ v, ¬ Cnf v (negatedWithout f intersect)) ∨
    ∃ us, extractCnf mapper (negatedWithout f intersect) = some (closeNode .logicalAnd us) ∧
      us.length = f.length ∧
      ∀ σ, (∀ u ∈ us, eval σ u = true) ↔ Cnf (litValue σ mapper) (negatedWithout f intersect) := by
  rcases negatedWithout_empty hm hd with he | he
  · refine .inl ⟨extractCnf_empty he, fun v hv => ?_⟩
    obtain ⟨c, hc⟩ := List.exists_mem_of_ne_nil _ hf
    have hc' := List.mem_map_of_mem (f := fun c => negated (c \ intersect)) hc
    obtain ⟨l, hl, -⟩ := hv _ hc'
    rw [he _ hc'] at hl
    exact Finset.notMem_empty l hl
  · obtain ⟨us, hus, hlen, hv⟩ := extractCnf_spec fun c hc => ⟨hcr c hc, he c hc⟩
    exact .inr ⟨us, hus, hlen.trans (List.length_map ..), hv⟩

theorem writeAnds_value (hm : Minimal f) (h0 : ∀ c ∈ f, 0 ∉ c) (hf : f ≠ [])
    (hcr : ∀ c ∈ f, Creatable mapper (negated c)) :
    ∃ u, writeAnds mapper f (commonFactor f) = some u ∧
      ∀ σ, eval σ u = true ↔ ¬ Dnf (litValue σ mapper) f := by
  have hd : ∀ c ∈ f, commonFactor f ⊆ c := by
    intro c hc
    by_cases he : commonFactor f = ∅
    · rw [he]
      exact Finset.empty_subset c
    · exact (commonFactor_subset he).2 c hc
  have hcr' : ∀ c ∈ negatedWithout f (commonFactor f), Creatable mapper c := by
    intro c hc l hl
    obtain ⟨d, hdm, rfl⟩ := List.mem_map.1 hc
    exact hcr d hdm l (mem_negated.2 (Finset.mem_sdiff.1 (mem_negated.1 hl)).1)
  have hcnf := fun σ => cnf_negatedWithout (valuation_litValue σ mapper) h0 hd
  have hext := extractCnf_negatedWithout hm hd hcr' hf
  by_cases he : commonFactor f = ∅
  · have hno : ∀ σ : Assignment α, ¬ Disj (litValue σ mapper) (negated (commonFactor f)) := by
      rintro σ ⟨l, hl, -⟩
      rw [negated_eq_empty.2 he] at hl
      exact Finset.notMem_empty l hl
    rcases hext with ⟨hx, hnv⟩ | ⟨us, hx, hlen, hv⟩
    · refine ⟨⟨.logicalFalse, .nil⟩, by rw [writeAnds, hx]; simp [he], fun σ => ?_⟩
      rw [hcnf σ]
      exact iff_of_false Bool.false_ne_true fun h => h.elim (hno σ) (hnv _)
    · refine ⟨closeNode .logicalAnd us, by rw [writeAnds, hx]; simp [he], fun σ => ?_⟩
      have hus : us ≠ [] := fun h => hf (List.length_eq_zero_iff.1 (by rw [← hlen, h]; rfl))
      rw [hcnf σ, eval_closeNode_and hus, hv σ]
      exact (or_iff_right (hno σ)).symm
  · have hne : negated (commonFactor f) ≠ ∅ := fun h => he (negated_eq_empty.1 h)
    have hcf : Creatable mapper (negated (commonFactor f)) := by
      obtain ⟨c, hc⟩ := List.exists_mem_of_ne_nil _ hf
      exact fun l hl => hcr c hc l (mem_negated.2 (hd c hc (mem_negated.1 hl)))
    obtain ⟨conj, hconj, hcv⟩ := extractConjunction_factor hcf hne
    rcases hext with ⟨hx, hnv⟩ | ⟨us, hx, hlen, hv⟩
    · refine ⟨putFactor ⟨.logicalFalse, .nil⟩ conj (negated (commonFactor f)),
        by simp [writeAnds, hx, he, hconj], fun σ => ?_⟩
      rw [hcnf σ, eval_putFactor (hcv σ), or_iff_left (hnv _)]
      exact or_iff_right fun h => h.1 rfl
    · -- a factor is taken out of two clauses at least, so that they are below an `and`
      have hand : closeNode .logicalAnd us = ⟨.logicalAnd, ofSiblings us⟩ := by
        have h2 := (commonFactor_subset he).1
        match us, hlen with
        | [], hlen => simp at hlen; omega
        | [u], hlen => simp at hlen; omega
        | u :: w :: us, _ => rfl
      have hus : us ≠ [] := fun h => hf (List.length_eq_zero_iff.1 (by rw [← hlen, h]; rfl))
      refine ⟨putFactor ⟨.logicalAnd, ofSiblings us⟩ conj (negated (commonFactor f)),
        by simp [writeAnds, hx, he, hconj, hand], fun σ => ?_⟩
      rw [hcnf σ, eval_putFactor (hcv σ), siblings_ofSiblings, hv σ, or_comm]
      exact or_congr_right (and_iff_right hus)

/-! ### Equivalence -/

section Rules

variable [DecidableEq α]

theorem creatable_addNf (junct : Vertex α) (ts : List (Subtree α)) :
    ∀ c ∈ (addNf junct [] ts).2, Creatable (addNf junct [] ts).1 c := by
  intro c hc
  obtain ⟨t, -, hs⟩ := (addNf_spec junct [] ts).2.1 c hc
  exact hs.creatable

theorem creatable_reduced (junct : Vertex α) (ts : List (Subtree α)) :
    ∀ c ∈ reduced (addNf junct [] ts).2, Creatable (addNf junct [] ts).1 c := by
  have hcr := creatable_addNf junct ts
  intro c hc l hl
  obtain ⟨d, hd, hld⟩ :=
    (reduced_reducedFrom fun c hc => (hcr c hc).zero_notMem).literals c hc l hl
  exact hcr d hd l hld

theorem reduceOrs_of_or (hr : t.root = .logicalOr) :
    reduceOrs t =
      if numberOfLiterals (addDnf (siblings t.children)).2 ≠
          numberOfLiterals (reduced (addDnf (siblings t.children)).2) then
        extractDnf (addDnf (siblings t.children)).1 (reduced (addDnf (siblings t.children)).2)
      else some t :=
  if_neg (not_not.2 hr)

theorem reduceOrs_value (t : Subtree α) :
    ∃ u, reduceOrs t = some u ∧ ∀ σ, eval σ u = eval σ t := by
  by_cases hr : t.root = .logicalOr
  · rw [reduceOrs_of_or hr]
    split
    · obtain ⟨u, hu, hv⟩ := extractDnf_spec (creatable_reduced .logicalAnd (siblings t.children))
      have hred := reduced_reducedFrom fun c hc =>
        (creatable_addNf .logicalAnd (siblings t.children) c hc).zero_notMem
      refine ⟨u, hu, fun σ => ?_⟩
      obtain ⟨root, children⟩ := t
      obtain rfl : root = .logicalOr := hr
      rw [Bool.eq_iff_iff, hv σ, hred.value _ (valuation_litValue _ _), eval_logicalOr]
      exact addDnf_value σ (siblings children)
    · exact ⟨t, rfl, fun _ => rfl⟩
  · exact ⟨t, if_pos hr, fun _ => rfl⟩

theorem reduceAnds_of_and (hr : t.root = .logicalAnd) :
    reduceAnds t =
      if ((addCnf (siblings t.children)).2.map negated).filter (fun c => !tautology c) = [] then
        some ⟨.logicalTrue, .nil⟩
      else if numberOfLiterals (addCnf (siblings t.children)).2 ≠ numberOfLiterals
            (reduced ((addCnf (siblings t.children)).2.map negated)) ∨
          commonFactor (reduced ((addCnf (siblings t.children)).2.map negated)) ≠ ∅ then
        writeAnds (addCnf (siblings t.children)).1
          (reduced ((addCnf (siblings t.children)).2.map negated))
          (commonFactor (reduced ((addCnf (siblings t.children)).2.map negated)))
      else some t :=
  if_neg (not_not.2 hr)

theorem reduceAnds_value (t : Subtree α) :
    ∃ u, reduceAnds t = some u ∧ ∀ σ, eval σ u = eval σ t := by
  by_cases hr : t.root = .logicalAnd
  · have hcr := creatable_addNf .logicalOr (siblings t.children)
    have hlit : ∀ c ∈ (addCnf (siblings t.children)).2.map negated, 0 ∉ c := by
      intro c hc h0
      obtain ⟨d, hd, rfl⟩ := List.mem_map.1 hc
      exact (hcr d hd).zero_notMem (by simpa using h0)
    have hred := reduced_reducedFrom hlit
    have hval : ∀ σ, eval σ t = true ↔
        ¬ Dnf (litValue σ (addCnf (siblings t.children)).1)
          (reduced ((addCnf (siblings t.children)).2.map negated)) := by
      intro σ
      obtain ⟨root, children⟩ := t
      obtain rfl : root = .logicalAnd := hr
      rw [hred.value _ (valuation_litValue _ _), eval_logicalAnd, ← addCnf_value]
      apply cnf_iff_negated (valuation_litValue _ _)
      intro c hc l hl he
      obtain rfl : l = 0 := by omega
      exact (hcr c hc).zero_notMem hl
    rw [reduceAnds_of_and hr]
    split
    · rename_i hnil
      refine ⟨⟨.logicalTrue, .nil⟩, rfl, fun σ => ?_⟩
      rw [Bool.eq_iff_iff, hval σ, hred.value _ (valuation_litValue _ _),
        ← dnf_filter (valuation_litValue _ _), hnil]
      simp [Dnf]
    · rename_i hnil
      split
      · have hneg : ∀ c ∈ reduced ((addCnf (siblings t.children)).2.map negated),
            Creatable (addCnf (siblings t.children)).1 (negated c) := by
          intro c hc l hl
          obtain ⟨d, hd, hld⟩ := hred.literals c hc (-l) (mem_negated.1 hl)
          obtain ⟨e, he, rfl⟩ := List.mem_map.1 hd
          exact hcr e he l (by simpa using hld)
        obtain ⟨u, hu, hv⟩ := writeAnds_value hred.minimal
          (fun c hc => zero_notMem_of_consistent (hred.consistent c hc)) (reduced_ne_nil hnil) hneg
        exact ⟨u, hu, fun σ => by rw [Bool.eq_iff_iff, hv σ, hval σ]⟩
      · exact ⟨t, rfl, fun _ => rfl⟩
  · exact ⟨t, if_pos hr, fun _ => rfl⟩

/-- Both rules give a tree that has the value of the old one under every assignment. -/
theorem reductions_preserve_value (t : Subtree α) :
    (∃ u, reduceOrs t = some u ∧ ∀ σ, eval σ u = eval σ t) ∧
    ∃ u, reduceAnds t = some u ∧ ∀ σ, eval σ u = eval σ t :=
  ⟨reduceOrs_value t, reduceAnds_value t⟩

end Rules

end OpenCog.Comboreduct
