import OpenCog.Moses.Merging
import OpenCog.Util.Selection

/-! `select_exemplar`: among the members with the best score that has one not yet visited, one is
drawn with a weight that halves with each unit of complexity. -/
namespace OpenCog.Moses.SelectExemplar

open OpenCog.Util Merging

variable {T S : Type} [LinearOrder S] (visited : T → Bool) (selectionMaxRange : Rat)

/-- Complexities are at most zero, with zero the simplest. -/
def tooComplex (cmin : Int) (m : BscoredComboTree T S) : Prop :=
  selectionMaxRange < ((cmin - m.complexity : Int) : Rat)

instance (cmin : Int) (m : BscoredComboTree T S) :
    Decidable (tooComplex selectionMaxRange cmin m) :=
  inferInstanceAs (Decidable (_ < _))

/-- The loop over the metapopulation: `probs`, in which a visited member counts as 1, and
`exist_exemplar`. -/
def scan (cmin : Int) : S → Bool → List (BscoredComboTree T S) → List Int × Bool
  | _, exist_exemplar, [] => ([], exist_exemplar)
  | score, exist_exemplar, m :: rest =>
    if m.score ≠ score ∧ exist_exemplar then ([], exist_exemplar)
    else if tooComplex selectionMaxRange cmin m then ([], exist_exemplar)
    else if visited m.tree then
      let s := scan cmin m.score exist_exemplar rest
      (1 :: s.1, s.2)
    else
      let s := scan cmin m.score true rest
      (m.complexity :: s.1, s.2)

/-- `1 << (p - max_comp)`; `none` where the result is no `complexity_t`. -/
def weigh (maxComp p : Int) : Option Int :=
  if 0 < p then some 0
  else if 0 ≤ p - maxComp ∧ p - maxComp < 31 then some (2 ^ (p - maxComp).toNat)
  else none

/-- `sum += p` -/
def addUp (sum p : Int) : Option Int := if sum + p < 2 ^ 31 then some (sum + p) else none

/-- The place of the exemplar, or `end()`; `none` where an assertion fails or a number is out of
range. -/
def selectExemplar (dst : List (BscoredComboTree T S)) (draw : Rat) : Option (Option Nat) :=
  match dst with
  | [] => none
  | first :: rest => do
    let s := scan visited selectionMaxRange first.complexity first.score false (first :: rest)
    if s.2 then
      let maxComp ← s.1.min?
      let probs ← s.1.mapM (weigh maxComp)
      let sum ← probs.foldlM addUp 0
      if 0 < sum then (rouletteSelect probs sum draw).map some else none
    else some none

/-! ## The loop -/

/-- What `probs` holds of a member. -/
def code (m : BscoredComboTree T S) : Int := if visited m.tree then 1 else m.complexity

variable {visited selectionMaxRange} {cmin : Int} {u m : BscoredComboTree T S}
  {before after l : List (BscoredComboTree T S)}

/-- What is looked at after the first member that was not visited. -/
def window (selectionMaxRange : Rat) (cmin : Int) (score : S) (l : List (BscoredComboTree T S)) :
    List (BscoredComboTree T S) :=
  l.takeWhile fun m => m.score = score ∧ ¬ tooComplex selectionMaxRange cmin m

theorem scan_true (score : S) :
    scan visited selectionMaxRange cmin score true l =
      ((window selectionMaxRange cmin score l).map (code visited), true) := by
  induction l generalizing score with
  | nil => rfl
  | cons m l ih =>
    rw [scan, window, List.takeWhile_cons]
    by_cases hs : m.score = score
    · subst hs
      by_cases hc : tooComplex selectionMaxRange cmin m
      · simp [hc]
      · by_cases hv : visited m.tree = true
        · simp [hc, hv, ih, window, code]
        · simp [hc, hv, ih, window, code]
    · simp [hs]

theorem scan_found (score : S)
    (hbefore : ∀ m ∈ before, visited m.tree = true ∧ ¬ tooComplex selectionMaxRange cmin m)
    (hu : visited u.tree = false) (hc : ¬ tooComplex selectionMaxRange cmin u) :
    scan visited selectionMaxRange cmin score false (before ++ u :: after) =
      ((before ++ u :: window selectionMaxRange cmin u.score after).map (code visited), true) := by
  induction before generalizing score with
  | nil => simp [scan, hc, hu, scan_true, code]
  | cons m before ih =>
    obtain ⟨hv, hm⟩ := hbefore m List.mem_cons_self
    rw [List.cons_append, scan]
    simp [hm, hv, ih m.score fun m' hm' => hbefore m' (List.mem_cons_of_mem m hm'), code]

/-- Nothing is found when only visited members come before the first that is too complex. -/
theorem scan_not_found (score : S) (hl : ∀ m ∈ l.takeWhile
      (fun m => ¬ tooComplex selectionMaxRange cmin m), visited m.tree = true) :
    (scan visited selectionMaxRange cmin score false l).2 = false := by
  induction l generalizing score with
  | nil => rfl
  | cons m l ih =>
    rw [scan]
    by_cases hc : tooComplex selectionMaxRange cmin m
    · simp [hc]
    · rw [List.takeWhile_cons_of_pos (by simpa using hc)] at hl
      have hv := hl m List.mem_cons_self
      simp [hc, hv, ih m.score fun m' hm' => hl m' (List.mem_cons_of_mem m hm')]

/-! ## The weights -/

theorem keySet_pairwise (h : KeySet l) : l.Pairwise fun a b =>
    b.score < a.score ∨ b.score = a.score ∧ b.complexity < a.complexity := by
  refine (List.pairwise_map.mp h).imp fun {a b} hab => ?_
  have hlt : key b < key a := compare_lt_iff_lt.mp hab
  exact Prod.Lex.toLex_lt_toLex.mp hlt

theorem foldlM_addUp {ps : List Int} (hps : ∀ p ∈ ps, 0 ≤ p) {sum : Int}
    (hsum : sum + ps.sum < 2 ^ 31) : ps.foldlM addUp sum = some (sum + ps.sum) := by
  induction ps generalizing sum with
  | nil => simp
  | cons p ps ih =>
    have hrest : ∀ q ∈ ps, 0 ≤ q := fun q hq => hps q (List.mem_cons_of_mem p hq)
    have hpos := List.sum_nonneg hrest
    rw [List.sum_cons] at hsum ⊢
    rw [List.foldlM_cons, addUp, if_pos (by omega)]
    simp only [Option.bind_eq_bind, Option.bind_some]
    rw [ih hrest (by omega), Int.add_assoc]

theorem mapM_weigh_none {ps : List Int} {maxComp p : Int} (hp : p ∈ ps)
    (h : weigh maxComp p = none) : ps.mapM (weigh maxComp) = none := by
  induction ps with
  | nil => cases hp
  | cons q ps ih =>
    rw [List.mapM_cons]
    rcases List.mem_cons.mp hp with rfl | hp
    · simp [h]
    · simp [ih hp]

variable (visited) in
/-- The weight of a member, where `maxComp` is the complexity of the most complex one. -/
def weight (maxComp : Int) (m : BscoredComboTree T S) : Int :=
  if visited m.tree then 0 else 2 ^ (m.complexity - maxComp).toNat

omit [LinearOrder S] in
theorem weight_nonneg (maxComp : Int) (m : BscoredComboTree T S) :
    0 ≤ weight visited maxComp m := by
  rw [weight]
  split
  · exact Int.le_refl 0
  · positivity

omit [LinearOrder S] in
theorem weights_nonneg {maxComp : Int} : ∀ p ∈ l.map (weight visited maxComp), 0 ≤ p := by
  intro p hp
  obtain ⟨m, -, rfl⟩ := List.mem_map.mp hp
  exact weight_nonneg _ m

omit [LinearOrder S] in
theorem weigh_code {maxComp : Int} (hc : m.complexity ≤ 0)
    (hm : visited m.tree = false → maxComp ≤ m.complexity ∧ m.complexity - maxComp < 31) :
    weigh maxComp (code visited m) = some (weight visited maxComp m) := by
  rw [weigh, code, weight]
  cases hv : visited m.tree with
  | true => rfl
  | false =>
    obtain ⟨hle, hlt⟩ := hm hv
    simp only [Bool.false_eq_true, if_false]
    rw [if_neg (by omega), if_pos (by omega)]

omit [LinearOrder S] in
theorem mapM_weigh {maxComp : Int} (hl : ∀ m ∈ l, weigh maxComp (code visited m) =
      some (weight visited maxComp m)) :
    (l.map (code visited)).mapM (weigh maxComp) = some (l.map (weight visited maxComp)) := by
  induction l with
  | nil => rfl
  | cons m l ih =>
    rw [List.map_cons, List.mapM_cons, hl m List.mem_cons_self,
      ih fun m' hm' => hl m' (List.mem_cons_of_mem m hm')]
    rfl

omit [LinearOrder S] in
/-- The members not visited have different complexities, so their weights are different powers. -/
theorem sum_weight_lt {maxComp : Int}
    (hpair : l.Pairwise fun a b => visited a.tree = false → visited b.tree = false →
      b.complexity < a.complexity)
    (hrange : ∀ m ∈ l, visited m.tree = false →
      maxComp ≤ m.complexity ∧ m.complexity - maxComp < 31) :
    (l.map (weight visited maxComp)).sum < 2 ^ 31 := by
  let exps := (l.filter fun m => !visited m.tree).map fun m => (m.complexity - maxComp).toNat
  have hsum : (l.map (weight visited maxComp)).sum = ((exps.map (2 ^ ·)).sum : Nat) := by
    clear hpair hrange
    induction l with
    | nil => rfl
    | cons m l ih =>
      rw [List.map_cons, List.sum_cons, ih]
      cases hv : visited m.tree <;> simp [exps, weight, hv]
  have hexps : exps.Pairwise (· > ·) := by
    rw [List.pairwise_map, List.pairwise_filter]
    refine hpair.imp_of_mem fun {a b} _ hb hab ha hb' => ?_
    rw [Bool.not_eq_true'] at ha hb'
    have hlt := hab ha hb'
    have hmb := hrange b hb hb'
    omega
  have hlt : ∀ a ∈ exps, a < 31 := by
    intro a ha
    obtain ⟨m, hm, rfl⟩ := List.mem_map.mp ha
    obtain ⟨hm, hv⟩ := List.mem_filter.mp hm
    rw [Bool.not_eq_true'] at hv
    have := hrange m hm hv
    omega
  rw [hsum]
  exact_mod_cast sum_two_pow_lt hexps hlt

/-! ## The selection -/

/-- `end()` when all were visited, and a member not visited otherwise. -/
def Selects (visited : T → Bool) (selectionMaxRange : Rat) (dst : List (BscoredComboTree T S))
    (draw : Rat) : Prop :=
  ∃ exemplar, selectExemplar visited selectionMaxRange dst draw = some exemplar ∧
    (exemplar = none ↔ ∀ m ∈ dst, visited m.tree = true) ∧
    ∀ i, exemplar = some i → ∃ m, dst[i]? = some m ∧ visited m.tree = false

/-- The first member not visited is reached, and those of its score are not too far from it. -/
def Selectable (visited : T → Bool) (selectionMaxRange : Rat)
    (dst : List (BscoredComboTree T S)) : Prop :=
  ∀ first ∈ dst.head?, ∀ u after, dst.dropWhile (fun m => visited m.tree) = u :: after →
    (∀ m ∈ dst.takeWhile (fun m => visited m.tree) ++ [u],
      ¬ tooComplex selectionMaxRange first.complexity m) ∧
    ∀ m ∈ after, visited m.tree = false → m.score = u.score →
      ¬ tooComplex selectionMaxRange first.complexity m → u.complexity - m.complexity ≤ 30

variable {first : BscoredComboTree T S} {rest : List (BscoredComboTree T S)} {draw : Rat}

theorem selectExemplar_not_found (h : ∀ m ∈ (first :: rest).takeWhile
      (fun m => ¬ tooComplex selectionMaxRange first.complexity m), visited m.tree = true) :
    selectExemplar visited selectionMaxRange (first :: rest) draw = some none := by
  rw [selectExemplar]
  simp only [scan_not_found first.score h, Bool.false_eq_true, if_false]

theorem mem_window {score : S} {cmin : Int} {l : List (BscoredComboTree T S)}
    (h : m ∈ window selectionMaxRange cmin score l) :
    m ∈ l ∧ m.score = score ∧ ¬ tooComplex selectionMaxRange cmin m :=
  ⟨(List.takeWhile_prefix _).subset h, by simpa using List.mem_takeWhile_imp h⟩

/-- A member of the score that is not too complex is looked at, as all before it are simpler. -/
theorem mem_window_of_sorted {cmin : Int} (hl : (u :: l).Pairwise fun a b =>
      b.score < a.score ∨ b.score = a.score ∧ b.complexity < a.complexity)
    (hm : m ∈ l) (hs : m.score = u.score) (hc : ¬ tooComplex selectionMaxRange cmin m) :
    m ∈ window selectionMaxRange cmin u.score l := by
  induction l with
  | nil => cases hm
  | cons a l ih =>
    obtain ⟨hu, hal⟩ := List.pairwise_cons.mp hl
    obtain ⟨ha, hl'⟩ := List.pairwise_cons.mp hal
    have hle : m = a ∨ m.score < a.score ∨ m.score = a.score ∧ m.complexity < a.complexity :=
      (List.mem_cons.mp hm).imp_right (ha m)
    have hua := hu a List.mem_cons_self
    have has : a.score = u.score := by
      rcases hle with rfl | hlt | ⟨he, -⟩
      · exact hs
      · rcases hua with hau | ⟨hau, -⟩
        · exact absurd (hs ▸ hlt) hau.not_gt
        · exact hau
      · exact he.symm.trans hs
    have hac : ¬ tooComplex selectionMaxRange cmin a := by
      rcases hle with rfl | hlt | ⟨-, hlt⟩
      · exact hc
      · exact absurd (has ▸ hs ▸ hlt) (lt_irrefl _)
      · refine fun h => hc (lt_of_lt_of_le h ?_)
        exact_mod_cast Int.sub_le_sub_left hlt.le cmin
    rw [window, List.takeWhile_cons_of_pos (by simp [has, hac])]
    rcases List.mem_cons.mp hm with rfl | hm
    · exact List.mem_cons_self
    · refine List.mem_cons_of_mem a (ih ?_ hm)
      exact List.pairwise_cons.mpr ⟨fun b hb => hu b (List.mem_cons_of_mem a hb), hl'⟩

omit [LinearOrder S] in
theorem mem_of_not_visited {before l : List (BscoredComboTree T S)}
    (hbefore : ∀ m ∈ before, visited m.tree = true) (hm : m ∈ before ++ l)
    (hv : visited m.tree = false) : m ∈ l := by
  refine (List.mem_append.mp hm).resolve_left fun hm => ?_
  rw [hbefore m hm] at hv
  cases hv

/-- What the draw is made from, when the first member not visited is reached: the weights relative
to the most complex member not visited. -/
theorem selectExemplar_found {before after : List (BscoredComboTree T S)}
    (hneg : ∀ m ∈ before ++ u :: after, m.complexity ≤ 0)
    (hfirst : (before ++ u :: after).head? = some first)
    (hbefore : ∀ m ∈ before, visited m.tree = true ∧
      ¬ tooComplex selectionMaxRange first.complexity m)
    (hu : visited u.tree = false) (hc : ¬ tooComplex selectionMaxRange first.complexity u) :
    ∃ w ∈ u :: window selectionMaxRange first.complexity u.score after,
      visited w.tree = false ∧ (∀ m ∈ u :: window selectionMaxRange first.complexity u.score after,
        visited m.tree = false → w.complexity ≤ m.complexity) ∧
      selectExemplar visited selectionMaxRange (before ++ u :: after) draw = (do
        let probs ← ((before ++ u :: window selectionMaxRange first.complexity u.score after).map
          (code visited)).mapM (weigh w.complexity)
        let sum ← probs.foldlM addUp 0
        if 0 < sum then (rouletteSelect probs sum draw).map some else none) := by
  obtain ⟨rest, e⟩ := List.head?_eq_some_iff.mp hfirst
  let seen := before ++ u :: window selectionMaxRange first.complexity u.score after
  have hcode : ∀ m ∈ seen, visited m.tree = false →
      m ∈ u :: window selectionMaxRange first.complexity u.score after ∧
        code visited m = m.complexity := by
    intro m hm hv
    exact ⟨mem_of_not_visited (fun m hm => (hbefore m hm).1) hm hv, by simp [code, hv]⟩
  have hmemu : u ∈ seen := List.mem_append_right _ List.mem_cons_self
  obtain ⟨maxComp, hmin⟩ : ∃ maxComp, (seen.map (code visited)).min? = some maxComp := by
    rw [← Option.ne_none_iff_exists', ne_eq, List.min?_eq_none_iff, List.map_eq_nil_iff]
    exact List.ne_nil_of_mem hmemu
  obtain ⟨hin, hle⟩ := List.min?_eq_some_iff.mp hmin
  obtain ⟨w, hw, rfl⟩ := List.mem_map.mp hin
  have hwu : code visited w ≤ 0 := by
    refine (hle _ (List.mem_map_of_mem hmemu)).trans ?_
    rw [(hcode u hmemu hu).2]
    exact hneg u (by simp)
  have hwv : visited w.tree = false := by
    by_contra hv
    rw [Bool.not_eq_false] at hv
    simp [code, hv] at hwu
  obtain ⟨hw', hwc⟩ := hcode w hw hwv
  refine ⟨w, hw', hwv, fun m hm hv => ?_, ?_⟩
  · have hms : m ∈ seen := List.mem_append_right _ hm
    have := hle _ (List.mem_map_of_mem hms)
    rwa [hwc, (hcode m hms hv).2] at this
  · rw [e, selectExemplar, ← e, scan_found first.score hbefore hu hc]
    simp only [if_true, ← hwc]
    change ((seen.map (code visited)).min?.bind _) = _
    rw [hmin]
    rfl

theorem mem_of_mem_takeWhile_append {α : Type} {p : α → Bool} {x y : α} {l r : List α}
    (hx : p x = false) (hy : y ∈ (l ++ x :: r).takeWhile p) : y ∈ l := by
  induction l with
  | nil => simp [hx] at hy
  | cons a l ih =>
    rw [List.cons_append, List.takeWhile_cons] at hy
    split at hy
    · rcases List.mem_cons.mp hy with rfl | hy
      · exact List.mem_cons_self
      · exact List.mem_cons_of_mem a (ih hy)
    · cases hy

/-- A member that is too complex hides all behind it. -/
theorem selectExemplar_hidden {before after : List (BscoredComboTree T S)}
    (hfirst : (before ++ u :: after).head? = some first)
    (hbefore : ∀ m ∈ before, visited m.tree = true)
    (hfar : ∃ m ∈ before ++ [u], tooComplex selectionMaxRange first.complexity m) :
    selectExemplar visited selectionMaxRange (before ++ u :: after) draw = some none := by
  obtain ⟨rest, e⟩ := List.head?_eq_some_iff.mp hfirst
  obtain ⟨m, hm, hfar⟩ := hfar
  rw [e]
  apply selectExemplar_not_found
  rw [← e]
  intro y hy
  have hneg : decide (¬ tooComplex selectionMaxRange first.complexity m) = false := by simp [hfar]
  rcases List.mem_append.mp hm with hm | hm
  · obtain ⟨p, q, rfl⟩ := List.append_of_mem hm
    rw [List.append_assoc, List.cons_append] at hy
    exact hbefore y (List.mem_append_left _ (mem_of_mem_takeWhile_append hneg hy))
  · obtain rfl := List.mem_singleton.mp hm
    exact hbefore y (mem_of_mem_takeWhile_append hneg hy)

theorem isPrefix_window {before after : List (BscoredComboTree T S)} (score : S) (cmin : Int) :
    before ++ u :: window selectionMaxRange cmin score after <+: before ++ u :: after :=
  (List.prefix_append_right_inj before).mpr
    ((List.prefix_cons_inj u).mpr (List.takeWhile_prefix _))

/-- The members looked at from `u` on have its score and are at least as complex. -/
theorem window_le {before after : List (BscoredComboTree T S)}
    (hset : KeySet (before ++ u :: after))
    (hm : m ∈ u :: window selectionMaxRange cmin u.score after) :
    m.score = u.score ∧ m.complexity ≤ u.complexity := by
  rcases List.mem_cons.mp hm with rfl | hm
  · exact ⟨rfl, Int.le_refl _⟩
  · obtain ⟨hin, hs, -⟩ := mem_window hm
    refine ⟨hs, ?_⟩
    have hafter := (List.pairwise_append.mp (keySet_pairwise hset)).2.1
    rcases (List.pairwise_cons.mp hafter).1 m hin with hlt | ⟨-, hlt⟩
    · exact absurd (hs ▸ hlt) (lt_irrefl _)
    · exact hlt.le

/-- The members looked at that were not visited get more complex. -/
theorem window_pairwise {before after : List (BscoredComboTree T S)}
    (hset : KeySet (before ++ u :: after)) (hbefore : ∀ m ∈ before, visited m.tree = true) :
    (before ++ u :: window selectionMaxRange cmin u.score after).Pairwise fun a b =>
      visited a.tree = false → visited b.tree = false → b.complexity < a.complexity := by
  refine ((keySet_pairwise hset).sublist (isPrefix_window _ _).sublist).imp_of_mem
    fun {a b} ha hb hab hva hvb => ?_
  rcases hab with hlt | ⟨-, hlt⟩
  · rw [(window_le hset (mem_of_not_visited hbefore ha hva)).1,
      (window_le hset (mem_of_not_visited hbefore hb hvb)).1] at hlt
    exact absurd hlt (lt_irrefl _)
  · exact hlt

omit [LinearOrder S] in
/-- A draw by the weights is of a member that was not visited. -/
theorem rouletteSelect_weights {maxComp : Int} (hu : u ∈ l) (hv : visited u.tree = false)
    (h0 : 0 ≤ draw) (h1 : draw < 1) :
    0 < (l.map (weight visited maxComp)).sum ∧ ∃ i m,
      rouletteSelect (l.map (weight visited maxComp)) (l.map (weight visited maxComp)).sum draw =
        some i ∧ l[i]? = some m ∧ visited m.tree = false := by
  have hpos : 0 < (l.map (weight visited maxComp)).sum := by
    refine lt_of_lt_of_le ?_ (List.single_le_sum weights_nonneg (weight visited maxComp u)
      (List.mem_map_of_mem hu))
    rw [weight, hv, if_neg Bool.false_ne_true]
    positivity
  obtain ⟨i, p, hi, hp, hpp⟩ := rouletteSelect_spec weights_nonneg hpos h0 h1
  rw [List.getElem?_map, Option.map_eq_some_iff] at hp
  obtain ⟨m, hm, rfl⟩ := hp
  refine ⟨hpos, i, m, hi, hm, ?_⟩
  by_contra hv
  rw [Bool.not_eq_false] at hv
  simp [weight, hv] at hpp

/-- Where the complexities looked at are within the width of the shift, a member not visited is
drawn. -/
theorem selectExemplar_drawn {before after : List (BscoredComboTree T S)}
    (hset : KeySet (before ++ u :: after))
    (hneg : ∀ m ∈ before ++ u :: after, m.complexity ≤ 0)
    (hfirst : (before ++ u :: after).head? = some first)
    (hbefore : ∀ m ∈ before, visited m.tree = true ∧
      ¬ tooComplex selectionMaxRange first.complexity m)
    (hu : visited u.tree = false) (hc : ¬ tooComplex selectionMaxRange first.complexity u)
    (hnear : ∀ m ∈ window selectionMaxRange first.complexity u.score after,
      visited m.tree = false → u.complexity - m.complexity ≤ 30)
    (h0 : 0 ≤ draw) (h1 : draw < 1) :
    ∃ i m, selectExemplar visited selectionMaxRange (before ++ u :: after) draw = some (some i) ∧
      (before ++ u :: after)[i]? = some m ∧ visited m.tree = false := by
  obtain ⟨w, hw, hwv, hleast, hrun⟩ :=
    @selectExemplar_found _ _ _ _ _ _ _ draw _ _ hneg hfirst hbefore hu hc
  let seen := before ++ u :: window selectionMaxRange first.complexity u.score after
  have hstart : seen <+: before ++ u :: after := isPrefix_window _ _
  have hvisited : ∀ m ∈ before, visited m.tree = true := fun m hm => (hbefore m hm).1
  have hspan : u.complexity - w.complexity ≤ 30 := by
    rcases List.mem_cons.mp hw with rfl | hw
    · omega
    · exact hnear w hw hwv
  have hrange : ∀ m ∈ seen, visited m.tree = false →
      w.complexity ≤ m.complexity ∧ m.complexity - w.complexity < 31 := by
    intro m hm hv
    have hm' := mem_of_not_visited hvisited hm hv
    have hle := (window_le hset hm').2
    exact ⟨hleast m hm' hv, by omega⟩
  have hsum : (seen.map (weight visited w.complexity)).sum < 2 ^ 31 :=
    sum_weight_lt (window_pairwise hset hvisited) hrange
  have hmap : (seen.map (code visited)).mapM (weigh w.complexity) =
      some (seen.map (weight visited w.complexity)) :=
    mapM_weigh fun m hm => weigh_code (hneg m (hstart.subset hm)) (hrange m hm)
  obtain ⟨hpos, i, m, hi, hm, hv⟩ :=
    @rouletteSelect_weights _ _ visited u seen draw w.complexity (by simp [seen]) hu h0 h1
  have hfold := @foldlM_addUp (seen.map (weight visited w.complexity)) weights_nonneg 0
    (by rwa [Int.zero_add])
  rw [Int.zero_add] at hfold
  refine ⟨i, m, ?_, ?_, hv⟩
  · rw [hrun]
    change ((seen.map (code visited)).mapM (weigh w.complexity)).bind _ = _
    rw [hmap]
    simp only [Option.bind_eq_bind, Option.bind_some, hfold, if_pos hpos, hi, Option.map_some]
  · obtain ⟨post, hpost⟩ := hstart
    obtain ⟨hlt, -⟩ := List.getElem?_eq_some_iff.mp hm
    rw [← hpost, List.getElem?_append_left hlt, hm]

/-- Once the first member not visited is reached, it is the width of the shift that matters. -/
theorem selects_iff_of_reached {before after : List (BscoredComboTree T S)}
    (hset : KeySet (before ++ u :: after))
    (hneg : ∀ m ∈ before ++ u :: after, m.complexity ≤ 0)
    (hfirst : (before ++ u :: after).head? = some first)
    (hbefore : ∀ m ∈ before, visited m.tree = true ∧
      ¬ tooComplex selectionMaxRange first.complexity m)
    (hu : visited u.tree = false) (hc : ¬ tooComplex selectionMaxRange first.complexity u)
    (h0 : 0 ≤ draw) (h1 : draw < 1) :
    Selects visited selectionMaxRange (before ++ u :: after) draw ↔
      ∀ m ∈ after, visited m.tree = false → m.score = u.score →
        ¬ tooComplex selectionMaxRange first.complexity m →
        u.complexity - m.complexity ≤ 30 := by
  constructor
  · rintro ⟨exemplar, hrun, -, -⟩ m hm hv hs hcm
    by_contra hspan
    obtain ⟨w, -, -, hleast, hrun'⟩ := @selectExemplar_found _ _ _ _ _ _ _ draw _ _ hneg hfirst
      hbefore hu hc
    have hwin := mem_window_of_sorted
      (List.pairwise_append.mp (keySet_pairwise hset)).2.1 hm hs hcm
    have hle := hleast m (List.mem_cons_of_mem u hwin) hv
    have hnone : weigh w.complexity (code visited u) = none := by
      have hu0 := hneg u (by simp)
      rw [code, hu, if_neg Bool.false_ne_true, weigh, if_neg (by omega), if_neg (by omega)]
    rw [hrun', mapM_weigh_none (List.mem_map_of_mem (by simp)) hnone] at hrun
    cases hrun
  · intro hnear
    have hnear' : ∀ m ∈ window selectionMaxRange first.complexity u.score after,
        visited m.tree = false → u.complexity - m.complexity ≤ 30 := by
      intro m hm hv
      obtain ⟨hm, hs, hcm⟩ := mem_window hm
      exact hnear m hm hv hs hcm
    obtain ⟨i, m, hrun, hm, hv⟩ :=
      selectExemplar_drawn hset hneg hfirst hbefore hu hc hnear' h0 h1
    refine ⟨some i, hrun, iff_of_false (by simp) fun h => ?_, ?_⟩
    · rw [h u (by simp)] at hu
      cases hu
    · rintro _ ⟨⟩
      exact ⟨m, hm, hv⟩

/-- The exemplar is one not visited, or `end()` when there is none, if and only if the complexities
that come before it and with it do not get in the way. -/
theorem selects_iff (visited : T → Bool) (selectionMaxRange : Rat)
    (dst : List (BscoredComboTree T S)) (draw : Rat) (hne : dst ≠ []) (hset : KeySet dst)
    (hneg : ∀ m ∈ dst, m.complexity ≤ 0) (h0 : 0 ≤ draw) (h1 : draw < 1) :
    Selects visited selectionMaxRange dst draw ↔ Selectable visited selectionMaxRange dst := by
  obtain ⟨first, rest, hdst⟩ := List.exists_cons_of_ne_nil hne
  have hfirst : dst.head? = some first := by rw [hdst]; rfl
  have hsplit : dst.takeWhile (fun m => visited m.tree) ++ dst.dropWhile (fun m => visited m.tree) =
      dst := List.takeWhile_append_dropWhile
  have hbefore : ∀ m ∈ dst.takeWhile (fun m => visited m.tree), visited m.tree = true := by
    intro m hm
    have hv := List.mem_takeWhile_imp hm
    exact hv
  cases hdrop : dst.dropWhile fun m => visited m.tree with
  | nil =>
    have hall : ∀ m ∈ dst, visited m.tree = true := by
      rw [hdrop, List.append_nil] at hsplit
      intro m hm
      exact hbefore m (hsplit.symm ▸ hm)
    refine iff_of_true ⟨none, ?_, by simpa using hall, by simp⟩ ?_
    · rw [hdst]
      refine selectExemplar_not_found fun m hm => hall m ?_
      rw [hdst]
      exact (List.takeWhile_prefix _).subset hm
    · intro _ _ u after h
      rw [hdrop] at h
      cases h
  | cons u after =>
    have hu : visited u.tree = false := by
      have := List.head?_dropWhile_not (fun m : BscoredComboTree T S => visited m.tree) dst
      rw [hdrop] at this
      simpa using this
    have hsel : Selectable visited selectionMaxRange dst ↔
        (∀ m ∈ dst.takeWhile (fun m => visited m.tree) ++ [u],
          ¬ tooComplex selectionMaxRange first.complexity m) ∧
        ∀ m ∈ after, visited m.tree = false → m.score = u.score →
          ¬ tooComplex selectionMaxRange first.complexity m →
          u.complexity - m.complexity ≤ 30 := by
      refine ⟨fun h => h first hfirst u after hdrop, fun h first' hf u' after' he => ?_⟩
      rw [hdrop] at he
      obtain ⟨rfl, rfl⟩ := List.cons.inj he
      obtain rfl := Option.some.inj (hfirst.symm.trans hf)
      exact h
    rw [hsel]
    rw [hdrop] at hsplit
    generalize dst.takeWhile (fun m => visited m.tree) = before at hsplit hbefore
    subst hsplit
    by_cases hfar : ∀ m ∈ before ++ [u], ¬ tooComplex selectionMaxRange first.complexity m
    · rw [and_iff_right hfar]
      exact selects_iff_of_reached hset hneg hfirst
        (fun m hm => ⟨hbefore m hm, hfar m (List.mem_append_left _ hm)⟩) hu (hfar u (by simp)) h0 h1
    · have hfar' : ∃ m ∈ before ++ [u], tooComplex selectionMaxRange first.complexity m := by
        by_contra hnone
        exact hfar fun m hm hf => hnone ⟨m, hm, hf⟩
      refine iff_of_false ?_ fun h => hfar h.1
      rintro ⟨exemplar, hrun, hend, -⟩
      rw [selectExemplar_hidden hfirst hbefore hfar'] at hrun
      have hall := hend.mp (Option.some.inj hrun).symm
      rw [hall u (by simp)] at hu
      cases hu

/-! ## Two members -/

/-- A simple tree, and a more complex one with a lower score. -/
def simpleAndComplex : List (BscoredComboTree String Int) :=
  [⟨"#1", [0], 0, -1⟩, ⟨"and(#1 .. #20)", [1], -1, -20⟩]

theorem selects_iff_simpleAndComplex :
    Selects (fun _ => false) 11 simpleAndComplex (1 / 2) ↔
      Selectable (fun _ => false) 11 simpleAndComplex :=
  selects_iff _ 11 simpleAndComplex (1 / 2) (by decide) (by simp [KeySet, Strict]; decide +kernel)
    (by decide) (by norm_num) (by norm_num)

/-- With the simple tree visited `end()` is returned, and the other one is never selected. -/
theorem complex_not_selected : ¬ Selects (· = "#1") 11 simpleAndComplex (1 / 2) := by
  rintro ⟨exemplar, hrun, hend, -⟩
  have hnone : selectExemplar (· = "#1") 11 simpleAndComplex (1 / 2) = some none := by
    decide +kernel
  have hall := hend.mp (Option.some.inj (hrun.symm.trans hnone))
  exact absurd (hall ⟨"and(#1 .. #20)", [1], -1, -20⟩ (by decide)) (by decide)

end OpenCog.Moses.SelectExemplar
