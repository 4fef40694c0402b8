import OpenCog.Comboreduct.Lowering
import OpenCog.Comboreduct.LogicalRules

/-! The leaves that the literals of a form stand for. The rules `reduce_ands` and `reduce_ors`
write a form back only when it has fewer of them. -/
namespace OpenCog.Comboreduct

open Util
open Lib.Clauses

variable {α : Type}

/-! ## Forms that cost less -/

/-- The sum over the literals of a form. -/
def cost (g : Int → Nat) (f : Nf) : Nat := (f.map fun c => ∑ l ∈ c, g l).sum

/-- No more literals, and less in cost by as many at least as are gone. -/
def Cheaper (g : Int → Nat) (f' f : Nf) : Prop :=
  numberOfLiterals f' ≤ numberOfLiterals f ∧
    cost g f' + numberOfLiterals f ≤ cost g f + numberOfLiterals f'

variable {g : Int → Nat} {f f' h h' before after : Nf} {c d : Clause}

@[simp] theorem cost_cons : cost g (c :: f) = ∑ l ∈ c, g l + cost g f := by
  simp [cost]

@[simp] theorem numberOfLiterals_cons :
    numberOfLiterals (c :: f) = c.card + numberOfLiterals f := by
  simp [numberOfLiterals]

@[simp] theorem cost_append : cost g (f ++ h) = cost g f + cost g h := by
  simp [cost]

@[simp] theorem numberOfLiterals_append :
    numberOfLiterals (f ++ h) = numberOfLiterals f + numberOfLiterals h := by
  simp [numberOfLiterals]

theorem Cheaper.refl (f : Nf) : Cheaper g f f := ⟨le_rfl, le_rfl⟩

theorem Cheaper.trans (h₁ : Cheaper g f' f) (h₂ : Cheaper g f h) : Cheaper g f' h := by
  unfold Cheaper at *
  omega

theorem Cheaper.append (h₁ : Cheaper g f' f) (h₂ : Cheaper g h' h) :
    Cheaper g (f' ++ h') (f ++ h) := by
  simp only [Cheaper, cost_append, numberOfLiterals_append] at *
  omega

theorem Cheaper.cost_le (h : Cheaper g f' f) : cost g f' ≤ cost g f := by
  unfold Cheaper at h
  omega

theorem Cheaper.cost_lt (h : Cheaper g f' f) (hne : numberOfLiterals f ≠ numberOfLiterals f') :
    cost g f' < cost g f := by
  unfold Cheaper at h
  omega

theorem Cheaper.cons (h : Cheaper g f' f) : Cheaper g (c :: f') (c :: f) :=
  Cheaper.append (.refl [c]) h

section Positive

variable (hg : ∀ l, 0 < g l)
include hg

theorem card_le_cost (c : Clause) : c.card ≤ ∑ l ∈ c, g l := by
  rw [Finset.card_eq_sum_ones]
  exact Finset.sum_le_sum fun l _ => hg l

theorem cheaper_subset (hcd : c ⊆ d) : Cheaper g (c :: f) (d :: f) := by
  have hsum : ∑ l ∈ d \ c, g l + ∑ l ∈ c, g l = ∑ l ∈ d, g l := Finset.sum_sdiff hcd
  have hcard : (d \ c).card + c.card = d.card := Finset.card_sdiff_add_card_eq_card hcd
  have := card_le_cost hg (d \ c)
  simp only [Cheaper, cost_cons, numberOfLiterals_cons]
  omega

theorem cheaper_erase : Cheaper g f (c :: f) := by
  have := card_le_cost hg c
  simp only [Cheaper, cost_cons, numberOfLiterals_cons]
  omega

theorem cheaper_sublist (h : f'.Sublist f) : Cheaper g f' f := by
  induction h with
  | slnil => exact .refl _
  | cons c _ ih => exact ih.trans (cheaper_erase hg)
  | cons_cons c _ ih => exact ih.cons

theorem pairwiseEraseIf_cheaper (p : Clause → Clause → Bool) (f : Nf) :
    Cheaper g (pairwiseEraseIf f p) f := by
  have hfold : ∀ before, Cheaper g (f.foldl (eraseStep p) before) (before ++ f) := by
    induction f with
    | nil =>
      intro before
      rw [List.append_nil]
      exact .refl _
    | cons c f ih =>
      intro before
      refine (ih (eraseStep p before c)).trans ?_
      rw [List.append_cons]
      refine .append (cheaper_sublist hg ?_) (.refl f)
      unfold eraseStep
      have hsub := eraseBefore_sublist p c before
      simp only
      split
      · exact hsub.append (.refl _)
      · exact hsub.trans (List.sublist_append_left ..)
  exact hfold []

theorem absorb_cheaper (s : Cursors) (impl : Clause) :
    Cheaper g (s.absorb impl).clauses s.clauses := by
  have hreplace : ∀ c f, Cheaper g ((if subset impl c then impl else c) :: f) (c :: f) :=
    fun c f => cheaper_subset hg Cursors.replaced_subset
  have hfilter : ∀ f : Nf, Cheaper g (f.filter fun c => !subsetEq impl c) f :=
    fun f => cheaper_sublist hg List.filter_sublist
  refine (hfilter s.before).append ?_
  refine (hreplace s.c2 _).trans (.cons ?_)
  refine (hfilter s.between).append ?_
  exact (hreplace s.c1 _).trans (.cons (hfilter s.after))

theorem resolve_cheaper (s : Cursors) : Cheaper g s.resolve.clauses s.clauses := by
  unfold Cursors.resolve
  generalize implications s.c1 s.c2 = impls
  induction impls generalizing s with
  | nil => exact .refl _
  | cons impl impls ih => exact (ih (s.absorb impl)).trans (absorb_cheaper hg s impl)

theorem sweep_cheaper (before between : Nf) (c1 : Clause) (after : Nf) :
    Cheaper g (sweep before between c1 after).clauses (before ++ (between ++ c1 :: after)) := by
  fun_induction sweep before between c1 after with
  | case1 before c1 after => exact .refl _
  | case2 before c1 after c2 rest s ih =>
    have hr := resolve_cheaper hg ⟨before, c2, rest, c1, after⟩
    refine ih.trans ?_
    rw [← List.append_cons]
    exact hr

theorem resolveFrom_cheaper (before after : Nf) :
    Cheaper g (resolveFrom before after) (before ++ after) := by
  fun_induction resolveFrom before after with
  | case1 before =>
    rw [List.append_nil]
    exact .refl _
  | case2 before c1 rest s ih =>
    refine ih.trans ?_
    have hsweep := sweep_cheaper hg [] before c1 rest
    rw [← List.append_cons]
    exact hsweep

theorem reduced_cheaper (f : Nf) : Cheaper g (reduced f) f :=
  ((resolveFrom_cheaper hg [] _).trans (pairwiseEraseIf_cheaper hg _ _)).trans
    (cheaper_sublist hg List.filter_sublist)

end Positive

theorem cost_negated (hneg : ∀ l, g (-l) = g l) : cost g (f.map negated) = cost g f := by
  induction f with
  | nil => rfl
  | cons c f ih =>
    rw [List.map_cons, cost_cons, cost_cons, ih, negated, Finset.sum_image fun a _ b _ => neg_inj.mp,
      Finset.sum_congr rfl fun l _ => hneg l]

theorem numberOfLiterals_negated : numberOfLiterals (f.map negated) = numberOfLiterals f := by
  induction f with
  | nil => rfl
  | cons c f ih =>
    rw [List.map_cons, numberOfLiterals_cons, numberOfLiterals_cons, ih, negated,
      Finset.card_image_of_injective _ neg_injective]

/-- A factor that is taken out is counted once. -/
theorem cost_negatedWithout (hneg : ∀ l, g (-l) = g l) (hd : ∀ c ∈ f, d ⊆ c) :
    cost g (negatedWithout f d) + f.length * ∑ l ∈ d, g l = cost g f := by
  induction f with
  | nil => simp [negatedWithout, cost]
  | cons c f ih =>
    have ih := ih fun c hc => hd c (List.mem_cons_of_mem _ hc)
    have hsum : ∑ l ∈ c \ d, g l + ∑ l ∈ d, g l = ∑ l ∈ c, g l :=
      Finset.sum_sdiff (hd c List.mem_cons_self)
    have hc : ∑ l ∈ negated (c \ d), g l = ∑ l ∈ c \ d, g l := by
      rw [negated, Finset.sum_image fun a _ b _ => neg_inj.mp,
        Finset.sum_congr rfl fun l _ => hneg l]
    rw [negatedWithout] at ih
    rw [negatedWithout, List.map_cons, cost_cons, cost_cons, hc, List.length_cons, Nat.add_mul]
    omega

/-! ## The leaves of a literal -/

def Subtree.leaves (t : Subtree α) : Nat := max 1 (leafCount t.children)

def leavesOf (ts : List (Subtree α)) : Nat := (ts.map Subtree.leaves).sum

/-- The leaves of what a literal stands for, one where it stands for nothing. -/
def litLeaves (items : List (Subtree α)) (l : Int) : Nat :=
  ((int2item items l.natAbs).map Subtree.leaves).getD 1

variable {items items' ts us : List (Subtree α)} {t u : Subtree α} {l : Int} {ls : List Int}
  {junct : Vertex α}

@[simp] theorem leavesOf_cons : leavesOf (t :: ts) = t.leaves + leavesOf ts := by
  simp [leavesOf]

@[simp] theorem leavesOf_append : leavesOf (ts ++ us) = leavesOf ts + leavesOf us := by
  simp [leavesOf]

theorem leaves_pos (t : Subtree α) : 0 < t.leaves := by
  rw [Subtree.leaves]
  omega

theorem leafCount_eq (f : Forest (Vertex α)) : leafCount f = leavesOf (siblings f) := by
  induction f with
  | nil => rfl
  | cons v c n _ ihn => rw [leafCount, siblings, leavesOf_cons, ihn, Subtree.leaves]

theorem leaves_junct (v : Vertex α) (ts : List (Subtree α)) :
    Subtree.leaves ⟨v, ofSiblings ts⟩ = max 1 (leavesOf ts) := by
  rw [Subtree.leaves, leafCount_eq, siblings_ofSiblings]

theorem litLeaves_pos (items : List (Subtree α)) (l : Int) : 0 < litLeaves items l := by
  rw [litLeaves]
  cases int2item items l.natAbs with
  | none => exact Nat.one_pos
  | some t => exact leaves_pos t

theorem litLeaves_neg (items : List (Subtree α)) (l : Int) :
    litLeaves items (-l) = litLeaves items l := by
  rw [litLeaves, litLeaves, Int.natAbs_neg]

theorem litLeaves_of_create (h : create items l = some t) : litLeaves items l = t.leaves := by
  rw [litLeaves]
  rcases create_cases h with ⟨-, hi⟩ | ⟨-, a, children, hi, rfl⟩
  · rw [hi]
    rfl
  · rw [hi]
    rfl

theorem sum_toFinset_le (g : Int → Nat) (ls : List Int) : ∑ l ∈ ls.toFinset, g l ≤ (ls.map g).sum := by
  induction ls with
  | nil => simp
  | cons l ls ih =>
    rw [List.toFinset_cons, List.map_cons, List.sum_cons]
    by_cases hl : l ∈ ls.toFinset
    · rw [Finset.insert_eq_of_mem hl]
      omega
    · rw [Finset.sum_insert hl]
      omega

/-! ## Reading a form -/

section Adding

variable [DecidableEq α]

theorem leavesOf_members (junct : Vertex α) (t : Subtree α) :
    leavesOf (members junct t) ≤ t.leaves := by
  rw [members]
  split
  · rw [← leafCount_eq, Subtree.leaves]
    omega
  · simp [leavesOf]

theorem addItems_leaves (hp : (addItems items ts).1 <+: items') :
    ((addItems items ts).2.map (litLeaves items')).sum = leavesOf ts := by
  induction ts generalizing items with
  | nil => rfl
  | cons t ts ih =>
    obtain ⟨-, hc⟩ := addItem_spec items t
    obtain ⟨hp', -⟩ := addItems_spec (addItem items t).1 ts
    have hfirst := litLeaves_of_create (create_mono (hp'.trans hp) hc)
    simp only [addItems, List.map_cons, List.sum_cons, leavesOf_cons, hfirst, ih hp]

theorem addNf_cost (hp : (addNf junct items ts).1 <+: items') :
    cost (litLeaves items') (addNf junct items ts).2 ≤ leavesOf ts := by
  induction ts generalizing items with
  | nil => exact Nat.le_refl 0
  | cons t ts ih =>
    obtain ⟨hp', -⟩ := addNf_spec junct (addItems items (members junct t)).1 ts
    have hclause := addItems_leaves (hp'.trans hp)
    have hset := sum_toFinset_le (litLeaves items') (addItems items (members junct t)).2
    have hmembers := leavesOf_members junct t
    have hrest := ih hp
    simp only [addNf, cost_cons, leavesOf_cons] at hrest ⊢
    omega

end Adding

/-! ## Writing a form back -/

theorem sum_listed (g : Int → Nat) (c : Clause) : ((listed c).map g).sum = ∑ l ∈ c, g l := by
  have hl : (listed c).toFinset = c := Finset.sort_toFinset ..
  have hn : (listed c).Nodup := Finset.sort_nodup ..
  rw [← List.sum_toFinset g hn, hl]

theorem mapM_create_leaves (h : ls.mapM (create items) = some ts) :
    leavesOf ts = (ls.map (litLeaves items)).sum := by
  induction ls generalizing ts with
  | nil =>
    obtain rfl : [] = ts := Option.some.inj h
    rfl
  | cons l ls ih =>
    rw [List.mapM_cons, Option.bind_eq_bind, Option.bind_eq_some_iff] at h
    obtain ⟨t, ht, h⟩ := h
    rw [Option.bind_eq_bind, Option.bind_eq_some_iff] at h
    obtain ⟨us, hus, h⟩ := h
    obtain rfl : t :: us = ts := Option.some.inj h
    rw [leavesOf_cons, List.map_cons, List.sum_cons, ih hus, litLeaves_of_create ht]

theorem appendClause_leaves (h : appendClause items junct c = some us) :
    leavesOf us ≤ ∑ l ∈ c, litLeaves items l := by
  rw [← sum_listed]
  unfold appendClause at h
  split at h
  · obtain rfl : [] = us := Option.some.inj h
    exact Nat.zero_le _
  · next k hk =>
    rw [hk]
    split at h
    · obtain rfl : [] = us := Option.some.inj h
      exact Nat.zero_le _
    · obtain ⟨t, ht, rfl⟩ := Option.map_eq_some_iff.mp h
      simp [leavesOf, litLeaves_of_create ht]
  · next hne _ =>
    obtain ⟨ts, hts, rfl⟩ := Option.map_eq_some_iff.mp h
    have hsum := mapM_create_leaves hts
    have hpos : 0 < leavesOf ts := by
      cases hc : listed c with
      | nil => exact absurd hc hne
      | cons l ls =>
        rw [hsum, hc, List.map_cons, List.sum_cons]
        have := litLeaves_pos items l
        omega
    rw [leavesOf_cons, leaves_junct, ← hsum]
    simp only [leavesOf, List.map_nil, List.sum_nil] at hpos ⊢
    omega

/-- A constant, or a tree with no more leaves than the form stands for. -/
def WrittenFrom (items : List (Subtree α)) (f : Nf) (t : Subtree α) : Prop :=
  t = ⟨.logicalTrue, .nil⟩ ∨ t = ⟨.logicalFalse, .nil⟩ ∨ t.leaves ≤ cost (litLeaves items) f

theorem closeNode_writtenFrom (h : leavesOf us ≤ cost (litLeaves items) f) :
    WrittenFrom items f (closeNode junct us) := by
  unfold closeNode
  split
  · exact .inr (.inl rfl)
  · refine .inr (.inr ?_)
    simpa [leavesOf] using h
  · next hne _ =>
    refine .inr (.inr ?_)
    rw [leaves_junct]
    cases us with
    | nil => exact absurd rfl hne
    | cons t ts =>
      have := leaves_pos t
      rw [leavesOf_cons] at h ⊢
      omega

theorem dnfChildren_leaves (h : dnfChildren items f = some (some us)) :
    leavesOf us ≤ cost (litLeaves items) f := by
  induction f generalizing us with
  | nil =>
    obtain rfl : [] = us := Option.some.inj (Option.some.inj h)
    exact Nat.zero_le _
  | cons c f ih =>
    rw [dnfChildren] at h
    split at h
    · cases h
    · obtain ⟨ts, hts, h⟩ := Option.bind_eq_some_iff.mp h
      obtain ⟨r, hr, h⟩ := Option.bind_eq_some_iff.mp h
      obtain ⟨rest, rfl, rfl⟩ := Option.map_eq_some_iff.mp (Option.some.inj h)
      rw [leavesOf_append, cost_cons]
      exact Nat.add_le_add (appendClause_leaves hts) (ih hr)

theorem extractDnf_writtenFrom (h : extractDnf items f = some t) : WrittenFrom items f t := by
  obtain ⟨r, hr, rfl⟩ := Option.map_eq_some_iff.mp h
  cases r with
  | none => exact .inl rfl
  | some us => exact closeNode_writtenFrom (dnfChildren_leaves hr)

theorem extractCnf_writtenFrom (h : extractCnf items f = some t) : WrittenFrom items f t := by
  obtain ⟨uss, huss, rfl⟩ := Option.map_eq_some_iff.mp h
  refine closeNode_writtenFrom ?_
  clear h
  induction f generalizing uss with
  | nil =>
    obtain rfl : [] = uss := Option.some.inj huss
    exact Nat.zero_le _
  | cons c f ih =>
    rw [List.mapM_cons] at huss
    obtain ⟨us, hus, huss⟩ := Option.bind_eq_some_iff.mp huss
    obtain ⟨rest, hrest, huss⟩ := Option.bind_eq_some_iff.mp huss
    obtain rfl : us :: rest = uss := Option.some.inj huss
    rw [List.flatten_cons, leavesOf_append, cost_cons]
    exact Nat.add_le_add (appendClause_leaves hus) (ih rest hrest)

theorem factor_leaves (hc : c ≠ ∅) (h : extractConjunction items c = some t) :
    leavesOf (if 1 < c.card then siblings t.children else [t]) ≤ ∑ l ∈ c, litLeaves items l := by
  rw [← sum_listed, ← length_listed]
  unfold extractConjunction at h
  split at h
  · next k hk =>
    rw [hk]
    simp only [List.length_singleton, Nat.lt_irrefl, if_false, List.map_cons, List.map_nil,
      List.sum_cons, List.sum_nil, Nat.add_zero]
    split at h
    · next hneg =>
      split at h
      · obtain rfl := Option.some.inj h
        exact litLeaves_pos items k
      · cases h
    · next hpos =>
      rw [litLeaves, show k.natAbs = k.toNat by omega, h]
      simp [leavesOf]
  · next hone =>
    obtain ⟨ts, hts, rfl⟩ := Option.map_eq_some_iff.mp h
    have hlen : 1 < (listed c).length := by
      have hne := mt listed_eq_nil.mp hc
      match hl : listed c with
      | [] => exact absurd hl hne
      | [k] => exact absurd hl (hone k)
      | k :: m :: ks => simp
    rw [if_pos hlen, siblings_ofSiblings, mapM_create_leaves hts]

theorem putFactor_leaves {conj : Subtree α} {intersect : Clause} (hf : WrittenFrom items f t)
    (hne : intersect ≠ ∅) (hconj : extractConjunction items intersect = some conj) :
    (putFactor t conj intersect).leaves ≤
      cost (litLeaves items) f + ∑ l ∈ intersect, litLeaves items l := by
  have hfactor := factor_leaves hne hconj
  have hrest : leavesOf (if t.isChildless then [] else [⟨.logicalAnd, t.children⟩]) ≤
      cost (litLeaves items) f := by
    rcases hf with rfl | rfl | hf
    · exact Nat.zero_le _
    · exact Nat.zero_le _
    · split
      · exact Nat.zero_le _
      · simpa [leavesOf, Subtree.leaves] using hf
  have hpos : 0 < ∑ l ∈ intersect, litLeaves items l :=
    Finset.sum_pos (fun l _ => litLeaves_pos items l) (Finset.nonempty_iff_ne_empty.mpr hne)
  rw [putFactor, leaves_junct, leavesOf_append]
  omega

/-- A written form is a constant, or has fewer leaves when the factor is not empty. -/
theorem writeAnds_leaves {intersect : Clause} (h : writeAnds items f intersect = some u)
    (hd : intersect ≠ ∅ → 2 ≤ f.length ∧ ∀ c ∈ f, intersect ⊆ c) :
    u = ⟨.logicalTrue, .nil⟩ ∨ u = ⟨.logicalFalse, .nil⟩ ∨
      u.leaves ≤ cost (litLeaves items) f ∧
        (intersect ≠ ∅ → u.leaves < cost (litLeaves items) f) := by
  obtain ⟨t, ht, h⟩ := Option.bind_eq_some_iff.mp h
  have hwritten := extractCnf_writtenFrom ht
  have hneg := litLeaves_neg items
  by_cases he : intersect = ∅
  · subst he
    rw [if_pos rfl] at h
    obtain rfl := Option.some.inj h
    have hcost := cost_negatedWithout hneg fun c (_ : c ∈ f) => Finset.empty_subset c
    rw [Finset.sum_empty, Nat.mul_zero, Nat.add_zero] at hcost
    rw [WrittenFrom, hcost] at hwritten
    exact hwritten.imp_right (Or.imp_right fun h => ⟨h, fun h => absurd rfl h⟩)
  · rw [if_neg he] at h
    obtain ⟨conj, hconj, h⟩ := Option.bind_eq_some_iff.mp h
    obtain rfl := Option.some.inj h
    obtain ⟨htwo, hsub⟩ := hd he
    have hleaves := putFactor_leaves hwritten (mt negated_eq_empty.mp he) hconj
    have hfactor : ∑ l ∈ negated intersect, litLeaves items l =
        ∑ l ∈ intersect, litLeaves items l := by
      rw [negated, Finset.sum_image fun a _ b _ => neg_inj.mp,
        Finset.sum_congr rfl fun l _ => hneg l]
    have hcost := cost_negatedWithout hneg hsub
    have hpos : 0 < ∑ l ∈ intersect, litLeaves items l :=
      Finset.sum_pos (fun l _ => litLeaves_pos items l) (Finset.nonempty_iff_ne_empty.mpr he)
    have htimes := Nat.mul_le_mul_right (∑ l ∈ intersect, litLeaves items l) htwo
    rw [hfactor] at hleaves
    refine .inr (.inr ⟨by omega, fun _ => by omega⟩)

/-! ## The rules -/

section Rules

variable [DecidableEq α]

/-- An `or` that is written back becomes a constant or has fewer leaves. -/
theorem reduceOrs_leaves (t : Subtree α) :
    ∃ u, reduceOrs t = some u ∧ (u = t ∨ t.root = .logicalOr ∧
      (u = ⟨.logicalTrue, .nil⟩ ∨ u = ⟨.logicalFalse, .nil⟩ ∨ u.leaves < t.leaves)) := by
  obtain ⟨u, hu, -⟩ := reduceOrs_value t
  refine ⟨u, hu, ?_⟩
  by_cases hr : t.root = .logicalOr
  · rw [reduceOrs_of_or hr] at hu
    split at hu
    · next hne =>
      right
      have hcheap := (reduced_cheaper (litLeaves_pos (addDnf (siblings t.children)).1)
        (addDnf (siblings t.children)).2).cost_lt hne
      have hread : cost (litLeaves (addDnf (siblings t.children)).1) (addDnf (siblings t.children)).2 ≤
          leavesOf (siblings t.children) := addNf_cost List.prefix_rfl
      have hroot : leavesOf (siblings t.children) ≤ t.leaves := by
        rw [← leafCount_eq, Subtree.leaves]
        omega
      refine ⟨hr, (extractDnf_writtenFrom hu).imp_right (Or.imp_right fun h => ?_)⟩
      omega
    · exact .inl (Option.some.inj hu).symm
  · exact .inl (Option.some.inj ((if_pos hr).symm.trans hu)).symm

theorem reduceAnds_leaves (t : Subtree α) :
    ∃ u, reduceAnds t = some u ∧ (u = t ∨ t.root = .logicalAnd ∧
      (u = ⟨.logicalTrue, .nil⟩ ∨ u = ⟨.logicalFalse, .nil⟩ ∨ u.leaves < t.leaves)) := by
  obtain ⟨u, hu, -⟩ := reduceAnds_value t
  refine ⟨u, hu, ?_⟩
  by_cases hr : t.root = .logicalAnd
  · rw [reduceAnds_of_and hr] at hu
    split at hu
    · exact .inr ⟨hr, .inl (Option.some.inj hu).symm⟩
    split at hu
    · next hne =>
      have hcheap := reduced_cheaper (litLeaves_pos (addCnf (siblings t.children)).1)
        ((addCnf (siblings t.children)).2.map negated)
      have hneg := cost_negated (litLeaves_neg (addCnf (siblings t.children)).1)
        (f := (addCnf (siblings t.children)).2)
      have hread : cost (litLeaves (addCnf (siblings t.children)).1) (addCnf (siblings t.children)).2 ≤
          leavesOf (siblings t.children) := addNf_cost List.prefix_rfl
      have hroot : leavesOf (siblings t.children) ≤ t.leaves := by
        rw [← leafCount_eq, Subtree.leaves]
        omega
      have hle := hcheap.cost_le
      refine .inr ⟨hr, (writeAnds_leaves hu commonFactor_subset).imp_right
        (Or.imp_right fun ⟨hwritten, hfactor⟩ => ?_)⟩
      rcases hne with hne | hne
      · rw [← numberOfLiterals_negated] at hne
        have hlt := hcheap.cost_lt hne
        omega
      · have hlt := hfactor hne
        omega
    · exact .inl (Option.some.inj hu).symm
  · exact .inl (Option.some.inj ((if_pos hr).symm.trans hu)).symm

end Rules

end OpenCog.Comboreduct
