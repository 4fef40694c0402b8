import OpenCog.Comboreduct.Combo.EnfCuts

/-! What one step of the loop over the children of a conjunction does to the list of children. -/
namespace OpenCog.Comboreduct.Combo

open Util
open Budget
open Branch (hefts hefts_nil hefts_cons hefts_append)
open ReduceToEnf

variable {C : Type} [LinearOrder C] {σ : Nat → Bool} {t : Tree C} {g : Tree C}
  {gs res : List (Tree C)} {before after current : List (Child C)} {child child' : Child C}

def trees (l : List (Child C)) : List (Tree C) := l.map Child.tree

omit [LinearOrder C] in
@[simp] theorem trees_append (l m : List (Child C)) : trees (l ++ m) = trees l ++ trees m :=
  List.map_append

omit [LinearOrder C] in
@[simp] theorem trees_cons (c : Child C) (l : List (Child C)) :
    trees (c :: l) = c.tree :: trees l := rfl

/-! ## Marked lists -/

omit [LinearOrder C] in
theorem map_marked {β : Type} (f : Bool × Child C → β) :
    (marked before child after).map f =
      before.map (fun c => f (false, c)) ++ f (true, child) :: after.map fun c => f (false, c) := by
  simp [marked, Function.comp_def]

omit [LinearOrder C] in
theorem eq_of_mem_marked {c : Child C} (h : (true, c) ∈ marked before child after) :
    c = child := by
  simpa [marked] using h

omit [LinearOrder C] in
theorem map_unmarked {l : List (Bool × Child C)} (h : ∀ c ∈ l, c.1 = false) :
    (l.map (·.2)).map (false, ·) = l := by
  rw [List.map_map]
  refine (List.map_congr_left fun c hc => ?_).trans (List.map_id l)
  exact Prod.ext (h c hc).symm rfl

omit [LinearOrder C] in
theorem countP_marked : (marked before child after).countP (·.1) = 1 := by
  simp [marked, List.countP_append, Function.comp_def]

omit [LinearOrder C] in
/-- The marked child stands somewhere in a rearranged list. -/
theorem unmarked_eq {l : List (Bool × Child C)} (h : l.Perm (marked before child after)) :
    l = (unmarked l).1.map (false, ·) ++ (true, child) :: (unmarked l).2.map (false, ·) := by
  have hcount : l.countP (·.1) = 1 := (h.countP_eq _).trans countP_marked
  have hmem : (true, child) ∈ l := h.mem_iff.mpr (by simp [marked])
  have hsplit := List.takeWhile_append_dropWhile (p := fun c : Bool × Child C => !c.1) (l := l)
  have htake : ∀ c ∈ l.takeWhile (!·.1), c.1 = false := fun c hc => by
    have := List.mem_takeWhile_imp (p := fun c : Bool × Child C => !c.1) hc
    simpa using this
  have hzero : (l.takeWhile (!·.1)).countP (·.1) = 0 :=
    List.countP_eq_zero.mpr fun c hc => by simp [htake c hc]
  rw [← hsplit, List.countP_append, hzero, Nat.zero_add] at hcount
  cases hdrop : l.dropWhile (!·.1) with
  | nil =>
    rw [hdrop, List.append_nil] at hsplit
    have := htake _ (hsplit ▸ hmem)
    cases this
  | cons c rest =>
    have hc : c.1 = true := by
      have hne : l.dropWhile (fun c : Bool × Child C => !c.1) ≠ [] := by simp [hdrop]
      have := List.head_dropWhile_not (fun c : Bool × Child C => !c.1) hne
      simpa [hdrop] using this
    obtain ⟨m, c⟩ := c
    obtain rfl : m = true := hc
    have hmark : (true, c) ∈ marked before child after :=
      h.mem_iff.mp (hsplit ▸ by simp [hdrop])
    rw [hdrop, List.countP_cons_of_pos rfl] at hcount
    have hrest : ∀ x ∈ rest, x.1 = false := fun x hx => by
      have := List.countP_eq_zero.mp (Nat.succ_inj.mp hcount) x hx
      simpa using this
    rw [unmarked, hdrop, List.tail_cons, map_unmarked htake, map_unmarked hrest,
      ← eq_of_mem_marked hmark, ← hdrop, hsplit]

/-! ## `sort_on_subtrees` -/

theorem sortAround_spec :
    ((sortAround before child after).1 ++ child :: (sortAround before child after).2).Perm
        (before ++ child :: after) ∧
      isSorted subtreeCmp (trees ((sortAround before child after).1 ++
        child :: (sortAround before child after).2)) = true := by
  unfold sortAround
  split
  · next h => exact ⟨.refl _, h⟩
  · have hp : (sortRange subtreeCmp (·.2.tree) (marked before child after)).Perm
        (marked before child after) := sortRange_perm
    have he := unmarked_eq hp
    have hs := @isSorted_sortRange _ _ subtreeCmp (fun c : Bool × Child C => c.2.tree)
      (marked before child after) _
    constructor
    · have := hp.map (·.2)
      rw [he, map_marked] at this
      simpa [Function.comp_def] using this
    · rw [he] at hs
      simpa [trees, Function.comp_def] using hs

theorem sortAround_of_sorted
    (h : isSorted subtreeCmp (trees (before ++ child :: after)) = true) :
    sortAround before child after = (before, after) := if_pos h

/-! ## The children that go up -/

structure Moved (before : List (Child C)) (child : Child C) (after : List (Child C))
    (res : List (Tree C)) (child' : Child C) (current : List (Child C)) : Prop where
  guard : child'.guard = child.guard
  perm : ∃ k : List (Tree C), k.Sublist res ∧
    current.Perm (before ++ child' :: after ++ k.map fun r => ⟨none, r⟩)
  mem : ∀ r ∈ res, r ∈ trees current
  disjunction : Disjunction child'.tree
  length : child.tree.children.length ≤ child'.tree.children.length
  one : ∀ g, child'.tree.children = [g] → IsArgument g ∨ g.children ⊆ res
  holds : ∀ σ, Holds σ child.tree ↔ (∀ r ∈ res, Holds σ r) ∧ Holds σ child'.tree
  lighter : child'.tree.heft + 4 * hefts res ≤ child.tree.heft

theorem insertSetComplement_yields (m : List (Tree C)) :
    Yields Allowed (insertSetComplement before child after m) fun l =>
      l = insertComplement subtreeCmp (·.2.tree) (fun t => (false, ⟨none, t⟩))
        (marked before child after) m := by
  refine checkSorted_yields.bind fun _ _ => ?_
  exact checkSorted_yields.bind fun _ _ => Yields.pure rfl

theorem mapM_eraseFrom_yields (res gs : List (Tree C)) :
    Yields Allowed (gs.mapM (eraseFrom res)) (List.Forall₂ (Stripped res) gs) :=
  Yields.mapM fun g _ => eraseFrom_yields res g

theorem moveUp_yields (hd : Disjunction child.tree) (hc : Common child.tree.children res)
    (hne : res ≠ []) :
    Yields Allowed (moveUp before child after res) fun r =>
      Moved before child after res r.1 r.2 := by
  obtain ⟨gs, ht, hgs, hdis⟩ := hd
  rw [ht, Branch.children_node] at hc
  refine (insertSetComplement_yields res).bind fun l hl => ?_
  rw [ht, Branch.children_node, Branch.root_node]
  refine (mapM_eraseFrom_yields res gs).bind fun gs₁ h₁ => ?_
  have hd₁ := forall₂_disjuncts h₁ hdis
  refine (andCut_yields (.ofBranches gs₁) (by simpa using hd₁)).bind fun ⟨gs₂, b⟩ h₂ => ?_
  rw [Forest.branches_ofBranches] at h₂
  have hlen : gs.length = gs₁.length := h₁.length_eq
  have hpos : 0 < gs.length := List.length_pos_iff.mpr hgs
  have hsub : ∀ g ∈ gs, res ⊆ g.children := fun g hg r hr => hc.mem r hr g hg
  refine Yields.pure ⟨rfl, ?_, ?_, ?_, ?_, ?_, fun σ => ?_, ?_⟩
  · obtain ⟨k, hk, hp⟩ := @insertComplement_perm _ _ subtreeCmp
      (fun c : Bool × Child C => c.2.tree) (fun t => (false, ⟨none, t⟩))
      (marked before child after) res
    refine ⟨k, hk, ?_⟩
    have := hp.map fun c => if c.1 then ⟨child.guard, .node (.builtin .logicalOr) gs₂⟩ else c.2
    rw [List.map_append, map_marked] at this
    rw [hl]
    simpa [Function.comp_def] using this
  · intro r hr
    obtain ⟨⟨m, c⟩, hm, hk⟩ := @mem_insertComplement _ _ subtreeCmp
      (fun c : Bool × Child C => c.2.tree) (fun t => (false, ⟨none, t⟩))
      (marked before child after) _ _ _ (fun _ => rfl) hr
    cases m with
    | false =>
      refine List.mem_map.mpr ⟨c, ?_, hk⟩
      exact List.mem_map.mpr ⟨(false, c), hl ▸ hm, rfl⟩
    | true =>
      -- the child is no child of its own children
      obtain ⟨k, -, hp⟩ := @insertComplement_perm _ _ subtreeCmp
        (fun c : Bool × Child C => c.2.tree) (fun t => (false, ⟨none, t⟩))
        (marked before child after) res
      have hmark : (true, c) ∈ marked before child after := by
        simpa using hp.mem_iff.mp hm
      obtain rfl : child.tree = r := eq_of_mem_marked hmark ▸ hk
      obtain ⟨g, hg⟩ := List.exists_mem_of_ne_nil gs hgs
      have h₁ := Branch.heft_lt_of_mem (hc.mem _ hr g hg)
      have h₂ : g.heft < child.tree.heft :=
        Branch.heft_lt_of_mem (by rw [ht, Branch.children_node]; exact hg)
      exact (Nat.lt_irrefl _ (h₁.trans h₂)).elim
  · refine ⟨gs₂, rfl, ?_, h₂.disjuncts⟩
    rw [← List.length_pos_iff]
    exact hpos.trans_le (hlen ▸ h₂.length)
  · rw [ht, Branch.children_node, Branch.children_node]
    exact hlen ▸ h₂.length
  · intro g hg
    rw [Branch.children_node] at hg
    rcases h₂.one g hg with he | ha
    · right
      rw [hg] at he
      rw [← he] at h₁
      cases h₁ with
      | cons hs hn =>
        cases hn
        exact List.Subset.trans hs.subset (hc.one _ rfl)
    · exact .inl ha
  · rw [ht, holds_or, holds_or, h₂.holds σ, forall₂_holds h₁ hdis hsub hne]
  · have hw := forall₂_hefts h₁ hc.strict hsub
    have hle : hefts res ≤ gs.length * hefts res := Nat.le_mul_of_pos_left _ hpos
    have hcut : hefts gs₂ ≤ hefts gs₁ := by
      rcases h₂.lighter with ⟨rfl, -⟩ | h
      · exact Nat.le_refl _
      · exact h.le
    rw [ht, Branch.heft_node, Branch.heft_node]
    omega

/-! ## `or_cut` -/

/-- A child of the conjunction while the loop runs: a disjunction may be down to one child. -/
def Loose (t : Tree C) : Prop :=
  Conjunct t ∨ ∃ k, t = .node (.builtin .logicalOr) [k] ∧ Disjunct k

/-- The children `l` after the cut. -/
structure Pruned (l l' : List (Tree C)) : Prop where
  conjuncts : ∀ t ∈ l', Conjunct t
  kept : ∀ t ∈ l, t ∈ l' ∨ (∃ k ∈ l', IsArgument k ∧ t = .node (.builtin .logicalOr) [k]) ∨
    ∃ k, t = .node (.builtin .logicalOr) [k] ∧ ¬ IsArgument k
  new : ∀ t ∈ l', t ∈ l ∨ .node (.builtin .logicalOr) [t] ∈ l

omit [LinearOrder C] in
theorem Disjunct.isArgument_iff (h : Disjunct t) : isArgument t.root = true ↔ IsArgument t := by
  cases h with
  | argument a => exact ⟨fun _ => ⟨a, rfl⟩, fun _ => rfl⟩
  | and l hl =>
    constructor
    · intro h
      cases h
    · rintro ⟨a, ha⟩
      cases ha

omit [LinearOrder C] in
theorem Loose.one {k : Tree C} (h : Loose t) (hk : t.children = [k]) :
    t = .node (.builtin .logicalOr) [k] ∧ Disjunct k := by
  rcases h with h | ⟨k', rfl, hd⟩
  · rcases h.cases_root with ⟨a, rfl⟩ | ⟨-, hlen, -⟩
    · cases hk
    · rw [hk] at hlen
      exact absurd hlen (by simp)
  · rw [Branch.children_node] at hk
    cases hk
    exact ⟨rfl, hd⟩

omit [LinearOrder C] in
theorem Loose.conjunct (h : Loose t) (hk : ∀ k, t.children ≠ [k]) : Conjunct t := by
  rcases h with h | ⟨k, rfl, -⟩
  · exact h
  · exact (hk k (Branch.children_node ..)).elim

omit [LinearOrder C] in
/-- The argument of a disjunction that is down to it comes up. -/
theorem Pruned.of_up {l m l' : List (Tree C)} {k : Tree C} (ha : IsArgument k)
    (h : Pruned (l ++ k :: m) l') :
    Pruned (l ++ .node (.builtin .logicalOr) [k] :: m) l' where
  conjuncts := h.conjuncts
  kept t ht := by
    rcases List.mem_append.mp ht with ht | ht
    · exact h.kept t (List.mem_append_left _ ht)
    · rcases List.mem_cons.mp ht with rfl | ht
      · right
        left
        refine ⟨k, ?_, ha, rfl⟩
        obtain ⟨a, rfl⟩ := ha
        rcases h.kept _ (List.mem_append_right l List.mem_cons_self) with hk | ⟨_, _, _, hk⟩ | ⟨_, hk, _⟩
        · exact hk
        · cases hk
        · cases hk
      · exact h.kept t (List.mem_append_right _ (List.mem_cons_of_mem _ ht))
  new t ht := by
    rcases h.new t ht with ht | ht <;> rcases List.mem_append.mp ht with ht | ht
    · exact .inl (List.mem_append_left _ ht)
    · rcases List.mem_cons.mp ht with rfl | ht
      · exact .inr (List.mem_append_right _ List.mem_cons_self)
      · exact .inl (List.mem_append_right _ (List.mem_cons_of_mem _ ht))
    · exact .inr (List.mem_append_left _ ht)
    · rcases List.mem_cons.mp ht with ht | ht
      · obtain ⟨a, rfl⟩ := ha
        cases ht
      · exact .inr (List.mem_append_right _ (List.mem_cons_of_mem _ ht))

omit [LinearOrder C] in
theorem Pruned.of_erase {l m l' : List (Tree C)} {k : Tree C} (ha : ¬ IsArgument k)
    (h : Pruned (l ++ m) l') : Pruned (l ++ .node (.builtin .logicalOr) [k] :: m) l' where
  conjuncts := h.conjuncts
  kept t ht := by
    rcases List.mem_append.mp ht with ht | ht
    · exact h.kept t (List.mem_append_left _ ht)
    · rcases List.mem_cons.mp ht with rfl | ht
      · exact .inr (.inr ⟨k, rfl, ha⟩)
      · exact h.kept t (List.mem_append_right _ ht)
  new t ht := by
    have hsub : l ++ m ⊆ l ++ .node (.builtin .logicalOr) [k] :: m :=
      ((List.sublist_cons_self _ m).append_left l).subset
    exact (h.new t ht).imp (fun h => hsub h) fun h => hsub h

theorem orCut_yields (fuel : Nat) (before todo : List (Child C))
    (hb : ∀ c ∈ before, Conjunct c.tree) (ht : ∀ c ∈ todo, Loose c.tree) :
    Yields Allowed (orCut fuel before todo) fun l =>
      Pruned (trees (before ++ todo)) (trees l) ∧
        (l = before ++ todo ∨ hefts (trees l) < hefts (trees (before ++ todo))) := by
  induction fuel generalizing before todo with
  | zero => exact (by decide : Halt.fuel ≠ .assertion)
  | succ fuel ih =>
    cases todo with
    | nil =>
      rw [List.append_nil]
      refine Yields.pure ⟨⟨?_, fun t ht => .inl ht, fun t ht => .inl ht⟩, .inl rfl⟩
      exact List.forall_mem_map.mpr hb
    | cons child after =>
      have hafter : ∀ c ∈ after, Loose c.tree := fun c hc => ht c (List.mem_cons_of_mem _ hc)
      have hloose := ht child List.mem_cons_self
      have pass (hc : Conjunct child.tree) :
          Yields Allowed (orCut fuel (before ++ [child]) after) fun l =>
            Pruned (trees (before ++ child :: after)) (trees l) ∧
              (l = before ++ child :: after ∨
                hefts (trees l) < hefts (trees (before ++ child :: after))) := by
        refine (ih (before ++ [child]) after ?_ hafter).imp fun l hl => ?_
        · exact List.forall_mem_append.mpr ⟨hb, List.forall_mem_singleton.mpr hc⟩
        · rwa [List.append_assoc, List.singleton_append] at hl
      rw [orCut]
      split
      · next only honly =>
        obtain ⟨hchild, hd⟩ := hloose.one honly
        have hj : isJunctor child.tree.root = true := by rw [hchild]; rfl
        have hlt : only.heft < child.tree.heft := Branch.heft_lt_of_mem (by simp [honly])
        rw [if_pos hj]
        obtain ⟨a, rfl⟩ | ⟨hand, -⟩ := hd.cases_root
        · refine (ih before (⟨none, ⟨.argument a, .nil⟩⟩ :: after) hb ?_).imp fun l ⟨hl, hw⟩ => ?_
          · exact List.forall_mem_cons.mpr ⟨.inl (.argument a), hafter⟩
          · rw [trees_append, trees_cons] at hl hw ⊢
            refine ⟨hchild ▸ hl.of_up ⟨a, rfl⟩, .inr ?_⟩
            rw [hefts_append, hefts_cons] at hw ⊢
            dsimp only at hw
            rcases hw with rfl | hw
            · rw [trees_append, trees_cons, hefts_append, hefts_cons]
              dsimp only
              omega
            · omega
        · have ho : only.root.is .logicalOr = false := by rw [hand]; rfl
          have ha : isArgument only.root = false := by rw [hand]; rfl
          rw [if_neg (by simp [ho]), if_neg (by simp [ha])]
          refine (ih before after hb hafter).imp fun l ⟨hl, hw⟩ => ?_
          rw [trees_append] at hl hw
          rw [trees_append, trees_cons]
          have hna : ¬ IsArgument only := fun h => by
            rw [hd.isArgument_iff.mpr h] at ha
            cases ha
          refine ⟨hchild ▸ hl.of_erase hna, .inr ?_⟩
          rw [hefts_append] at hw ⊢
          rw [hefts_cons]
          rcases hw with rfl | hw
          · rw [trees_append, hefts_append]
            omega
          · omega
      · next hne => exact pass (hloose.conjunct fun k hk => hne k hk)

end OpenCog.Comboreduct.Combo
