import OpenCog.Comboreduct.Combo.ReduceNots
import OpenCog.Comboreduct.Combo.SubtreeToEnf
import OpenCog.Lib.Budget

/-! What the cuts and the moves of the reduction do to one disjunction: the shape it keeps, its
truth value and its weight. -/
namespace OpenCog.Comboreduct.Combo

open Util
open Budget
open Branch (hefts hefts_nil hefts_cons hefts_append)

variable {C : Type}

/-! ## Truth values -/

def truthValue (σ : Nat → Bool) (t : Tree C) : Bool := truthVertex σ (truth σ t.below) t.root

def Holds (σ : Nat → Bool) (t : Tree C) : Prop := truthValue σ t = true

variable {σ : Nat → Bool} {t s : Tree C} {l : List (Tree C)} {a : Argument}

theorem truth_eq (f : Forest (Vertex C)) : truth σ f = f.branches.map (truthValue σ) := by
  induction f with
  | nil => rfl
  | cons v c n _ ihn => rw [truth, Forest.branches, List.map_cons, ihn, truthValue]

theorem truthValue_node (v : Vertex C) :
    truthValue σ (.node v l) = truthVertex σ (l.map (truthValue σ)) v := by
  rw [truthValue, truth_eq, Branch.node, Forest.branches_ofBranches]

@[simp] theorem holds_and :
    Holds σ (.node (.builtin .logicalAnd) l) ↔ ∀ t ∈ l, Holds σ t := by
  simp [Holds, truthValue_node, truthVertex]

@[simp] theorem holds_or :
    Holds σ (.node (.builtin .logicalOr) l) ↔ ∃ t ∈ l, Holds σ t := by
  simp [Holds, truthValue_node, truthVertex]

theorem holds_argument {f : Forest (Vertex C)} :
    Holds σ ⟨.argument a, f⟩ ↔ truthArgument σ a = true := .rfl

theorem holds_negate {f g : Forest (Vertex C)} :
    Holds σ ⟨.argument a.negate, f⟩ ↔ ¬ Holds σ ⟨.argument a, g⟩ := by
  rw [holds_argument, holds_argument, truthArgument_negate]
  cases truthArgument σ a <;> simp

/-! ## The shape -/

def IsArgument (t : Tree C) : Prop := ∃ a, t = ⟨.argument a, .nil⟩

mutual

/-- What stands under `and`. -/
inductive Conjunct : Tree C → Prop where
  | argument (a : Argument) : Conjunct ⟨.argument a, .nil⟩
  | or (l : List (Tree C)) (h : 2 ≤ l.length) (hl : ∀ t ∈ l, Disjunct t) :
    Conjunct (.node (.builtin .logicalOr) l)

/-- What stands under `or`, also after a cut. -/
inductive Disjunct : Tree C → Prop where
  | argument (a : Argument) : Disjunct ⟨.argument a, .nil⟩
  | and (l : List (Tree C)) (hl : ∀ t ∈ l, Conjunct t) : Disjunct (.node (.builtin .logicalAnd) l)

end

/-- A disjunction that may have lost children. -/
def Disjunction (t : Tree C) : Prop :=
  ∃ l, t = .node (.builtin .logicalOr) l ∧ l ≠ [] ∧ ∀ s ∈ l, Disjunct s

theorem Conjunct.cases_root (h : Conjunct t) :
    IsArgument t ∨
      t.root = .builtin .logicalOr ∧ 2 ≤ t.children.length ∧ ∀ s ∈ t.children, Disjunct s := by
  cases h with
  | argument a => exact .inl ⟨a, rfl⟩
  | or l h hl =>
    right
    rw [Branch.children_node]
    exact ⟨rfl, h, hl⟩

theorem Disjunct.cases_root (h : Disjunct t) :
    IsArgument t ∨ t.root = .builtin .logicalAnd ∧ ∀ s ∈ t.children, Conjunct s := by
  cases h with
  | argument a => exact .inl ⟨a, rfl⟩
  | and l hl =>
    right
    rw [Branch.children_node]
    exact ⟨rfl, hl⟩

/-- A disjunct with one child is a conjunction of it. -/
theorem Disjunct.only (h : Disjunct t) {x : Tree C} (hx : t.children = [x]) :
    t = .node (.builtin .logicalAnd) [x] ∧ Conjunct x := by
  rcases h.cases_root with ⟨a, rfl⟩ | ⟨hr, hc⟩
  · cases hx
  · refine ⟨?_, hc x (hx ▸ List.mem_singleton_self x)⟩
    rw [← hr, ← hx, Branch.node_children]

open ReduceToEnf

/-! ## `and_cut` -/

/-- What has become of the disjuncts `l`. -/
structure Cut (l l' : List (Tree C)) (adopted : Bool) : Prop where
  disjuncts : ∀ t ∈ l', Disjunct t
  length : l.length ≤ l'.length
  holds : ∀ σ, (∃ t ∈ l', Holds σ t) ↔ ∃ t ∈ l, Holds σ t
  lighter : l' = l ∧ adopted = false ∨ hefts l' < hefts l
  one : ∀ t, l' = [t] → l' = l ∨ IsArgument t

theorem Cut.append {l l' m m' : List (Tree C)} {b c : Bool} (h : Cut l l' b) (k : Cut m m' c) :
    Cut (l ++ m) (l' ++ m') (b || c) where
  disjuncts t ht := (List.mem_append.mp ht).elim (h.disjuncts t) (k.disjuncts t)
  length := by
    rw [List.length_append, List.length_append]
    exact Nat.add_le_add h.length k.length
  holds σ := by simp only [List.mem_append, or_and_right, exists_or, h.holds σ, k.holds σ]
  lighter := by
    rw [hefts_append, hefts_append]
    rcases h.lighter with ⟨rfl, rfl⟩ | h
    · rcases k.lighter with ⟨rfl, rfl⟩ | k
      · exact .inl ⟨rfl, rfl⟩
      · exact .inr (Nat.add_lt_add_left k _)
    · rcases k.lighter with ⟨rfl, -⟩ | k
      · exact .inr (Nat.add_lt_add_right h _)
      · exact .inr (Nat.add_lt_add h k)
  one t ht := by
    have hl := h.length
    have hm := k.length
    rcases List.append_eq_singleton_iff.mp ht with ⟨rfl, he⟩ | ⟨he, rfl⟩
    · rw [List.length_eq_zero_iff.mp (Nat.le_zero.mp hl)]
      exact k.one t he
    · rw [List.length_eq_zero_iff.mp (Nat.le_zero.mp hm), List.append_nil, List.append_nil]
      exact h.one t he

/-- The only child of a conjunction comes up. -/
theorem Cut.up {l l' : List (Tree C)} {b c : Bool} (h : Cut l l' b) (hl : 1 ≤ l.length)
    (ht : ∀ σ, Holds σ t ↔ ∃ s ∈ l, Holds σ s) (hw : hefts l < t.heft)
    (hone : ∀ s, l = [s] → IsArgument s) : Cut [t] l' c where
  disjuncts := h.disjuncts
  length := hl.trans h.length
  holds σ := by simp only [h.holds σ, List.mem_singleton, exists_eq_left, ht σ]
  lighter := by
    rw [hefts_cons, hefts_nil]
    rcases h.lighter with ⟨rfl, -⟩ | h
    · exact .inr hw
    · exact .inr (h.trans hw)
  one s hs := .inr <| by
    rcases h.one s hs with he | h
    · exact hone s (he ▸ hs)
    · exact h

theorem Cut.refl (h : ∀ t ∈ l, Disjunct t) : Cut l l false :=
  ⟨h, Nat.le_refl _, fun _ => .rfl, .inl ⟨rfl, rfl⟩, fun _ _ => .inl rfl⟩

/-- Another assertion than those on sorted ranges does not fail. -/
def Allowed (e : Halt) : Prop := e ≠ .assertion

theorem check_yields {b : Bool} (h : b = true) : Yields Allowed (check b) fun _ => True := by
  rw [check, if_pos h]
  trivial

theorem andCut_yields (f : Forest (Vertex C)) (h : ∀ t ∈ f.branches, Disjunct t) :
    Yields Allowed (andCut f) fun r => Cut f.branches r.1 r.2 := by
  fun_induction andCut f with
  | case1 => exact Cut.refl h
  | case2 v u d n ihd iho ihn =>
    rw [Forest.branches] at h
    obtain ⟨ht, hx⟩ := (h _ List.mem_cons_self).only (x := ⟨u, d⟩) rfl
    refine Yields.bind (P := fun r => Cut [⟨v, .cons u d .nil⟩] r.1 r.2) ?_ fun r hr => ?_
    · obtain ⟨a, ha⟩ | ⟨hr, hlen, hd⟩ := hx.cases_root
      · obtain ⟨rfl, rfl⟩ := Branch.mk.inj ha
        refine (check_yields rfl).bind fun _ _ => ?_
        refine (iho fun t ht => ?_).imp fun r hr => ?_
        · rw [List.mem_singleton.mp ht]
          exact .argument a
        · refine hr.up (Nat.le_refl 1) (fun σ => ?_) ?_ fun s hs => ?_
          · rw [ht]
            simp [Forest.branches]
          · rw [ht]
            simp only [Forest.branches, Branch.heft_node, hefts_cons, hefts_nil]
            omega
          · exact ⟨a, (List.singleton_inj.mp hs).symm⟩
      · have hor : (⟨u, d⟩ : Tree C) = .node (.builtin .logicalOr) d.branches := by
          rw [← hr]
          exact (Branch.node_children _).symm
        have hu : u.is .logicalOr = true := by
          have hu : u = .builtin .logicalOr := hr
          rw [hu]
          rfl
        rw [if_pos hu]
        refine ((ihd hd).imp fun r hr => ?_).map
        refine hr.up (Nat.le_of_succ_le hlen) (fun σ => ?_) ?_ fun s hs => ?_
        · rw [ht, hor]
          simp
        · rw [ht, hor]
          simp only [Branch.heft_node, hefts_cons, hefts_nil]
          omega
        · exact absurd (congrArg List.length hs ▸ hlen) (by simp)
    · exact (ihn fun t ht => h t (List.mem_cons_of_mem _ ht)).bind fun m hm => hr.append hm
  | case3 v c n _ ih =>
    refine (ih fun t ht => h t (List.mem_cons_of_mem _ ht)).bind fun r hr => ?_
    have hc : Cut [⟨v, c⟩] [⟨v, c⟩] false :=
      Cut.refl fun t ht => h t (List.mem_singleton.mp ht ▸ List.mem_cons_self)
    exact hc.append hr

/-! ## Sorted ranges -/

variable [LinearOrder C]

theorem checkSorted_yields {l : List (Tree C)} :
    Yields Allowed (checkSorted l) fun _ => isSorted subtreeCmp l = true := by
  unfold checkSorted
  split
  · assumption
  · exact (by decide : Halt.unsorted ≠ .assertion)

theorem eraseSetIntersection_yields (l m : List (Tree C)) :
    Yields Allowed (eraseSetIntersection l m) fun k =>
      isSorted subtreeCmp l = true ∧ k = eraseIntersection subtreeCmp l m := by
  refine checkSorted_yields.bind fun _ hl => ?_
  exact checkSorted_yields.bind fun _ _ => Yields.pure ⟨hl, rfl⟩

theorem eraseSetDifference_yields (l m : List (Tree C)) :
    Yields Allowed (eraseSetDifference l m) fun k => k = eraseDifference subtreeCmp l m := by
  refine checkSorted_yields.bind fun _ _ => ?_
  exact checkSorted_yields.bind fun _ _ => Yields.pure rfl

/-! ## The common children -/

/-- `res` for the children `gs` of a disjunction. -/
structure Common (gs res : List (Tree C)) : Prop where
  strict : Strict subtreeCmp res
  mem : ∀ r ∈ res, ∀ g ∈ gs, r ∈ g.children
  one : ∀ g, gs = [g] → ∀ r ∈ g.children, r ∈ res

theorem eraseAll_yields (gs res : List (Tree C)) :
    Yields Allowed (gs.foldlM (fun res sib => eraseSetDifference res sib.children) res)
      fun res' => res'.Sublist res ∧ (∀ r ∈ res', ∀ g ∈ gs, r ∈ g.children) ∧
        (gs = [] → res' = res) := by
  induction gs generalizing res with
  | nil => exact Yields.pure ⟨.refl res, fun _ _ _ h => (List.not_mem_nil h).elim, fun _ => rfl⟩
  | cons g gs ih =>
    rw [List.foldlM_cons]
    refine (eraseSetDifference_yields res g.children).bind fun res₁ h₁ => ?_
    refine (ih res₁).imp fun res₂ ⟨hs, hm, _⟩ => ⟨?_, ?_, fun h => by cases h⟩
    · exact hs.trans (h₁ ▸ eraseDifference_sublist _ _)
    · intro r hr
      refine List.forall_mem_cons.mpr ⟨?_, hm r hr⟩
      exact @mem_of_mem_eraseDifference _ subtreeCmp _ _ _ _ (h₁ ▸ hs.subset hr)

theorem commonChildren_yields (h : t.children ≠ []) :
    Yields Allowed (commonChildren t) (Common t.children) := by
  unfold commonChildren
  rw [List.getLast?_eq_some_getLast h]
  refine (eraseAll_yields _ _).imp fun res ⟨hs, hm, hone⟩ => ⟨?_, ?_, ?_⟩
  · exact (strict_insertAll .nil _).sublist hs
  · intro r hr g hg
    rw [← List.dropLast_append_getLast h, List.mem_append, List.mem_singleton] at hg
    rcases hg with hg | rfl
    · exact hm r hr g hg
    · exact (mem_insertAll (hs.subset hr)).resolve_left List.not_mem_nil
  · intro g hg r hr
    rw [hone (by rw [hg]; rfl)]
    refine mem_insertAll_of_mem (.inr ?_)
    simp only [hg, List.getLast_singleton]
    exact hr

/-- A child of the disjunction without what is common. -/
def Stripped (res : List (Tree C)) (g g' : Tree C) : Prop :=
  isSorted subtreeCmp g.children = true ∧
    g' = .node g.root (eraseIntersection subtreeCmp g.children res)

theorem eraseFrom_yields (res : List (Tree C)) (g : Tree C) :
    Yields Allowed (eraseFrom res g) (Stripped res g) := by
  refine (eraseSetIntersection_yields g.children res).bind fun l ⟨hs, hl⟩ => ?_
  exact Yields.pure ⟨hs, by rw [hl]⟩

variable {g g' : Tree C} {gs gs' res : List (Tree C)}

theorem Stripped.disjunct (h : Stripped res g g') (hg : Disjunct g) : Disjunct g' := by
  rw [h.2]
  rcases hg.cases_root with ⟨a, rfl⟩ | ⟨hr, hc⟩
  · have he : eraseIntersection subtreeCmp (⟨.argument a, .nil⟩ : Tree C).children res = [] :=
      List.eq_nil_of_sublist_nil (eraseIntersection_sublist _ _)
    rw [he]
    exact .argument a
  · rw [hr]
    exact .and _ fun x hx => hc x ((eraseIntersection_sublist _ _).subset hx)

theorem Stripped.subset (h : Stripped res g g') : g'.children ⊆ g.children := by
  rw [h.2, Branch.children_node]
  exact (eraseIntersection_sublist _ _).subset

theorem Stripped.heft (h : Stripped res g g') (hres : Strict subtreeCmp res)
    (hsub : res ⊆ g.children) : g'.heft + 2 * hefts res = g.heft := by
  have hp := eraseIntersection_perm (pairwise_of_isSorted h.1) hres hsub
  have hw := Branch.hefts_perm hp
  rw [hefts_append] at hw
  rw [h.2, Branch.heft_node, Branch.heft_eq g]
  omega

/-- What is common holds, and so does what is left. -/
theorem Stripped.holds (h : Stripped res g g') (hg : Disjunct g) (hsub : res ⊆ g.children)
    (hne : res ≠ []) : Holds σ g ↔ (∀ r ∈ res, Holds σ r) ∧ Holds σ g' := by
  rcases hg.cases_root with ⟨a, rfl⟩ | ⟨hr, -⟩
  · exact (hne (List.eq_nil_of_subset_nil hsub)).elim
  · have he : g = .node (.builtin .logicalAnd) g.children := by rw [← hr, Branch.node_children]
    rw [h.2, hr, holds_and, he, holds_and, Branch.children_node]
    constructor
    · intro hh
      exact ⟨fun r hr => hh r (hsub hr),
        fun x hx => hh x ((eraseIntersection_sublist _ _).subset hx)⟩
    · rintro ⟨hc, hh⟩ x hx
      exact (mem_eraseIntersection hx).elim (hh x) (hc x)

theorem forall₂_disjuncts (h : List.Forall₂ (Stripped res) gs gs') (hd : ∀ g ∈ gs, Disjunct g) :
    ∀ g ∈ gs', Disjunct g := by
  induction h with
  | nil => exact hd
  | cons hg _ ih =>
    refine List.forall_mem_cons.mpr ⟨hg.disjunct (hd _ List.mem_cons_self), ?_⟩
    exact ih fun g hm => hd g (List.mem_cons_of_mem _ hm)

theorem forall₂_holds (h : List.Forall₂ (Stripped res) gs gs') (hd : ∀ g ∈ gs, Disjunct g)
    (hsub : ∀ g ∈ gs, res ⊆ g.children) (hne : res ≠ []) :
    (∃ g ∈ gs, Holds σ g) ↔ (∀ r ∈ res, Holds σ r) ∧ ∃ g ∈ gs', Holds σ g := by
  induction h with
  | nil => simp
  | cons hg _ ih =>
    have h₁ := hg.holds (σ := σ) (hd _ List.mem_cons_self) (hsub _ List.mem_cons_self) hne
    have h₂ := ih (fun g hm => hd g (List.mem_cons_of_mem _ hm))
      fun g hm => hsub g (List.mem_cons_of_mem _ hm)
    simp only [List.exists_mem_cons_iff, h₁, h₂, ← and_or_left]

theorem forall₂_hefts (h : List.Forall₂ (Stripped res) gs gs') (hres : Strict subtreeCmp res)
    (hsub : ∀ g ∈ gs, res ⊆ g.children) :
    hefts gs' + 2 * (gs.length * hefts res) = hefts gs := by
  induction h with
  | nil => simp
  | cons hg _ ih =>
    have h₁ := hg.heft hres (hsub _ List.mem_cons_self)
    have h₂ := ih fun g hm => hsub g (List.mem_cons_of_mem _ hm)
    simp only [hefts_cons, List.length_cons, Nat.succ_mul]
    omega

end OpenCog.Comboreduct.Combo
