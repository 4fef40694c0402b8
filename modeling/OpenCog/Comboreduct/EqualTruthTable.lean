import OpenCog.Comboreduct.TruthTable

/-! The rule `reduce_remove_subtree_equal_tt`, which goes through the nodes of a tree that it edits:
a subtree is erased where a copy without it, made clean, has the truth table of the tree. -/
namespace OpenCog.Comboreduct

open Util

/-! ## The loop -/

/-- The body of the loop: what the tree becomes, and the iterator after it. -/
def amputate (same : Forest (Vertex Marker) → Bool) (tr : Forest (Node (Vertex Marker)))
    (fresh pit : Nat) : Option (Forest (Node (Vertex Marker)) × Option Nat) := do
  let marked := tr.insertAbove pit ⟨fresh, nullVertex⟩
  let amputated ← cleanReduce marked.copy
  if same amputated then
    return (marked.erase fresh, ← marked.afterSubtree fresh none)
  else
    let flat := marked.flatten fresh
    let pit ← (flat.afterSubtree fresh none).join
    return (flat.erase fresh, ← (flat.erase fresh).afterNode pit none)

/-- Nothing comes after the root, whose end the loop runs to. -/
def amputateAll (same : Forest (Vertex Marker) → Bool) :
    Nat → Forest (Node (Vertex Marker)) → Nat → Option Nat → Option (Forest (Node (Vertex Marker)))
  | 0, _, _, _ => none
  | _ + 1, tr, _, none => some tr
  | fuel + 1, tr, fresh, some pit => do
    let (tr, pit) ← amputate same tr fresh pit
    amputateAll same fuel tr (fresh + 1) pit

/-- A tree, and the location of the next node to be allocated. -/
structure ComboTree where
  root : Node (Vertex Marker)
  children : Forest (Node (Vertex Marker))
  fresh : Nat
  nodup : (Forest.cons root children .nil).locs.Nodup
  lt_fresh : ∀ i ∈ (Forest.cons root children .nil).locs, i < fresh

def ComboTree.nodes (tr : ComboTree) : Forest (Node (Vertex Marker)) :=
  .cons tr.root tr.children .nil

/-- The rule at the root. -/
def reduceRemoveSubtreeEqualTt (bound : Nat → Bool) (fuel : Nat) (tr : ComboTree) :
    Option (Forest (Node (Vertex Marker))) := do
  let tt ← TruthTable.ofTree bound tr.nodes.copy
  amputateAll (tt.sameTruthTable bound) fuel tr.nodes tr.fresh (tr.children.follow none)

/-! ## The walk without iterators -/

/-- What the siblings in the hole become. -/
def prune (same : Forest (Vertex Marker) → Bool) (up : Hole (Vertex Marker)) :
    Forest (Vertex Marker) → Forest (Vertex Marker)
  | .nil => .nil
  | .cons a c n =>
    if same (clean (up.fill (.cons nullVertex (.cons a c .nil) n))) then prune same up n
    else
      let c' := prune same (.under a n up) c
      .cons a c' (prune same (.beside a c' up) n)

variable {same : Forest (Vertex Marker) → Bool} {up : Hole (Node (Vertex Marker))}
  {f c n : Forest (Node (Vertex Marker))} {a : Node (Vertex Marker)} {fresh : Nat}

/-- The nodes are different, and the next to be allocated is none of them. -/
structure Placed (tr : Forest (Node (Vertex Marker))) (fresh : Nat) : Prop where
  nodup : tr.locs.Nodup
  lt_fresh : ∀ i ∈ tr.locs, i < fresh

theorem Placed.fill {f' : Forest (Node (Vertex Marker))} {fresh' : Nat}
    (h : Placed (up.fill f) fresh) (hsub : f'.locs.Sublist f.locs) (hle : fresh ≤ fresh') :
    Placed (up.fill f') fresh' := by
  have hperm := Hole.locs_fill up f
  have hperm' := Hole.locs_fill up f'
  have hsub' := hsub.append_right up.locs
  refine ⟨hperm'.nodup_iff.mpr ((hperm.nodup_iff.mp h.nodup).sublist hsub'), fun i hi => ?_⟩
  have hi' := hperm.mem_iff.mpr (hsub'.subset (hperm'.mem_iff.mp hi))
  exact (h.lt_fresh i hi').trans_le hle

/-- One turn at a node in the hole. -/
theorem amputate_fill (h : Placed (up.fill (.cons a c n)) fresh) :
    amputate same (up.fill (.cons a c n)) fresh a.loc =
      if same (clean ((up.map Node.data).fill (.cons nullVertex (.cons a.data c.copy .nil) n.copy)))
      then some (up.fill n, n.follow up.after)
      else some (up.fill (.cons a c n), c.follow (n.follow up.after)) := by
  have ha : a.loc ∉ up.locs := Hole.notMem_locs h.nodup (by simp [Forest.locs])
  have hup : fresh ∉ up.locs := fun hi => Nat.lt_irrefl _
    (h.lt_fresh _ ((Hole.locs_fill up _).mem_iff.mpr (List.mem_append_right _ hi)))
  have hmarked : (up.fill (.cons a c n)).insertAbove a.loc ⟨fresh, nullVertex⟩ =
      up.fill (.cons ⟨fresh, nullVertex⟩ (.cons a c .nil) n) := by
    rw [Hole.fill_changesAt (Forest.changesAt_insertAbove _ _) ha, Forest.insertAbove, if_pos rfl]
  have hcopy : (up.fill (.cons ⟨fresh, nullVertex⟩ (.cons a c .nil) n)).copy =
      (up.map Node.data).fill (.cons nullVertex (.cons a.data c.copy .nil) n.copy) :=
    Hole.map_fill _ _ _
  have hflat : (up.fill (.cons ⟨fresh, nullVertex⟩ (.cons a c .nil) n)).flatten fresh =
      up.fill (.cons ⟨fresh, nullVertex⟩ .nil (.cons a c n)) := by
    rw [Hole.fill_changesAt (Forest.changesAt_flatten _) hup, Forest.flatten, if_pos rfl]
    rfl
  have herase : ∀ t m, (up.fill (.cons ⟨fresh, nullVertex⟩ t m)).erase fresh = up.fill m := by
    intro t m
    rw [Hole.fill_changesAt (Forest.changesAt_erase _) hup, Forest.erase, if_pos rfl]
  have hafter : ∀ t m, (up.fill (.cons ⟨fresh, nullVertex⟩ t m)).afterSubtree fresh none =
      some (m.follow up.after) := by
    intro t m
    rw [Hole.fill_looksFor (Forest.looksFor_afterSubtree _) hup, Forest.afterSubtree, if_pos rfl]
  have hnext : (up.fill (.cons a c n)).afterNode a.loc none =
      some (c.follow (n.follow up.after)) := by
    rw [Hole.fill_looksFor (Forest.looksFor_afterNode _) ha, Forest.afterNode, if_pos rfl]
  rw [amputate, hmarked, hcopy, cleanReduce_eq]
  simp only [Option.bind_eq_bind, Option.bind_some]
  split
  · rw [hafter, herase]
    rfl
  · rw [hflat, hafter, herase, Forest.follow, Option.join_some, Option.bind_some, hnext]
    rfl

/-- The loop over what stands in the hole. -/
theorem amputateAll_fill (h : Placed (up.fill f) fresh) :
    ∃ f' turns fresh', f'.copy = prune same (up.map Node.data) f.copy ∧ f'.locs.Sublist f.locs ∧
      fresh ≤ fresh' ∧ ∀ fuel, amputateAll same (fuel + turns) (up.fill f) fresh (f.follow up.after) =
        amputateAll same fuel (up.fill f') fresh' up.after := by
  induction f generalizing up fresh with
  | nil => exact ⟨.nil, 0, fresh, rfl, .slnil, Nat.le_refl _, fun fuel => rfl⟩
  | cons a c n ihc ihn =>
    have hturn := @amputate_fill same up c n a fresh h
    have hcopy : (Forest.cons a c n).copy = .cons a.data c.copy n.copy := rfl
    rw [hcopy, prune]
    by_cases hsame : same (clean ((up.map Node.data).fill
        (.cons nullVertex (.cons a.data c.copy .nil) n.copy))) = true
    · have hsub : n.locs.Sublist (Forest.cons a c n).locs :=
        (List.sublist_append_right _ _).cons _
      obtain ⟨n', turns, fresh', hn', hsub', hle, hrun⟩ :=
        @ihn up (fresh + 1) (h.fill hsub (Nat.le_succ _))
      refine ⟨n', turns + 1, fresh', ?_, hsub'.trans hsub, by omega, fun fuel => ?_⟩
      · rw [if_pos hsame, hn']
      · rw [if_pos hsame] at hturn
        rw [← Nat.add_assoc, ← hrun fuel, Forest.follow, amputateAll, hturn]
        rfl
    · obtain ⟨c', turns, fresh₁, hc', hsubc, hle₁, hrunc⟩ :=
        @ihc (.under a n up) (fresh + 1) (h.fill (List.Sublist.refl _) (Nat.le_succ _))
      have hsub₁ : (Forest.cons a c' n).locs.Sublist (Forest.cons a c n).locs :=
        (hsubc.append_right _).cons_cons _
      obtain ⟨n', turns', fresh', hn', hsubn, hle', hrunn⟩ :=
        @ihn (.beside a c' up) fresh₁ (h.fill hsub₁ (by omega))
      refine ⟨.cons a c' n', turns' + turns + 1, fresh', ?_, ?_, by omega, fun fuel => ?_⟩
      · have hmap : (Hole.under a n up).map Node.data = .under a.data n.copy (up.map Node.data) := rfl
        rw [if_neg hsame, ← hmap, ← hc']
        exact congrArg (Forest.cons a.data c'.copy) hn'
      · exact (((List.Sublist.refl _).append hsubn).cons_cons _).trans hsub₁
      · rw [if_neg hsame] at hturn
        have hstart : amputateAll same (fuel + (turns' + turns + 1)) (up.fill (.cons a c n)) fresh
            ((Forest.cons a c n).follow up.after) = amputateAll same (fuel + turns' + turns)
              (up.fill (.cons a c n)) (fresh + 1) (c.follow (n.follow up.after)) := by
          rw [← Nat.add_assoc, ← Nat.add_assoc, Forest.follow, amputateAll, hturn]
          rfl
        rw [hstart]
        exact (hrunc (fuel + turns')).trans (hrunn fuel)

theorem amputateAll_mono {fuel : Nat} {tr tr' : Forest (Node (Vertex Marker))} {pit : Option Nat}
    (h : amputateAll same fuel tr fresh pit = some tr') (more : Nat) :
    amputateAll same (fuel + more) tr fresh pit = some tr' := by
  induction fuel generalizing tr fresh pit with
  | zero => cases h
  | succ fuel ih =>
    rw [Nat.add_right_comm]
    cases pit with
    | none => exact h
    | some pit =>
      rw [amputateAll] at h ⊢
      obtain ⟨r, hr, hrest⟩ := Option.bind_eq_some_iff.mp h
      rw [hr]
      exact ih hrest

theorem reduceRemoveSubtreeEqualTt_mono {bound : Nat → Bool} {fuel : Nat} {tr : ComboTree}
    {tr' : Forest (Node (Vertex Marker))}
    (h : reduceRemoveSubtreeEqualTt bound fuel tr = some tr') (more : Nat) :
    reduceRemoveSubtreeEqualTt bound (fuel + more) tr = some tr' := by
  obtain ⟨tt, htt, hrest⟩ := Option.bind_eq_some_iff.mp h
  rw [reduceRemoveSubtreeEqualTt, htt]
  exact amputateAll_mono hrest more

/-! ## What the walk keeps -/

/-- The last child of a node is not erased, as the node was not. -/
def Guarded (same : Forest (Vertex Marker) → Bool) : Hole (Vertex Marker) → Prop
  | .under _ n up => same (collapse up n) = false
  | _ => True

/-- What is left of the siblings in the hole. -/
structure PrunedTo (same : Forest (Vertex Marker) → Bool) (up : Hole (Vertex Marker))
    (f f' : Forest (Vertex Marker)) : Prop where
  proper : Proper f'
  keeps : same (up.fill f') = true
  arguments : ∀ a ∈ argumentsIn f', a ∈ argumentsIn f
  ne_nil : ∀ a n u, up = .under a n u → f ≠ .nil → f' ≠ .nil

theorem mem_argumentsIn_cons {v : Vertex Marker} {c n : Forest (Vertex Marker)} {a : Argument} :
    a ∈ argumentsIn (.cons v c n) ↔
      v = .argument a ∨ a ∈ argumentsIn c ∨ a ∈ argumentsIn n := by
  cases v <;> simp [argumentsIn, eq_comm]

/-- A subtree that is not needed goes, and no parent is left empty by it: the tree without the
parent would have been kept. -/
theorem prunedTo_prune {up : Hole (Vertex Marker)} {f : Forest (Vertex Marker)}
    (hup : ProperHole up) (hf : Proper f) (hguard : Guarded same up)
    (hsame : same (up.fill f) = true) : PrunedTo same up f (prune same up f) := by
  induction f generalizing up with
  | nil => exact ⟨trivial, hsame, fun a ha => ha, fun _ _ _ _ h => h⟩
  | cons a c n ihc ihn =>
    obtain ⟨ha, hc, hn⟩ := hf
    rw [prune, clean_fill hup hn]
    by_cases herase : same (collapse up n) = true
    · have hrest : ∀ b m u, up = .under b m u → n ≠ .nil := by
        rintro b m u rfl rfl
        rw [Guarded, ← Bool.not_eq_true] at hguard
        exact hguard herase
      have hfill := collapse_eq_fill hrest
      rw [hfill] at herase
      have h := ihn hup hn hguard herase
      rw [hfill, if_pos herase]
      exact ⟨h.proper, h.keeps,
        fun b hb => mem_argumentsIn_cons.mpr (.inr (.inr (h.arguments b hb))),
        fun b m u hu _ => h.ne_nil b m u hu (hrest b m u hu)⟩
    · rw [if_neg herase]
      have hc' : PrunedTo same (.under a n up) c (prune same (.under a n up) c) := by
        by_cases hnil : c = .nil
        · subst hnil
          exact ⟨trivial, hsame, fun b hb => hb, fun _ _ _ _ h => h⟩
        · exact ihc ⟨ha.isJunctor hnil, hn, hup⟩ hc (Bool.eq_false_iff.mpr herase) hsame
      have ha' : ProperAt (prune same (.under a n up) c) a := by
        by_cases hnil : c = .nil
        · subst hnil
          exact ha
        · exact .of_isJunctor (ha.isJunctor hnil) (hc'.ne_nil a n up rfl hnil)
      have hn' := @ihn (.beside a (prune same (.under a n up) c) up) ⟨ha', hc'.proper, hup⟩ hn
        trivial hc'.keeps
      refine ⟨⟨ha', hc'.proper, hn'.proper⟩, hn'.keeps, fun b hb => ?_, fun _ _ _ _ _ => by simp⟩
      rw [mem_argumentsIn_cons] at hb ⊢
      exact hb.imp_right (Or.imp (hc'.arguments b) (hn'.arguments b))

/-! ## The rule -/

/-- The rule has a result, which means what the tree meant, and below its root no junctor is
childless. -/
def Prunes (bound : Nat → Bool) (tr : ComboTree) : Prop :=
  ∃ root c enough,
    (∀ fuel ≥ enough, reduceRemoveSubtreeEqualTt bound fuel tr = some (.cons root c .nil)) ∧
    (∀ input, evalTree input (Forest.cons root c .nil).copy = evalTree input tr.nodes.copy) ∧
    NoDangling c.copy

/-- With the right table the tree keeps its meaning. -/
theorem prunes_of_covered {bound : Nat → Bool} {tr : ComboTree} (h : Proper tr.nodes.copy)
    (hcovered : Covered tr.nodes.copy) {tt : TruthTable}
    (htt : TruthTable.ofTree bound tr.nodes.copy = some tt) : Prunes bound tr := by
  obtain ⟨hroot, hchildren, -⟩ := h
  obtain ⟨c, turns, fresh, hc, hsub, hle, hrun⟩ :=
    @amputateAll_fill (tt.sameTruthTable bound) (.root tr.root) tr.children tr.fresh
      ⟨tr.nodup, tr.lt_fresh⟩
  have hpruned : PrunedTo (tt.sameTruthTable bound) (.root tr.root.data) tr.children.copy c.copy := by
    rw [hc]
    exact prunedTo_prune trivial hchildren trivial (TruthTable.sameTruthTable_self htt)
  refine ⟨tr.root, c, turns + 1, fun fuel hfuel => ?_, ?_, hpruned.proper.noDangling⟩
  · obtain ⟨more, rfl⟩ := Nat.exists_eq_add_of_le hfuel
    have hfinal := hrun (more + 1)
    rw [reduceRemoveSubtreeEqualTt, htt]
    have hfuel' : turns + 1 + more = more + 1 + turns := by omega
    rw [hfuel']
    exact hfinal
  · refine TruthTable.evalTree_of_sameTruthTable htt hcovered ?_ ?_ ?_ hpruned.keeps
    · exact ⟨hroot.ne_null, hchildren.unmarked, trivial⟩
    · exact ⟨hroot.ne_null, hpruned.proper.unmarked, trivial⟩
    · intro a ha
      have ha' := mem_argumentsIn_cons.mp ha
      exact mem_argumentsIn_cons.mpr (ha'.imp_right (Or.imp_left (hpruned.arguments a)))

/-- Without a table the rule has no result. -/
theorem arity_le_of_prunes {bound : Nat → Bool} {tr : ComboTree} (h : Prunes bound tr) :
    arity tr.nodes.copy ≤ 30 := by
  obtain ⟨root, c, enough, hrun, -, -⟩ := h
  obtain ⟨tt, htt, -⟩ := Option.bind_eq_some_iff.mp (hrun enough (Nat.le_refl _))
  exact TruthTable.ofTree_isSome.mp (Option.isSome_iff_exists.mpr ⟨tt, htt⟩)

/-- The table has a column for every argument and the tree keeps its meaning if and only if no
index is above 30, as the number of rows is an `int`. -/
theorem prunes_iff (bound : Nat → Bool) (tr : ComboTree) (h : Proper tr.nodes.copy) :
    (Covered tr.nodes.copy ∧ Prunes bound tr) ↔
      ∀ a ∈ argumentsIn tr.nodes.copy, a.idx.natAbs ≤ 30 := by
  constructor
  · rintro ⟨hcovered, hprunes⟩ a ha
    have harity := arity_le_of_prunes hprunes
    have hle := hcovered a ha
    omega
  · intro hle
    have hcovered : Covered tr.nodes.copy := covered_of_le fun a ha => (hle a ha).trans (by omega)
    obtain ⟨tt, htt⟩ := Option.isSome_iff_exists.mp
      (@TruthTable.ofTree_isSome tr.nodes.copy bound |>.mpr (arity_le_of_le hle))
    exact ⟨hcovered, prunes_of_covered h hcovered htt⟩

def argument (idx : Int) (h : idx ≠ 0 := by decide) : Vertex Marker := .argument ⟨idx, h⟩

/-- `or(and(#1 !#1) #2)` -/
def withContradiction : ComboTree where
  root := ⟨0, .logicalOr⟩
  children := .cons ⟨1, .logicalAnd⟩
    (.cons ⟨2, argument 1 Argument.one_ne⟩ .nil
      (.cons ⟨3, argument (-1) Argument.neg_one_ne⟩ .nil .nil))
    (.cons ⟨4, argument 2 Argument.two_ne⟩ .nil .nil)
  fresh := 5
  nodup := by decide
  lt_fresh := by decide

theorem prunes_withContradiction :
    Covered withContradiction.nodes.copy ∧ Prunes (fun _ => false) withContradiction :=
  (prunes_iff (fun _ => false) withContradiction
    (by simp [withContradiction, ComboTree.nodes, Forest.copy, Forest.map, Proper, ProperAt,
      argument])).mpr (by decide)

example : (reduceRemoveSubtreeEqualTt (fun _ => false) 5 withContradiction).map Forest.copy =
    some (.cons .logicalOr (.cons (argument 2) .nil .nil) .nil) := by decide +kernel

/-- `and(#1 #idx)` -/
def conjunction (idx : Int) (h : idx ≠ 0) : ComboTree where
  root := ⟨0, .logicalAnd⟩
  children := .cons ⟨1, argument 1⟩ .nil (.cons ⟨2, argument idx h⟩ .nil .nil)
  fresh := 3
  nodup := by simp [Forest.locs]
  lt_fresh := by simp [Forest.locs]

theorem proper_conjunction (idx : Int) (h : idx ≠ 0) : Proper (conjunction idx h).nodes.copy := by
  simp [conjunction, ComboTree.nodes, Forest.copy, Forest.map, Proper, ProperAt, argument]

/-- The number of rows overflows for `#31`; `#256` has no column, and goes when it is bound to
true. -/
theorem not_prunes :
    (Proper (conjunction 31 (by decide)).nodes.copy ∧
      ∀ bound, ¬ Prunes bound (conjunction 31 (by decide))) ∧
    Proper (conjunction 256 (by decide)).nodes.copy ∧
      ¬ Prunes (fun _ => true) (conjunction 256 (by decide)) := by
  refine ⟨⟨proper_conjunction _ _, ?_⟩, proper_conjunction _ _, ?_⟩
  · intro bound hprunes
    exact absurd (arity_le_of_prunes hprunes) (by decide)
  · rintro ⟨root, c, enough, hrun, heval, -⟩
    have hlost : reduceRemoveSubtreeEqualTt (fun _ => true) 3 (conjunction 256 (by decide)) =
        some (.cons ⟨0, .logicalAnd⟩ (.cons ⟨1, argument 1⟩ .nil .nil) .nil) := by
      decide +kernel
    have hmore := reduceRemoveSubtreeEqualTt_mono hlost enough
    have h := heval (· = 1)
    rw [Option.some.inj ((hrun _ (Nat.le_add_left enough 3)).symm.trans hmore)] at h
    exact absurd h (by decide)

end OpenCog.Comboreduct
