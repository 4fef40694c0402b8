import OpenCog.Moses.LocalSampling

/-! The trees that are built: one for each raw field, each split on fields before it, and an order
that respects this. -/
namespace OpenCog.Moses.LocalStructure

open Util

variable {O : Type} {P : Partition Row} {rows rows' : List Row} {t : DTree} {v : Variable O}
  {vars : List (Variable O)} {base idx i n : Nat}

/-! ## One variable -/

theorem formed_append {s t : DTree} (hs : Formed s) (ht : Formed t) : Formed (s.append t) := by
  induction hs with
  | nil => exact ht
  | leaf a _ ih => exact .leaf a ih
  | split srcIdx hc hf _ _ ih => exact .split srcIdx hc hf ih

theorem single_makeDTree (a : Nat) : Single (makeDTree a) :=
  ⟨formed_leaves a 1, count_leaves _ 1⟩

theorem recSplitOnto_formed (sibs : Forest O) (srcIdx : Nat) {parts : List (List Row)}
    (hlen : parts.length = sibs.count) :
    Formed (recSplitOnto P idx srcIdx sibs parts).1 ∧
      (recSplitOnto P idx srcIdx sibs parts).1.count = sibs.count ∧
      (recSplitOnto P idx srcIdx sibs parts).2.Perm parts.flatten := by
  induction sibs generalizing srcIdx parts with
  | nil =>
    obtain rfl := List.length_eq_zero_iff.mp hlen
    exact ⟨.nil, rfl, .refl _⟩
  | cons o c n ihc ihn =>
    obtain ⟨l, ls, rfl⟩ := List.exists_cons_of_length_eq_add_one hlen
    obtain ⟨hfn, hcn, hpn⟩ := ihn srcIdx (Nat.succ.inj hlen)
    rw [recSplitOnto]
    simp only
    rw [List.flatten_cons, Forest.count_append, hcn]
    split
    · refine ⟨formed_append (formed_leaves _ 1) hfn, ?_, hpn.append_left l⟩
      rw [count_leaves, Forest.count]
      omega
    · split
      · have hparts : (nWayPartition P (fun x => x srcIdx) (c.count + 1) l).length = c.count + 1 :=
          length_nWayPartition (Nat.succ_pos _) l
        have hflat := @flatten_nWayPartition _ P (fun x => x srcIdx) (c.count + 1) l
        obtain ⟨p, ps, hps⟩ := List.exists_cons_of_length_eq_add_one hparts
        rw [hps] at hparts hflat ⊢
        obtain ⟨hfc, hcc, hpc⟩ := @ihc (srcIdx + 1) ps (Nat.succ.inj hparts)
        refine ⟨.split srcIdx (Nat.succ_ne_zero _) (.leaf 1 hfc) hfn, ?_, ?_⟩
        · rw [Forest.count, Forest.count, Forest.count]
          omega
        · exact ((hpc.append_left p).trans hflat).append hpn
      · refine ⟨.split srcIdx (Nat.succ_ne_zero _) (.leaf 1 (formed_leaves _ _)) hfn, ?_,
          hpn.append_left l⟩
        rw [Forest.count, Forest.count, Forest.count]
        omega

theorem recSplitContin_zero (l : List Row) :
    recSplitContin P idx 0 l =
      (if isUniformOn l idx then makeDTree 3 else split (idx - 1) (List.replicate 4 0), l) := by
  unfold recSplitContin
  split <;> rfl

theorem formed_split (srcIdx : Nat) : Formed (split srcIdx (List.replicate 4 0)) :=
  .split srcIdx (Nat.succ_ne_zero _) (formed_leaves 3 3) .nil

theorem makeLevels_spec {level : Nat → List Row → DTree × List Row}
    (hlevel : ∀ i rows, (level i rows).2.Perm rows) (is : List Nat) :
    (makeLevels level is rows).1.length = is.length ∧ (makeLevels level is rows).2.Perm rows ∧
      ∀ k i : Nat, is[k]? = some i → ∃ rows', rows'.Perm rows ∧
        (makeLevels level is rows).1[k]? = some (level i rows').1 := by
  induction is generalizing rows with
  | nil => exact ⟨rfl, .refl _, nofun⟩
  | cons j is ih =>
    obtain ⟨hlen, hperm, hall⟩ := @ih (level j rows).2
    refine ⟨by rw [makeLevels, List.length_cons, List.length_cons, hlen],
      hperm.trans (hlevel j rows), fun k i hk => ?_⟩
    cases k with
    | zero =>
      obtain rfl := Option.some.inj hk
      exact ⟨rows, .refl _, rfl⟩
    | succ k =>
      obtain ⟨rows', hp, hat⟩ := hall k i hk
      exact ⟨rows', hp.trans (hlevel j rows), hat⟩

/-- The tree of a level of a variable, built from the rows in some order. -/
def TreeAt (P : Partition Row) (rows : List Row) (t : DTree) : Variable O → Nat → Nat → Prop
  | .onto tr, _, 0 => t = makeDTree (tr.children.count + 1)
  | .onto tr, base, i + 1 => ∃ rows', rows'.Perm rows ∧
      t = (recSplitOnto P (base + (i + 1)) base (.cons tr.root tr.children .nil) [rows']).1
  | .contin _, _, 0 => t = makeDTree 3
  | .contin _, base, i + 1 => ∃ rows', rows'.Perm rows ∧
      t = (recSplitContin P (base + (i + 1)) 0 rows').1
  | .disc a, _, _ => t = makeDTree a

theorem TreeAt.perm (h : TreeAt P rows t v base i) (hperm : rows.Perm rows') :
    TreeAt P rows' t v base i := by
  cases v with
  | onto tr =>
    cases i with
    | zero => exact h
    | succ i =>
      obtain ⟨r, hr, ht⟩ := h
      exact ⟨r, hr.trans hperm, ht⟩
  | contin d =>
    cases i with
    | zero => exact h
    | succ i =>
      obtain ⟨r, hr, ht⟩ := h
      exact ⟨r, hr.trans hperm, ht⟩
  | disc a => exact h

theorem TreeAt.single (h : TreeAt P rows t v base i) : Single t := by
  cases v with
  | onto tr =>
    cases i with
    | zero => exact h ▸ single_makeDTree _
    | succ i =>
      obtain ⟨r, -, rfl⟩ := h
      obtain ⟨hf, hc, -⟩ := @recSplitOnto_formed O P (base + (i + 1))
        (.cons tr.root tr.children .nil) base [r] rfl
      exact ⟨hf, hc⟩
  | contin d =>
    cases i with
    | zero => exact h ▸ single_makeDTree _
    | succ i =>
      obtain ⟨r, -, rfl⟩ := h
      rw [recSplitContin_zero]
      split
      · exact single_makeDTree 3
      · exact ⟨formed_split _, rfl⟩
  | disc a => exact h ▸ single_makeDTree a

theorem make_spec (v : Variable O) (base : Nat) (rows : List Row) :
    (v.make P base rows).1.length = max 1 v.size ∧ (v.make P base rows).2.Perm rows ∧
      ∀ i < v.size, ∃ t, (v.make P base rows).1[i]? = some t ∧ TreeAt P rows t v base i := by
  cases v with
  | onto tr =>
    obtain ⟨hlen, hperm, hall⟩ := @makeLevels_spec rows (fun i rows =>
      recSplitOnto P (base + i) base (.cons tr.root tr.children .nil) [rows])
      (fun i rows => by simpa using (@recSplitOnto_formed O P (base + i)
        (.cons tr.root tr.children .nil) base [rows] rfl).2.2)
      (List.range' 1 (tr.depth - 1))
    refine ⟨?_, hperm, fun i hi => ?_⟩
    · rw [Variable.make, List.length_cons, hlen, List.length_range', Variable.size]
      omega
    · cases i with
      | zero => exact ⟨_, rfl, rfl⟩
      | succ i =>
        change i + 1 < tr.depth at hi
        obtain ⟨r, hr, hat⟩ := hall i (i + 1) (by
          rw [List.getElem?_range' (by omega), Nat.one_mul, Nat.add_comm])
        exact ⟨_, hat, r, hr, rfl⟩
  | contin d =>
    obtain ⟨hlen, hperm, hall⟩ := @makeLevels_spec rows (fun i rows =>
      recSplitContin P (base + i) 0 rows) (fun i rows => by rw [recSplitContin_zero])
      (List.range' 1 (d - 1))
    refine ⟨?_, hperm, fun i hi => ?_⟩
    · rw [Variable.make, List.length_cons, hlen, List.length_range', Variable.size]
      omega
    · cases i with
      | zero => exact ⟨_, rfl, rfl⟩
      | succ i =>
        change i + 1 < d at hi
        obtain ⟨r, hr, hat⟩ := hall i (i + 1) (by
          rw [List.getElem?_range' (by omega), Nat.one_mul, Nat.add_comm])
        exact ⟨_, hat, r, hr, rfl⟩
  | disc a =>
    refine ⟨rfl, .refl _, fun i hi => ?_⟩
    obtain rfl : i = 0 := Nat.lt_one_iff.mp hi
    exact ⟨_, rfl, rfl⟩

/-! ## All variables -/

/-- A raw field, as a level of a variable whose first one is at the base. -/
structure Place (O : Type) where
  var : Variable O
  base : Nat
  level : Nat

def places : Nat → List (Variable O) → List (Place O)
  | _, [] => []
  | base, v :: vs => (List.range v.size).map (⟨v, base, ·⟩) ++ places (base + v.size) vs

variable {pl : Place O}

theorem length_places (base : Nat) (vars : List (Variable O)) :
    (places base vars).length = (vars.map Variable.size).sum := by
  induction vars generalizing base with
  | nil => rfl
  | cons v vs ih => simp [places, ih]

theorem place_cases {vs : List (Variable O)} (h : (places base (v :: vs))[i]? = some pl) :
    i < v.size ∧ pl = ⟨v, base, i⟩ ∨
      ∃ j, i = v.size + j ∧ (places (base + v.size) vs)[j]? = some pl := by
  rw [places] at h
  by_cases hlt : i < v.size
  · rw [List.getElem?_append_left (by simpa using hlt), List.getElem?_map,
      List.getElem?_range hlt] at h
    exact .inl ⟨hlt, (Option.some.inj h).symm⟩
  · rw [List.getElem?_append_right (by simpa using hlt), List.length_map, List.length_range] at h
    exact .inr ⟨i - v.size, by omega, h⟩

theorem place_index (h : (places base vars)[i]? = some pl) :
    pl.base + pl.level = base + i ∧ pl.level < pl.var.size ∧ pl.var ∈ vars := by
  induction vars generalizing base i with
  | nil => cases h
  | cons v vs ih =>
    rcases place_cases h with ⟨hlt, rfl⟩ | ⟨j, rfl, hj⟩
    · exact ⟨rfl, hlt, List.mem_cons_self⟩
    · obtain ⟨hsum, hlt, hmem⟩ := ih hj
      exact ⟨by omega, hlt, List.mem_cons_of_mem v hmem⟩

theorem place_of_var {k : Nat} (hk : vars[k]? = some v) (hi : i < v.size) :
    (places base vars)[((vars.take k).map Variable.size).sum + i]? =
      some ⟨v, base + ((vars.take k).map Variable.size).sum, i⟩ := by
  induction vars generalizing base k with
  | nil => cases hk
  | cons u vs ih =>
    cases k with
    | zero =>
      obtain rfl := Option.some.inj hk
      simp only [List.take_zero, List.map_nil, List.sum_nil, Nat.zero_add, Nat.add_zero, places]
      rw [List.getElem?_append_left (by simpa using hi), List.getElem?_map,
        List.getElem?_range hi]
      rfl
    | succ k =>
      rw [List.take_succ_cons, List.map_cons, List.sum_cons, places, Nat.add_assoc u.size,
        List.getElem?_append_right (by simp), List.length_map, List.length_range,
        Nat.add_sub_cancel_left, ih hk, Nat.add_assoc]

/-- The levels of a variable follow one another. -/
theorem place_pred (h : (places base vars)[i]? = some pl) (hl : 0 < pl.level) :
    0 < i ∧ (places base vars)[i - 1]? = some { pl with level := pl.level - 1 } := by
  induction vars generalizing base i with
  | nil => cases h
  | cons v vs ih =>
    rcases place_cases h with ⟨hlt, rfl⟩ | ⟨j, rfl, hj⟩
    · refine ⟨hl, ?_⟩
      have hl' : i - 1 < v.size := by omega
      rw [places, List.getElem?_append_left (by simpa using hl'), List.getElem?_map,
        List.getElem?_range hl']
      rfl
    · obtain ⟨hpos, hprev⟩ := ih hj
      refine ⟨by omega, ?_⟩
      rw [places, List.getElem?_append_right (by simp; omega), List.length_map, List.length_range,
        show v.size + j - 1 - v.size = j - 1 by omega, hprev]

theorem makeAll_spec (hsize : ∀ v ∈ vars, 0 < v.size) :
    (makeAll P base rows vars).1.length = (vars.map Variable.size).sum ∧
      ∀ (i : Nat) (pl : Place O), (places base vars)[i]? = some pl → ∃ t, (makeAll P base rows vars).1[i]? = some t ∧
        TreeAt P rows t pl.var pl.base pl.level := by
  induction vars generalizing base rows with
  | nil => exact ⟨rfl, nofun⟩
  | cons v vs ih =>
    obtain ⟨hlen, hperm, hv⟩ := make_spec (P := P) v base rows
    have hpos := hsize v List.mem_cons_self
    rw [Nat.max_eq_right hpos] at hlen
    obtain ⟨hlen', hall⟩ := @ih (v.make P base rows).2 (base + v.size)
      fun u hu => hsize u (List.mem_cons_of_mem v hu)
    rw [makeAll]
    simp only [hlen]
    refine ⟨by rw [List.length_append, hlen, hlen', List.map_cons, List.sum_cons],
      fun i pl hpl => ?_⟩
    rcases place_cases hpl with ⟨hlt, rfl⟩ | ⟨j, rfl, hj⟩
    · obtain ⟨t, ht, htree⟩ := hv i hlt
      exact ⟨t, by rw [List.getElem?_append_left (by omega), ht], htree⟩
    · obtain ⟨t, ht, htree⟩ := hall j pl hj
      refine ⟨t, ?_, htree.perm hperm⟩
      rw [List.getElem?_append_right (by omega), hlen, Nat.add_sub_cancel_left, ht]

/-- A variable without raw fields gets a tree nevertheless. -/
theorem length_makeAll (vars : List (Variable O)) :
    (makeAll P base rows vars).1.length = (vars.map fun v => max 1 v.size).sum := by
  induction vars generalizing base rows with
  | nil => rfl
  | cons v vs ih =>
    rw [makeAll, List.length_append, ih, (make_spec v base rows).1, List.map_cons, List.sum_cons]

/-! ## The order -/

/-- The first index that the tree of a level is split on. -/
def Variable.start (base i : Nat) : Variable O → Nat
  | .onto _ => base
  | .contin _ => base + (i - 1)
  | .disc _ => base

def startOf (vars : List (Variable O)) (idx : Nat) : Nat :=
  match (places 0 vars)[idx]? with
  | some pl => pl.var.start pl.base pl.level
  | none => idx

theorem startOf_place (h : (places 0 vars)[idx]? = some pl) :
    startOf vars idx = pl.var.start pl.base pl.level := by
  rw [startOf, h]

theorem start_zero (v : Variable O) : v.start base 0 = base := by
  cases v <;> rfl

theorem start_le (v : Variable O) (base i : Nat) : v.start base i ≤ base + i := by
  cases v with
  | onto => exact Nat.le_add_right base i
  | contin => exact Nat.add_le_add_left (Nat.sub_le i 1) base
  | disc => exact Nat.le_add_right base i

theorem startOf_le (vars : List (Variable O)) (idx : Nat) : startOf vars idx ≤ idx := by
  cases hpl : (places 0 vars)[idx]? with
  | none => rw [startOf, hpl]
  | some pl =>
    have := (place_index hpl).1
    have := start_le pl.var pl.base pl.level
    rw [startOf_place hpl]
    omega

theorem start_pred_le (v : Variable O) : v.start base (i - 1) ≤ v.start base i := by
  cases v with
  | onto => exact le_rfl
  | contin => exact Nat.add_le_add_left (by omega) base
  | disc => exact le_rfl

theorem mem_levelDeps {d : Nat} (hpos : 0 < i) (hi : i < d) :
    (base + i - 1, base + i) ∈ (List.range' 1 (d - 1)).map fun i => (base + i - 1, base + i) :=
  List.mem_map.mpr ⟨i, List.mem_range'_1.mpr (by omega), rfl⟩

theorem deps_of_place (h : (places base vars)[i]? = some pl) (hl : 0 < pl.level) :
    (base + i - 1, base + i) ∈ deps base vars := by
  induction vars generalizing base i with
  | nil => cases h
  | cons v vs ih =>
    rw [deps, List.mem_append]
    rcases place_cases h with ⟨hlt, rfl⟩ | ⟨j, rfl, hj⟩
    · left
      cases v with
      | onto tr => exact mem_levelDeps hl hlt
      | contin d => exact mem_levelDeps hl hlt
      | disc a => exact absurd (Nat.lt_one_iff.mp hlt) hl.ne'
    · right
      rw [← Nat.add_assoc]
      exact ih hj

theorem deps_succ {e : Nat × Nat} (h : e ∈ deps base vars) : e.2 = e.1 + 1 := by
  have hlevel (base d : Nat) {e : Nat × Nat}
      (h : e ∈ (List.range' 1 (d - 1)).map fun i => (base + i - 1, base + i)) :
      e.2 = e.1 + 1 := by
    obtain ⟨i, hi, rfl⟩ := List.mem_map.mp h
    have := (List.mem_range'_1.mp hi).1
    simp only
    omega
  induction vars generalizing base with
  | nil => cases h
  | cons v vs ih =>
    rcases List.mem_append.mp h with h | h
    · cases v with
      | onto tr => exact hlevel _ _ h
      | contin d => exact hlevel _ _ h
      | disc a => cases h
    · exact ih h

theorem edge_insert (g : Digraph n) (a b src dst : Fin n) :
    (g.insert a b).Edge src dst ↔ g.Edge src dst ∨ src = a ∧ dst = b := by
  simp only [Digraph.Edge, Digraph.insert, Function.update_apply]
  by_cases h : dst = b
  · subst h
    rw [if_pos rfl, Finset.mem_insert]
    tauto
  · rw [if_neg h]
    tauto

theorem edge_initialDeps (edges : List (Nat × Nat)) (src dst : Fin n) :
    (initialDeps n edges).Edge src dst ↔ (src.val, dst.val) ∈ edges := by
  have hfold (g : Digraph n) : (edges.foldl (fun g e =>
      if h : e.1 < n ∧ e.2 < n then g.insert ⟨e.1, h.1⟩ ⟨e.2, h.2⟩ else g) g).Edge src dst ↔
      g.Edge src dst ∨ (src.val, dst.val) ∈ edges := by
    induction edges generalizing g with
    | nil => simp
    | cons e edges ih =>
      rw [List.foldl_cons, ih, List.mem_cons]
      have hstep : (if h : e.1 < n ∧ e.2 < n then g.insert ⟨e.1, h.1⟩ ⟨e.2, h.2⟩ else g).Edge
          src dst ↔ g.Edge src dst ∨ (src.val, dst.val) = e := by
        split
        · rw [edge_insert, Prod.ext_iff, Fin.ext_iff, Fin.ext_iff]
        · next h =>
          refine ⟨.inl, fun h' => h'.resolve_right ?_⟩
          rintro rfl
          exact h ⟨src.isLt, dst.isLt⟩
      rw [hstep, or_assoc]
  rw [initialDeps, hfold]
  simp [Digraph.Edge, Digraph.create]

theorem initialDeps_acyclic (vars : List (Variable O)) :
    (initialDeps n (deps 0 vars)).Acyclic := by
  intro x hx
  have hlt : ∀ {a b}, Relation.TransGen (initialDeps n (deps 0 vars)).Edge a b → a < b := by
    intro a b h
    have hone : ∀ {a b}, (initialDeps n (deps 0 vars)).Edge a b → a < b := by
      intro a b he
      have := deps_succ ((edge_initialDeps _ _ _).mp he)
      exact Fin.lt_def.mpr (by simp only at this; omega)
    induction h with
    | single h => exact hone h
    | tail _ h ih => exact ih.trans (hone h)
  exact lt_irrefl x (hlt hx)

theorem ordering_spec (vars : List (Variable O)) (shuffle : Equiv.Perm (Fin n)) :
    ((initialDeps n (deps 0 vars)).randomizedTopologicalSort shuffle).isDag = true ∧
      Ordered (startOf vars) []
        (((initialDeps n (deps 0 vars)).randomizedTopologicalSort shuffle).out.map Fin.val) ∧
      ∀ idx < n, idx ∈
        ((initialDeps n (deps 0 vars)).randomizedTopologicalSort shuffle).out.map Fin.val := by
  obtain ⟨hnd, hall, hedge, hdag⟩ := ((Digraph.sortsOrRejects_iff _ shuffle).mpr
    (.inl (initialDeps_acyclic vars))).sorts (initialDeps_acyclic (n := n) vars)
  refine ⟨hdag, ⟨?_, nofun, fun pre idx post hpost hlt => ?_⟩, fun idx hidx => ?_⟩
  · rw [List.nil_append]
    exact hnd.map Fin.val_injective
  · cases hpl : (places 0 vars)[idx]? with
    | none =>
      rw [startOf, hpl] at hlt
      exact absurd hlt (lt_irrefl idx)
    | some pl =>
      have hidx := place_index hpl
      have hl : 0 < pl.level := by
        by_contra h0
        rw [startOf_place hpl, Nat.eq_zero_of_not_pos h0, start_zero] at hlt
        omega
      obtain ⟨hpos, hprev⟩ := place_pred hpl hl
      refine ⟨?_, ?_⟩
      · rw [startOf_place hpl, startOf_place hprev]
        exact start_pred_le pl.var
      · -- the field before it was written earlier
        obtain ⟨pre', rest, hout, rfl, hrest⟩ := List.map_eq_append_iff.mp hpost
        obtain ⟨x, post', rfl, rfl, -⟩ := List.map_eq_cons_iff.mp hrest
        have hdep := deps_of_place hpl hl
        rw [Nat.zero_add] at hdep
        have hbefore := hedge ⟨x.val - 1, by omega⟩ x ((edge_initialDeps _ _ _).mpr hdep)
        have hx : x ∉ pre' := by
          rw [hout] at hnd
          exact fun h => (List.nodup_append.mp hnd).2.2 x h x List.mem_cons_self rfl
        rw [hout, List.idxOf_append_of_notMem hx, List.idxOf_cons_self, Nat.add_zero] at hbefore
        rw [List.nil_append, List.mem_map]
        refine ⟨⟨x.val - 1, by omega⟩, ?_, rfl⟩
        by_contra hmem
        rw [List.idxOf_append_of_notMem hmem] at hbefore
        omega
  · exact List.mem_map.mpr ⟨⟨idx, hidx⟩, hall _, rfl⟩

/-! ## The model -/

theorem build_spec (shuffle : Equiv.Perm (Fin n)) (hn : (vars.map Variable.size).sum = n)
    (hsize : ∀ v ∈ vars, 0 < v.size) :
    build P n shuffle vars rows = some ⟨(makeAll P 0 rows vars).1,
      ((initialDeps n (deps 0 vars)).randomizedTopologicalSort shuffle).out.map Fin.val⟩ := by
  unfold build
  simp only
  rw [if_pos ((makeAll_spec hsize).1.trans hn).le, if_pos (ordering_spec vars shuffle).1]

/-- A variable without raw fields makes the trees run past the end. -/
theorem size_pos_of_build {model : Model} (shuffle : Equiv.Perm (Fin n))
    (hn : (vars.map Variable.size).sum = n) (h : build P n shuffle vars rows = some model) :
    ∀ v ∈ vars, 0 < v.size := by
  intro v hv
  by_contra hzero
  have hlt : (vars.map Variable.size).sum < (vars.map fun v => max 1 v.size).sum := by
    refine List.sum_lt_sum _ _ (fun u _ => Nat.le_max_right 1 u.size) ⟨v, hv, ?_⟩
    omega
  unfold build at h
  simp only at h
  rw [if_neg (by rw [length_makeAll]; omega)] at h
  cases h

theorem ordering_lt {model : Model} (shuffle : Equiv.Perm (Fin n))
    (h : build P n shuffle vars rows = some model) : ∀ idx ∈ model.ordering, idx < n := by
  unfold build at h
  simp only at h
  split at h
  · split at h
    · obtain rfl := Option.some.inj h
      intro idx hidx
      obtain ⟨x, -, rfl⟩ := List.mem_map.mp hidx
      exact x.isLt
    · cases h
  · cases h

theorem place_of_tree (hsize : ∀ v ∈ vars, 0 < v.size)
    (ht : (makeAll P 0 rows vars).1[idx]? = some t) :
    ∃ pl, (places 0 vars)[idx]? = some pl ∧ TreeAt P rows t pl.var pl.base pl.level := by
  obtain ⟨hlen, hall⟩ := @makeAll_spec O P rows _ 0 hsize
  have hlt := (List.getElem?_eq_some_iff.mp ht).1
  rw [hlen, ← length_places 0] at hlt
  have hpl := List.getElem?_eq_getElem hlt
  obtain ⟨t', ht', htree⟩ := hall idx _ hpl
  obtain rfl := Option.some.inj (ht.symm.trans ht')
  exact ⟨_, hpl, htree⟩

theorem single_of_mem (hsize : ∀ v ∈ vars, 0 < v.size) :
    ∀ t ∈ (makeAll P 0 rows vars).1, Single t := by
  intro t ht
  obtain ⟨idx, hidx⟩ := List.mem_iff_getElem?.mp ht
  obtain ⟨pl, -, htree⟩ := place_of_tree hsize hidx
  exact htree.single

/-- The model is learned iff every value has its place in the leaf that it is counted in. -/
theorem probsLearning_iff (hsize : ∀ v ∈ vars, 0 < v.size) :
    (∃ ts, probsLearning P 0 (makeAll P 0 rows vars).1 rows = some ts) ↔
      ∀ (idx : Nat) t, (makeAll P 0 rows vars).1[idx]? = some t → ∀ x ∈ rows, Room idx t 0 x := by
  constructor
  · rintro ⟨ts, hts⟩ idx t ht x hx
    have := probsLearning_room (single_of_mem hsize) hts idx t ht x hx
    rwa [Nat.zero_add] at this
  · intro hroom
    obtain ⟨ts, hts, -⟩ := @probsLearning_spec P _ 0 _ (single_of_mem hsize)
      fun i t ht x hx => by
        rw [Nat.zero_add]
        exact hroom i t ht x hx
    exact ⟨ts, hts⟩

/-- A learned tree is at a place. -/
theorem place_of_learnt {ts : List DTree} (hsize : ∀ v ∈ vars, 0 < v.size)
    (h : probsLearning P 0 (makeAll P 0 rows vars).1 rows = some ts) (hidx : ts[idx]? = some t) :
    ∃ pl, (places 0 vars)[idx]? = some pl := by
  have hlt := (List.getElem?_eq_some_iff.mp hidx).1
  rw [length_probsLearning h] at hlt
  obtain ⟨pl, hpl, -⟩ := place_of_tree hsize (List.getElem?_eq_getElem hlt)
  exact ⟨pl, hpl⟩

/-- What learning leaves at each place. -/
theorem learnt_at {ts : List DTree} (hsize : ∀ v ∈ vars, 0 < v.size)
    (h : probsLearning P 0 (makeAll P 0 rows vars).1 rows = some ts)
    (hpl : (places 0 vars)[idx]? = some pl) :
    ∃ t t', ts[idx]? = some t' ∧ TreeAt P rows t pl.var pl.base pl.level ∧
      Learnt rows idx t t' := by
  have hroom := (probsLearning_iff hsize).mp ⟨ts, h⟩
  obtain ⟨ts', hts', -, hlearnt⟩ := @probsLearning_spec P _ 0 _ (single_of_mem hsize)
    fun i t ht x hx => by
      rw [Nat.zero_add]
      exact hroom i t ht x hx
  obtain rfl := Option.some.inj (h.symm.trans hts')
  obtain ⟨t, ht, htree⟩ := (@makeAll_spec O P rows _ 0 hsize).2 idx pl hpl
  obtain ⟨t', ht', hl⟩ := hlearnt idx t ht
  rw [Nat.zero_add] at hl
  exact ⟨t, t', ht', htree, hl⟩

/-- The sampled values occur, each behind those that its tree is split on. -/
theorem model_samples {ts : List DTree} (shuffle : Equiv.Perm (Fin n))
    (hn : (vars.map Variable.size).sum = n) (hsize : ∀ v ∈ vars, 0 < v.size) (hne : rows ≠ [])
    (h : probsLearning P 0 (makeAll P 0 rows vars).1 rows = some ts)
    (hlinked : ∀ (idx : Nat) (pl : Place O) t, (places 0 vars)[idx]? = some pl →
      TreeAt P rows t pl.var pl.base pl.level → (∀ x ∈ rows, Room idx t 0 x) →
      Linked rows t (pl.var.start pl.base pl.level) idx)
    {draws : Nat → Rat} (hdraws : ∀ i, 0 ≤ draws i ∧ draws i < 1) (m : Row) :
    ∃ tmp, sampleAll ts draws
        (((initialDeps n (deps 0 vars)).randomizedTopologicalSort shuffle).out.map Fin.val) m =
          some tmp ∧ ∀ idx < n, Occurs rows (startOf vars idx) idx tmp := by
  obtain ⟨-, ho, hmem⟩ := ordering_spec vars shuffle
  obtain ⟨tmp, hrun, hall⟩ := sampleAll_spec hne hdraws (fun idx hidx => by
    obtain ⟨x, -, rfl⟩ := List.mem_map.mp hidx
    have hlt : x.val < (places 0 vars).length := by
      rw [length_places, hn]
      exact x.isLt
    have hpl := List.getElem?_eq_getElem hlt
    obtain ⟨t, t', ht', htree, hl⟩ := learnt_at hsize h hpl
    refine ⟨t, t', ht', hl, ?_⟩
    rw [startOf_place hpl]
    exact hlinked _ _ t hpl htree hl.room) ho nofun (m := m)
  exact ⟨tmp, hrun, fun idx hidx => hall idx (hmem idx hidx)⟩

end OpenCog.Moses.LocalStructure
