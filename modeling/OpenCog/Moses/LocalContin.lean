import OpenCog.Moses.LocalVariables
import OpenCog.Moses.RawValues

/-! A model of continuous and discrete variables samples what the deme holds, unless the generator
draws a one or a continuous variable has no raw fields. -/
namespace OpenCog.Moses.LocalStructure

open Util FieldSet ContinSpec

variable {O C : Type} {P : Partition Row} {rows : List Row} {t t' : DTree} {x : Row}
  {base idx i a d : Nat} {fs : FieldSet C}

/-! ## Trees of one leaf -/

theorem route_makeDTree (x : Row) (a : Nat) : route x (makeDTree a) 0 = [] :=
  route_leaves x (a + 1) 1 0

theorem leafAt_makeDTree (a : Nat) : leafAt (makeDTree a) 0 [] = some (List.replicate (a + 1) 0) :=
  rfl

theorem room_makeDTree : Room idx (makeDTree a) 0 x ↔ x idx < a := by
  rw [Room, route_makeDTree]
  simp [leafAt_makeDTree]

theorem linked_makeDTree (rows : List Row) (a idx : Nat) :
    Linked rows (makeDTree a) idx idx := by
  intro m y _ _
  refine ⟨.inl rfl, ?_, fun x hx _ => ⟨x, hx, fun q hlo hhi => by omega, rfl⟩⟩
  rw [route_makeDTree, route_makeDTree]

theorem learnt_makeDTree (h : Learnt rows idx (makeDTree a) t') :
    t' = .cons (tally a idx rows) .nil .nil := by
  have hleaf := h.leaf [] _ (leafAt_makeDTree a)
  have hall : (rows.filter fun x => route x (makeDTree a) 0 = []) = rows :=
    List.filter_eq_self.mpr fun x _ => decide_eq_true (route_makeDTree x a)
  rw [hall, List.length_replicate, Nat.add_sub_cancel] at hleaf
  cases h.splits with
  | leaf hn =>
    cases hn
    obtain rfl := Option.some.inj hleaf
    rfl
  | split hc => exact absurd rfl hc

theorem TreeAt.zero {v : Variable O} (h : TreeAt P rows t v base 0) : ∃ a, t = makeDTree a := by
  cases v with
  | onto tr => exact ⟨_, h⟩
  | contin d => exact ⟨_, h⟩
  | disc a => exact ⟨_, h⟩

/-! ## Trees split on the field before -/

theorem isUniformOn_iff {l : List Row} :
    isUniformOn l idx = true ↔ ∀ x ∈ l, ∀ y ∈ l, x idx = y idx := by
  induction l with
  | nil => simp [isUniformOn]
  | cons z l ih =>
    cases l with
    | nil => simp [isUniformOn]
    | cons w l =>
      have hstep : isUniformOn (z :: w :: l) idx = true ↔
          z idx = w idx ∧ isUniformOn (w :: l) idx = true := by simp [isUniformOn]
      rw [hstep, ih]
      constructor
      · rintro ⟨hzw, hall⟩ x hx y hy
        have hw : ∀ x ∈ z :: w :: l, x idx = w idx := by
          intro x hx
          rcases List.mem_cons.mp hx with rfl | hx
          · exact hzw
          · exact hall x hx w List.mem_cons_self
        exact (hw x hx).trans (hw y hy).symm
      · intro hall
        exact ⟨hall z List.mem_cons_self w (List.mem_cons_of_mem z List.mem_cons_self),
          fun x hx y hy => hall x (List.mem_cons_of_mem z hx) y (List.mem_cons_of_mem z hy)⟩

theorem route_split (x : Row) (srcIdx : Nat) :
    route x (split srcIdx (List.replicate 4 0)) 0 = [min (x srcIdx) 2] := by
  change min (x srcIdx) 2 :: route x (leaves 4 3) (min (x srcIdx) 2) = _
  rw [route_leaves]

theorem leafAt_split {b : Nat} (srcIdx : Nat) (hb : b < 3) :
    leafAt (split srcIdx (List.replicate 4 0)) 0 [b] = some (List.replicate 4 0) := by
  change leafAt (leaves 4 3) b [] = _
  rw [leafAt_leaves hb]

theorem room_contin (h : TreeAt P rows t (.contin d : Variable O) base i) :
    Room (base + i) t 0 x ↔ x (base + i) < 3 := by
  cases i with
  | zero =>
    obtain rfl : t = makeDTree 3 := h
    exact room_makeDTree
  | succ i =>
    obtain ⟨r, -, rfl⟩ := h
    rw [recSplitContin_zero]
    split
    · exact room_makeDTree
    · rw [Room, route_split]
      simp only [leafAt_split _ (show min (x (base + (i + 1) - 1)) 2 < 3 by omega)]
      simp
      omega

/-- Behind a value of the field before, a value counted there is that of a row with this value. -/
theorem linked_contin (h : TreeAt P rows t (.contin d : Variable O) base i)
    (hsmall : ∀ x ∈ rows, ∀ j ≤ i, x (base + j) < 3) :
    Linked rows t (base + (i - 1)) (base + i) := by
  cases i with
  | zero =>
    obtain rfl : t = makeDTree 3 := h
    exact linked_makeDTree rows 3 base
  | succ i =>
    obtain ⟨r, hperm, rfl⟩ := h
    rw [Nat.add_sub_cancel, recSplitContin_zero]
    intro m y hy hagree
    have hym : y (base + i) = m (base + i) := hagree (base + i) le_rfl (by omega)
    by_cases hu : isUniformOn r (base + (i + 1)) = true
    · rw [if_pos hu]
      refine ⟨.inl rfl, by rw [route_makeDTree, route_makeDTree], fun x hx _ => ?_⟩
      refine ⟨y, hy, hagree, isUniformOn_iff.mp hu y ?_ x ?_⟩
      · exact hperm.mem_iff.mpr hy
      · exact hperm.mem_iff.mpr hx
    · rw [if_neg hu]
      have hlt := hsmall y hy i (Nat.le_succ i)
      have hprev : base + (i + 1) - 1 = base + i := by omega
      rw [route_split, route_split, hprev, hym]
      refine ⟨.inr ⟨base + i, rfl, ?_, ?_⟩, rfl, fun x hx hroute => ?_⟩
      · exact (hym ▸ hlt : m (base + i) < 3)
      · exact within_leaves (n := 4) (hym ▸ hlt : m (base + i) < 3)
      · refine ⟨x, hx, fun q hlo hhi => ?_, rfl⟩
        obtain rfl : q = base + i := by omega
        have hx3 := hsmall x hx i (Nat.le_succ i)
        rw [route_split] at hroute
        have := (List.cons.inj hroute).1
        omega

/-! ## Canonical rows -/

/-- Steps, and then only stops. -/
def CanonicalRow (m : Row) (start depth : Nat) : Prop :=
  ∃ num ≤ depth, (∀ p < num, m (start + p) = left ∨ m (start + p) = right) ∧
    ∀ p, num ≤ p → p < depth → m (start + p) = stop

theorem canonicalRow_of_pairs {m : Row} {start depth : Nat} (hsmall : ∀ i < depth, m (start + i) < 3)
    (hpair : ∀ i, i + 1 < depth → m (start + i) = stop → m (start + (i + 1)) = stop) :
    CanonicalRow m start depth := by
  induction depth with
  | zero => exact ⟨0, le_rfl, nofun, nofun⟩
  | succ depth ih =>
    obtain ⟨num, hle, hsteps, hstops⟩ := ih (fun i hi => hsmall i (by omega))
      fun i hi => hpair i (by omega)
    have hlast := hsmall depth (Nat.lt_succ_self depth)
    by_cases hstop : m (start + depth) = stop
    · refine ⟨num, by omega, hsteps, fun p hp hp' => ?_⟩
      by_cases e : p = depth
      · rw [e, hstop]
      · exact hstops p hp (by omega)
    · have hnum : num = depth := by
        by_contra hne
        refine hstop ?_
        have := hpair (depth - 1) (by omega) (hstops (depth - 1) (by omega) (by omega))
        rwa [show depth - 1 + 1 = depth by omega] at this
      refine ⟨depth + 1, le_rfl, fun p hp => ?_, fun p hp hp' => by omega⟩
      by_cases e : p = depth
      · rw [e]
        change ¬ m (start + depth) = 0 at hstop
        change m (start + depth) = 1 ∨ m (start + depth) = 2
        omega
      · exact hsteps p (by omega)

theorem CanonicalRow.pair {m : Row} {start depth i : Nat} (h : CanonicalRow m start depth)
    (hi : i + 1 < depth) (hstop : m (start + i) = stop) : m (start + (i + 1)) = stop := by
  obtain ⟨num, -, hsteps, hstops⟩ := h
  refine hstops (i + 1) ?_ hi
  by_contra hlt
  rcases hsteps i (by omega) with e | e
  · rw [hstop] at e
    cases e
  · rw [hstop] at e
    cases e

theorem CanonicalRow.small {m : Row} {start depth i : Nat} (h : CanonicalRow m start depth)
    (hi : i < depth) : m (start + i) < 3 := by
  obtain ⟨num, -, hsteps, hstops⟩ := h
  by_cases hlt : i < num
  · rcases hsteps i hlt with e | e
    · rw [e]; decide
    · rw [e]; decide
  · rw [hstops i (by omega) hi]
    decide

theorem canonicalRow_of_canonicalAt {inst : FieldSet.Instance} {start depth num : Nat}
    (h : fs.CanonicalAt inst start depth num) : CanonicalRow (rowOf fs inst) start depth := by
  refine ⟨num, h.le, fun p hp => ?_, fun p hp hp' => ?_⟩
  · rcases h.steps p hp with e | e
    · exact .inl (by rw [rowOf, e, Option.getD_some])
    · exact .inr (by rw [rowOf, e, Option.getD_some])
  · rw [rowOf, h.stops p hp hp', Option.getD_some]

/-! ## The deme -/

/-- The bound of each discrete variable. -/
def discBound (fs : FieldSet C) (j : Nat) : Nat := (fs.discAndBits[j]?.map discArity).getD 0

/-- Values that a block may hold. -/
def SmallAt (x : Row) (base : Nat) : Variable O → Prop
  | .onto _ => True
  | .contin depth => ∀ i < depth, x (base + i) < 3
  | .disc arity => x base < arity

theorem room_small {v : Variable O} (hv : ∀ tr, v ≠ .onto tr) (h : TreeAt P rows t v base i)
    (hi : i < v.size) (hs : SmallAt x base v) : Room (base + i) t 0 x := by
  cases v with
  | onto tr => exact absurd rfl (hv tr)
  | contin d => exact (room_contin h).mpr (hs i hi)
  | disc a =>
    obtain rfl : i = 0 := Nat.lt_one_iff.mp hi
    obtain rfl : t = makeDTree a := h
    exact room_makeDTree.mpr hs

theorem linked_small {v : Variable O} (hv : ∀ tr, v ≠ .onto tr) (h : TreeAt P rows t v base i)
    (hi : i < v.size) (hs : ∀ x ∈ rows, SmallAt x base v) :
    Linked rows t (v.start base i) (base + i) := by
  cases v with
  | onto tr => exact absurd rfl (hv tr)
  | contin d => exact linked_contin h fun x hx j hj => hs x hx j (Nat.lt_of_le_of_lt hj hi)
  | disc a =>
    obtain rfl : i = 0 := Nat.lt_one_iff.mp hi
    obtain rfl : t = makeDTree a := h
    exact linked_makeDTree rows a base

/-- The rows of a deme. -/
theorem mapM_readRow {deme : List FieldSet.Instance}
    (h : ∀ inst ∈ deme, ∀ i < fs.rawSize, (fs.getRaw inst i).isSome) :
    deme.mapM (readRow fs) = some (deme.map (rowOf fs)) := by
  induction deme with
  | nil => rfl
  | cons inst deme ih =>
    rw [List.mapM_cons, ih fun i hi => h i (List.mem_cons_of_mem inst hi), readRow,
      if_pos (h inst List.mem_cons_self)]
    rfl

theorem mapM_readRow_eq {deme : List FieldSet.Instance} (h : deme.mapM (readRow fs) = some rows) :
    rows = deme.map (rowOf fs) ∧ ∀ inst ∈ deme, ∀ i < fs.rawSize, (fs.getRaw inst i).isSome := by
  induction deme generalizing rows with
  | nil =>
    obtain rfl := Option.some.inj h
    exact ⟨rfl, nofun⟩
  | cons inst deme ih =>
    rw [List.mapM_cons] at h
    obtain ⟨x, hx, h⟩ := Option.bind_eq_some_iff.mp h
    obtain ⟨rest, hrest, h⟩ := Option.bind_eq_some_iff.mp h
    obtain rfl := Option.some.inj h
    obtain ⟨rfl, hall⟩ := ih hrest
    unfold readRow at hx
    split at hx
    · next hread =>
      obtain rfl := Option.some.inj hx
      refine ⟨rfl, fun i hi => ?_⟩
      rcases List.mem_cons.mp hi with rfl | hi
      · exact hread
      · exact hall i hi
    · cases hx

/-- A legal instance as a row. -/
theorem legal_row [LinearOrder C] {specs : List (Spec C)} (h : ofSpecs specs = some fs)
    (ht : HasTrees fs ([] : List (OntoTree O))) {inst : FieldSet.Instance}
    (hl : fs.LegalBy (discBound fs) inst) :
    (∀ i < fs.rawSize, (fs.getRaw inst i).isSome) ∧
      (∀ (v : Variable O) base, Block fs [] v base → SmallAt (rowOf fs inst) base v) ∧
      ∀ k c, fs.contin[k]? = some c →
        CanonicalRow (rowOf fs inst) (fs.continToRawIdx k) c.depth := by
  have hcanonical : ∀ k c, fs.contin[k]? = some c →
      ∃ num, fs.CanonicalAt inst (fs.continToRawIdx k) c.depth num := fun k c hc => hl.block hc
  have hdisc : ∀ j d, fs.discAndBits[j]? = some d →
      ∃ v < discArity d, fs.getRaw inst (fs.discStart + j) = some v := by
    intro j d hd
    obtain ⟨v, hv, hread⟩ := hl.disc j (List.getElem?_eq_some_iff.mp hd).1
    rw [discBound, hd] at hv
    exact ⟨v, hv, hread⟩
  refine ⟨fun i hi => ?_, fun v base hb => ?_, fun k c hc => ?_⟩
  · have hlt : i < (places 0 (variablesOf fs ([] : List (OntoTree O)))).length := by
      rw [length_places, size_variablesOf h ht]
      exact hi
    obtain ⟨⟨v, base, level⟩, hpl⟩ : ∃ pl, (places 0 (variablesOf fs []))[i]? = some pl :=
      ⟨_, List.getElem?_eq_getElem hlt⟩
    obtain ⟨hb, hidx, hlevel⟩ := block_of_place ht hpl
    simp only at hb hidx hlevel
    rw [← hidx]
    cases hb with
    | onto htr => cases htr
    | contin hc =>
      obtain ⟨num, hat⟩ := hcanonical _ _ hc
      rcases Nat.lt_or_ge _ num with hp | hp
      · rcases hat.steps _ hp with e | e
        · rw [e]; rfl
        · rw [e]; rfl
      · rw [hat.stops _ hp hlevel]; rfl
    | disc hd =>
      obtain ⟨w, -, hread⟩ := hdisc _ _ hd
      rw [Nat.lt_one_iff.mp hlevel, Nat.add_zero, hread]
      rfl
  · cases hb with
    | onto htr => cases htr
    | contin hc =>
      obtain ⟨num, hat⟩ := hcanonical _ _ hc
      exact fun i hi => (canonicalRow_of_canonicalAt hat).small hi
    | disc hd =>
      obtain ⟨w, hw, hread⟩ := hdisc _ _ hd
      rw [SmallAt, rowOf, hread]
      exact hw
  · obtain ⟨num, hat⟩ := hcanonical k c hc
    exact canonicalRow_of_canonicalAt hat

/-! ## What is sampled -/

/-- Every value of the sequence occurs in a row, and every two that follow one another in a
continuous variable occur in one row. -/
structure Samples (fs : FieldSet C) (rows : List Row) (tmp : Row) : Prop where
  value : ∀ i < fs.rawSize, ∃ x ∈ rows, x i = tmp i
  pair : ∀ k c, fs.contin[k]? = some c → ∀ i, i + 1 < c.depth → ∃ x ∈ rows,
    x (fs.continToRawIdx k + i) = tmp (fs.continToRawIdx k + i) ∧
      x (fs.continToRawIdx k + (i + 1)) = tmp (fs.continToRawIdx k + (i + 1))
  canonical : ∀ k c, fs.contin[k]? = some c → CanonicalRow tmp (fs.continToRawIdx k) c.depth

/-- The model is built and learned, its leaves hold the sums of what is routed to them, and for
all draws of the generator, which returns numbers of `D`, the sampled values are legal. -/
def SamplesLegal (P : Partition Row) (fs : FieldSet C) (shuffle : Equiv.Perm (Fin fs.rawSize))
    (deme : List FieldSet.Instance) (D : Set Rat) : Prop :=
  ∃ rows model ts, deme.mapM (readRow fs) = some rows ∧
    build P fs.rawSize shuffle (variablesOf fs ([] : List (OntoTree Unit))) rows = some model ∧
    probsLearning P 0 model.dtrees rows = some ts ∧
    (∀ (idx : Nat) t, ts[idx]? = some t → ∀ p d, leafAt t 0 p = some d →
      d.getLast? = some (rows.countP fun x => route x t 0 = p)) ∧
    ∀ draws : Nat → Rat, (∀ i, draws i ∈ D) →
      ∃ tmp, sampleAll ts draws model.ordering (fun _ => 0) = some tmp ∧ Samples fs rows tmp

variable {vars : List (Variable O)} {ts : List DTree} {n : Nat}

/-- When all draws are one, the first tree of a variable yields a value that no row has there. -/
theorem sample_one {pl : Place O} {tmp : Row} (shuffle : Equiv.Perm (Fin n))
    (hn : (vars.map Variable.size).sum = n) (hsize : ∀ v ∈ vars, 0 < v.size) (hne : rows ≠ [])
    (h : probsLearning P 0 (makeAll P 0 rows vars).1 rows = some ts)
    (hpl : (places 0 vars)[idx]? = some pl) (hzero : pl.level = 0) (m : Row)
    (hrun : sampleAll ts (fun _ => 1)
      (((initialDeps n (deps 0 vars)).randomizedTopologicalSort shuffle).out.map Fin.val) m =
        some tmp) :
    ∃ a, TreeAt P rows (makeDTree a) pl.var pl.base 0 ∧ tmp idx = a ∧ ∀ x ∈ rows, x idx < a := by
  obtain ⟨t, t', ht', htree, hl⟩ := learnt_at hsize h hpl
  rw [hzero] at htree
  obtain ⟨a, rfl⟩ := htree.zero
  obtain rfl := learnt_makeDTree hl
  obtain ⟨-, ho, hmem⟩ := ordering_spec vars shuffle
  have hlt : idx < n := by
    rw [← hn, ← length_places 0]
    exact (List.getElem?_eq_some_iff.mp hpl).1
  have hsmall : ∀ x ∈ rows, x idx < a := fun x hx => room_makeDTree.mp (hl.room x hx)
  have hnd := ho.nodup
  rw [List.nil_append] at hnd
  obtain ⟨v, hv, hat⟩ := (sampleAll_leaf hrun hnd ht').1 (hmem idx hlt)
  rw [sampleLeaf_one hne hsmall] at hv
  exact ⟨a, htree, by rw [hat, Option.some.inj hv], hsmall⟩

variable {deme : List FieldSet.Instance} {D : Set Rat}

/-- The same of the model that is built for a deme. -/
theorem model_samples_one [LinearOrder C] {specs : List (Spec C)} {trees : List (OntoTree O)}
    {shuffle : Equiv.Perm (Fin fs.rawSize)} {model : Model} {pl : Place O} {tmp : Row}
    (h : ofSpecs specs = some fs) (ht : HasTrees fs trees) (hne : deme ≠ [])
    (hrows : deme.mapM (readRow fs) = some rows)
    (hbuild : build P fs.rawSize shuffle (variablesOf fs trees) rows = some model)
    (hlearn : probsLearning P 0 model.dtrees rows = some ts)
    (hrun : sampleAll ts (fun _ => 1) model.ordering (fun _ => 0) = some tmp)
    (hpl : (places 0 (variablesOf fs trees))[idx]? = some pl) (hzero : pl.level = 0) :
    ∃ a, TreeAt P rows (makeDTree a) pl.var pl.base 0 ∧ tmp idx = a ∧ ∀ x ∈ rows, x idx < a := by
  have hn := size_variablesOf h ht
  have hsize := size_pos_of_build shuffle hn hbuild
  rw [build_spec shuffle hn hsize] at hbuild
  obtain rfl := Option.some.inj hbuild
  have hrne : rows ≠ [] := by
    rw [(mapM_readRow_eq hrows).1]
    exact fun e => hne (List.map_eq_nil_iff.mp e)
  exact sample_one shuffle hn hsize hrne hlearn hpl hzero _ hrun

theorem hasTrees_nil (honto : fs.ofKind 0 = []) : HasTrees fs ([] : List (OntoTree O)) := by
  rw [HasTrees, honto]
  rfl

theorem block_size_pos {v : Variable O} (hdepth : ∀ c ∈ fs.contin, 0 < c.depth)
    (hb : Block fs ([] : List (OntoTree O)) v base) : 0 < v.size := by
  cases hb with
  | onto htr => cases htr
  | contin hc => exact hdepth _ (List.mem_of_getElem? hc)
  | disc => exact Nat.one_pos

theorem not_one_mem [LinearOrder C] {specs : List (Spec C)} (h : ofSpecs specs = some fs)
    (honto : fs.ofKind 0 = []) {shuffle : Equiv.Perm (Fin fs.rawSize)} (hne : deme ≠ [])
    (hs : SamplesLegal P fs shuffle deme D) (hraw : 0 < fs.rawSize) : (1 : Rat) ∉ D := by
  intro hone
  obtain ⟨rows, model, ts, hrows, hbuild, hlearn, -, hsample⟩ := hs
  have ht : HasTrees fs ([] : List (OntoTree Unit)) := hasTrees_nil honto
  obtain ⟨tmp, hrun, hlegal⟩ := hsample (fun _ => 1) fun _ => hone
  have hlt : 0 < (places 0 (variablesOf fs ([] : List (OntoTree Unit)))).length := by
    rw [length_places, size_variablesOf h ht]
    exact hraw
  have hpl := List.getElem?_eq_getElem hlt
  have hindex := (place_index hpl).1
  obtain ⟨a, -, hat, hsmall⟩ :=
    model_samples_one h ht hne hrows hbuild hlearn hrun hpl (by omega)
  obtain ⟨x, hx, hxv⟩ := hlegal.value 0 hraw
  have hxa := hsmall x hx
  omega

theorem samplesLegal_of_draws [LinearOrder C] {specs : List (Spec C)} (h : ofSpecs specs = some fs)
    (honto : fs.ofKind 0 = []) (shuffle : Equiv.Perm (Fin fs.rawSize)) (hne : deme ≠ [])
    (hlegal : ∀ inst ∈ deme, fs.LegalBy (discBound fs) inst)
    (hdepth : ∀ c ∈ fs.contin, 0 < c.depth) (hD : ∀ d ∈ D, 0 ≤ d ∧ d < 1) :
    SamplesLegal P fs shuffle deme D := by
  have ht : HasTrees fs ([] : List (OntoTree Unit)) := hasTrees_nil honto
  have hn := size_variablesOf h ht
  have hrow := fun inst hi => legal_row h ht (hlegal inst hi)
  have hnoOnto : ∀ {v : Variable Unit} {base}, Block fs [] v base → ∀ tr, v ≠ .onto tr := by
    rintro v base hb tr rfl
    cases hb with
    | onto htr => cases htr
  have hsize := size_pos_of_blocks ht fun v base => block_size_pos hdepth
  have hrne : deme.map (rowOf fs) ≠ [] := fun e => hne (List.map_eq_nil_iff.mp e)
  have hsmall : ∀ x ∈ deme.map (rowOf fs), ∀ v base, Block fs ([] : List (OntoTree Unit)) v base →
      SmallAt x base v := by
    intro x hx v base hb
    obtain ⟨inst, hi, rfl⟩ := List.mem_map.mp hx
    exact (hrow inst hi).2.1 v base hb
  have hcanonical : ∀ x ∈ deme.map (rowOf fs), ∀ k c, fs.contin[k]? = some c →
      CanonicalRow x (fs.continToRawIdx k) c.depth := by
    intro x hx k c hc
    obtain ⟨inst, hi, rfl⟩ := List.mem_map.mp hx
    exact (hrow inst hi).2.2 k c hc
  have hroom : ∀ (idx : Nat) t, (makeAll P 0 (deme.map (rowOf fs))
      (variablesOf fs ([] : List (OntoTree Unit)))).1[idx]? = some t →
      ∀ x ∈ deme.map (rowOf fs), Room idx t 0 x := by
    intro idx t ht' x hx
    obtain ⟨pl, hpl, htree⟩ := place_of_tree hsize ht'
    obtain ⟨hb, hidx, hlevel⟩ := block_of_place ht hpl
    rw [← hidx]
    exact room_small (hnoOnto hb) htree hlevel (hsmall x hx _ _ hb)
  obtain ⟨ts, hlearn⟩ := (probsLearning_iff hsize).mpr hroom
  refine ⟨_, _, ts, mapM_readRow fun inst hi => (hrow inst hi).1, build_spec shuffle hn hsize, hlearn,
    fun idx t hidx p d hd => ?_, fun draws hdraws => ?_⟩
  · obtain ⟨pl, hpl⟩ := place_of_learnt hsize hlearn hidx
    obtain ⟨t₀, t', ht', -, hl⟩ := learnt_at hsize hlearn hpl
    obtain rfl := Option.some.inj (hidx.symm.trans ht')
    exact hl.total hd
  · obtain ⟨tmp, hrun, hocc⟩ := model_samples shuffle hn hsize hrne hlearn
      (fun idx pl t hpl htree _ => by
        obtain ⟨hb, hidx, hlevel⟩ := block_of_place ht hpl
        rw [← hidx]
        exact linked_small (hnoOnto hb) htree hlevel fun x hx => hsmall x hx _ _ hb)
      (fun i => hD _ (hdraws i)) (fun _ => 0)
    have hvalue : ∀ i < fs.rawSize, ∃ x ∈ deme.map (rowOf fs), x i = tmp i := by
      intro i hi
      obtain ⟨z, hz, hagree⟩ := hocc i hi
      exact ⟨z, hz, hagree i (startOf_le _ i) (Nat.lt_succ_self i)⟩
    have hpair : ∀ k c, fs.contin[k]? = some c → ∀ i, i + 1 < c.depth →
        ∃ x ∈ deme.map (rowOf fs),
          x (fs.continToRawIdx k + i) = tmp (fs.continToRawIdx k + i) ∧
            x (fs.continToRawIdx k + (i + 1)) = tmp (fs.continToRawIdx k + (i + 1)) := by
      intro k c hc i hi
      obtain ⟨hv, hbefore⟩ := var_contin ht hc
      have hpl := place_of_fieldsBefore hv (i := i + 1) hi
      rw [hbefore] at hpl
      obtain ⟨z, hz, hagree⟩ := hocc _ (hbefore ▸ fieldsBefore_lt_rawSize h ht hv hi)
      have hstart : startOf (variablesOf fs ([] : List (OntoTree Unit)))
          (fs.continToRawIdx k + (i + 1)) = fs.continToRawIdx k + i := startOf_place hpl
      rw [hstart] at hagree
      exact ⟨z, hz, hagree _ le_rfl (by omega), hagree _ (by omega) (Nat.lt_succ_self _)⟩
    refine ⟨tmp, hrun, hvalue, hpair, fun k c hc => canonicalRow_of_pairs (fun i hi => ?_)
      fun i hi hstop => ?_⟩
    · obtain ⟨x, hx, hxv⟩ := hvalue (fs.continToRawIdx k + i)
        ((var_contin ht hc).2 ▸ fieldsBefore_lt_rawSize h ht (var_contin ht hc).1 hi)
      rw [← hxv]
      exact (hcanonical x hx k c hc).small hi
    · obtain ⟨x, hx, hxi, hxs⟩ := hpair k c hc i hi
      rw [← hxs]
      exact (hcanonical x hx k c hc).pair hi (hxi.trans hstop)

/-- Of a field set without ontological variables and a legal deme, the model samples legal values
for all draws iff every continuous variable has raw fields and the generator never draws a one. -/
theorem samplesLegal_iff [LinearOrder C] {specs : List (Spec C)} (h : ofSpecs specs = some fs)
    (honto : fs.ofKind 0 = []) (P : Partition Row) (shuffle : Equiv.Perm (Fin fs.rawSize))
    (deme : List FieldSet.Instance) (hne : deme ≠ [])
    (hlegal : ∀ inst ∈ deme, fs.LegalBy (discBound fs) inst) (D : Set Rat)
    (hD : ∀ d ∈ D, 0 ≤ d ∧ d ≤ 1) :
    SamplesLegal P fs shuffle deme D ↔
      (∀ c ∈ fs.contin, 0 < c.depth) ∧ (fs.rawSize = 0 ∨ (1 : Rat) ∉ D) := by
  have ht : HasTrees fs ([] : List (OntoTree Unit)) := hasTrees_nil honto
  have hn := size_variablesOf h ht
  constructor
  · intro hs
    refine ⟨fun c hc => ?_, ?_⟩
    · obtain ⟨rows, model, ts, -, hbuild, -⟩ := hs
      obtain ⟨k, hk⟩ := List.mem_iff_getElem?.mp hc
      exact size_pos_of_build shuffle hn hbuild _
        (List.mem_of_getElem? (var_contin ht hk).1)
    · rcases Nat.eq_zero_or_pos fs.rawSize with hzero | hpos
      · exact .inl hzero
      · exact .inr (not_one_mem h honto hne hs hpos)
  · rintro ⟨hdepth, hzero | hone⟩
    · -- nothing is drawn
      obtain ⟨rows, model, ts, hrows, hbuild, hlearn, hsum, hsample⟩ :=
        samplesLegal_of_draws (P := P) (D := {0}) h honto shuffle hne hlegal hdepth
          (by rintro d rfl; exact ⟨le_rfl, one_pos⟩)
      have hempty : model.ordering = [] := List.eq_nil_iff_forall_not_mem.mpr fun idx hidx => by
        have := ordering_lt shuffle hbuild idx hidx
        omega
      obtain ⟨tmp, hrun, hs⟩ := hsample (fun _ => 0) fun _ => rfl
      refine ⟨rows, model, ts, hrows, hbuild, hlearn, hsum, fun draws _ => ⟨tmp, ?_, hs⟩⟩
      rw [hempty] at hrun ⊢
      exact hrun
    · exact samplesLegal_of_draws h honto shuffle hne hlegal hdepth fun d hd =>
        ⟨(hD d hd).1, lt_of_le_of_ne (hD d hd).2 fun e => hone (e ▸ hd)⟩

/-- A continuous variable of two steps, and a discrete one of three values. -/
theorem samplesLegal_small :
    ∃ fs, ofSpecs ([.contin 0 1 2 2, .disc 3] : List (Spec Nat)) = some fs ∧
      ∀ shuffle, SamplesLegal (Partition.stable Row) fs shuffle [[33#32], [6#32]] {1 / 2} := by
  obtain ⟨fs, hfs⟩ : ∃ fs, fs = (⟨fieldRun 2 0 2 ++ fieldRun 2 4 1,
      [(.contin 0 1 2 2, 1), (.disc 3, 1)]⟩ : FieldSet Nat) := ⟨_, rfl⟩
  have h : ofSpecs ([.contin 0 1 2 2, .disc 3] : List (Spec Nat)) = some fs := by rw [hfs]; rfl
  have hlegal : ∀ inst ∈ [[33#32], [6#32]], fs.LegalBy (discBound fs) inst := by
    subst hfs
    intro inst hi
    rcases List.mem_cons.mp hi with rfl | hi
    · refine ⟨rfl, ?_, by decide⟩
      intro idx hidx
      obtain rfl := Nat.lt_one_iff.mp hidx
      exact ⟨_, 1, rfl, by decide, by decide, by decide⟩
    · obtain rfl := List.mem_singleton.mp hi
      refine ⟨rfl, ?_, by decide⟩
      intro idx hidx
      obtain rfl := Nat.lt_one_iff.mp hidx
      exact ⟨_, 2, rfl, by decide, by decide, by decide⟩
  refine ⟨fs, h, fun shuffle => (samplesLegal_iff h (by rw [hfs]; rfl) (Partition.stable Row) shuffle
    [[33#32], [6#32]] (by decide) hlegal {1 / 2} ?_).mpr ⟨?_, .inr ?_⟩⟩
  · rintro d rfl
    norm_num
  · rw [hfs]
    decide
  · norm_num

/-- Where the generator draws from zero to one, also one bit is sampled wrongly; and a continuous
variable without raw fields has its tree made past the end. -/
theorem not_samplesLegal :
    (∃ fs, ofSpecs ([.disc 2] : List (Spec Nat)) = some fs ∧
      fs.LegalBy (discBound fs) [0#32] ∧
      ∀ shuffle, ¬ SamplesLegal (Partition.stable Row) fs shuffle [[0#32]] (Set.Icc 0 1)) ∧
    ∃ fs, ofSpecs ([.contin 0 1 2 0, .disc 2] : List (Spec Nat)) = some fs ∧
      fs.LegalBy (discBound fs) [0#32] ∧
      ∀ shuffle, ¬ SamplesLegal (Partition.stable Row) fs shuffle [[0#32]] {1 / 2} := by
  constructor
  · obtain ⟨fs, hfs⟩ : ∃ fs, fs = (⟨fieldRun 1 0 1, [(.disc 2, 1)]⟩ : FieldSet Nat) := ⟨_, rfl⟩
    have h : ofSpecs ([.disc 2] : List (Spec Nat)) = some fs := by rw [hfs]; rfl
    refine ⟨fs, h, by subst hfs; exact ⟨rfl, nofun, by decide⟩, fun shuffle hs => ?_⟩
    exact not_one_mem h (by rw [hfs]; rfl) (by decide) hs (by rw [hfs]; decide)
      ⟨zero_le_one, le_rfl⟩
  · obtain ⟨fs, hfs⟩ : ∃ fs, fs = (⟨fieldRun 1 0 1, [(.contin 0 1 2 0, 1), (.disc 2, 1)]⟩ :
      FieldSet Nat) := ⟨_, rfl⟩
    have h : ofSpecs ([.contin 0 1 2 0, .disc 2] : List (Spec Nat)) = some fs := by rw [hfs]; rfl
    refine ⟨fs, h, ?_, fun shuffle hs => ?_⟩
    · subst hfs
      refine ⟨rfl, ?_, by decide⟩
      intro idx hidx
      obtain rfl := Nat.lt_one_iff.mp hidx
      exact ⟨_, 0, rfl, by decide, by decide, by decide⟩
    · obtain ⟨rows, model, ts, -, hbuild, -⟩ := hs
      have hpos := size_pos_of_build shuffle
        (size_variablesOf h (hasTrees_nil (by rw [hfs]; rfl))) hbuild (.contin 0)
      subst hfs
      exact absurd (hpos (by exact List.mem_cons_self)) (by decide)

end OpenCog.Moses.LocalStructure
