import OpenCog.AtomSpace.ClassServer
import OpenCog.Lib.Index

/-! Importance diffusion along Hebbian links: the connection matrix and the product with it.
Numbers are exact. -/
namespace OpenCog.Diffusion

/-- `strength` is `getTV(h).toFloat()`. -/
structure HebbianLink where
  type : TypeCode
  strength : ℚ
  outgoing : List Handle

/-- `map<Handle, int>` -/
abbrev AtomsMap := List (Handle × Nat)

/-- A target not seen before is given the next index. -/
def addTarget (m : AtomsMap × Nat) (target : Handle) : AtomsMap × Nat :=
  match m.1.lookup target with
  | some _ => m
  | none => ((target, m.2) :: m.1, m.2 + 1)

def addTargets (m : AtomsMap × Nat) (l : HebbianLink) : AtomsMap × Nat :=
  if l.strength = 0 then m else l.outgoing.foldl addTarget m

/-- The map, and how many atoms it has. -/
def makeDiffusionAtomsMap (links : List HebbianLink) : AtomsMap × Nat :=
  links.foldl addTargets ([], 0)

def makeSTIVector (normalised : Handle → ℚ) (map : AtomsMap) : Nat → ℚ :=
  map.foldr (fun p v => Function.update v p.2 (normalised p.1)) fun _ => 0

abbrev Connections := Nat → Nat → ℚ

def setEntry (m : Connections) (i j : Nat) (val : ℚ) : Connections := fun a b =>
  if a = i ∧ b = j then val else m a b

/-- The entry of two indices; they are swapped for an inverse link. -/
def connect (inverse : Bool) (val : ℚ) (source target : Nat) (m : Connections) : Connections :=
  if inverse then setEntry m source target val else setEntry m target source val

section Links
variable (cs : ClassServer) (map : AtomsMap) (decisions : Nat → Bool)

/-- The first member is the source of an ordered link; `none` where a search in the map
finds nothing. -/
def addOrdered (decision : Bool) (l : HebbianLink) (source : Handle) (targets : List Handle)
    (m : Connections) : Option Connections := do
  let sourceIndex ← map.lookup source
  if decision then
    targets.foldlM (fun m target => do
      let targetIndex ← map.lookup target
      some (connect (l.type == INVERSE_HEBBIAN_LINK) l.strength sourceIndex targetIndex m)) m
  else some m

/-- One member of an unordered link as the source. The decisions are counted. -/
def addSource (l : HebbianLink) (s : Connections × Nat) (source : Handle) :
    Option (Connections × Nat) :=
  if decisions s.2 then do
    let m ← l.outgoing.foldlM (fun m target =>
      if target = source then some m
      else do
        let sourceIndex ← map.lookup source
        let targetIndex ← map.lookup target
        some (connect (l.type == SYMMETRIC_INVERSE_HEBBIAN_LINK) l.strength sourceIndex targetIndex
          m)) s.1
    some (m, s.2 + 1)
  else some (s.1, s.2 + 1)

def addLink (s : Connections × Nat) (l : HebbianLink) : Option (Connections × Nat) :=
  if l.strength = 0 then some s
  else if cs.isA l.type ORDERED_LINK then
    match l.outgoing with
    | [] => none
    | source :: targets => do
      let m ← addOrdered map (decisions s.2) l source targets s.1
      some (m, s.2 + 1)
  else l.outgoing.foldlM (addSource map decisions l) s

end Links

/-- The sum of a column without its diagonal entry. -/
def sumProb (n : Nat) (m : Connections) (j : Nat) : ℚ :=
  ∑ i ∈ Finset.range n, if i ≠ j then m i j else 0

def normaliseColumn (n : Nat) (maxSpread : ℚ) (m : Connections) (j : Nat) : Connections :=
  if maxSpread < sumProb n m j then
    setEntry (fun a b => if a < n ∧ b = j then m a b / (sumProb n m j / maxSpread) else m a b) j j
      (1 - maxSpread)
  else setEntry m j j (1 - sumProb n m j)

/-- `decisions k` is what `spreadDecision` returns at its call number `k`. -/
def makeConnectionMatrix (cs : ClassServer) (maxSpread : ℚ) (decisions : Nat → Bool) (n : Nat)
    (map : AtomsMap) (links : List HebbianLink) : Option Connections := do
  let s ← links.foldlM (addLink cs map decisions) (fun _ _ => 0, 0)
  some ((List.range n).foldl (normaliseColumn n maxSpread) s.1)

/-- `prod` -/
def prod (n : Nat) (m : Connections) (v : Nat → ℚ) (i : Nat) : ℚ :=
  ∑ j ∈ Finset.range n, m i j * v j

/-! ## The index map -/

/-- The indices are those below the number of atoms, each for one atom. -/
structure Indexed (m : AtomsMap × Nat) : Prop where
  lt : ∀ p ∈ m.1, p.2 < m.2
  nodup : (m.1.map Prod.snd).Nodup

def Known (m : AtomsMap × Nat) (h : Handle) : Prop := ∃ i, m.1.lookup h = some i

theorem addTarget_spec {m : AtomsMap × Nat} (hm : Indexed m) (target : Handle) :
    Indexed (addTarget m target) ∧ Known (addTarget m target) target ∧
      ∀ h, Known m h → Known (addTarget m target) h := by
  unfold addTarget
  split
  · next i hi => exact ⟨hm, ⟨i, hi⟩, fun h hh => hh⟩
  · next hnone =>
    refine ⟨⟨?_, ?_⟩, ⟨m.2, ?_⟩, fun h hh => ?_⟩
    · rintro p (_ | ⟨_, hp⟩)
      · exact Nat.lt_succ_self _
      · exact Nat.lt_succ_of_lt (hm.lt p hp)
    · rw [List.map_cons, List.nodup_cons]
      refine ⟨fun hin => ?_, hm.nodup⟩
      obtain ⟨p, hp, e⟩ := List.mem_map.mp hin
      exact Nat.lt_irrefl _ (e ▸ hm.lt p hp)
    · simp
    · obtain ⟨i, hi⟩ := hh
      have hne : (h == target) = false := by
        rw [beq_eq_false_iff_ne]
        rintro rfl
        rw [hi] at hnone
        cases hnone
      exact ⟨i, by rw [List.lookup_cons, hne]; exact hi⟩

theorem foldl_addTarget_spec {m : AtomsMap × Nat} (hm : Indexed m) (targets : List Handle) :
    Indexed (targets.foldl addTarget m) ∧
      (∀ h ∈ targets, Known (targets.foldl addTarget m) h) ∧
      ∀ h, Known m h → Known (targets.foldl addTarget m) h := by
  induction targets generalizing m with
  | nil => exact ⟨hm, by simp, fun h hh => hh⟩
  | cons target targets ih =>
    obtain ⟨hm', hnew, hold⟩ := addTarget_spec hm target
    obtain ⟨hend, hmem, hkeep⟩ := ih hm'
    refine ⟨hend, List.forall_mem_cons.mpr ⟨hkeep _ hnew, hmem⟩, fun h hh => ?_⟩
    exact hkeep h (hold h hh)

theorem makeDiffusionAtomsMap_spec (links : List HebbianLink) :
    Indexed (makeDiffusionAtomsMap links) ∧
      ∀ l ∈ links, l.strength ≠ 0 → ∀ h ∈ l.outgoing, Known (makeDiffusionAtomsMap links) h := by
  have hrun : ∀ (links : List HebbianLink) (m : AtomsMap × Nat), Indexed m →
      Indexed (links.foldl addTargets m) ∧
        (∀ l ∈ links, l.strength ≠ 0 → ∀ h ∈ l.outgoing, Known (links.foldl addTargets m) h) ∧
        ∀ h, Known m h → Known (links.foldl addTargets m) h := by
    intro links
    induction links with
    | nil => exact fun m hm => ⟨hm, by simp, fun h hh => hh⟩
    | cons l links ih =>
      intro m hm
      have hstep : Indexed (addTargets m l) ∧
          (l.strength ≠ 0 → ∀ h ∈ l.outgoing, Known (addTargets m l) h) ∧
          ∀ h, Known m h → Known (addTargets m l) h := by
        unfold addTargets
        split
        · next hzero => exact ⟨hm, fun hne => absurd hzero hne, fun h hh => hh⟩
        · obtain ⟨h₁, h₂, h₃⟩ := foldl_addTarget_spec hm l.outgoing
          exact ⟨h₁, fun _ => h₂, h₃⟩
      obtain ⟨hm', hnew, hold⟩ := hstep
      obtain ⟨hend, hmem, hkeep⟩ := ih (addTargets m l) hm'
      refine ⟨hend, List.forall_mem_cons.mpr ⟨?_, hmem⟩, fun h hh => hkeep h (hold h hh)⟩
      exact fun hne h hh => hkeep h (hnew hne h hh)
  obtain ⟨h₁, h₂, -⟩ := hrun links ([], 0) ⟨by simp, by simp⟩
  exact ⟨h₁, h₂⟩

/-! ## The entries -/

def NonNeg (m : Connections) : Prop := ∀ i j, 0 ≤ m i j

theorem NonNeg.setEntry {m : Connections} (hm : NonNeg m) {val : ℚ} (hval : 0 ≤ val) (i j : Nat) :
    NonNeg (setEntry m i j val) := by
  intro a b
  unfold Diffusion.setEntry
  split
  · exact hval
  · exact hm a b

theorem NonNeg.connect {m : Connections} (hm : NonNeg m) {val : ℚ} (hval : 0 ≤ val)
    (inverse : Bool) (source target : Nat) : NonNeg (connect inverse val source target m) := by
  unfold Diffusion.connect
  split
  · exact hm.setEntry hval source target
  · exact hm.setEntry hval target source

section Links
variable {cs : ClassServer} {map : AtomsMap} {decisions : Nat → Bool}

theorem addOrdered_spec {l : HebbianLink} (hval : 0 ≤ l.strength) {source : Handle}
    {targets : List Handle} (hsource : ∃ i, map.lookup source = some i)
    (htargets : ∀ h ∈ targets, ∃ i, map.lookup h = some i) (decision : Bool) {m : Connections}
    (hm : NonNeg m) : ∃ m', addOrdered map decision l source targets m = some m' ∧ NonNeg m' := by
  obtain ⟨i, hi⟩ := hsource
  unfold addOrdered
  simp only [hi, Option.bind_eq_bind, Option.bind_some]
  split
  · refine Fold.foldlM_of_mem NonNeg targets hm fun target htarget m hm => ?_
    obtain ⟨j, hj⟩ := htargets target htarget
    exact ⟨_, by rw [hj]; rfl, hm.connect hval _ _ _⟩
  · exact ⟨m, rfl, hm⟩

theorem addSource_spec {l : HebbianLink} (hval : 0 ≤ l.strength)
    (hmembers : ∀ h ∈ l.outgoing, ∃ i, map.lookup h = some i) {source : Handle}
    (hsource : source ∈ l.outgoing) {s : Connections × Nat} (hs : NonNeg s.1) :
    ∃ s', addSource map decisions l s source = some s' ∧ NonNeg s'.1 := by
  unfold addSource
  split
  · obtain ⟨m, hm, hnonneg⟩ := Fold.foldlM_of_mem (s := s.1) (f := fun m target =>
      if target = source then some m
      else do
        let sourceIndex ← map.lookup source
        let targetIndex ← map.lookup target
        some (connect (l.type == SYMMETRIC_INVERSE_HEBBIAN_LINK) l.strength sourceIndex targetIndex
          m)) NonNeg l.outgoing hs fun target htarget m hm => by
      split
      · exact ⟨m, rfl, hm⟩
      · obtain ⟨i, hi⟩ := hmembers source hsource
        obtain ⟨j, hj⟩ := hmembers target htarget
        exact ⟨_, by rw [hi, hj]; rfl, hm.connect hval _ _ _⟩
    exact ⟨(m, s.2 + 1), by rw [hm]; rfl, hnonneg⟩
  · exact ⟨_, rfl, hs⟩

theorem addLink_spec {l : HebbianLink} (hval : 0 ≤ l.strength) (harity : l.outgoing ≠ [])
    (hmembers : l.strength ≠ 0 → ∀ h ∈ l.outgoing, ∃ i, map.lookup h = some i)
    {s : Connections × Nat} (hs : NonNeg s.1) :
    ∃ s', addLink cs map decisions s l = some s' ∧ NonNeg s'.1 := by
  unfold addLink
  split
  · exact ⟨s, rfl, hs⟩
  · next hne =>
    have hmembers := hmembers hne
    split
    · obtain ⟨source, targets, hout⟩ := List.exists_cons_of_ne_nil harity
      rw [hout] at hmembers ⊢
      obtain ⟨hsource, htargets⟩ := List.forall_mem_cons.mp hmembers
      obtain ⟨m, hm, hnonneg⟩ := addOrdered_spec hval hsource htargets (decisions s.2) hs
      exact ⟨(m, s.2 + 1), by simp only [hm, Option.bind_eq_bind, Option.bind_some], hnonneg⟩
    · exact Fold.foldlM_of_mem (fun s : Connections × Nat => NonNeg s.1) l.outgoing hs fun source hsource s hs =>
        addSource_spec hval hmembers hsource hs

end Links

/-! ## The columns -/

theorem setEntry_of_ne {m : Connections} {i j : Nat} {val : ℚ} {a b : Nat} (h : ¬ (a = i ∧ b = j)) :
    setEntry m i j val a b = m a b := if_neg h

theorem setEntry_self (m : Connections) (i j : Nat) (val : ℚ) : setEntry m i j val i j = val :=
  if_pos ⟨rfl, rfl⟩

theorem normaliseColumn_of_ne (n : Nat) (maxSpread : ℚ) (m : Connections) {j b : Nat} (h : b ≠ j)
    (a : Nat) : normaliseColumn n maxSpread m j a b = m a b := by
  unfold normaliseColumn
  split
  · rw [setEntry_of_ne fun k => h k.2, if_neg fun k => h k.2]
  · exact setEntry_of_ne fun k => h k.2

/-- What the loop makes of a column: nothing is taken from it beyond the limit. -/
structure Normal (n : Nat) (maxSpread : ℚ) (m : Connections) (j : Nat) : Prop where
  nonneg : ∀ i, 0 ≤ m i j
  sum_eq : ∑ i ∈ Finset.range n, m i j = 1
  keeps : 1 - maxSpread ≤ m j j

theorem sum_eq_sumProb_add {n : Nat} (m : Connections) {j : Nat} (hj : j < n) :
    ∑ i ∈ Finset.range n, m i j = sumProb n m j + m j j := by
  have hmem := Finset.mem_range.mpr hj
  have hall := Finset.sum_erase_add (Finset.range n) (fun i => m i j) hmem
  have hrest := Finset.sum_erase_add (Finset.range n) (fun i => if i ≠ j then m i j else 0) hmem
  rw [if_neg (not_not.mpr rfl), add_zero] at hrest
  have hsame : ∑ i ∈ (Finset.range n).erase j, m i j =
      ∑ i ∈ (Finset.range n).erase j, if i ≠ j then m i j else 0 :=
    Finset.sum_congr rfl fun i hi => by rw [if_pos (Finset.ne_of_mem_erase hi)]
  rw [← hall, sumProb, ← hrest, hsame]

theorem sumProb_scaled (n : Nat) (m : Connections) (j : Nat) (c : ℚ) :
    sumProb n (fun a b => if a < n ∧ b = j then m a b / c else m a b) j = sumProb n m j / c := by
  rw [sumProb, sumProb, Finset.sum_div]
  refine Finset.sum_congr rfl fun i hi => ?_
  have hscale : (if i < n ∧ j = j then m i j / c else m i j) = m i j / c :=
    if_pos ⟨Finset.mem_range.mp hi, rfl⟩
  by_cases hij : i ≠ j
  · rw [if_pos hij, if_pos hij, hscale]
  · rw [if_neg hij, if_neg hij, zero_div]

theorem normaliseColumn_normal {n : Nat} {maxSpread : ℚ} (hpos : 0 < maxSpread)
    (hle : maxSpread ≤ 1) {m : Connections} {j : Nat} (hj : j < n) (hm : ∀ i, 0 ≤ m i j) :
    Normal n maxSpread (normaliseColumn n maxSpread m j) j := by
  have hoff : ∀ (val : ℚ) (m' : Connections) (i : Nat), i ≠ j → setEntry m' j j val i j = m' i j :=
    fun val m' i hi => setEntry_of_ne fun k => hi k.1
  have hsum : ∀ (val : ℚ) (m' : Connections), sumProb n (setEntry m' j j val) j = sumProb n m' j := by
    intro val m'
    refine Finset.sum_congr rfl fun i _ => ?_
    split
    · next hi => exact hoff val m' i hi
    · rfl
  have hprob : 0 ≤ sumProb n m j := Finset.sum_nonneg fun i _ => by
    split
    · exact hm i
    · exact le_refl _
  unfold normaliseColumn
  split
  · next hover =>
    have hfactor : 0 < sumProb n m j / maxSpread := div_pos (hpos.trans hover) hpos
    refine ⟨fun i => ?_, ?_, ?_⟩
    · by_cases hi : i = j
      · rw [hi, setEntry_self]
        linarith
      · rw [hoff _ _ i hi]
        split
        · exact div_nonneg (hm i) hfactor.le
        · exact hm i
    · rw [sum_eq_sumProb_add _ hj, hsum, setEntry_self]
      -- the scaled entries add up to the limit
      rw [sumProb_scaled, div_div_cancel₀ (hpos.trans hover).ne', add_sub_cancel]
    · rw [setEntry_self]
  · next hwithin =>
    refine ⟨fun i => ?_, ?_, ?_⟩
    · by_cases hi : i = j
      · rw [hi, setEntry_self]
        linarith
      · rw [hoff _ _ i hi]
        exact hm i
    · rw [sum_eq_sumProb_add _ hj, hsum, setEntry_self, add_sub_cancel]
    · rw [setEntry_self]
      linarith

/-- The loop over the columns makes each of them normal. -/
theorem foldl_normaliseColumn {n : Nat} {maxSpread : ℚ} (hpos : 0 < maxSpread)
    (hle : maxSpread ≤ 1) {m : Connections} (hm : NonNeg m) (k : Nat) (hk : k ≤ n) :
    (∀ j < k, Normal n maxSpread ((List.range k).foldl (normaliseColumn n maxSpread) m) j) ∧
      ∀ i j, k ≤ j → (List.range k).foldl (normaliseColumn n maxSpread) m i j = m i j := by
  induction k with
  | zero => exact ⟨fun j hj => absurd hj (Nat.not_lt_zero j), fun i j _ => rfl⟩
  | succ k ih =>
    obtain ⟨hdone, hrest⟩ := ih (by omega)
    rw [List.range_succ, List.foldl_append, List.foldl_cons, List.foldl_nil]
    set m' := (List.range k).foldl (normaliseColumn n maxSpread) m
    have hcol : ∀ i, 0 ≤ m' i k := fun i => by
      rw [hrest i k (le_refl k)]
      exact hm i k
    refine ⟨fun j hj => ?_, fun i j hj => ?_⟩
    · rcases Nat.lt_succ_iff_lt_or_eq.mp hj with hj | rfl
      · obtain ⟨h₁, h₂, h₃⟩ := hdone j hj
        have hsame := normaliseColumn_of_ne n maxSpread m' (Nat.ne_of_lt hj)
        exact ⟨fun i => by rw [hsame]; exact h₁ i, by simp only [hsame, h₂], by rw [hsame]; exact h₃⟩
      · exact normaliseColumn_normal hpos hle (by omega) hcol
    · rw [normaliseColumn_of_ne n maxSpread m' (by omega)]
      exact hrest i j (by omega)

theorem sum_prod {n : Nat} {maxSpread : ℚ} {m : Connections}
    (hm : ∀ j < n, Normal n maxSpread m j) (v : Nat → ℚ) :
    ∑ i ∈ Finset.range n, prod n m v i = ∑ i ∈ Finset.range n, v i := by
  unfold prod
  rw [Finset.sum_comm]
  refine Finset.sum_congr rfl fun j hj => ?_
  rw [← Finset.sum_mul, (hm j (Finset.mem_range.mp hj)).sum_eq, one_mul]

/-- The connection matrix is built whatever is decided. Its columns keep what is not spread
and sum to 1, so that the product keeps the sum of the importance. -/
theorem makeConnectionMatrix_normal (cs : ClassServer) (links : List HebbianLink)
    (hweights : ∀ l ∈ links, 0 ≤ l.strength ∧ l.strength ≤ 1)
    (harity : ∀ l ∈ links, 1 ≤ l.outgoing.length) {maxSpread : ℚ} (hpos : 0 < maxSpread)
    (hle : maxSpread ≤ 1) (decisions : Nat → Bool) :
    Indexed (makeDiffusionAtomsMap links) ∧
      ∃ m, makeConnectionMatrix cs maxSpread decisions (makeDiffusionAtomsMap links).2
          (makeDiffusionAtomsMap links).1 links = some m ∧
        (∀ j < (makeDiffusionAtomsMap links).2,
          Normal (makeDiffusionAtomsMap links).2 maxSpread m j) ∧
        ∀ normalised : Handle → ℚ,
          ∑ i ∈ Finset.range (makeDiffusionAtomsMap links).2,
              prod (makeDiffusionAtomsMap links).2 m
                (makeSTIVector normalised (makeDiffusionAtomsMap links).1) i =
            ∑ i ∈ Finset.range (makeDiffusionAtomsMap links).2,
              makeSTIVector normalised (makeDiffusionAtomsMap links).1 i := by
  obtain ⟨hindexed, hknown⟩ := makeDiffusionAtomsMap_spec links
  obtain ⟨s, hs, hnonneg⟩ := Fold.foldlM_of_mem (fun s : Connections × Nat => NonNeg s.1) links
    (s := (fun _ _ => 0, 0)) (fun _ _ => le_refl 0) fun l hl s hs =>
      addLink_spec (hweights l hl).1 (List.length_pos_iff.mp (harity l hl)) (hknown l hl) hs
  have hnormal := (foldl_normaliseColumn hpos hle hnonneg (makeDiffusionAtomsMap links).2
    (le_refl _)).1
  exact ⟨hindexed, _, by rw [makeConnectionMatrix, hs]; rfl, hnormal, fun _ => sum_prod hnormal _⟩

/-- Two links over one pair, one of them inverse, and a symmetric inverse link with a member
that is repeated. -/
def threeLinks : List HebbianLink :=
  [⟨ASYMMETRIC_HEBBIAN_LINK, 1, [1, 2, 3]⟩, ⟨INVERSE_HEBBIAN_LINK, 1 / 2, [2, 1]⟩,
    ⟨SYMMETRIC_INVERSE_HEBBIAN_LINK, 3 / 4, [1, 3, 3]⟩]

theorem makeConnectionMatrix_normal_threeLinks :
    Indexed (makeDiffusionAtomsMap threeLinks) ∧
      ∃ m, makeConnectionMatrix .script (1 / 2) (fun _ => true) (makeDiffusionAtomsMap threeLinks).2
          (makeDiffusionAtomsMap threeLinks).1 threeLinks = some m ∧
        (∀ j < (makeDiffusionAtomsMap threeLinks).2,
          Normal (makeDiffusionAtomsMap threeLinks).2 (1 / 2) m j) ∧
        ∀ normalised : Handle → ℚ,
          ∑ i ∈ Finset.range (makeDiffusionAtomsMap threeLinks).2,
              prod (makeDiffusionAtomsMap threeLinks).2 m
                (makeSTIVector normalised (makeDiffusionAtomsMap threeLinks).1) i =
            ∑ i ∈ Finset.range (makeDiffusionAtomsMap threeLinks).2,
              makeSTIVector normalised (makeDiffusionAtomsMap threeLinks).1 i :=
  makeConnectionMatrix_normal .script threeLinks (by simp [threeLinks]; norm_num)
    (by simp [threeLinks]) (by norm_num) (by norm_num) fun _ => true

end OpenCog.Diffusion
