import OpenCog.AtomSpace.ClassServer
import OpenCog.Lib.EdgeClosure

/-! The class server itself: types are declared by name and parent, the ancestors are kept in
a matrix. The matrix is the closure of the direct parents as long as a type that gets a
further parent has no descendants outside that parent. -/
namespace OpenCog

open Relation EdgeClosure

/-- A square `std::vector<std::vector<bool>>`. -/
structure BoolMatrix where
  size : Nat
  entry : TypeCode → TypeCode → Bool

namespace BoolMatrix

/-- `resize(n, false)` on the rows and on each row. -/
def resize (m : BoolMatrix) (n : Nat) : BoolMatrix :=
  ⟨n, fun i j => m.entry i j && decide (i < n ∧ j < n)⟩

/-- Whether an entry is `true` after one more is written; the writes never clear one. -/
def withEntries (m : BoolMatrix) (j : TypeCode) (c : TypeCode → Bool) : BoolMatrix :=
  ⟨m.size, fun i' j' => m.entry i' j' || (j' == j && c i')⟩

/-- The assignment of `true`; outside the matrix it is no write the program survives. -/
def set (m : BoolMatrix) (i j : TypeCode) : Option BoolMatrix :=
  if i < m.size ∧ j < m.size then some (m.withEntries j (· == i)) else none

end BoolMatrix

structure TypeRegistry where
  nTypes : Nat
  inheritanceMap : BoolMatrix
  recursiveMap : BoolMatrix
  name2CodeMap : String → Option TypeCode

namespace TypeRegistry

def empty : TypeRegistry := ⟨0, ⟨0, fun _ _ => false⟩, ⟨0, fun _ _ => false⟩, fun _ => none⟩

def getType (s : TypeRegistry) (typeName : String) : TypeCode :=
  (s.name2CodeMap typeName).getD NOTYPE

def isA_non_recursive (s : TypeRegistry) (type parent : TypeCode) : Bool :=
  if type ≥ s.nTypes ∨ parent ≥ s.nTypes then false else s.inheritanceMap.entry parent type

def isA (s : TypeRegistry) (type parent : TypeCode) : Bool :=
  if type ≥ s.nTypes ∨ parent ≥ s.nTypes then false else s.recursiveMap.entry parent type

/-- The ancestors are looked up in the matrix that is being written. The recursion follows
a chain of ancestors, so a depth beyond the number of types means that it never ends. -/
def setParentRecursively (nTypes : Nat) : Nat → BoolMatrix → TypeCode → TypeCode → Option BoolMatrix
  | 0, _, _, _ => none
  | depth + 1, recursiveMap, parent, type =>
    (recursiveMap.set parent type).bind fun recursiveMap =>
      (List.range nTypes).foldlM (fun m i =>
        if m.entry i parent && i != parent then setParentRecursively nTypes depth m i type
        else some m) recursiveMap

/-- The type counter is an unsigned short, so the types after the last code start over. -/
def addType (s : TypeRegistry) (parent : TypeCode) (name : String) :
    Option (TypeCode × TypeRegistry) :=
  if s.getType name ≠ NOTYPE then
    let type := s.getType name
    (s.inheritanceMap.set parent type).bind fun inheritanceMap =>
      (setParentRecursively s.nTypes s.nTypes s.recursiveMap parent type).map fun recursiveMap =>
        (type, { s with inheritanceMap, recursiveMap })
  else
    let type := s.nTypes
    let nTypes := (s.nTypes + 1) % 65536
    ((s.inheritanceMap.resize nTypes).set type type).bind fun inheritanceMap =>
      (inheritanceMap.set parent type).bind fun inheritanceMap =>
        ((s.recursiveMap.resize nTypes).set type type).bind fun recursiveMap =>
          (setParentRecursively nTypes nTypes recursiveMap parent type).map fun recursiveMap =>
            (type, ⟨nTypes, inheritanceMap, recursiveMap,
              Function.update s.name2CodeMap name (some type)⟩)

/-! ## The matrix of ancestors -/

end TypeRegistry

namespace BoolMatrix

variable {m m₀ : BoolMatrix} {i j p type : TypeCode} {n : Nat} {c d : TypeCode → Bool}

@[simp] theorem withEntries_size : (m.withEntries j c).size = m.size := rfl

@[simp] theorem withEntries_entry (i' j' : TypeCode) :
    (m.withEntries j c).entry i' j' = (m.entry i' j' || (j' == j && c i')) := rfl

theorem set_inside (hi : i < m.size) (hj : j < m.size) :
    m.set i j = some (m.withEntries j (· == i)) :=
  if_pos ⟨hi, hj⟩

theorem withEntries_withEntries :
    (m.withEntries j c).withEntries j d = m.withEntries j fun i => c i || d i := by
  simp only [withEntries, mk.injEq, true_and]
  funext i' j'
  rw [Bool.and_or_distrib_left, Bool.or_assoc]

theorem withEntries_eq_self (h : ∀ i, c i = true → m.entry i j = true) :
    m.withEntries j c = m := by
  obtain ⟨n, entry⟩ := m
  simp only [withEntries, mk.injEq, true_and]
  funext i' j'
  by_cases hj : j' = j
  · subst hj
    cases hc : c i' with
    | false => simp
    | true =>
      have he : entry i' j' = true := h i' hc
      simp [he]
  · simp [hj]

theorem withEntries_congr (h : ∀ i, c i = d i) : m.withEntries j c = m.withEntries j d := by
  rw [funext h]

/-- The matrix of an order on the codes below `n`, with `entry i j` for `j` below `i`. -/
structure Ordered (m : BoolMatrix) (n : Nat) : Prop where
  size : m.size = n
  lt : ∀ i j, m.entry i j = true → i < n ∧ j < n
  refl : ∀ i < n, m.entry i i = true
  trans : ∀ i j k, m.entry i j = true → m.entry j k = true → m.entry i k = true
  antisymm : ∀ i j, m.entry i j = true → m.entry j i = true → i = j

/-- The ancestors of a type. -/
def above (m : BoolMatrix) (n : Nat) (p : TypeCode) : Finset TypeCode :=
  (Finset.range n).filter fun i => m.entry i p = true

theorem mem_above : i ∈ m.above n p ↔ i < n ∧ m.entry i p = true := by
  rw [above, Finset.mem_filter, Finset.mem_range]

/-- A proper ancestor has fewer ancestors. -/
theorem Ordered.above_lt (ho : m.Ordered n) (h : m.entry i p = true) (hne : i ≠ p) :
    (m.above n i).card < (m.above n p).card := by
  apply Finset.card_lt_card
  rw [Finset.ssubset_iff_of_subset]
  · refine ⟨p, mem_above.mpr ⟨(ho.lt i p h).2, ho.refl p (ho.lt i p h).2⟩, fun hp => ?_⟩
    exact hne (ho.antisymm i p h (mem_above.mp hp).2)
  · intro k hk
    obtain ⟨hlt, hki⟩ := mem_above.mp hk
    exact mem_above.mpr ⟨hlt, ho.trans k i p hki h⟩

/-- The matrix while the column of `type` is written for an ancestor `p`: the other columns are
as they were. Only a type that is its own parent has `p` below it, and then nothing is new. -/
structure Fits (m₀ : BoolMatrix) (n : Nat) (type p : TypeCode) (m : BoolMatrix) : Prop where
  size : m.size = n
  others : ∀ i j, j ≠ type → m.entry i j = m₀.entry i j
  apart : m₀.entry type p = false ∨ (m = m₀ ∧ m₀.entry p type = true)

theorem Fits.column (ho : m₀.Ordered n) (hf : Fits m₀ n type p m) (hp : p < n) :
    m.entry i p = m₀.entry i p := by
  rcases hf.apart with hap | ⟨rfl, -⟩
  · apply hf.others
    rintro rfl
    rw [ho.refl p hp] at hap
    cases hap
  · rfl

theorem Fits.ancestor (ho : m₀.Ordered n) (hf : Fits m₀ n type p m)
    (h : m₀.entry i p = true) : Fits m₀ n type i m where
  size := hf.size
  others := hf.others
  apart := by
    rcases hf.apart with hap | ⟨he, hp⟩
    · left
      by_contra hne
      rw [Bool.not_eq_false] at hne
      rw [ho.trans type i p hne h] at hap
      cases hap
    · exact Or.inr ⟨he, ho.trans i p type h hp⟩

theorem Fits.withEntries (ho : m₀.Ordered n) (hf : Fits m₀ n type p m)
    (hc : ∀ i, c i = true → m₀.entry i p = true) : Fits m₀ n type p (m.withEntries type c) where
  size := hf.size
  others i j hj := by simp [hf.others i j hj, hj]
  apart := by
    rcases hf.apart with hap | ⟨rfl, hp⟩
    · exact Or.inl hap
    · exact Or.inr ⟨withEntries_eq_self fun i hi => ho.trans i p type (hc i hi) hp, hp⟩

end BoolMatrix

namespace TypeRegistry

open BoolMatrix

variable {m₀ : BoolMatrix} {type : TypeCode} {n : Nat}

/-- The loop over the ancestors of `p`, given what the call for each of them does. -/
theorem ancestorLoop {p : TypeCode} {depth : Nat} (ho : m₀.Ordered n) (hp : p < n)
    (hcall : ∀ i m, m₀.entry i p = true → i ≠ p → Fits m₀ n type i m →
      setParentRecursively n depth m i type = some (m.withEntries type (m₀.entry · i))) :
    ∀ (l : List TypeCode) (m : BoolMatrix), Fits m₀ n type p m →
      l.foldlM (fun m i =>
        if m.entry i p && i != p then setParentRecursively n depth m i type else some m) m =
      some (m.withEntries type fun i => l.any fun q => m₀.entry q p && q != p && m₀.entry i q) := by
  intro l
  induction l with
  | nil =>
    intro m _
    rw [withEntries_eq_self (by simp)]
    rfl
  | cons q l ih =>
    intro m hf
    rw [List.foldlM_cons, hf.column ho hp]
    by_cases hq : m₀.entry q p && q != p
    · have hq' := hq
      rw [Bool.and_eq_true, bne_iff_ne] at hq'
      have hf' : Fits m₀ n type p (m.withEntries type (m₀.entry · q)) :=
        hf.withEntries ho fun i hi => ho.trans i q p hi hq'.1
      rw [if_pos hq, hcall q m hq'.1 hq'.2 (hf.ancestor ho hq'.1)]
      simp only [Option.bind_eq_bind, Option.bind_some]
      rw [ih _ hf', withEntries_withEntries]
      simp only [List.any_cons, hq, Bool.true_and]
    · rw [if_neg hq]
      simp only [Option.bind_eq_bind, Option.bind_some]
      rw [ih m hf]
      simp only [List.any_cons, hq, Bool.false_and, Bool.false_or]

/-- The recursion ends and writes exactly the ancestors of the parent into the column. -/
theorem setParentRecursively_writes (ho : m₀.Ordered n) (ht : type < n) (depth : Nat) :
    ∀ (p : TypeCode) (m : BoolMatrix), p < n → (m₀.above n p).card ≤ depth →
      Fits m₀ n type p m →
      setParentRecursively n depth m p type = some (m.withEntries type (m₀.entry · p)) := by
  induction depth with
  | zero =>
    intro p m hp hcard
    have hmem : p ∈ m₀.above n p := mem_above.mpr ⟨hp, ho.refl p hp⟩
    rw [Nat.le_zero, Finset.card_eq_zero] at hcard
    rw [hcard] at hmem
    exact absurd hmem (Finset.notMem_empty p)
  | succ depth ih =>
    intro p m hp hcard hf
    have hself : Fits m₀ n type p (m.withEntries type (· == p)) := by
      apply hf.withEntries ho
      intro i hi
      rw [beq_iff_eq] at hi
      exact hi ▸ ho.refl p hp
    have hcall : ∀ i m, m₀.entry i p = true → i ≠ p → Fits m₀ n type i m →
        setParentRecursively n depth m i type = some (m.withEntries type (m₀.entry · i)) := by
      intro i m hip hne hfi
      have := ho.above_lt hip hne
      exact ih i m (ho.lt i p hip).1 (by lia) hfi
    rw [setParentRecursively, set_inside (hf.size ▸ hp) (hf.size ▸ ht), Option.bind_some,
      ancestorLoop ho hp hcall _ _ hself, withEntries_withEntries]
    congr 1
    apply withEntries_congr
    intro i
    rw [Bool.eq_iff_iff]
    simp only [Bool.or_eq_true, beq_iff_eq, List.any_eq_true, List.mem_range, Bool.and_eq_true,
      bne_iff_ne]
    constructor
    · rintro (rfl | ⟨q, -, ⟨hqp, -⟩, hiq⟩)
      · exact ho.refl _ hp
      · exact ho.trans i q p hiq hqp
    · intro hip
      by_cases hne : i = p
      · exact Or.inl hne
      · exact Or.inr ⟨i, (ho.lt i p hip).1, ⟨hip, hne⟩, ho.refl i (ho.lt i p hip).1⟩

/-! ## One call -/

variable {s s' : TypeRegistry} {parent : TypeCode} {name : String}

/-- The direct-parent relation. -/
def Direct (s : TypeRegistry) (t p : TypeCode) : Prop := s.isA_non_recursive t p = true

/-- `isA` is the reflexive transitive closure of the direct parents, on registered types. -/
def Closed (s : TypeRegistry) : Prop :=
  ∀ t p, s.isA t p = true ↔ t < s.nTypes ∧ ReflTransGen s.Direct t p

/-- The code a call is about: the one of the name, or the next one. -/
def codeOf (s : TypeRegistry) (name : String) : TypeCode := (s.name2CodeMap name).getD s.nTypes

/-- What a declaration has to keep to: the parent is registered, or is the type itself where a
root is declared, and no cycle arises among the direct parents. -/
structure Declares (s : TypeRegistry) (parent : TypeCode) (name : String) : Prop where
  registered : parent < s.nTypes ∨ parent = s.codeOf name
  acyclic : Acyclic (insertEdge s.Direct (s.codeOf name) parent)

/-- What the code needs besides: a code for a new name, and for a known one that all below the
type are below the further parent already. -/
structure Covered (s : TypeRegistry) (parent : TypeCode) (name : String) : Prop where
  room : s.name2CodeMap name = none → s.nTypes < NOTYPE
  below : ∀ type, s.name2CodeMap name = some type →
    ∀ t, t ≠ type → s.isA t type = true → s.isA t parent = true

structure WellKept (s : TypeRegistry) : Prop where
  count : s.nTypes ≤ NOTYPE
  names : ∀ name t, s.name2CodeMap name = some t → t < s.nTypes
  inheritanceSize : s.inheritanceMap.size = s.nTypes
  recursiveSize : s.recursiveMap.size = s.nTypes
  inheritance_lt : ∀ p t, s.inheritanceMap.entry p t = true → p < s.nTypes ∧ t < s.nTypes
  recursive_lt : ∀ p t, s.recursiveMap.entry p t = true → p < s.nTypes ∧ t < s.nTypes
  refl : ∀ t < s.nTypes, s.inheritanceMap.entry t t = true
  acyclic : Acyclic s.Direct

theorem WellKept.direct_iff (hw : s.WellKept) {t p : TypeCode} :
    s.Direct t p ↔ s.inheritanceMap.entry p t = true := by
  have := hw.inheritance_lt p t
  unfold Direct isA_non_recursive
  grind

theorem WellKept.isA_iff (hw : s.WellKept) {t p : TypeCode} :
    s.isA t p = true ↔ s.recursiveMap.entry p t = true := by
  have := hw.recursive_lt p t
  unfold isA
  grind

theorem WellKept.closed_iff (hw : s.WellKept) : s.Closed ↔ ∀ t p,
    s.recursiveMap.entry p t = true ↔ t < s.nTypes ∧ ReflTransGen s.Direct t p := by
  simp only [Closed, hw.isA_iff]

theorem WellKept.reach_lt (hw : s.WellKept) {t p : TypeCode} (h : ReflTransGen s.Direct t p)
    (ht : t < s.nTypes) : p < s.nTypes := by
  induction h with
  | refl => exact ht
  | tail _ edge _ => exact (hw.inheritance_lt _ _ (hw.direct_iff.mp edge)).1

/-- A code that is not registered has no direct parents. -/
theorem WellKept.reach_unregistered (hw : s.WellKept) {t p : TypeCode}
    (h : ReflTransGen s.Direct t p) (ht : ¬ t < s.nTypes) : p = t := by
  apply reach_of_isolated _ h
  intro q edge
  exact absurd (hw.inheritance_lt _ _ (hw.direct_iff.mp edge)).2 ht

theorem WellKept.reaches_unregistered (hw : s.WellKept) {t p : TypeCode}
    (h : ReflTransGen s.Direct t p) (hp : ¬ p < s.nTypes) : t = p := by
  apply reach_to_isolated _ h
  intro q edge
  exact absurd (hw.inheritance_lt _ _ (hw.direct_iff.mp edge)).1 hp

/-- What a call leaves behind, whether the type was new or not. -/
structure Added (s : TypeRegistry) (parent type : TypeCode) (name : String)
    (s' : TypeRegistry) : Prop where
  nTypes : s'.nTypes = max s.nTypes (type + 1)
  names : s'.name2CodeMap = Function.update s.name2CodeMap name (some type)
  inheritanceSize : s'.inheritanceMap.size = s'.nTypes
  recursiveSize : s'.recursiveMap.size = s'.nTypes
  inheritance : ∀ p t, s'.inheritanceMap.entry p t = true ↔
    s.inheritanceMap.entry p t = true ∨ (t = type ∧ (p = type ∨ p = parent))
  recursive : ∀ p t, s'.recursiveMap.entry p t = true ↔
    s.recursiveMap.entry p t = true ∨
      (t = type ∧ (p = type ∨ s.recursiveMap.entry p parent = true))

theorem WellKept.codeOf_le (hw : s.WellKept) (name : String) : s.codeOf name ≤ s.nTypes := by
  unfold codeOf
  cases h : s.name2CodeMap name with
  | none => exact le_rfl
  | some t => exact (hw.names name t h).le

/-- The matrix the recursion starts from: the old one with the diagonal entry of the type. -/
theorem WellKept.ordered (hw : s.WellKept) (hc : s.Closed) {m : BoolMatrix} {type n : Nat}
    (hle : type ≤ s.nTypes) (hn : n = max s.nTypes (type + 1)) (hsize : m.size = n)
    (hm : ∀ p t, m.entry p t = true ↔
      s.recursiveMap.entry p t = true ∨ (t = type ∧ p = type)) : m.Ordered n where
  size := hsize
  lt p t h := by
    rcases (hm p t).mp h with old | ⟨rfl, rfl⟩
    · have := hw.recursive_lt p t old
      lia
    · lia
  refl t ht := by
    rw [hm]
    by_cases he : t = type
    · exact Or.inr ⟨he, he⟩
    · exact Or.inl ((hw.closed_iff.mp hc t t).mpr ⟨by lia, .refl⟩)
  trans p q t hpq hqt := by
    rw [hm] at hpq hqt ⊢
    rcases hqt with hqt | ⟨rfl, rfl⟩
    · rcases hpq with hpq | ⟨rfl, rfl⟩
      · left
        rw [hw.closed_iff.mp hc] at hpq hqt ⊢
        exact ⟨hqt.1, hqt.2.trans hpq.2⟩
      · exact Or.inl hqt
    · exact hpq
  antisymm p t hpt htp := by
    rw [hm] at hpt htp
    rcases hpt with hpt | ⟨rfl, rfl⟩
    · rcases htp with htp | ⟨rfl, rfl⟩
      · rw [hw.closed_iff.mp hc] at hpt htp
        exact hw.acyclic p t htp.2 hpt.2
      · rfl
    · rfl

theorem WellKept.fits (hw : s.WellKept) (hc : s.Closed) (hd : s.Declares parent name)
    {m : BoolMatrix} {n : Nat} (hsize : m.size = n)
    (hm : ∀ p t, m.entry p t = true ↔
      s.recursiveMap.entry p t = true ∨ (t = s.codeOf name ∧ p = s.codeOf name)) :
    Fits m n (s.codeOf name) parent m where
  size := hsize
  others _ _ _ := rfl
  apart := by
    by_cases hb : m.entry (s.codeOf name) parent = true
    · right
      have he : parent = s.codeOf name := by
        rcases (hm _ _).mp hb with old | ⟨he, -⟩
        · apply hd.acyclic
          · exact reach_insertEdge_of_reach ((hw.closed_iff.mp hc _ _).mp old).2
          · exact .single (Or.inr ⟨rfl, rfl⟩)
        · exact he
      exact ⟨rfl, (hm _ _).mpr (Or.inr ⟨rfl, he⟩)⟩
    · exact Or.inl (by simpa using hb)

/-- What the recursion writes, from a matrix that has the diagonal entry of the type. -/
theorem WellKept.column (hw : s.WellKept) (hc : s.Closed) (hd : s.Declares parent name)
    {m : BoolMatrix} {n : Nat} (hn : n = max s.nTypes (s.codeOf name + 1)) (hsize : m.size = n)
    (hm : ∀ p t, m.entry p t = true ↔
      s.recursiveMap.entry p t = true ∨ (t = s.codeOf name ∧ p = s.codeOf name)) :
    ∃ m', setParentRecursively n n m parent (s.codeOf name) = some m' ∧ m'.size = n ∧
      ∀ p t, m'.entry p t = true ↔ s.recursiveMap.entry p t = true ∨
        (t = s.codeOf name ∧ (p = s.codeOf name ∨ s.recursiveMap.entry p parent = true)) := by
  have ho := hw.ordered hc (hw.codeOf_le name) hn hsize hm
  have hparent : parent < n := by
    have := hd.registered
    lia
  have hcard : (m.above n parent).card ≤ n := by
    have := Finset.card_filter_le (Finset.range n) (fun i => m.entry i parent = true)
    rwa [Finset.card_range] at this
  refine ⟨_, setParentRecursively_writes ho (by lia) n parent m hparent hcard
    (hw.fits hc hd hsize hm), hsize, fun p t => ?_⟩
  simp only [withEntries_entry, Bool.or_eq_true, Bool.and_eq_true, beq_iff_eq, hm]
  tauto

theorem addType_known (hw : s.WellKept) (hc : s.Closed) (hd : s.Declares parent name)
    {type : TypeCode} (hname : s.name2CodeMap name = some type) :
    ∃ s', s.addType parent name = some (type, s') ∧ s.Added parent type name s' := by
  have hlt := hw.names name type hname
  have hcode : s.codeOf name = type := by rw [codeOf, hname, Option.getD_some]
  have htype : s.getType name = type := by rw [getType, hname, Option.getD_some]
  have hne : type ≠ NOTYPE := by
    have := hw.count
    lia
  have hparent : parent < s.nTypes := by
    have := hd.registered
    lia
  have hdiag : s.recursiveMap.entry type type = true :=
    (hw.closed_iff.mp hc type type).mpr ⟨hlt, .refl⟩
  obtain ⟨m, hm, hmsize, hmentry⟩ := hw.column hc hd (m := s.recursiveMap) (n := s.nTypes)
    (by lia) hw.recursiveSize (by rw [hcode]; grind)
  rw [hcode] at hm hmentry
  refine ⟨{ s with inheritanceMap := s.inheritanceMap.withEntries type (· == parent),
                   recursiveMap := m }, ?_, ?_⟩
  · rw [addType, htype, if_pos hne]
    simp only
    rw [set_inside (hw.inheritanceSize ▸ hparent)
      (hw.inheritanceSize ▸ hlt), Option.bind_some, hm]
    rfl
  · exact {
      nTypes := by simp only; lia
      names := (Function.update_eq_self_iff.mpr hname.symm).symm
      inheritanceSize := hw.inheritanceSize
      recursiveSize := hmsize
      inheritance := fun p t => by
        have := hw.refl type hlt
        simp only [withEntries_entry, Bool.or_eq_true, Bool.and_eq_true, beq_iff_eq]
        grind
      recursive := hmentry }

theorem resize_entry {m : BoolMatrix} {n n' : Nat}
    (h : ∀ p t, m.entry p t = true → p < n ∧ t < n) (hn : n ≤ n') (p t : TypeCode) :
    (m.resize n').entry p t = m.entry p t := by
  have := h p t
  rw [Bool.eq_iff_iff]
  simp only [resize, Bool.and_eq_true, decide_eq_true_eq]
  exact ⟨And.left, fun he => ⟨he, by have := this he; lia⟩⟩

theorem addType_new (hw : s.WellKept) (hc : s.Closed) (hd : s.Declares parent name)
    (hname : s.name2CodeMap name = none) (hroom : s.nTypes < NOTYPE) :
    ∃ s', s.addType parent name = some (s.nTypes, s') ∧ s.Added parent s.nTypes name s' := by
  have hcode : s.codeOf name = s.nTypes := by rw [codeOf, hname, Option.getD_none]
  have htype : s.getType name = NOTYPE := by rw [getType, hname, Option.getD_none]
  have hcount : (s.nTypes + 1) % 65536 = s.nTypes + 1 := by
    have : NOTYPE = 65535 := rfl
    lia
  have hparent : parent < s.nTypes + 1 := by
    have := hd.registered
    lia
  have hlt := Nat.lt_succ_self s.nTypes
  obtain ⟨m, hm, hmsize, hmentry⟩ := hw.column hc hd
    (m := (s.recursiveMap.resize (s.nTypes + 1)).withEntries s.nTypes (· == s.nTypes))
    (n := s.nTypes + 1) (by lia) rfl (by
      intro p t
      rw [withEntries_entry, resize_entry hw.recursive_lt (by lia), hcode]
      simp)
  rw [hcode] at hm hmentry
  refine ⟨⟨s.nTypes + 1, ((s.inheritanceMap.resize (s.nTypes + 1)).withEntries s.nTypes
    (· == s.nTypes)).withEntries s.nTypes (· == parent), m,
      Function.update s.name2CodeMap name (some s.nTypes)⟩, ?_, ?_⟩
  · rw [addType, htype, if_neg (not_not_intro rfl)]
    simp only [hcount]
    rw [set_inside (m := s.inheritanceMap.resize (s.nTypes + 1)) hlt hlt, Option.bind_some,
      set_inside hparent hlt, Option.bind_some,
      set_inside (m := s.recursiveMap.resize (s.nTypes + 1)) hlt hlt, Option.bind_some, hm]
    rfl
  · exact {
      nTypes := by simp
      names := rfl
      inheritanceSize := rfl
      recursiveSize := hmsize
      inheritance := fun p t => by
        rw [withEntries_entry, withEntries_entry, resize_entry hw.inheritance_lt (by lia)]
        simp only [Bool.or_eq_true, Bool.and_eq_true, beq_iff_eq]
        tauto
      recursive := hmentry }

theorem addType_adds (hw : s.WellKept) (hc : s.Closed) (hd : s.Declares parent name)
    (hroom : s.name2CodeMap name = none → s.nTypes < NOTYPE) :
    ∃ s', s.addType parent name = some (s.codeOf name, s') ∧
      s.Added parent (s.codeOf name) name s' := by
  cases hname : s.name2CodeMap name with
  | none =>
    have hcode : s.codeOf name = s.nTypes := by rw [codeOf, hname, Option.getD_none]
    exact hcode ▸ addType_new hw hc hd hname (hroom hname)
  | some type =>
    have hcode : s.codeOf name = type := by rw [codeOf, hname, Option.getD_some]
    exact hcode ▸ addType_known hw hc hd hname

/-- A new name after the last code: the type counter is back at 0 and the matrices with it. -/
theorem addType_no_room (hw : s.WellKept) (hname : s.name2CodeMap name = none)
    (hroom : ¬ s.nTypes < NOTYPE) : s.addType parent name = none := by
  have hn : s.nTypes = 65535 := Nat.le_antisymm hw.count (Nat.le_of_not_lt hroom)
  have htype : s.getType name = NOTYPE := by rw [getType, hname, Option.getD_none]
  rw [addType, htype, if_neg (not_not_intro rfl)]
  simp only [hn]
  rfl

/-! ## The closure after a call -/

variable {type : TypeCode}

theorem Added.parent_lt (ha : s.Added parent (s.codeOf name) name s')
    (hd : s.Declares parent name) : parent < s'.nTypes := by
  have hn := ha.nTypes
  have := hd.registered
  lia

/-- A call adds the edge to the parent and one from the type to itself. -/
theorem Added.direct (ha : s.Added parent type name s') (hw : s.WellKept)
    (hpar : parent < s'.nTypes) :
    s'.Direct = insertEdge (insertEdge s.Direct type parent) type type := by
  funext t p
  have hlt := hw.inheritance_lt p t
  have hentry := ha.inheritance p t
  have hn := ha.nTypes
  apply propext
  simp only [insertEdge, hw.direct_iff]
  unfold Direct isA_non_recursive
  grind

theorem Added.reach (ha : s.Added parent type name s') (hw : s.WellKept)
    (hpar : parent < s'.nTypes) {t p : TypeCode} : ReflTransGen s'.Direct t p ↔
      ReflTransGen s.Direct t p ∨ (ReflTransGen s.Direct t type ∧ ReflTransGen s.Direct parent p) := by
  rw [ha.direct hw hpar, reach_insertSelf, reach_insertEdge]

theorem Added.wellKept (ha : s.Added parent (s.codeOf name) name s') (hw : s.WellKept)
    (hd : s.Declares parent name) (hroom : s.name2CodeMap name = none → s.nTypes < NOTYPE) :
    s'.WellKept := by
  have hn := ha.nTypes
  have hle := hw.codeOf_le name
  have hcount : s.codeOf name < NOTYPE := by
    cases hname : s.name2CodeMap name with
    | none => exact lt_of_le_of_lt hle (hroom hname)
    | some t =>
      have hcode : s.codeOf name = t := by rw [codeOf, hname, Option.getD_some]
      exact hcode ▸ lt_of_lt_of_le (hw.names name t hname) hw.count
  have hpar := ha.parent_lt hd
  refine ⟨?_, ?_, ha.inheritanceSize, ha.recursiveSize, ?_, ?_, ?_, ?_⟩
  · have := hw.count
    lia
  · intro other t ht
    rw [ha.names, Function.update_apply] at ht
    split at ht
    · rw [← Option.some.inj ht]
      lia
    · have := hw.names other t ht
      lia
  · intro p t h
    rcases (ha.inheritance p t).mp h with old | ⟨rfl, rfl | rfl⟩
    · have := hw.inheritance_lt p t old
      lia
    · lia
    · lia
  · intro p t h
    rcases (ha.recursive p t).mp h with old | ⟨rfl, rfl | old⟩
    · have := hw.recursive_lt p t old
      lia
    · lia
    · have := hw.recursive_lt p parent old
      lia
  · intro t ht
    rw [ha.inheritance]
    by_cases he : t = s.codeOf name
    · exact Or.inr ⟨he, Or.inl he⟩
    · exact Or.inl (hw.refl t (by lia))
  · intro a b hab hba
    rw [ha.direct hw hpar, reach_insertSelf] at hab hba
    exact hd.acyclic a b hab hba

/-- The matrix stays the closure exactly when what is below the type was below the parent. -/
theorem Added.closed_iff (ha : s.Added parent (s.codeOf name) name s') (hw : s.WellKept)
    (hc : s.Closed) (hd : s.Declares parent name) (hw' : s'.WellKept) :
    s'.Closed ↔ ∀ type, s.name2CodeMap name = some type →
      ∀ t, t ≠ type → s.isA t type = true → s.isA t parent = true := by
  have hn := ha.nTypes
  have hle := hw.codeOf_le name
  have hold := hw.closed_iff.mp hc
  have hreach := fun t p => ha.reach hw (ha.parent_lt hd) (t := t) (p := p)
  rw [hw'.closed_iff]
  constructor
  · intro h type hname t hne hbelow
    have hcode : s.codeOf name = type := by rw [codeOf, hname, Option.getD_some]
    rw [hw.isA_iff, hold] at hbelow
    have hnew : s'.recursiveMap.entry parent t = true := by
      apply (h t parent).mpr
      exact ⟨by lia, (hreach t parent).mpr (Or.inr ⟨hcode ▸ hbelow.2, .refl⟩)⟩
    rw [hw.isA_iff]
    rcases (ha.recursive parent t).mp hnew with old | ⟨he, -⟩
    · exact old
    · exact absurd (he.trans hcode) hne
  · intro h t p
    rw [ha.recursive, hreach, hold]
    constructor
    · rintro (⟨ht, hr⟩ | ⟨rfl, rfl | hp⟩)
      · exact ⟨by lia, Or.inl hr⟩
      · exact ⟨by lia, Or.inl .refl⟩
      · exact ⟨by lia, Or.inr ⟨.refl, ((hold _ _).mp hp).2⟩⟩
    · rintro ⟨ht, hr | ⟨hinto, hout⟩⟩
      · by_cases hlt : t < s.nTypes
        · exact Or.inl ⟨hlt, hr⟩
        · exact Or.inr ⟨by lia, Or.inl (by rw [hw.reach_unregistered hr hlt]; lia)⟩
      · by_cases he : t = s.codeOf name
        · right
          refine ⟨he, ?_⟩
          by_cases hpar : parent < s.nTypes
          · exact Or.inr ((hold _ _).mpr ⟨hpar, hout⟩)
          · have := hd.registered
            exact Or.inl (by rw [hw.reach_unregistered hout hpar]; lia)
        · left
          -- some other type below the one of the call: that one is not new
          have hcode : s.codeOf name < s.nTypes := by
            by_contra hnew
            exact he (hw.reaches_unregistered hinto hnew)
          have hlt : t < s.nTypes := by lia
          refine ⟨hlt, ?_⟩
          cases hname : s.name2CodeMap name with
          | none =>
            rw [codeOf, hname, Option.getD_none] at hcode
            exact absurd hcode (Nat.lt_irrefl _)
          | some type =>
            have hcode' : s.codeOf name = type := by rw [codeOf, hname, Option.getD_some]
            have hbelow : s.isA t type = true := by
              rw [hw.isA_iff, hold]
              exact ⟨hlt, hcode' ▸ hinto⟩
            have hup := h type hname t (hcode' ▸ he) hbelow
            rw [hw.isA_iff, hold] at hup
            exact hup.2.trans hout

/-- One call: it returns and keeps the closure exactly when the type is covered. -/
theorem addType_step (hw : s.WellKept) (hc : s.Closed) (hd : s.Declares parent name) :
    (s.Covered parent name → ∃ r, s.addType parent name = some r ∧ r.2.WellKept ∧ r.2.Closed) ∧
    ((∃ r, s.addType parent name = some r ∧ r.2.Closed) → s.Covered parent name) := by
  constructor
  · intro h
    obtain ⟨s', hadd, ha⟩ := addType_adds hw hc hd h.room
    have hw' := ha.wellKept hw hd h.room
    exact ⟨_, hadd, hw', (ha.closed_iff hw hc hd hw').mpr h.below⟩
  · rintro ⟨r, hadd, hc'⟩
    have hroom : s.name2CodeMap name = none → s.nTypes < NOTYPE := by
      intro hname
      by_contra hno
      rw [addType_no_room hw hname hno] at hadd
      cases hadd
    obtain ⟨s', hadd', ha⟩ := addType_adds hw hc hd hroom
    rw [hadd] at hadd'
    obtain rfl := Option.some.inj hadd'
    exact ⟨hroom, (ha.closed_iff hw hc hd (ha.wellKept hw hd hroom)).mp hc'⟩

/-! ## Runs -/

/-- Each call is a legal declaration in the state it finds. -/
def Declarable : TypeRegistry → List (TypeCode × String) → Prop
  | _, [] => True
  | s, c :: calls => s.Declares c.1 c.2 ∧ ∀ r, s.addType c.1 c.2 = some r → Declarable r.2 calls

/-- Every call returns, and `isA` is the closure before and after it. -/
def ClosedAlong : TypeRegistry → List (TypeCode × String) → Prop
  | s, [] => s.Closed
  | s, c :: calls => s.Closed ∧ ∃ r, s.addType c.1 c.2 = some r ∧ ClosedAlong r.2 calls

def CoveredAlong : TypeRegistry → List (TypeCode × String) → Prop
  | _, [] => True
  | s, c :: calls => s.Covered c.1 c.2 ∧ ∀ r, s.addType c.1 c.2 = some r → CoveredAlong r.2 calls

theorem ClosedAlong.closed {calls : List (TypeCode × String)} (h : s.ClosedAlong calls) :
    s.Closed := by
  cases calls with
  | nil => exact h
  | cons => exact h.1

theorem closedAlong_iff {calls : List (TypeCode × String)} (hw : s.WellKept) (hc : s.Closed)
    (hd : s.Declarable calls) : s.ClosedAlong calls ↔ s.CoveredAlong calls := by
  induction calls generalizing s with
  | nil => exact ⟨fun _ => trivial, fun _ => hc⟩
  | cons c calls ih =>
    obtain ⟨hcall, hnext⟩ := hd
    have step := addType_step hw hc hcall
    constructor
    · rintro ⟨-, r, hr, halong⟩
      have hcov := step.2 ⟨r, hr, halong.closed⟩
      obtain ⟨r', hr', hw', hc'⟩ := step.1 hcov
      obtain rfl := Option.some.inj (hr.symm.trans hr')
      refine ⟨hcov, fun r' hr' => ?_⟩
      obtain rfl := Option.some.inj (hr.symm.trans hr')
      exact (ih hw' hc' (hnext r hr)).mp halong
    · rintro ⟨hcov, halong⟩
      obtain ⟨r, hr, hw', hc'⟩ := step.1 hcov
      exact ⟨hc, r, hr, (ih hw' hc' (hnext r hr)).mpr (halong r hr)⟩

theorem wellKept_empty : empty.WellKept where
  count := by decide
  names _ _ h := by cases h
  inheritanceSize := rfl
  recursiveSize := rfl
  inheritance_lt _ _ h := by cases h
  recursive_lt _ _ h := by cases h
  refl t ht := absurd ht (Nat.not_lt_zero t)
  acyclic := by
    intro a b hab _
    exact (reach_of_isolated (fun _ edge => by simp [Direct, isA_non_recursive, empty] at edge) hab).symm

theorem closed_empty : empty.Closed := by
  intro t p
  simp [isA, empty]

/-- Over any sequence of declarations `isA` is the closure of the direct parents throughout
exactly when each call finds room for a new name, and finds what is below a known name below
the further parent. -/
theorem hierarchy_closed_iff_covered (calls : List (TypeCode × String))
    (hd : empty.Declarable calls) : empty.ClosedAlong calls ↔ empty.CoveredAlong calls :=
  closedAlong_iff wellKept_empty closed_empty hd

/-- Types declared after their parents: every direct parent has the smaller code. -/
def ParentsFirst (s : TypeRegistry) (parent : TypeCode) (name : String) : Prop :=
  (parent < s.nTypes ∨ parent = s.codeOf name) ∧ parent ≤ s.codeOf name ∧
    ∀ t < s.nTypes, ∀ p < s.nTypes, s.isA_non_recursive t p = true → p ≤ t

instance : Decidable (s.ParentsFirst parent name) :=
  inferInstanceAs (Decidable (_ ∧ _ ∧ _))

theorem ParentsFirst.declares (h : s.ParentsFirst parent name) : s.Declares parent name := by
  refine ⟨h.1, acyclic_of_rank id fun t p edge => ?_⟩
  rcases edge with old | ⟨rfl, rfl⟩
  · have hin : t < s.nTypes ∧ p < s.nTypes := by
      unfold Direct isA_non_recursive at old
      grind
    have := h.2.2 t hin.1 p hin.2 old
    simp only [id_eq]
    lia
  · have := h.2.1
    simp only [id_eq]
    lia

def parentsFirstAlong : TypeRegistry → List (TypeCode × String) → Bool
  | _, [] => true
  | s, c :: calls => decide (s.ParentsFirst c.1 c.2) &&
    (s.addType c.1 c.2).all fun r => parentsFirstAlong r.2 calls

theorem declarable_of_parentsFirst {calls : List (TypeCode × String)}
    (h : s.parentsFirstAlong calls = true) : s.Declarable calls := by
  induction calls generalizing s with
  | nil => trivial
  | cons c calls ih =>
    rw [parentsFirstAlong, Bool.and_eq_true, decide_eq_true_eq] at h
    refine ⟨h.1.declares, fun r hr => ?_⟩
    apply ih
    rw [hr] at h
    exact h.2

/-- The state after a sequence of calls. -/
def addTypes (s : TypeRegistry) (calls : List (TypeCode × String)) : Option TypeRegistry :=
  calls.foldlM (fun s c => (s.addType c.1 c.2).map (·.2)) s

theorem ClosedAlong.last {calls : List (TypeCode × String)} (h : s.ClosedAlong calls)
    (hs : s.addTypes calls = some s') : s'.Closed := by
  induction calls generalizing s with
  | nil =>
    obtain rfl := Option.some.inj hs
    exact h
  | cons c calls ih =>
    obtain ⟨-, r, hr, halong⟩ := h
    rw [addTypes, List.foldlM_cons, hr] at hs
    exact ih halong hs

/-- A further parent for a type without descendants. -/
theorem hierarchy_closed_leaf :
    empty.ClosedAlong [(0, "Atom"), (0, "Node"), (1, "Word"), (1, "Concept"), (2, "Concept")] ↔
      empty.CoveredAlong [(0, "Atom"), (0, "Node"), (1, "Word"), (1, "Concept"), (2, "Concept")] :=
  hierarchy_closed_iff_covered _ (declarable_of_parentsFirst (by decide +kernel))

/-- `Word` becomes a `Concept` too, but the `Noun` declared below it does not. -/
theorem further_parent_missed :
    ¬ ∀ calls, empty.Declarable calls → empty.ClosedAlong calls := by
  intro h
  have hclosed := h [(0, "Atom"), (0, "Node"), (1, "Concept"), (1, "Word"), (3, "Noun"),
    (2, "Word")] (declarable_of_parentsFirst (by decide +kernel))
  cases hs : empty.addTypes [(0, "Atom"), (0, "Node"), (1, "Concept"), (1, "Word"), (3, "Noun"),
      (2, "Word")] with
  | none => exact absurd hs (by decide +kernel)
  | some s =>
    have hnoun : s.isA_non_recursive 4 3 = true ∧ s.isA_non_recursive 3 2 = true ∧
        s.nTypes = 5 ∧ s.isA 4 2 = false := by
      have hall : (empty.addTypes [(0, "Atom"), (0, "Node"), (1, "Concept"), (1, "Word"),
          (3, "Noun"), (2, "Word")]).all (fun s => s.isA_non_recursive 4 3 &&
            s.isA_non_recursive 3 2 && s.nTypes == 5 && !s.isA 4 2) = true := by
        decide +kernel
      rw [hs] at hall
      simpa [and_assoc] using hall
    obtain ⟨hword, hconcept, hn, hmissed⟩ := hnoun
    have hreach : ReflTransGen s.Direct 4 2 := .tail (.single hword) hconcept
    rw [((hclosed.last hs) 4 2).mpr ⟨by rw [hn]; decide, hreach⟩] at hmissed
    cases hmissed

end TypeRegistry

end OpenCog
