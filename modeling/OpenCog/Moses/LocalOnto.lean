import OpenCog.Moses.LocalContin

/-! The trees of ontological fields. A leaf is as large as the node has children at which the split
ends, which need not be the node whose children are counted in it. -/
namespace OpenCog.Moses.LocalStructure

open Util FieldSet

variable {O C : Type} {P : Partition Row} {rows l : List Row} {t t' : DTree} {x y m z : Row}
  {base idx srcIdx i k d lo hi : Nat} {c : Forest O} {o : O}

/-! ## Paths -/

/-- Existing children, followed only by stops. -/
def OntoPath (x : Row) : Nat → Forest O → Nat → Prop
  | 0, _, _ => True
  | d + 1, c, i => (∀ j ≤ d, x (i + j) = 0) ∨
      ∃ o c', 0 < x i ∧ c.child (x i - 1) = some (o, c') ∧ OntoPath x d c' (i + 1)

/-- `get_onto`, of so many levels at a node. -/
def getOnto (x : Row) : Nat → Nat → O → Forest O → Option O
  | 0, _, o, _ => some o
  | d + 1, i, o, c =>
    if x i = 0 then some o else (c.child (x i - 1)).bind fun r => getOnto x d (i + 1) r.1 r.2

/-- How many children the node has that so many levels of a path lead to. -/
def branchingAt (x : Row) : Nat → Nat → Forest O → Nat
  | 0, _, c => c.count
  | d + 1, i, c =>
    match c.child (x i - 1) with
    | some (_, c') => branchingAt x d (i + 1) c'
    | none => 0

theorem OntoPath.mono {d' : Nat} (h : OntoPath x d c i) (hle : d' ≤ d) : OntoPath x d' c i := by
  induction d' generalizing d c i with
  | zero => exact trivial
  | succ d' ih =>
    cases d with
    | zero => cases hle
    | succ d =>
      rcases h with hstop | ⟨o, c', hpos, hchild, hrest⟩
      · exact .inl fun j hj => hstop j (by omega)
      · exact .inr ⟨o, c', hpos, hchild, ih hrest (Nat.le_of_succ_le_succ hle)⟩

theorem OntoPath.stop (h : OntoPath x (d + 1) c i) (hx : x i = 0) : ∀ j ≤ d, x (i + j) = 0 := by
  rcases h with hstop | ⟨o, c', hpos, -⟩
  · exact hstop
  · omega

theorem OntoPath.child (h : OntoPath x (d + 1) c i) (hx : x i = k + 1) :
    ∃ o c', c.child k = some (o, c') ∧ OntoPath x d c' (i + 1) := by
  rcases h with hstop | ⟨o, c', -, hchild, hrest⟩
  · have := hstop 0 (Nat.zero_le d)
    rw [Nat.add_zero] at this
    omega
  · rw [hx, Nat.add_sub_cancel] at hchild
    exact ⟨o, c', hchild, hrest⟩

theorem OntoPath.le_count (h : OntoPath x (d + 1) c i) : x i ≤ c.count := by
  cases hx : x i with
  | zero => exact Nat.zero_le _
  | succ k =>
    obtain ⟨o, c', hchild, -⟩ := h.child hx
    exact Forest.child_lt hchild

theorem OntoPath.getOnto (h : OntoPath x d c i) : (getOnto x d i o c).isSome := by
  induction d generalizing c i o with
  | zero => rfl
  | succ d ih =>
    unfold LocalStructure.getOnto
    split
    · rfl
    · next hx =>
      obtain ⟨k, hk⟩ := Nat.exists_eq_succ_of_ne_zero hx
      obtain ⟨o', c', hchild, hrest⟩ := h.child hk
      rw [hk, Nat.succ_sub_one, hchild, Option.bind_some]
      exact ih hrest

theorem getOnto_congr (h : Agrees i (i + d) x y) : getOnto x d i o c = getOnto y d i o c := by
  induction d generalizing c i o with
  | zero => rfl
  | succ d ih =>
    have hi := h i le_rfl (by omega)
    have hrest : Agrees (i + 1) (i + 1 + d) x y := fun q hlo hhi => h q (by omega) (by omega)
    rw [getOnto, getOnto, hi]
    split
    · rfl
    · exact congrArg _ (funext fun r => ih hrest)

/-! ## Where a split ends -/

/-- Rows with the same values up to `hi` have the same value at the index. -/
def Settled (rows : List Row) (x : Row) (lo hi idx : Nat) : Prop :=
  ∀ y ∈ rows, Agrees lo hi y x → y idx = x idx

/-- The first place before the index from which its value is settled, else the last place. -/
structure CutAt (rows : List Row) (x : Row) (lo idx hi : Nat) : Prop where
  ge : lo ≤ hi
  lt : hi < idx
  ends : Settled rows x lo hi idx ∨ hi + 1 = idx
  first : ∀ hi', lo ≤ hi' → hi' < hi → ¬ Settled rows x lo hi' idx

theorem exists_cutAt (rows : List Row) (x : Row) (hlt : lo < idx) : ∃ hi, CutAt rows x lo idx hi := by
  classical
  have hex : ∃ hi, lo ≤ hi ∧ (Settled rows x lo hi idx ∨ hi + 1 = idx) :=
    ⟨idx - 1, by omega, .inr (by omega)⟩
  obtain ⟨hge, hends⟩ := Nat.find_spec hex
  refine ⟨Nat.find hex, hge, ?_, hends, fun hi' hlo hlt' hs => ?_⟩
  · have := Nat.find_min' hex ⟨show lo ≤ idx - 1 by omega, .inr (show idx - 1 + 1 = idx by omega)⟩
    omega
  · exact Nat.find_min hex hlt' ⟨hlo, .inl hs⟩

theorem CutAt.unique {hi' : Nat} (h : CutAt rows x lo idx hi) (h' : CutAt rows x lo idx hi') :
    hi = hi' := by
  have hle : ∀ {a b}, CutAt rows x lo idx a → CutAt rows x lo idx b → a ≤ b := by
    intro a b ha hb
    by_contra hgt
    rcases hb.ends with hs | he
    · exact ha.first b hb.ge (by omega) hs
    · have := ha.lt
      omega
  exact Nat.le_antisymm (hle h h') (hle h' h)

theorem Settled.perm {rows' : List Row} (hperm : rows.Perm rows') (h : Settled rows x lo hi idx) :
    Settled rows' x lo hi idx :=
  fun y hy => h y (hperm.mem_iff.mpr hy)

theorem CutAt.perm {rows' : List Row} (hperm : rows.Perm rows') (h : CutAt rows x lo idx hi) :
    CutAt rows' x lo idx hi :=
  ⟨h.ge, h.lt, h.ends.imp_left (.perm hperm), fun hi' hlo hlt hs =>
    h.first hi' hlo hlt (hs.perm hperm.symm)⟩

/-- Rows that share a value with `x` settle the rest as all rows do. -/
theorem settled_part {part : List Row} (hpart : ∀ y, y ∈ part ↔ y ∈ l ∧ y srcIdx = x srcIdx)
    (hlt : srcIdx < hi) : Settled part x (srcIdx + 1) hi idx ↔ Settled l x srcIdx hi idx := by
  constructor
  · intro h y hy hagree
    refine h y ((hpart y).mpr ⟨hy, hagree srcIdx le_rfl hlt⟩) fun q hlo hhi => ?_
    exact hagree q (by omega) hhi
  · intro h y hy hagree
    obtain ⟨hy, hsrc⟩ := (hpart y).mp hy
    refine h y hy fun q hlo hhi => ?_
    by_cases e : q = srcIdx
    · rw [e, hsrc]
    · exact hagree q (by omega) hhi

theorem CutAt.of_part {part : List Row} (hpart : ∀ y, y ∈ part ↔ y ∈ l ∧ y srcIdx = x srcIdx)
    (hsrc : ¬ Settled l x srcIdx srcIdx idx) (h : CutAt part x (srcIdx + 1) idx hi) :
    CutAt l x srcIdx idx hi := by
  have hge := h.ge
  refine ⟨by omega, h.lt, h.ends.imp_left (settled_part hpart (by omega)).mp,
    fun hi' hlo hlt hs => ?_⟩
  by_cases e : hi' = srcIdx
  · exact hsrc (e ▸ hs)
  · exact h.first hi' (by omega) hlt ((settled_part hpart (by omega)).mpr hs)

/-! ## One node -/

/-- As `Linked`, for one of some siblings. -/
def LinkedAt (rows : List Row) (f : DTree) (k lo idx : Nat) : Prop :=
  ∀ m, ∀ y ∈ rows, Agrees lo idx y m → Within m f k ∧ route y f k = route m f k ∧
    ∀ x ∈ rows, route x f k = route m f k → ∃ z ∈ rows, Agrees lo idx z m ∧ z idx = x idx

/-- The value of a row has a place where the node at which the split ends has as many children. -/
def RoomAt (rows : List Row) (f : DTree) (k srcIdx idx : Nat) (c : Forest O) (x : Row) : Prop :=
  ∃ hi, CutAt rows x srcIdx idx hi ∧
    (Room idx f k x ↔ x idx ≤ branchingAt x (hi - srcIdx) srcIdx c)

/-- A tree built at a node of the ontology. -/
structure OntoSplit (l : List Row) (f : DTree) (k srcIdx idx : Nat) (c : Forest O) : Prop where
  room : ∀ x ∈ l, RoomAt l f k srcIdx idx c x
  linked : LinkedAt l f k srcIdx idx

variable {f g n : DTree}

theorem ontoSplit_leaf (hlt : srcIdx < idx) (hset : ∀ x ∈ l, ∀ y ∈ l, y idx = x idx) :
    OntoSplit l (.cons (List.replicate (c.count + 2) 0) .nil n) 0 srcIdx idx c := by
  refine ⟨fun x hx => ⟨srcIdx, ⟨le_rfl, hlt, .inl fun y hy _ => hset x hx y hy, ?_⟩, ?_⟩,
    fun m y hy hagree => ⟨.inl rfl, rfl, fun x hx _ => ⟨y, hy, hagree, hset x hx y hy⟩⟩⟩
  · intro hi' hlo hlt'
    omega
  · have hroute : route x (.cons (List.replicate (c.count + 2) 0) .nil n) 0 = [] := rfl
    have hleaf : leafAt (.cons (List.replicate (c.count + 2) 0) .nil n) 0 [] =
        some (List.replicate (c.count + 2) 0) := rfl
    rw [Room, hroute]
    simp only [hleaf, Option.some.injEq, Nat.sub_self, branchingAt]
    constructor
    · rintro ⟨d, rfl, hd⟩
      rw [List.length_replicate] at hd
      omega
    · intro hle
      exact ⟨_, rfl, by rw [List.length_replicate]; omega⟩

/-- The node that the values at `srcIdx` are told apart at, with the trees of its children. -/
def splitNode (srcIdx : Nat) (g n : DTree) : DTree := .cons [srcIdx] (.cons [0, 0] .nil g) n

theorem route_splitNode (hx : x srcIdx ≤ g.count) :
    route x (splitNode srcIdx g n) 0 =
      x srcIdx :: route x (.cons [0, 0] .nil g) (x srcIdx) := by
  have hmin : min (x srcIdx) ((Forest.cons [0, 0] .nil g).count - 1) = x srcIdx := by
    rw [Forest.count]
    omega
  change min (x srcIdx) ((Forest.cons [0, 0] .nil g).count - 1) ::
    route x (.cons [0, 0] .nil g) (min (x srcIdx) ((Forest.cons [0, 0] .nil g).count - 1)) = _
  rw [hmin]

theorem room_splitNode_stop (hx : x srcIdx = 0) (hidx : x idx = 0) :
    Room idx (splitNode srcIdx g n) 0 x := by
  refine ⟨[0, 0], ?_, by rw [hidx]; decide⟩
  rw [route_splitNode (by omega), hx]
  rfl

theorem room_splitNode_child (hx : x srcIdx = k + 1) (hk : k < g.count) :
    Room idx (splitNode srcIdx g n) 0 x ↔ Room idx g k x := by
  rw [Room, route_splitNode (by omega), hx]
  rfl

/-- What holds of the trees of the children holds of the node. -/
theorem ontoSplit_node (hlt : srcIdx < idx) (hg : g.count = c.count)
    (hpath : ∀ x ∈ l, OntoPath x (idx - srcIdx + 1) c srcIdx)
    (hchild : ∀ k o' c', c.child k = some (o', c') → ∃ part : List Row,
      (∀ y, y ∈ part ↔ y ∈ l ∧ y srcIdx = k + 1) ∧ LinkedAt part g k (srcIdx + 1) idx ∧
      ∀ x ∈ part, ∃ hi, CutAt l x srcIdx idx hi ∧
        (Room idx g k x ↔ x idx ≤ branchingAt x (hi - srcIdx) srcIdx c)) :
    OntoSplit l (splitNode srcIdx g n) 0 srcIdx idx c := by
  have hsrc : ∀ x ∈ l, x srcIdx ≤ g.count := fun x hx => hg ▸ (hpath x hx).le_count
  have hstop : ∀ x ∈ l, x srcIdx = 0 → x idx = 0 := by
    intro x hx hz
    have := (hpath x hx).stop hz (idx - srcIdx) le_rfl
    rwa [Nat.add_sub_cancel' hlt.le] at this
  refine ⟨fun x hx => ?_, fun m y hy hagree => ?_⟩
  · cases hv : x srcIdx with
    | zero =>
      obtain ⟨hi, hcut⟩ := exists_cutAt l x hlt
      have hz := hstop x hx hv
      exact ⟨hi, hcut, iff_of_true (room_splitNode_stop hv hz) (hz ▸ Nat.zero_le _)⟩
    | succ k =>
      obtain ⟨o', c', hk, -⟩ := (hpath x hx).child hv
      obtain ⟨part, hpart, -, hroom⟩ := hchild k o' c' hk
      obtain ⟨hi, hcut, hiff⟩ := hroom x ((hpart x).mpr ⟨hx, hv⟩)
      refine ⟨hi, hcut, ?_⟩
      rw [room_splitNode_child hv (hg ▸ Forest.child_lt hk)]
      exact hiff
  · have hym : y srcIdx = m srcIdx := hagree srcIdx le_rfl hlt
    have hm : m srcIdx ≤ g.count := hym ▸ hsrc y hy
    have hcount : (Forest.cons [0, 0] .nil g).count = g.count + 1 := rfl
    rw [route_splitNode (hsrc y hy), route_splitNode hm, hym]
    cases hv : m srcIdx with
    | zero =>
      refine ⟨.inr ⟨srcIdx, rfl, by omega, ?_⟩, rfl, fun x hx hroute => ?_⟩
      · rw [hv]
        exact .inl rfl
      · rw [route_splitNode (hsrc x hx)] at hroute
        have hxz := (List.cons.inj hroute).1
        exact ⟨y, hy, hagree, (hstop y hy (hym.trans hv)).trans (hstop x hx hxz).symm⟩
    | succ k =>
      obtain ⟨o', c', hk, -⟩ := (hpath y hy).child (hym.trans hv)
      obtain ⟨part, hpart, hlinked, -⟩ := hchild k o' c' hk
      obtain ⟨hin, hroute, hvalues⟩ := hlinked m y ((hpart y).mpr ⟨hy, hym.trans hv⟩)
        fun q hlo hhi => hagree q (by omega) hhi
      refine ⟨.inr ⟨srcIdx, rfl, by omega, ?_⟩, ?_, fun x hx hxr => ?_⟩
      · rw [hv]
        exact hin
      · exact congrArg _ hroute
      · rw [route_splitNode (hsrc x hx)] at hxr
        obtain ⟨hxs, hxr⟩ := List.cons.inj hxr
        rw [hxs] at hxr
        obtain ⟨z, hz, hza, hzx⟩ := hvalues x ((hpart x).mpr ⟨hx, hxs⟩) hxr
        obtain ⟨hz, hzs⟩ := (hpart z).mp hz
        refine ⟨z, hz, fun q hlo hhi => ?_, hzx⟩
        by_cases e : q = srcIdx
        · rw [e, hzs, hv]
        · exact hza q (by omega) hhi

/-! ## The whole tree -/

theorem mem_part {part : List Row} (hpath : ∀ x ∈ l, x srcIdx ≤ c.count)
    (hpart : (nWayPartition P (fun x => x srcIdx) (c.count + 1) l)[k + 1]? = some part)
    (y : Row) : y ∈ part ↔ y ∈ l ∧ y srcIdx = k + 1 := by
  have hlt := (List.getElem?_eq_some_iff.mp hpart).1
  rw [length_nWayPartition (Nat.succ_pos _)] at hlt
  rw [(perm_of_nWayPartition hpart).mem_iff, List.mem_filter, decide_eq_true_eq]
  constructor
  · rintro ⟨hy, hk⟩
    have := hpath y hy
    exact ⟨hy, by omega⟩
  · rintro ⟨hy, hk⟩
    exact ⟨hy, by omega⟩

/-- A leaf where all agree, or where the node has no children. -/
theorem ontoSplit_cut (hlt : srcIdx < idx)
    (hpath : ∀ x ∈ l, OntoPath x (idx - srcIdx + 1) c srcIdx)
    (h : isUniformOn l idx = true ∨ c.count + 1 = 1) :
    OntoSplit l (.cons (List.replicate (c.count + 2) 0) .nil n) 0 srcIdx idx c := by
  refine ontoSplit_leaf hlt fun x hx y hy => ?_
  rcases h with hu | hone
  · exact isUniformOn_iff.mp hu y hy x hx
  · have hz : ∀ x ∈ l, x idx = 0 := by
      intro x hx
      have hle := (hpath x hx).le_count
      have := (hpath x hx).stop (by omega) (idx - srcIdx) le_rfl
      rwa [Nat.add_sub_cancel' hlt.le] at this
    rw [hz x hx, hz y hy]

/-- What holds of the tree of a child, for its part of the rows, holds of it for all of them: the
rows are not uniform, so the value is settled further down. -/
theorem roomAt_child {part : List Row} (hu : ¬ isUniformOn l idx = true)
    (hmem : ∀ y, y ∈ part ↔ y ∈ l ∧ y srcIdx = k + 1) {o' : O} {c' : Forest O}
    (hk : c.child k = some (o', c')) (hx : x ∈ part)
    (h : RoomAt part g k (srcIdx + 1) idx c' x) :
    ∃ hi, CutAt l x srcIdx idx hi ∧
      (Room idx g k x ↔ x idx ≤ branchingAt x (hi - srcIdx) srcIdx c) := by
  obtain ⟨hi, hcut, hiff⟩ := h
  obtain ⟨hxl, hxk⟩ := (hmem x).mp hx
  have hnset : ¬ Settled l x srcIdx srcIdx idx := by
    intro hs
    refine hu (isUniformOn_iff.mpr fun y hy z hz => ?_)
    rw [hs y hy fun q hlo hhi => by omega, hs z hz fun q hlo hhi => by omega]
  have hge := hcut.ge
  refine ⟨hi, hcut.of_part (fun y => by rw [hmem y, hxk]) hnset, hiff.trans ?_⟩
  rw [show hi - srcIdx = hi - (srcIdx + 1) + 1 by omega, branchingAt, hxk,
    Nat.add_sub_cancel, hk]

/-- Right before the index the children are leaves, each as wide as its parent. -/
theorem ontoSplit_last (hpath : ∀ x ∈ l, OntoPath x (srcIdx + 1 - srcIdx + 1) c srcIdx) :
    OntoSplit l (splitNode srcIdx (leaves (c.count + 2) c.count) n) 0 srcIdx (srcIdx + 1) c := by
  refine ontoSplit_node (Nat.lt_succ_self _) (count_leaves _ _) hpath fun k o' c' hk => ?_
  have hkc := Forest.child_lt hk
  refine ⟨l.filter fun y => y srcIdx = k + 1, fun y => by simp, fun m y hy _ => ?_,
    fun x hx => ?_⟩
  · refine ⟨within_leaves hkc, by rw [route_leaves, route_leaves], fun x hx _ => ?_⟩
    exact ⟨x, hx, fun q hlo hhi => by omega, rfl⟩
  · refine ⟨srcIdx, ⟨le_rfl, Nat.lt_succ_self _, .inr rfl, fun hi' hlo hlt' => by omega⟩, ?_⟩
    rw [Room, route_leaves, Nat.sub_self, branchingAt]
    simp only [leafAt_leaves hkc, Option.some.injEq]
    constructor
    · rintro ⟨d, rfl, hd⟩
      rw [List.length_replicate] at hd
      omega
    · intro hle
      exact ⟨_, rfl, by rw [List.length_replicate]; omega⟩

theorem recSplitOnto_spec (sibs : Forest O) {parts : List (List Row)}
    (hlen : parts.length = sibs.count) (hlt : srcIdx < idx) (hk : sibs.child k = some (o, c))
    (hl : parts[k]? = some l) (hpath : ∀ x ∈ l, OntoPath x (idx - srcIdx + 1) c srcIdx) :
    OntoSplit l (recSplitOnto P idx srcIdx sibs parts).1 k srcIdx idx c := by
  induction sibs generalizing srcIdx parts k o c l with
  | nil => cases hk
  | cons a c₁ n ihc ihn =>
    obtain ⟨l₁, ls, rfl⟩ := List.exists_cons_of_length_eq_add_one hlen
    rw [recSplitOnto]
    simp only
    cases k with
    | succ k =>
      have hnext := ihn (Nat.succ.inj hlen) hlt hk hl hpath
      split
      · exact ⟨hnext.room, hnext.linked⟩
      · split
        · exact ⟨hnext.room, hnext.linked⟩
        · exact ⟨hnext.room, hnext.linked⟩
    | zero =>
      obtain ⟨rfl, rfl⟩ := Prod.mk.inj (Option.some.inj hk)
      obtain rfl := Option.some.inj hl
      split
      · next hleaf => exact ontoSplit_cut hlt hpath hleaf
      · next hnot =>
        rw [not_or] at hnot
        split
        · next hdeep =>
          have htail : (nWayPartition P (fun x => x srcIdx) (c₁.count + 1) l₁).tail.length =
              c₁.count := by
            rw [List.length_tail, length_nWayPartition (Nat.succ_pos _), Nat.succ_sub_one]
          refine ontoSplit_node hlt (recSplitOnto_formed c₁ (srcIdx + 1) htail).2.1 hpath
            fun k o' c' hk' => ?_
          obtain ⟨part, hpart⟩ : ∃ part,
              (nWayPartition P (fun x => x srcIdx) (c₁.count + 1) l₁).tail[k]? = some part :=
            ⟨_, List.getElem?_eq_getElem (htail.symm ▸ Forest.child_lt hk' : _)⟩
          have hmem := fun y => mem_part (P := P) (fun x hx => (hpath x hx).le_count)
            (List.getElem?_tail ▸ hpart) y
          have hpath' : ∀ x ∈ part, OntoPath x (idx - (srcIdx + 1) + 1) c' (srcIdx + 1) := by
            intro x hx
            obtain ⟨hx, hxk⟩ := (hmem x).mp hx
            obtain ⟨o'', c'', hk'', hrest⟩ := (hpath x hx).child hxk
            rw [hk'] at hk''
            obtain ⟨rfl, rfl⟩ := Prod.mk.inj (Option.some.inj hk'')
            rwa [show idx - (srcIdx + 1) + 1 = idx - srcIdx by omega]
          have hsub := ihc htail hdeep hk' hpart hpath'
          exact ⟨part, hmem, hsub.linked, fun x hx =>
            roomAt_child hnot.1 hmem hk' hx (hsub.room x hx)⟩
        · next hshallow =>
          obtain rfl : srcIdx + 1 = idx := by omega
          exact ontoSplit_last hpath

/-! ## One ontological variable -/

/-- A value is at most the number of children of the node at which its split ends. -/
def FitsOnto (rows : List Row) (tr : OntoTree O) (base : Nat) : Prop :=
  ∀ x ∈ rows, ∀ idx hi, base < idx → idx < base + tr.depth → CutAt rows x base idx hi →
    x idx ≤ branchingAt x (hi - base) base tr.children

variable {tr : OntoTree O}

theorem ontoSplit_of_treeAt (h : TreeAt P rows t (.onto tr) base (i + 1)) (hi : i + 1 < tr.depth)
    (hpath : ∀ x ∈ rows, OntoPath x tr.depth tr.children base) :
    OntoSplit rows t 0 base (base + (i + 1)) tr.children := by
  obtain ⟨r, hperm, rfl⟩ := h
  have hspec := @recSplitOnto_spec O P r (base + (i + 1)) base 0 tr.children tr.root
    (.cons tr.root tr.children .nil) [r] rfl (show base < base + (i + 1) by omega) rfl rfl fun x hx =>
      (hpath x (hperm.mem_iff.mp hx)).mono (by omega)
  refine ⟨fun x hx => ?_, fun m y hy hagree => ?_⟩
  · obtain ⟨hi, hcut, hiff⟩ := hspec.room x (hperm.mem_iff.mpr hx)
    exact ⟨hi, hcut.perm hperm, hiff⟩
  · obtain ⟨hin, hroute, hvalues⟩ := hspec.linked m y (hperm.mem_iff.mpr hy) hagree
    refine ⟨hin, hroute, fun x hx hr => ?_⟩
    obtain ⟨z, hz, hzx⟩ := hvalues x (hperm.mem_iff.mpr hx) hr
    exact ⟨z, hperm.mem_iff.mp hz, hzx⟩

theorem room_onto (h : TreeAt P rows t (.onto tr) base i) (hi : i < tr.depth)
    (hpath : ∀ x ∈ rows, OntoPath x tr.depth tr.children base) (hfits : FitsOnto rows tr base) :
    ∀ x ∈ rows, Room (base + i) t 0 x := by
  intro x hx
  cases i with
  | zero =>
    obtain rfl : t = makeDTree (tr.children.count + 1) := h
    exact room_makeDTree.mpr (Nat.lt_succ_of_le (@OntoPath.mono _ _ _ _ _ 1 (hpath x hx) hi).le_count)
  | succ i =>
    obtain ⟨cut, hcut, hiff⟩ := (ontoSplit_of_treeAt h hi hpath).room x hx
    exact hiff.mpr (hfits x hx _ cut (by omega) (by omega) hcut)

theorem linked_onto (h : TreeAt P rows t (.onto tr) base i) (hi : i < tr.depth)
    (hpath : ∀ x ∈ rows, OntoPath x tr.depth tr.children base) :
    Linked rows t base (base + i) := by
  cases i with
  | zero =>
    obtain rfl : t = makeDTree (tr.children.count + 1) := h
    exact linked_makeDTree rows _ base
  | succ i => exact (ontoSplit_of_treeAt h hi hpath).linked

/-! ## The model of a field set -/

/-- The ontological variables hold paths of existing children, followed only by stops. -/
def OntoDeme (fs : FieldSet C) (trees : List (OntoTree O)) (deme : List FieldSet.Instance) : Prop :=
  ∀ inst ∈ deme, ∀ k tr, trees[k]? = some tr →
    (∀ i < tr.depth, (fs.getRaw inst (ontoToRawIdx trees k + i)).isSome) ∧
      OntoPath (rowOf fs inst) tr.depth tr.children (ontoToRawIdx trees k)

/-- The model is built and learned with every value counted inside its leaf, and for all draws of
the generator, which returns numbers of `D`, every sampled path leads to a node. -/
def LearnsOnto (P : Partition Row) (fs : FieldSet C) (trees : List (OntoTree O))
    (shuffle : Equiv.Perm (Fin fs.rawSize)) (deme : List FieldSet.Instance) (D : Set Rat) : Prop :=
  ∃ rows model ts, deme.mapM (readRow fs) = some rows ∧
    build P fs.rawSize shuffle (variablesOf fs trees) rows = some model ∧
    probsLearning P 0 model.dtrees rows = some ts ∧
    ∀ draws : Nat → Rat, (∀ i, draws i ∈ D) →
      ∃ tmp, sampleAll ts draws model.ordering (fun _ => 0) = some tmp ∧
        ∀ k tr, trees[k]? = some tr →
          (getOnto tmp tr.depth (ontoToRawIdx trees k) tr.root tr.children).isSome

/-- What the deme, the field set and the generator must be like. -/
structure Learnable (fs : FieldSet C) (trees : List (OntoTree O)) (deme : List FieldSet.Instance)
    (D : Set Rat) : Prop where
  onto : ∀ tr ∈ trees, 0 < tr.depth
  depth : ∀ c ∈ fs.contin, 0 < c.depth
  contin : ∀ inst ∈ deme, ∀ k c, fs.contin[k]? = some c → ∀ i < c.depth,
    ∃ v < 3, fs.getRaw inst (fs.continToRawIdx k + i) = some v
  disc : ∀ inst ∈ deme, ∀ j s, fs.discAndBits[j]? = some s →
    ∃ v < discArity s, fs.getRaw inst (fs.discStart + j) = some v
  fits : ∀ k tr, trees[k]? = some tr →
    FitsOnto (deme.map (rowOf fs)) tr (ontoToRawIdx trees k)
  draws : (1 : Rat) ∉ D

section Main
variable [LinearOrder C] {specs : List (Spec C)} {fs : FieldSet C} {trees : List (OntoTree O)}
  {deme : List FieldSet.Instance} {D : Set Rat} {v : Variable O}

omit [LinearOrder C] in
theorem getRaw_rowOf {inst : FieldSet.Instance} (h : (fs.getRaw inst i).isSome) :
    fs.getRaw inst i = some (rowOf fs inst i) := by
  obtain ⟨w, hw⟩ := Option.isSome_iff_exists.mp h
  rw [rowOf, hw, Option.getD_some]

omit [LinearOrder C] in
theorem rowOf_eq {inst : FieldSet.Instance} {w : Nat} (h : fs.getRaw inst i = some w) :
    rowOf fs inst i = w := by
  rw [rowOf, h, Option.getD_some]

omit [LinearOrder C] in
theorem Learnable.size_pos (hl : Learnable fs trees deme D) (hb : Block fs trees v base) :
    0 < v.size := by
  cases hb with
  | onto htr => exact hl.onto _ (List.mem_of_getElem? htr)
  | contin hc => exact hl.depth _ (List.mem_of_getElem? hc)
  | disc => exact Nat.one_pos

omit [LinearOrder C] in
theorem Learnable.small (hl : Learnable fs trees deme D) (hb : Block fs trees v base) :
    ∀ x ∈ deme.map (rowOf fs), SmallAt x base v := by
  intro x hx
  obtain ⟨inst, hi, rfl⟩ := List.mem_map.mp hx
  cases hb with
  | onto => trivial
  | contin hc =>
    intro i hid
    obtain ⟨w, hw, hread⟩ := hl.contin inst hi _ _ hc i hid
    rw [rowOf_eq hread]
    exact hw
  | disc hd =>
    obtain ⟨w, hw, hread⟩ := hl.disc inst hi _ _ hd
    rw [SmallAt, rowOf_eq hread]
    exact hw

theorem Learnable.readable (h : ofSpecs specs = some fs) (ht : HasTrees fs trees)
    (hl : Learnable fs trees deme D) (hdeme : OntoDeme fs trees deme) :
    ∀ inst ∈ deme, ∀ i < fs.rawSize, (fs.getRaw inst i).isSome := by
  intro inst hi i hlt
  rw [← size_variablesOf h ht, ← length_places 0] at hlt
  obtain ⟨⟨v, base, level⟩, hpl⟩ : ∃ pl, (places 0 (variablesOf fs trees))[i]? = some pl :=
    ⟨_, List.getElem?_eq_getElem hlt⟩
  obtain ⟨hb, hidx, hlevel⟩ := block_of_place ht hpl
  simp only at hb hidx hlevel
  rw [← hidx]
  cases hb with
  | onto htr => exact (hdeme inst hi _ _ htr).1 level hlevel
  | contin hc =>
    obtain ⟨w, -, hread⟩ := hl.contin inst hi _ _ hc level hlevel
    rw [hread]
    rfl
  | disc hd =>
    obtain ⟨w, -, hread⟩ := hl.disc inst hi _ _ hd
    rw [Nat.lt_one_iff.mp hlevel, Nat.add_zero, hread]
    rfl

omit [LinearOrder C] in
theorem OntoDeme.path (hdeme : OntoDeme fs trees deme)
    (hb : Block fs trees (.onto tr) base) :
    ∀ x ∈ deme.map (rowOf fs), OntoPath x tr.depth tr.children base := by
  intro x hx
  obtain ⟨inst, hi, rfl⟩ := List.mem_map.mp hx
  cases hb with
  | onto htr => exact (hdeme inst hi _ _ htr).2

omit [LinearOrder C] in
theorem Learnable.fitsAt (hl : Learnable fs trees deme D) (hb : Block fs trees (.onto tr) base) :
    FitsOnto (deme.map (rowOf fs)) tr base := by
  cases hb with
  | onto htr => exact hl.fits _ _ htr

omit [LinearOrder C] in
theorem not_onto_or (v : Variable O) : (∃ tr, v = .onto tr) ∨ ∀ tr, v ≠ .onto tr := by
  cases v with
  | onto tr => exact .inl ⟨tr, rfl⟩
  | contin => exact .inr nofun
  | disc => exact .inr nofun

theorem learnsOnto_of_learnable (h : ofSpecs specs = some fs) (ht : HasTrees fs trees)
    (shuffle : Equiv.Perm (Fin fs.rawSize)) (hne : deme ≠ []) (hdeme : OntoDeme fs trees deme)
    (hD : ∀ d ∈ D, 0 ≤ d ∧ d ≤ 1) (hl : Learnable fs trees deme D) :
    LearnsOnto P fs trees shuffle deme D := by
  have hn := size_variablesOf h ht
  have hrne : deme.map (rowOf fs) ≠ [] := fun e => hne (List.map_eq_nil_iff.mp e)
  have hsize := size_pos_of_blocks ht fun v base => hl.size_pos
  obtain ⟨ts, hlearn⟩ := (@probsLearning_iff O P (deme.map (rowOf fs)) _ hsize).mpr
    fun idx t ht' x hx => by
      obtain ⟨⟨v, base, level⟩, hpl, htree⟩ := place_of_tree hsize ht'
      obtain ⟨hb, hidx, hlevel⟩ := block_of_place ht hpl
      rw [← hidx]
      rcases not_onto_or v with ⟨tr, rfl⟩ | hv
      · exact room_onto htree hlevel (hdeme.path hb) (hl.fitsAt hb) x hx
      · exact room_small hv htree hlevel (hl.small hb x hx)
  refine ⟨_, _, ts, mapM_readRow (hl.readable h ht hdeme), build_spec shuffle hn hsize, hlearn,
    fun draws hdraws => ?_⟩
  obtain ⟨tmp, hrun, hocc⟩ := model_samples shuffle hn hsize hrne hlearn
    (fun idx ⟨v, base, level⟩ t hpl htree _ => by
      obtain ⟨hb, hidx, hlevel⟩ := block_of_place ht hpl
      rw [← hidx]
      rcases not_onto_or v with ⟨tr, rfl⟩ | hv
      · exact linked_onto htree hlevel (hdeme.path hb)
      · exact linked_small hv htree hlevel (hl.small hb))
    (fun i => ⟨(hD _ (hdraws i)).1, lt_of_le_of_ne (hD _ (hdraws i)).2 fun e =>
      hl.draws (e ▸ hdraws i)⟩) (fun _ => 0)
  refine ⟨tmp, hrun, fun k tr htr => ?_⟩
  -- the last level of the variable has a row with the whole path
  have hpos := hl.onto tr (List.mem_of_getElem? htr)
  obtain ⟨hv, hbefore⟩ := var_onto fs htr
  have hpl := place_of_fieldsBefore hv (i := tr.depth - 1) (show tr.depth - 1 < tr.depth by omega)
  rw [hbefore] at hpl
  obtain ⟨z, hz, hagree⟩ := hocc _ (hbefore ▸ fieldsBefore_lt_rawSize h ht hv
    (show tr.depth - 1 < tr.depth by omega))
  have hstart : startOf (variablesOf fs trees) (ontoToRawIdx trees k + (tr.depth - 1)) =
      ontoToRawIdx trees k := startOf_place hpl
  rw [hstart, show ontoToRawIdx trees k + (tr.depth - 1) + 1 = ontoToRawIdx trees k + tr.depth by
    omega] at hagree
  rw [← getOnto_congr hagree]
  exact (hdeme.path (.onto htr) z hz).getOnto

/-- The tree at a level of a variable, with room for all values. -/
theorem room_at {vars : List (Variable O)} (hsize : ∀ v ∈ vars, 0 < v.size)
    (hlearn : ∃ ts, probsLearning P 0 (makeAll P 0 rows vars).1 rows = some ts)
    (hk : vars[k]? = some v) (hi : i < v.size) :
    ∃ t, TreeAt P rows t v (fieldsBefore vars k) i ∧
      ∀ x ∈ rows, Room (fieldsBefore vars k + i) t 0 x := by
  have hpl := place_of_fieldsBefore hk hi
  obtain ⟨t, ht, htree⟩ := (@makeAll_spec O P rows _ 0 hsize).2 _ _ hpl
  exact ⟨t, htree, (probsLearning_iff hsize).mp hlearn _ t ht⟩

/-- A draw of one leads to no child of the root. -/
theorem getOnto_past {tmp : Row} (hpos : 0 < tr.depth) (hv : tmp base = tr.children.count + 1) :
    getOnto tmp tr.depth base tr.root tr.children = none := by
  obtain ⟨d, hd⟩ := Nat.exists_eq_succ_of_ne_zero hpos.ne'
  rw [hd, getOnto, if_neg (by omega), hv, Nat.add_sub_cancel, Forest.child_eq_none.mpr le_rfl]
  rfl

theorem one_not_mem (h : ofSpecs specs = some fs) (ht : HasTrees fs trees) (htrees : trees ≠ [])
    {shuffle : Equiv.Perm (Fin fs.rawSize)} (hne : deme ≠ [])
    (hs : LearnsOnto P fs trees shuffle deme D) : (1 : Rat) ∉ D := by
  intro hone
  obtain ⟨rows, model, ts, hrows, hbuild, hlearn, hsample⟩ := hs
  obtain ⟨tmp, hrun, hpaths⟩ := hsample (fun _ => 1) fun _ => hone
  obtain ⟨tr, rest, rfl⟩ := List.exists_cons_of_ne_nil htrees
  obtain ⟨hv, hbefore⟩ := var_onto fs (show (tr :: rest)[0]? = some tr from rfl)
  have hpos : 0 < tr.depth :=
    size_pos_of_build shuffle (size_variablesOf h ht) hbuild _ (List.mem_of_getElem? hv)
  have hpl := place_of_fieldsBefore hv (i := 0) hpos
  rw [hbefore] at hpl
  obtain ⟨a, htree, hat, -⟩ := model_samples_one h ht hne hrows hbuild hlearn hrun hpl rfl
  have ha : a = tr.children.count + 1 := by
    have hlen := congrArg (fun t => (leafAt t 0 []).map List.length) htree
    simpa [leafAt_makeDTree] using hlen
  have hnode := hpaths 0 tr rfl
  rw [Nat.add_zero] at hat
  rw [getOnto_past hpos (hat.trans ha)] at hnode
  cases hnode

/-- Learning and sampling of ontological variables: every value is counted inside its leaf and
every sampled path leads to a node iff all variables have raw fields, the others hold values
below their bounds, the values fit where the splits end and no draw is a one. -/
theorem learnsOnto_iff (h : ofSpecs specs = some fs) (ht : HasTrees fs trees) (htrees : trees ≠ [])
    (P : Partition Row) (shuffle : Equiv.Perm (Fin fs.rawSize)) (hne : deme ≠ [])
    (hdeme : OntoDeme fs trees deme) (hD : ∀ d ∈ D, 0 ≤ d ∧ d ≤ 1) :
    LearnsOnto P fs trees shuffle deme D ↔ Learnable fs trees deme D := by
  refine ⟨fun hs => ?_, learnsOnto_of_learnable h ht shuffle hne hdeme hD⟩
  have hone := one_not_mem h ht htrees hne hs
  obtain ⟨rows, model, ts, hrows, hbuild, hlearn, -⟩ := hs
  obtain ⟨rfl, hread⟩ := mapM_readRow_eq hrows
  have hn := size_variablesOf h ht
  have hsize := size_pos_of_build shuffle hn hbuild
  rw [build_spec shuffle hn hsize] at hbuild
  obtain rfl := Option.some.inj hbuild
  refine ⟨fun tr htr => ?_, fun c hc => ?_, fun inst hi k c hc i hid => ?_,
    fun inst hi j s hs => ?_, fun k tr htr x hx idx cut hlo hhi hcut => ?_, hone⟩
  · obtain ⟨k, hk⟩ := List.mem_iff_getElem?.mp htr
    exact hsize _ (List.mem_of_getElem? (var_onto fs hk).1)
  · obtain ⟨k, hk⟩ := List.mem_iff_getElem?.mp hc
    exact hsize _ (List.mem_of_getElem? (var_contin ht hk).1)
  · obtain ⟨hv, hbefore⟩ := var_contin ht hc
    obtain ⟨t, htree, hroom⟩ := room_at hsize ⟨ts, hlearn⟩ hv hid
    have hlt := fieldsBefore_lt_rawSize h ht hv hid
    rw [hbefore] at htree hroom hlt
    exact ⟨_, (room_contin htree).mp (hroom _ (List.mem_map_of_mem hi)),
      getRaw_rowOf (hread inst hi _ hlt)⟩
  · obtain ⟨hv, hbefore⟩ := var_disc ht hs
    obtain ⟨t, htree, hroom⟩ := room_at hsize ⟨ts, hlearn⟩ hv Nat.one_pos
    have hlt := fieldsBefore_lt_rawSize h ht hv Nat.one_pos
    rw [hbefore] at htree hroom hlt
    obtain rfl : t = makeDTree (discArity s) := htree
    exact ⟨_, room_makeDTree.mp (hroom _ (List.mem_map_of_mem hi)),
      getRaw_rowOf (hread inst hi _ hlt)⟩
  · obtain ⟨hv, hbefore⟩ := var_onto fs htr
    obtain ⟨i, rfl⟩ := Nat.exists_eq_add_of_lt hlo
    have hi : i + 1 < tr.depth := by omega
    obtain ⟨t, htree, hroom⟩ := room_at hsize ⟨ts, hlearn⟩ hv (i := i + 1) hi
    rw [hbefore] at htree hroom
    obtain ⟨cut', hcut', hiff⟩ :=
      (ontoSplit_of_treeAt htree hi (hdeme.path (.onto htr))).room x hx
    rw [Nat.add_assoc] at hcut ⊢
    obtain rfl := hcut.unique hcut'
    exact hiff.mp (hroom x hx)

end Main

/-- A root with two children, each with one child. -/
def binaryRoot : OntoTree Nat :=
  ⟨0, .cons 1 (.cons 2 .nil .nil) (.cons 3 (.cons 4 .nil .nil) .nil)⟩

/-- Of the two paths one goes down to the last level. -/
theorem learnsOnto_binaryRoot :
    ∃ fs, ofSpecs ([.onto 2 2] : List (Spec Nat)) = some fs ∧
      ∀ shuffle, LearnsOnto (Partition.stable Row) fs [binaryRoot] shuffle
        [[5#32], [2#32]] {1 / 2} := by
  obtain ⟨fs, hfs⟩ : ∃ fs, fs = (⟨fieldRun 2 0 2, [(.onto 2 2, 1)]⟩ : FieldSet Nat) := ⟨_, rfl⟩
  have h : ofSpecs ([.onto 2 2] : List (Spec Nat)) = some fs := by rw [hfs]; rfl
  have hdeme : OntoDeme fs [binaryRoot] [[5#32], [2#32]] := by
    subst hfs
    intro inst hi k tr htr
    cases k with
    | succ k => cases htr
    | zero =>
      obtain rfl := Option.some.inj htr
      rcases List.mem_cons.mp hi with rfl | hi
      · exact ⟨by decide, .inr ⟨1, _, by decide, rfl, .inr ⟨2, _, by decide, rfl, trivial⟩⟩⟩
      · obtain rfl := List.mem_singleton.mp hi
        exact ⟨by decide, .inr ⟨3, _, by decide, rfl, .inl (by decide)⟩⟩
  refine ⟨fs, h, fun shuffle => (learnsOnto_iff h (by subst hfs; rfl) (by decide)
    (Partition.stable Row) shuffle (by decide) hdeme ?_).mpr ⟨?_, ?_, ?_, ?_, ?_, ?_⟩⟩
  · rintro d rfl
    norm_num
  · decide
  · subst hfs
    nofun
  · subst hfs
    nofun
  · subst hfs
    nofun
  · intro k tr htr x hx idx hi hlo hhi hcut
    cases k with
    | succ k => cases htr
    | zero =>
      obtain rfl := Option.some.inj htr
      have hbase : ontoToRawIdx [binaryRoot] 0 = 0 := rfl
      have hdepth : binaryRoot.depth = 2 := rfl
      have hge := hcut.ge
      have hlt := hcut.lt
      obtain rfl : idx = 1 := by omega
      obtain rfl : hi = 0 := by omega
      obtain ⟨inst, hi, rfl⟩ := List.mem_map.mp hx
      subst hfs
      rcases List.mem_cons.mp hi with rfl | hi
      · decide
      · obtain rfl := List.mem_singleton.mp hi
        decide
  · norm_num

/-- A root with one child that has three. -/
def narrowRoot : OntoTree Nat :=
  ⟨0, .cons 1 (.cons 2 .nil (.cons 3 .nil (.cons 4 .nil .nil))) .nil⟩

/-- All instances go to the last grandchild, which the leaf made for the root has no place for; and
where the generator draws from zero to one, a path beside the children of the root is sampled. -/
theorem not_learnsOnto :
    (∃ fs, ofSpecs ([.onto 2 3] : List (Spec Nat)) = some fs ∧ HasTrees fs [narrowRoot] ∧
      OntoDeme fs [narrowRoot] [[13#32]] ∧
      ∀ shuffle D, ¬ LearnsOnto (Partition.stable Row) fs [narrowRoot] shuffle [[13#32]] D) ∧
    ∃ fs, ofSpecs ([.onto 2 2] : List (Spec Nat)) = some fs ∧ HasTrees fs [binaryRoot] ∧
      OntoDeme fs [binaryRoot] [[5#32]] ∧
      ∀ shuffle, ¬ LearnsOnto (Partition.stable Row) fs [binaryRoot] shuffle [[5#32]]
        (Set.Icc 0 1) := by
  constructor
  · obtain ⟨fs, hfs⟩ : ∃ fs, fs = (⟨fieldRun 2 0 2, [(.onto 2 3, 1)]⟩ : FieldSet Nat) := ⟨_, rfl⟩
    have h : ofSpecs ([.onto 2 3] : List (Spec Nat)) = some fs := by rw [hfs]; rfl
    have ht : HasTrees fs [narrowRoot] := by subst hfs; rfl
    refine ⟨fs, h, ht, ?_, fun shuffle D hs => ?_⟩
    · subst hfs
      intro inst hi k tr htr
      obtain rfl := List.mem_singleton.mp hi
      cases k with
      | succ k => cases htr
      | zero =>
        obtain rfl := Option.some.inj htr
        exact ⟨by decide, .inr ⟨1, _, by decide, rfl, .inr ⟨4, _, by decide, rfl, trivial⟩⟩⟩
    · obtain ⟨rows, model, ts, hrows, hbuild, hlearn, -⟩ := hs
      have hn := size_variablesOf h ht
      rw [build_spec shuffle hn (size_pos_of_build shuffle hn hbuild)] at hbuild
      obtain rfl := Option.some.inj hbuild
      obtain ⟨rfl, -⟩ := mapM_readRow_eq hrows
      have hnone : probsLearning (Partition.stable Row) 0 (makeAll (Partition.stable Row) 0
          ([[13#32]].map (rowOf fs)) (variablesOf fs [narrowRoot])).1 ([[13#32]].map (rowOf fs)) =
            none := by
        subst hfs
        decide +kernel
      rw [hnone] at hlearn
      cases hlearn
  · obtain ⟨fs, hfs⟩ : ∃ fs, fs = (⟨fieldRun 2 0 2, [(.onto 2 2, 1)]⟩ : FieldSet Nat) := ⟨_, rfl⟩
    have h : ofSpecs ([.onto 2 2] : List (Spec Nat)) = some fs := by rw [hfs]; rfl
    have ht : HasTrees fs [binaryRoot] := by subst hfs; rfl
    refine ⟨fs, h, ht, ?_, fun shuffle hs =>
      one_not_mem h ht (by decide) (by decide) hs ⟨zero_le_one, le_rfl⟩⟩
    subst hfs
    intro inst hi k tr htr
    obtain rfl := List.mem_singleton.mp hi
    cases k with
    | succ k => cases htr
    | zero =>
      obtain rfl := Option.some.inj htr
      exact ⟨by decide, .inr ⟨1, _, by decide, rfl, .inr ⟨2, _, by decide, rfl, trivial⟩⟩⟩

end OpenCog.Moses.LocalStructure
