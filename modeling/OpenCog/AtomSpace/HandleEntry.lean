import OpenCog.AtomSpace.Removal
import OpenCog.Lib.SortedLists

/-! Lists of handles as lookups build them: the filters that look at one position of the
outgoing sequence, and the intersection of the lists of all positions. -/
namespace OpenCog

variable {TV : Type}

namespace AtomTable

/-- A bin of an index is a set: an iterator meets each of its handles once. -/
def bins {κ : Type} (idx : κ → List Handle) : κ → List Handle := fun k => (idx k).dedup

/-- `getHandleSet(type, subclass)`. -/
def setOfType (cs : ClassServer) (s : AtomTable TV) (t : TypeCode) (subclass : Bool) :
    List Handle :=
  handlesOfType cs (bins s.typeIndex) t subclass

/-- `getHandleSet(type, targetType, subclass, targetSubclass)`. -/
def setOfTarget (cs : ClassServer) (s : AtomTable TV) (t target : TypeCode)
    (subclass targetSubclass : Bool) : List Handle :=
  filterByType cs s (handlesOfType cs (bins s.targetTypeIndex) target targetSubclass) t subclass

/-! ## Filters -/

/-- `filterSet` by arity; an atom that is no link counts as arity 0. -/
def filterByArity (s : AtomTable TV) (set : List Handle) (arity : Nat) : List Handle :=
  set.filter fun l => ((s.bodyOf l).map Body.arity).getD 0 == arity

/-- An atom that is no link always fits. -/
def handleFits (s : AtomTable TV) (handle : Handle) (position arity : Nat) (l : Handle) : Bool :=
  match s.bodyOf l with
  | some (.link o) => (Body.link o).arity == arity && decide (position < arity) &&
      o[position]? == some handle
  | _ => true

/-- `filterSet` by the handle at a position. -/
def filterByHandleAt (s : AtomTable TV) (set : List Handle) (handle : Handle)
    (position arity : Nat) : List Handle :=
  set.filter (handleFits s handle position arity)

/-- `getOutgoingAtom(position)` of a link of the right arity. -/
def memberAt (s : AtomTable TV) (l : Handle) (position arity : Nat) : Option Handle :=
  match s.bodyOf l with
  | some (.link o) => if (Body.link o).arity = arity then o[position]? else none
  | _ => none

def typeFits (cs : ClassServer) (s : AtomTable TV) (t : TypeCode) (subclass : Bool)
    (position arity : Nat) (l : Handle) : Bool :=
  ((s.memberAt l position arity).bind s.typeOf).any fun c =>
    if subclass then cs.isA c t else c == t

/-- `filterSet` by the type at a position. -/
def filterByTypeAt (cs : ClassServer) (s : AtomTable TV) (set : List Handle) (t : TypeCode)
    (subclass : Bool) (position arity : Nat) : List Handle :=
  set.filter (typeFits cs s t subclass position arity)

/-- An empty name fits the nodes without a name, and links. -/
def nameFits (cs : ClassServer) (s : AtomTable TV) (name : String) (position arity : Nat)
    (l : Handle) : Bool :=
  let noName := cStr name == ""
  ((s.memberAt l position arity).bind s.handleMap).any fun a =>
    let itsName := match a.body with
      | .node n => n
      | .link _ => ""
    !(!noName && cs.isA a.type LINK) && !(noName && cs.isA a.type NODE && itsName != "") &&
      !(!noName && cStr name != cStr itsName)

/-- `filterSet` by the name at a position. -/
def filterByNameAt (cs : ClassServer) (s : AtomTable TV) (set : List Handle) (name : String)
    (position arity : Nat) : List Handle :=
  set.filter (nameFits cs s name position arity)

end AtomTable

/-- `HandleEntry::intersection`: no lists, or an empty one among them, give the empty list. -/
def intersection (sets : List (List Handle)) : List Handle :=
  if sets = [] then []
  else SortedLists.common ((sets.map List.length).sum + 1) (sets.map fun set => set.mergeSort)

theorem le_count_intersection {sets : List (List Handle)} (hne : sets ≠ []) (x : Handle) (n : Nat) :
    n ≤ (intersection sets).count x ↔ ∀ set ∈ sets, n ≤ set.count x := by
  have hlength : ((sets.map fun set => set.mergeSort).map List.length).sum <
      (sets.map List.length).sum + 1 := by
    rw [List.map_map]
    simp [Function.comp_def]
  rw [intersection, if_neg hne, SortedLists.le_count_common _ _ ?_ (by simpa using hne) hlength,
    List.forall_mem_map]
  · exact forall₂_congr fun set _ => by rw [(List.mergeSort_perm set _).count_eq]
  · rw [List.forall_mem_map]
    exact fun set _ => sorted_mergeSort set

theorem mem_intersection {sets : List (List Handle)} {x : Handle} :
    x ∈ intersection sets ↔ sets ≠ [] ∧ ∀ set ∈ sets, x ∈ set := by
  by_cases hne : sets = []
  · simp [intersection, hne]
  · simp only [← List.one_le_count_iff, le_count_intersection hne, ne_eq, hne, not_false_eq_true,
      true_and]

namespace AtomTable

/-! ## The lists of the indices -/

section Sets
variable {cs : ClassServer} {s : AtomTable TV}

/-- The type of the atom at a handle matches. -/
def IsOf (cs : ClassServer) (s : AtomTable TV) (t : TypeCode) (subclass : Bool) (x : Handle) : Prop :=
  ∃ c, s.typeOf x = some c ∧ typeMatches cs t subclass c = true

theorem Inv.typeOf_lt (hs : Inv cs s) {h : Handle} (hm : h ∈ s.atomSet) {c : TypeCode}
    (hc : s.typeOf h = some c) : c < cs.nTypes := by
  obtain ⟨t, b, hb⟩ := hs.has_of_mem hm
  rw [typeOf_eq, hb.2] at hc
  obtain rfl := Option.some.inj hc
  exact (hs.typed hb).lt_nTypes

/-- A list has an atom once for each bin of the types asked for that holds it. -/
theorem two_le_count_handlesOfType {idx : TypeCode → List Handle} {t : TypeCode} {subclass : Bool}
    {h : Handle} : 2 ≤ (handlesOfType cs (bins idx) t subclass).count h ↔
      ∃ c d, c ≠ d ∧ (c ≤ cs.nTypes ∧ typeMatches cs t subclass c = true ∧ h ∈ idx c) ∧
        (d ≤ cs.nTypes ∧ typeMatches cs t subclass d = true ∧ h ∈ idx d) := by
  have hterm : ∀ c : TypeCode, (if c = t || (subclass && cs.isA c t) then bins idx c else []).count h =
      if typeMatches cs t subclass c = true ∧ h ∈ idx c then 1 else 0 := by
    intro c
    have hcond : (decide (c = t) || (subclass && cs.isA c t)) = typeMatches cs t subclass c := by
      simp only [typeMatches, beq_eq_decide]
    rw [hcond]
    by_cases hc : typeMatches cs t subclass c = true
    · rw [if_pos hc, bins, List.count_dedup]
      simp [hc]
    · rw [if_neg hc, if_neg fun k => hc k.1, List.count_nil]
  set F := (Finset.range (cs.nTypes + 1)).filter fun c =>
    typeMatches cs t subclass c = true ∧ h ∈ idx c with hF
  have hcount : (handlesOfType cs (bins idx) t subclass).count h = F.card := by
    rw [handlesOfType, List.count_flatMap, hF, Finset.card_filter]
    have hlist : List.map (List.count h ∘ fun c =>
        if (decide (c = t) || (subclass && cs.isA c t)) = true then bins idx c else [])
        (List.range (cs.nTypes + 1)) =
        (List.range (cs.nTypes + 1)).map fun c =>
          if typeMatches cs t subclass c = true ∧ h ∈ idx c then 1 else 0 :=
      List.map_congr_left fun c _ => hterm c
    rw [hlist]
    rfl
  rw [hcount]
  change 1 < F.card ↔ _
  simp only [Finset.one_lt_card, hF, Finset.mem_filter, Finset.mem_range, Nat.lt_succ_iff]
  constructor
  · rintro ⟨c, hc, d, hd, hne⟩
    exact ⟨c, d, hne, hc, hd⟩
  · rintro ⟨c, d, hne, hc, hd⟩
    exact ⟨c, hc, d, hd, hne⟩

theorem mem_handlesOfType_bins {idx : TypeCode → List Handle} {t : TypeCode} {subclass : Bool}
    {h : Handle} :
    h ∈ handlesOfType cs (bins idx) t subclass ↔ h ∈ handlesOfType cs idx t subclass := by
  simp only [mem_handlesOfType, bins, List.mem_dedup]

theorem mem_setOfType (hs : Inv cs s) {t : TypeCode} {subclass : Bool} {h : Handle} :
    h ∈ setOfType cs s t subclass ↔ h ∈ s.atomSet ∧ s.IsOf cs t subclass h := by
  rw [setOfType, mem_handlesOfType_bins, mem_handlesOfType]
  constructor
  · rintro ⟨c, -, hc, hm⟩
    obtain ⟨b, hb⟩ := hs.types.mp hm
    exact ⟨hb.1, c, by rw [typeOf_eq, hb.2]; rfl, hc⟩
  · rintro ⟨hm, c, htype, hc⟩
    obtain ⟨u, b, hb⟩ := hs.has_of_mem hm
    have hu : u = c := by
      rw [typeOf_eq, hb.2] at htype
      exact Option.some.inj htype
    exact ⟨c, Nat.le_of_lt (hs.typeOf_lt hm htype), hc, hs.types.mpr ⟨b, hu ▸ hb⟩⟩

/-- The filter by type keeps the atoms of the type, all of them for `ATOM` with subclasses. -/
theorem count_filterByType (hs : Inv cs s) {set : List Handle} {t : TypeCode} {subclass : Bool}
    {h : Handle} (hm : h ∈ s.atomSet) :
    (s.IsOf cs t subclass h → (filterByType cs s set t subclass).count h = set.count h) ∧
      (¬ s.IsOf cs t subclass h → (filterByType cs s set t subclass).count h = 0) := by
  obtain ⟨u, b, hb⟩ := hs.has_of_mem hm
  have htype : s.typeOf h = some u := by rw [typeOf_eq, hb.2]; rfl
  have hof : s.IsOf cs t subclass h ↔ typeMatches cs t subclass u = true := by
    simp [IsOf, htype]
  unfold filterByType
  split
  · next hall =>
    simp only [Bool.and_eq_true, decide_eq_true_eq] at hall
    obtain ⟨rfl, rfl⟩ := hall
    refine ⟨fun _ => rfl, fun hn => absurd (hof.mpr ?_) hn⟩
    simp [typeMatches, (hs.typed hb).isA_atom]
  · rw [hof, typeMatches_eq (hs.typed hb).lt_nTypes]
    constructor
    · intro hu
      exact List.count_filter (by simpa [htype] using hu)
    · intro hu
      refine List.count_eq_zero_of_not_mem fun hin => hu ?_
      simpa [htype] using (List.mem_filter.mp hin).2

theorem mem_filterByType (hs : Inv cs s) {set : List Handle} {t : TypeCode} {subclass : Bool}
    {h : Handle} (hm : h ∈ s.atomSet) :
    h ∈ filterByType cs s set t subclass ↔ h ∈ set ∧ s.IsOf cs t subclass h := by
  obtain ⟨hyes, hno⟩ := @count_filterByType TV cs s hs set t subclass h hm
  by_cases hof : s.IsOf cs t subclass h
  · rw [← List.count_pos_iff, hyes hof, List.count_pos_iff]
    simp [hof]
  · rw [← List.count_pos_iff, hno hof]
    simp [hof]

theorem Inv.mem_targetTypeIndex (hs : Inv cs s) {c : TypeCode} {h : Handle} :
    h ∈ s.targetTypeIndex c ↔ h ∈ s.atomSet ∧ ∃ x ∈ s.outgoing h, s.typeOf x = some c := by
  rw [hs.targets]
  constructor
  · rintro ⟨u, b, hb, hx⟩
    rw [outgoing_of_key hb.2]
    exact ⟨hb.1, hx⟩
  · rintro ⟨hm, hx⟩
    obtain ⟨u, b, hb⟩ := hs.has_of_mem hm
    rw [outgoing_of_key hb.2] at hx
    exact ⟨u, b, hb, hx⟩

theorem Inv.member_typeOf_lt (hs : Inv cs s) {h x : Handle} (hm : h ∈ s.atomSet)
    (hx : x ∈ s.outgoing h) {c : TypeCode} (hc : s.typeOf x = some c) : c < cs.nTypes := by
  obtain ⟨u, b, hb⟩ := hs.has_of_mem hm
  rw [outgoing_of_key hb.2] at hx
  exact hs.typeOf_lt (hs.members hb x hx).1 hc

theorem mem_setOfTarget (hs : Inv cs s) {t target : TypeCode} {subclass targetSubclass : Bool}
    {h : Handle} : h ∈ setOfTarget cs s t target subclass targetSubclass ↔
      h ∈ s.atomSet ∧ s.IsOf cs t subclass h ∧
        ∃ x ∈ s.outgoing h, s.IsOf cs target targetSubclass x := by
  have hmem : h ∈ handlesOfType cs (bins s.targetTypeIndex) target targetSubclass ↔
      h ∈ s.atomSet ∧ ∃ x ∈ s.outgoing h, s.IsOf cs target targetSubclass x := by
    rw [mem_handlesOfType_bins]
    simp only [mem_handlesOfType, hs.mem_targetTypeIndex]
    constructor
    · rintro ⟨c, -, hc, hm, x, hx, hxc⟩
      exact ⟨hm, x, hx, c, hxc, hc⟩
    · rintro ⟨hm, x, hx, c, hxc, hc⟩
      exact ⟨c, Nat.le_of_lt (hs.member_typeOf_lt hm hx hxc), hc, hm, x, hx, hxc⟩
  by_cases hm : h ∈ s.atomSet
  · rw [setOfTarget, mem_filterByType hs hm, hmem]
    tauto
  · have hsub : h ∈ setOfTarget cs s t target subclass targetSubclass →
        h ∈ handlesOfType cs (bins s.targetTypeIndex) target targetSubclass := by
      unfold setOfTarget filterByType
      split
      · exact id
      · exact fun h => List.mem_of_mem_filter h
    exact ⟨fun h => absurd (hmem.mp (hsub h)).1 hm, fun h => absurd h.1 hm⟩

theorem two_le_count_setOfTarget (hs : Inv cs s) {t target : TypeCode}
    {subclass targetSubclass : Bool} {h : Handle} (hm : h ∈ s.atomSet)
    (hof : s.IsOf cs t subclass h) :
    2 ≤ (setOfTarget cs s t target subclass targetSubclass).count h ↔
      ∃ x ∈ s.outgoing h, ∃ y ∈ s.outgoing h, s.typeOf x ≠ s.typeOf y ∧
        s.IsOf cs target targetSubclass x ∧ s.IsOf cs target targetSubclass y := by
  rw [setOfTarget, (count_filterByType hs hm).1 hof, two_le_count_handlesOfType]
  simp only [hs.mem_targetTypeIndex]
  constructor
  · rintro ⟨c, d, hne, ⟨-, hc, -, x, hx, hxc⟩, -, hd, -, y, hy, hyd⟩
    refine ⟨x, hx, y, hy, fun e => hne ?_, ⟨c, hxc, hc⟩, ⟨d, hyd, hd⟩⟩
    rw [hxc, hyd] at e
    exact Option.some.inj e
  · rintro ⟨x, hx, y, hy, hne, ⟨c, hxc, hc⟩, ⟨d, hyd, hd⟩⟩
    refine ⟨c, d, fun e => hne (by rw [hxc, hyd, e]), ⟨?_, hc, hm, x, hx, hxc⟩, ?_, hd, hm, y, hy, hyd⟩
    · exact Nat.le_of_lt (hs.member_typeOf_lt hm hx hxc)
    · exact Nat.le_of_lt (hs.member_typeOf_lt hm hy hyd)

/-! ## Filters by position -/

theorem arity_of_has (hs : Inv cs s) {l : Handle} {t : TypeCode} {o : List Handle}
    (hl : s.Has l t (.link o)) : (Body.link o).arity = o.length :=
  Nat.mod_eq_of_lt (hs.typed hl).length_lt

theorem bodyOf_of_has {l : Handle} {t : TypeCode} {b : Body} (hl : s.Has l t b) :
    s.bodyOf l = some b := by
  rw [bodyOf_eq, hl.2]
  rfl

/-- `getOutgoingAtom` finds the member of a stored link of the right arity. -/
theorem memberAt_of_has (hs : Inv cs s) {l : Handle} {t : TypeCode} {o : List Handle}
    (hl : s.Has l t (.link o)) (i arity : Nat) :
    s.memberAt l i arity = if o.length = arity then o[i]? else none := by
  rw [memberAt, bodyOf_of_has hl]
  simp only [arity_of_has hs hl]

theorem memberAt_eq_some (hs : Inv cs s) {l x : Handle} (hm : l ∈ s.atomSet) {i arity : Nat} :
    s.memberAt l i arity = some x ↔
      ∃ t o, s.Has l t (.link o) ∧ o.length = arity ∧ o[i]? = some x := by
  constructor
  · intro h
    obtain ⟨t, b, hb⟩ := hs.has_of_mem hm
    cases b with
    | node n =>
      rw [memberAt, bodyOf_of_has hb] at h
      cases h
    | link o =>
      rw [memberAt_of_has hs hb] at h
      split at h
      · next hlen => exact ⟨t, o, hb, hlen, h⟩
      · cases h
  · rintro ⟨t, o, ho, hlen, hx⟩
    rw [memberAt_of_has hs ho, if_pos hlen, hx]

theorem typeFits_iff (hs : Inv cs s) {l : Handle} (hm : l ∈ s.atomSet) {t : TypeCode}
    {subclass : Bool} {i arity : Nat} : typeFits cs s t subclass i arity l = true ↔
      ∃ x, s.memberAt l i arity = some x ∧ s.IsOf cs t subclass x := by
  unfold typeFits
  cases hx : s.memberAt l i arity with
  | none => simp
  | some x =>
    obtain ⟨u, o, ho, -, hget⟩ := (memberAt_eq_some hs hm).mp hx
    have hxo : x ∈ s.outgoing l := by
      rw [outgoing_of_key ho.2]
      exact List.mem_of_getElem? hget
    cases hc : s.typeOf x with
    | none => simp [IsOf, hc]
    | some c =>
      simp [IsOf, hc, typeMatches_eq (hs.member_typeOf_lt hm hxo hc)]

/-- The incoming list of any record, stored or not. -/
theorem Standing.count_incoming (hs : Standing cs s) {x : Handle} (hx : s.handleMap x ≠ none)
    (l : Handle) :
    (s.incoming x).count l = if l ∈ s.atomSet then (s.outgoing l).count x else 0 := by
  rw [hs.linkage.dual x hx l]
  by_cases hm : l ∈ s.atomSet
  · rw [if_pos (hs.inv.isStored_iff.mpr hm), if_pos hm, hs.inv.targetsOf_eq_outgoing hm]
  · rw [if_neg (mt hs.inv.isStored_iff.mp hm), if_neg hm]

/-- The links with a handle at a position, each as often as it names the handle. -/
theorem count_filterByHandleAt (hs : Standing cs s) {x l : Handle} (hx : s.handleMap x ≠ none)
    {i arity : Nat} (hi : i < arity) :
    (filterByHandleAt s (s.incoming x) x i arity).count l =
      if l ∈ s.atomSet ∧ (s.outgoing l).length = arity ∧ (s.outgoing l)[i]? = some x then
        (s.outgoing l).count x else 0 := by
  by_cases hm : l ∈ s.atomSet
  · obtain ⟨t, b, hb⟩ := hs.inv.has_of_mem hm
    rw [outgoing_of_key hb.2]
    cases b with
    | node n =>
      have hn : l ∉ s.incoming x := by
        rw [← List.count_eq_zero, hs.count_incoming hx, if_pos hm, outgoing_of_key hb.2]
        rfl
      have hzero : (filterByHandleAt s (s.incoming x) x i arity).count l = 0 :=
        List.count_eq_zero_of_not_mem fun h => hn (List.mem_of_mem_filter h)
      rw [hzero]
      simp [Body.outgoing]
    | link o =>
      have hp : handleFits s x i arity l = true ↔ o.length = arity ∧ o[i]? = some x := by
        rw [handleFits, bodyOf_of_has hb]
        simp [arity_of_has hs.inv hb, hi]
      by_cases hfit : o.length = arity ∧ o[i]? = some x
      · have hout : s.outgoing l = (Body.link o).outgoing := outgoing_of_key hb.2
        rw [if_pos ⟨hm, hfit⟩, filterByHandleAt, List.count_filter (hp.mpr hfit),
          hs.count_incoming hx, if_pos hm, hout]
      · rw [if_neg fun h => hfit h.2]
        exact List.count_eq_zero_of_not_mem fun h => hfit (hp.mp (List.mem_filter.mp h).2)
  · rw [if_neg fun h => hm h.1]
    refine List.count_eq_zero_of_not_mem fun h => ?_
    have hin := List.count_pos_iff.mpr (List.mem_of_mem_filter h)
    rw [hs.count_incoming hx, if_neg hm] at hin
    cases hin

theorem mem_filterByHandleAt (hs : Standing cs s) {x l : Handle} (hx : s.handleMap x ≠ none)
    {i arity : Nat} (hi : i < arity) : l ∈ filterByHandleAt s (s.incoming x) x i arity ↔
      l ∈ s.atomSet ∧ (s.outgoing l).length = arity ∧ (s.outgoing l)[i]? = some x := by
  rw [← List.count_pos_iff, count_filterByHandleAt hs hx hi]
  split
  · next h =>
    exact ⟨fun _ => h, fun _ => List.count_pos_iff.mpr (List.mem_of_getElem? h.2.2)⟩
  · next h => exact ⟨fun h0 => absurd h0 (Nat.lt_irrefl 0), fun h1 => absurd h1 h⟩

end Sets

end AtomTable

end OpenCog
