import OpenCog.AtomSpace.HandleEntry

/-! Lookups of links by what stands at each position of their outgoing sequence: given
handles, types or names, one list for each position that is constrained, and the
intersection of these lists. -/
namespace OpenCog

variable {TV : Type}

/-- What both lookups are given. A missing array is a null pointer. -/
instance neZero_arity : NeZero 65536 := ⟨by decide⟩

structure Query where
  /-- `Arity` is an unsigned short. -/
  arity : Fin 65536
  types : Option (Fin arity → TypeCode)
  subclasses : Option (Fin arity → Bool)
  type : TypeCode
  subclass : Bool

/-- The query by handles; `handles` is `none` for the empty vector. -/
structure HandleQuery extends Query where
  handles : Option (Fin arity → Handle)

/-- The query by names; the array and each of its elements may be null. -/
structure NameQuery extends Query where
  names : Option (Fin arity → Option String)

namespace Query
variable (q : Query)

/-- The type asked for at a position, unless it is `NOTYPE`. -/
def typeAt (i : Fin q.arity) : Option TypeCode :=
  (q.types.map fun types => types i).filter (· != NOTYPE)

def subAt (i : Fin q.arity) : Bool := (q.subclasses.map fun subclasses => subclasses i).getD false

end Query

def NameQuery.nameAt (q : NameQuery) (i : Fin q.arity) : Option String :=
  q.names.bind fun names => names i

namespace AtomTable

/-- The handle asked for at a position, if it is valid. -/
def handleAt (s : AtomTable TV) (q : HandleQuery) (i : Fin q.arity) : Option Handle :=
  (q.handles.map fun handles => handles i).filter s.isValidHandle

/-! ## The lookup by handles -/

/-- The first loop of `getHandleSet(handles, types, …)`: the list of a position, `none` for one
that is not constrained. -/
def handleSetAt (cs : ClassServer) (s : AtomTable TV) (q : HandleQuery) (i : Fin q.arity) :
    Option (List Handle) :=
  match s.handleAt q i with
  | some h => some (s.filterByHandleAt (s.incoming h) h i q.arity)
  | none => (q.typeAt i).map fun t => setOfTarget cs s q.type t q.subclass (q.subAt i)

/-- The last loop of `getHandleSet(handles, types, …)`. -/
def filterByTypes (cs : ClassServer) (s : AtomTable TV) (q : HandleQuery) (set : List Handle) :
    List Handle :=
  (List.finRange q.arity).foldl (fun set i =>
    match q.typeAt i with
    | some t => filterByTypeAt cs s set t (q.subAt i) i q.arity
    | none => set) set

/-- The shortcut: the link with these members is looked up in the hash set. -/
def findLink (cs : ClassServer) (s : AtomTable TV) (q : HandleQuery) : List Handle :=
  let handles := ((q.handles.map List.ofFn).getD [])
  let link := Body.link (Atom.setOutgoingSet cs q.type handles)
  let found := s.atomSet.find? fun g =>
    ((s.handleMap g).map fun b => q.type == b.type && b.body.sameAs link).getD false
  (found.filter s.isValidHandle).toList

def handleSets (cs : ClassServer) (s : AtomTable TV) (q : HandleQuery) :
    List (Option (List Handle)) :=
  (List.finRange q.arity).map (handleSetAt cs s q)

/-- The lists without those of the positions that are not constrained. -/
def newset (cs : ClassServer) (s : AtomTable TV) (q : HandleQuery) : List (List Handle) :=
  (handleSets cs s q).reduceOption

/-- What follows the shortcut; `none` when the list of lists is accessed past its end. -/
def searchLinks (cs : ClassServer) (s : AtomTable TV) (q : HandleQuery) : Option (List Handle) :=
  if cs.isA q.type LINK && q.arity == 0 then
    some (s.filterByArity (setOfType cs s q.type q.subclass) q.arity)
  else if (handleSets cs s q).contains (some []) then some []
  else if q.type != ATOM || !q.subclass then
    -- the loop still runs up to the arity
    if (newset cs s q).length < q.arity then none
    else some (filterByTypes cs s q
      (intersection ((newset cs s q).map fun set => filterByType cs s set q.type q.subclass)))
  else some (filterByTypes cs s q (intersection (newset cs s q)))

def hasAllHandles (s : AtomTable TV) (q : HandleQuery) : Bool :=
  (List.finRange q.arity).all fun i => (s.handleAt q i).isSome

/-- Whether the shortcut is taken. -/
def isSpecialCase (cs : ClassServer) (s : AtomTable TV) (q : HandleQuery) : Bool :=
  cs.isA q.type LINK && (q.arity == 0 || q.handles.isSome) && s.hasAllHandles q && !q.subclass

/-- `getHandleSet(handles, types, subclasses, arity, type, subclass)`. -/
def getHandleSetByHandles (cs : ClassServer) (s : AtomTable TV) (q : HandleQuery) :
    Option (List Handle) :=
  if isSpecialCase cs s q then some (findLink cs s q) else searchLinks cs s q

/-! ## The lookup by names -/

/-- `getHandleSet(targetName, targetType, type, subclass)`. -/
def setOfName (cs : ClassServer) (s : AtomTable TV) (name : String) (target t : TypeCode)
    (subclass : Bool) : List Handle :=
  match (s.getHandleByName name target).filter s.isValidHandle with
  | some h => filterByType cs s (s.incoming h) t subclass
  | none => []

/-- `getChildrenRecursive`. -/
def childrenRecursive (cs : ClassServer) (t : TypeCode) : List TypeCode :=
  (List.range cs.nTypes).filter fun c => cs.isA c t && c != t

/-- The loop of `getHandleSet(names, types, …)`; the outer `none` is the exception. -/
def nameSetAt (cs : ClassServer) (s : AtomTable TV) (q : NameQuery) (i : Fin q.arity) :
    Option (Option (List Handle)) :=
  match q.nameAt i, q.typeAt i with
  | some name, some t =>
    let set := setOfName cs s name t q.type q.subclass ++
      if q.subAt i then
        (childrenRecursive cs t).flatMap fun c => setOfName cs s name c q.type q.subclass
      else []
    let set := filterByTypeAt cs s set t (q.subAt i) i q.arity
    some (some (filterByNameAt cs s set name i q.arity))
  | some _, none => none
  | none, some t =>
    let set := setOfTarget cs s q.type t q.subclass (q.subAt i)
    some (some (filterByTypeAt cs s set t (q.subAt i) i q.arity))
  | none, none => some none

/-- `getHandleSet(names, types, subclasses, arity, type, subclass)`; `none` when it throws. -/
def getHandleSetByNames (cs : ClassServer) (s : AtomTable TV) (q : NameQuery) :
    Option (List Handle) := do
  let sets ← (List.finRange q.arity).mapM (nameSetAt cs s q)
  let countdown := sets.count none
  -- a position with an empty list is dropped like one without a constraint
  let newset := if countdown > 0 then sets.reduceOption.filter (· ≠ [])
    else sets.reduceOption
  some (intersection newset)

/-! ## What a query asks for -/

/-- The stored links of the type and arity whose members are as asked. -/
def Matches (cs : ClassServer) (s : AtomTable TV) (q : Query) (asks : Fin q.arity → Handle → Prop)
    (l : Handle) : Prop :=
  ∃ t o, s.Has l t (.link o) ∧ typeMatches cs q.type q.subclass t = true ∧ o.length = q.arity ∧
    ∀ i : Fin q.arity, ∃ x, o[i.val]? = some x ∧ asks i x

/-- The handle and the type of a position, where they are given. -/
def Asked (cs : ClassServer) (s : AtomTable TV) (q : HandleQuery) (i : Fin q.arity) (x : Handle) :
    Prop :=
  (∀ h, s.handleAt q i = some h → x = h) ∧
    ∀ t, q.typeAt i = some t → s.IsOf cs t (q.subAt i) x

def Constrained (s : AtomTable TV) (q : HandleQuery) (i : Fin q.arity) : Prop :=
  s.handleAt q i ≠ none ∨ q.typeAt i ≠ none

/-- A link that the list of a position starts from: with a handle, the links that have it there;
with a type alone, the links with any member of the type. -/
def Candidate (cs : ClassServer) (s : AtomTable TV) (q : HandleQuery) (i : Fin q.arity)
    (l : Handle) : Prop :=
  l ∈ s.atomSet ∧
    (∀ h, s.handleAt q i = some h →
      (s.outgoing l).length = q.arity ∧ (s.outgoing l)[i.val]? = some h) ∧
    ∀ t, s.handleAt q i = none → q.typeAt i = some t →
      s.IsOf cs q.type q.subclass l ∧ ∃ x ∈ s.outgoing l, s.IsOf cs t (q.subAt i) x

/-- Two entries in the list of a position: the handle stands twice in the link, or members of two
types pass for the type asked for. -/
def Twice (cs : ClassServer) (s : AtomTable TV) (q : HandleQuery) (i : Fin q.arity) (l : Handle) :
    Prop :=
  (∀ h, s.handleAt q i = some h → 2 ≤ (s.outgoing l).count h) ∧
    ∀ t, s.handleAt q i = none → q.typeAt i = some t → ∃ x ∈ s.outgoing l, ∃ y ∈ s.outgoing l,
      s.typeOf x ≠ s.typeOf y ∧ s.IsOf cs t (q.subAt i) x ∧ s.IsOf cs t (q.subAt i) y

section Search
variable {cs : ClassServer} {s : AtomTable TV} {q : HandleQuery}

theorem handleAt_record {i : Fin q.arity} {h : Handle} (hh : s.handleAt q i = some h) :
    s.handleMap h ≠ none := by
  have hvalid := (Option.filter_eq_some_iff.mp hh).2
  simp only [isValidHandle, Bool.and_eq_true, Option.isSome_iff_ne_none] at hvalid
  exact hvalid.2

theorem constrained_iff {i : Fin q.arity} :
    Constrained s q i ↔ ∃ set, handleSetAt cs s q i = some set := by
  unfold Constrained handleSetAt
  cases hh : s.handleAt q i with
  | some h => simp
  | none =>
    cases ht : q.typeAt i with
    | some t => simp
    | none => simp

theorem mem_handleSetAt (hs : Standing cs s) {i : Fin q.arity} {set : List Handle}
    (hset : handleSetAt cs s q i = some set) (l : Handle) : l ∈ set ↔ Candidate cs s q i l := by
  unfold handleSetAt at hset
  unfold Candidate
  cases hh : s.handleAt q i with
  | some h =>
    rw [hh] at hset
    obtain rfl := Option.some.inj hset
    rw [mem_filterByHandleAt hs (handleAt_record hh) i.isLt]
    simp
  | none =>
    rw [hh] at hset
    obtain ⟨t, ht, rfl⟩ := Option.map_eq_some_iff.mp hset
    rw [mem_setOfTarget hs.inv, ht]
    simp

theorem two_le_count_handleSetAt (hs : Standing cs s) {i : Fin q.arity} {set : List Handle}
    (hset : handleSetAt cs s q i = some set) {l : Handle} (hl : l ∈ set) :
    2 ≤ set.count l ↔ Twice cs s q i l := by
  have hc := (mem_handleSetAt hs hset l).mp hl
  unfold handleSetAt at hset
  unfold Twice
  cases hh : s.handleAt q i with
  | some h =>
    rw [hh] at hset
    obtain rfl := Option.some.inj hset
    rw [count_filterByHandleAt hs (handleAt_record hh) i.isLt, if_pos ⟨hc.1, hc.2.1 h hh⟩]
    simp
  | none =>
    rw [hh] at hset
    obtain ⟨t, ht, rfl⟩ := Option.map_eq_some_iff.mp hset
    rw [two_le_count_setOfTarget hs.inv hc.1 (hc.2.2 t hh ht).1, ht]
    simp

/-- Filters one after the other keep what passes all of them. -/
theorem count_foldl_filter {ι : Type} (f : ι → Option (Handle → Bool)) (is : List ι)
    (set : List Handle) (l : Handle) :
    (is.foldl (fun set i => match f i with
      | some p => set.filter p
      | none => set) set).count l =
      if ∀ i ∈ is, ∀ p, f i = some p → p l = true then set.count l else 0 := by
  induction is generalizing set with
  | nil => simp
  | cons i is ih =>
    rw [List.foldl_cons, ih]
    cases hf : f i with
    | none => simp [hf]
    | some p =>
      cases hp : p l with
      | true => simp [hf, hp, List.count_filter]
      | false =>
        have hzero : (set.filter p).count l = 0 :=
          List.count_eq_zero_of_not_mem fun h => by simp [hp] at h
        simp [hf, hp, hzero]

theorem count_filterByTypes (set : List Handle) (l : Handle) :
    (filterByTypes cs s q set).count l =
      if ∀ i t, q.typeAt i = some t → typeFits cs s t (q.subAt i) i q.arity l = true
      then set.count l else 0 := by
  have h := count_foldl_filter
    (fun i => (q.typeAt i).map fun t => typeFits cs s t (q.subAt i) i q.arity)
    (List.finRange q.arity) set l
  have hfun : (fun (set : List Handle) (i : Fin q.arity) =>
      match (q.typeAt i).map fun t => typeFits cs s t (q.subAt i) i q.arity with
      | some p => set.filter p
      | none => set) = fun set i => match q.typeAt i with
      | some t => filterByTypeAt cs s set t (q.subAt i) i q.arity
      | none => set := by
    funext set i
    cases q.typeAt i with
    | none => rfl
    | some t => rfl
  rw [hfun] at h
  rw [filterByTypes, h]
  simp

section Matching
variable {asks : Fin q.arity → Handle → Prop} {l : Handle}

theorem Matches.mem (hm : Matches cs s q.toQuery asks l) : l ∈ s.atomSet := by
  obtain ⟨t, o, ho, -⟩ := hm
  exact ho.1

theorem Matches.isOf (hm : Matches cs s q.toQuery asks l) : s.IsOf cs q.type q.subclass l := by
  obtain ⟨t, o, ho, htype, -⟩ := hm
  exact ⟨t, by rw [typeOf_eq, ho.2]; rfl, htype⟩

/-- A match has the handle of a position there, and a member of its type. -/
theorem Matches.candidate (hm : Matches cs s q.toQuery (Asked cs s q) l) (i : Fin q.arity) :
    Candidate cs s q i l := by
  have hof := hm.isOf
  obtain ⟨t, o, ho, -, hlen, hall⟩ := hm
  obtain ⟨x, hx, hhandle, htype⟩ := hall i
  have hout : s.outgoing l = o := outgoing_of_key ho.2
  refine ⟨ho.1, fun h hh => ?_, fun u _ hu => ⟨hof, x, ?_, htype u hu⟩⟩
  · rw [hout, ← hhandle h hh]
    exact ⟨hlen, hx⟩
  · rw [hout]
    exact List.mem_of_getElem? hx

theorem Matches.typeFits (hs : Inv cs s) (hm : Matches cs s q.toQuery (Asked cs s q) l)
    {i : Fin q.arity} {t : TypeCode} (ht : q.typeAt i = some t) :
    typeFits cs s t (q.subAt i) i q.arity l = true := by
  obtain ⟨u, o, ho, -, hlen, hall⟩ := hm
  obtain ⟨x, hx, -, htype⟩ := hall i
  exact (typeFits_iff hs ho.1).mpr ⟨x, (memberAt_eq_some hs ho.1).mpr ⟨u, o, ho, hlen, hx⟩,
    htype t ht⟩

/-- A position with a handle or a type shows that the candidate is a link of the arity. -/
theorem exists_link_of_candidate (hs : Inv cs s) {i : Fin q.arity} (hi : Constrained s q i)
    (hc : Candidate cs s q i l)
    (hfit : ∀ i t, q.typeAt i = some t → AtomTable.typeFits cs s t (q.subAt i) i q.arity l = true) :
    ∃ t o, s.Has l t (.link o) ∧ o.length = q.arity := by
  by_cases hh : s.handleAt q i = none
  · obtain ⟨u, hu⟩ := Option.ne_none_iff_exists'.mp (hi.resolve_left (not_not.mpr hh))
    obtain ⟨x, hx, -⟩ := (typeFits_iff hs hc.1).mp (hfit i u hu)
    obtain ⟨t, o, ho, hlen, -⟩ := (memberAt_eq_some hs hc.1).mp hx
    exact ⟨t, o, ho, hlen⟩
  · obtain ⟨h, hh⟩ := Option.ne_none_iff_exists'.mp hh
    obtain ⟨hlen, hget⟩ := hc.2.1 h hh
    obtain ⟨t, b, hb⟩ := hs.has_of_mem hc.1
    rw [outgoing_of_key hb.2] at hlen hget
    cases b with
    | node n => cases hget
    | link o => exact ⟨t, o, hb, hlen⟩

theorem matches_of_candidates (hs : Inv cs s) (hsome : ∃ i, Constrained s q i)
    (hcand : ∀ i, Constrained s q i → Candidate cs s q i l)
    (hfit : ∀ i t, q.typeAt i = some t → AtomTable.typeFits cs s t (q.subAt i) i q.arity l = true)
    (hof : s.IsOf cs q.type q.subclass l) : Matches cs s q.toQuery (Asked cs s q) l := by
  obtain ⟨j, hj⟩ := hsome
  obtain ⟨t, o, ho, hlen⟩ := exists_link_of_candidate hs hj (hcand j hj) hfit
  have hout : s.outgoing l = o := outgoing_of_key ho.2
  refine ⟨t, o, ho, ?_, hlen, fun i => ?_⟩
  · obtain ⟨c, hc, hmatch⟩ := hof
    rw [typeOf_eq, ho.2] at hc
    obtain rfl : t = c := Option.some.inj hc
    exact hmatch
  · have hi : i.val < o.length := by
      rw [hlen]
      exact i.isLt
    refine ⟨o[i.val], List.getElem?_eq_getElem hi, fun h hh => ?_, fun u hu => ?_⟩
    · have hget := ((hcand i (.inl (by rw [hh]; exact Option.some_ne_none h))).2.1 h hh).2
      rw [hout, List.getElem?_eq_getElem hi] at hget
      exact Option.some.inj hget
    · obtain ⟨x, hx, hxof⟩ := (typeFits_iff hs ho.1).mp (hfit i u hu)
      rw [memberAt_of_has hs ho, if_pos hlen, List.getElem?_eq_getElem hi] at hx
      exact Option.some.inj hx ▸ hxof

end Matching

/-! ## What the search returns -/

def searched (cs : ClassServer) (s : AtomTable TV) (q : HandleQuery) : List Handle :=
  filterByTypes cs s q
    (intersection ((newset cs s q).map fun set => filterByType cs s set q.type q.subclass))

theorem mem_newset {set : List Handle} :
    set ∈ newset cs s q ↔ ∃ i, handleSetAt cs s q i = some set := by
  simp [newset, handleSets, List.reduceOption_mem_iff]

/-- How often a link is returned: as often as every list has it, if it matches. -/
theorem le_count_searched (hs : Standing cs s) (hsome : ∃ i, Constrained s q i) {n : Nat}
    (hn : 0 < n) (l : Handle) : n ≤ (searched cs s q).count l ↔
      Matches cs s q.toQuery (Asked cs s q) l ∧
        ∀ i set, handleSetAt cs s q i = some set → n ≤ set.count l := by
  have hne : (newset cs s q).map (fun set => filterByType cs s set q.type q.subclass) ≠ [] := by
    obtain ⟨i, hi⟩ := hsome
    obtain ⟨set, hset⟩ := (@constrained_iff TV cs s q _).mp hi
    have hmem := mem_newset.mpr ⟨i, hset⟩
    simp [List.ne_nil_of_mem hmem]
  have hcount : n ≤ (searched cs s q).count l ↔
      (∀ i t, q.typeAt i = some t → typeFits cs s t (q.subAt i) i q.arity l = true) ∧
        ∀ i set, handleSetAt cs s q i = some set →
          n ≤ (filterByType cs s set q.type q.subclass).count l := by
    rw [searched, count_filterByTypes]
    split
    · next hfit =>
      rw [le_count_intersection hne, List.forall_mem_map]
      simp only [mem_newset, forall_exists_index]
      exact ⟨fun h => ⟨hfit, fun i set hset => h set i hset⟩, fun h set i hset => h.2 i set hset⟩
    · next hfit => exact ⟨fun h => by omega, fun h => absurd h.1 hfit⟩
  rw [hcount]
  constructor
  · rintro ⟨hfit, hall⟩
    have hin : ∀ i set, handleSetAt cs s q i = some set →
        l ∈ filterByType cs s set q.type q.subclass ∧ Candidate cs s q i l := by
      intro i set hset
      have hpos := List.count_pos_iff.mp (Nat.lt_of_lt_of_le hn (hall i set hset))
      refine ⟨hpos, (mem_handleSetAt hs hset l).mp ?_⟩
      unfold filterByType at hpos
      split at hpos
      · exact hpos
      · exact List.mem_of_mem_filter hpos
    have hof : s.IsOf cs q.type q.subclass l := by
      obtain ⟨i, hi⟩ := hsome
      obtain ⟨set, hset⟩ := (@constrained_iff TV cs s q _).mp hi
      obtain ⟨hmem, hc⟩ := hin i set hset
      exact ((mem_filterByType hs.inv hc.1).mp hmem).2
    refine ⟨matches_of_candidates hs.inv hsome (fun i hi => ?_) hfit hof, fun i set hset => ?_⟩
    · obtain ⟨set, hset⟩ := (@constrained_iff TV cs s q _).mp hi
      exact (hin i set hset).2
    · rw [← (count_filterByType hs.inv (hin i set hset).2.1).1 hof]
      exact hall i set hset
  · rintro ⟨hm, hall⟩
    refine ⟨fun i t ht => hm.typeFits hs.inv ht, fun i set hset => ?_⟩
    rw [(count_filterByType hs.inv hm.mem).1 hm.isOf]
    exact hall i set hset

theorem mem_searched (hs : Standing cs s) (hsome : ∃ i, Constrained s q i) (l : Handle) :
    l ∈ searched cs s q ↔ Matches cs s q.toQuery (Asked cs s q) l := by
  rw [← List.one_le_count_iff, le_count_searched hs hsome Nat.one_pos]
  refine ⟨And.left, fun hm => ⟨hm, fun i set hset => ?_⟩⟩
  rw [List.one_le_count_iff, mem_handleSetAt hs hset]
  exact hm.candidate i

/-- A link that matches is returned once unless all positions list it twice. -/
theorem nodup_searched_iff (hs : Standing cs s) (hsome : ∃ i, Constrained s q i) :
    (searched cs s q).Nodup ↔ ∀ l, Matches cs s q.toQuery (Asked cs s q) l →
      ∃ i, Constrained s q i ∧ ¬ Twice cs s q i l := by
  rw [List.nodup_iff_count_le_one]
  refine forall_congr' fun l => ?_
  rw [← not_lt, Nat.lt_iff_add_one_le, le_count_searched hs hsome Nat.two_pos, not_and]
  refine imp_congr_right fun hm => ?_
  simp only [not_forall]
  constructor
  · rintro ⟨i, set, hset, hlt⟩
    refine ⟨i, constrained_iff.mpr ⟨set, hset⟩, fun htwice => hlt ?_⟩
    exact (two_le_count_handleSetAt hs hset ((mem_handleSetAt hs hset l).mpr (hm.candidate i))).mpr
      htwice
  · rintro ⟨i, hi, htwice⟩
    obtain ⟨set, hset⟩ := (@constrained_iff TV cs s q _).mp hi
    refine ⟨i, set, hset, fun hlt => htwice ?_⟩
    exact (two_le_count_handleSetAt hs hset ((mem_handleSetAt hs hset l).mpr (hm.candidate i))).mp hlt

/-- The search in one line: with a list for every position, or no filter to run past the end of the
lists, the result is that of the intersection. -/
theorem searchLinks_eq (h : (cs.isA q.type LINK && q.arity == 0) = false) :
    searchLinks cs s q =
      if ∃ i, handleSetAt cs s q i = some [] then some []
      else if (q.type ≠ ATOM ∨ q.subclass = false) ∧ (newset cs s q).length < q.arity then none
      else some (searched cs s q) := by
  have hcontains : (handleSets cs s q).contains (some []) = true ↔
      ∃ i, handleSetAt cs s q i = some [] := by
    simp [handleSets]
  unfold searchLinks
  rw [h]
  simp only [Bool.false_eq_true, if_false]
  by_cases hempty : ∃ i, handleSetAt cs s q i = some []
  · rw [if_pos (hcontains.mpr hempty), if_pos hempty]
  · rw [if_neg (mt hcontains.mp hempty), if_neg hempty]
    by_cases hall : q.type ≠ ATOM ∨ q.subclass = false
    · have hcond : (q.type != ATOM || !q.subclass) = true := by simpa using hall
      rw [if_pos hcond]
      by_cases hlt : (newset cs s q).length < q.arity
      · rw [if_pos hlt, if_pos ⟨hall, hlt⟩]
      · rw [if_neg hlt, if_neg fun h => hlt h.2]
        rfl
    · have hcond : ¬ (q.type != ATOM || !q.subclass) = true := by simpa using hall
      rw [if_neg hcond, if_neg fun h => hall h.1]
      simp only [not_or, not_not, Bool.not_eq_false] at hall
      have hid : (fun set => filterByType cs s set q.type q.subclass) = id := by
        funext set
        simp [filterByType, hall]
      rw [searched, hid, List.map_id]

theorem length_newset_lt_iff :
    (newset cs s q).length < q.arity ↔ ∃ i, ¬ Constrained s q i := by
  have hlength : (handleSets cs s q).length = q.arity := by simp [handleSets]
  have hnone := List.reduceOption_length_lt_iff (l := handleSets cs s q)
  rw [hlength] at hnone
  refine hnone.trans ?_
  rw [handleSets, List.mem_map]
  simp only [List.mem_finRange, true_and]
  refine exists_congr fun i => ?_
  rw [@constrained_iff TV cs s q i]
  simp [Option.eq_none_iff_forall_ne_some]

/-- The intersection of no lists is empty. -/
theorem searched_eq_nil (h : ∀ i, ¬ Constrained s q i) : searched cs s q = [] := by
  have hnil : newset cs s q = [] := by
    refine List.eq_nil_iff_forall_not_mem.mpr fun set hset => ?_
    obtain ⟨i, hi⟩ := mem_newset.mp hset
    exact h i (constrained_iff.mpr ⟨set, hi⟩)
  refine List.eq_nil_iff_forall_not_mem.mpr fun l => List.count_eq_zero.mp ?_
  rw [searched, count_filterByTypes, hnil]
  simp [intersection]

theorem no_position {p : Query} (h0 : p.arity = 0) (i : Fin p.arity) : False :=
  Nat.not_lt_zero _ (lt_of_lt_of_eq i.isLt (congrArg Fin.val h0))

/-- A link without members is found through its type, and only under a link type. -/
def BareFound (cs : ClassServer) (s : AtomTable TV) (q : Query) : Prop :=
  if cs.isA q.type LINK then
    ∀ h t n, s.Has h t (.node n) → typeMatches cs q.type q.subclass t = false
  else ∀ l t, s.Has l t (.link []) → typeMatches cs q.type q.subclass t = false

theorem matches_of_arity_zero {p : Query} (h0 : p.arity = 0) {asks : Fin p.arity → Handle → Prop}
    {l : Handle} : Matches cs s p asks l ↔
      ∃ t, s.Has l t (.link []) ∧ typeMatches cs p.type p.subclass t = true := by
  have hzero : (p.arity : Nat) = 0 := by rw [h0]; rfl
  unfold Matches
  constructor
  · rintro ⟨t, o, ho, htype, hlen, -⟩
    rw [hzero, List.length_eq_zero_iff] at hlen
    exact ⟨t, hlen ▸ ho, htype⟩
  · rintro ⟨t, ht, htype⟩
    refine ⟨t, [], ht, htype, hzero.symm, fun i => ?_⟩
    exact (no_position h0 i).elim

theorem nodup_setOfType (hs : Inv cs s) (t : TypeCode) (subclass : Bool) :
    (setOfType cs s t subclass).Nodup := by
  refine List.nodup_iff_count_le_one.mpr fun h => ?_
  by_contra hlt
  obtain ⟨c, d, hne, ⟨-, -, hc⟩, -, -, hd⟩ := two_le_count_handlesOfType.mp (not_le.mp hlt)
  obtain ⟨b, hb⟩ := hs.types.mp hc
  obtain ⟨b', hb'⟩ := hs.types.mp hd
  exact hne (Prod.mk.inj (Option.some.inj (hb.2.symm.trans hb'.2))).1

theorem mem_filterByArity_zero (hs : Inv cs s) {set : List Handle} {l : Handle}
    (hm : l ∈ s.atomSet) : l ∈ s.filterByArity set 0 ↔ l ∈ set ∧ s.outgoing l = [] := by
  obtain ⟨t, b, hb⟩ := hs.has_of_mem hm
  rw [filterByArity, List.mem_filter, bodyOf_of_has hb, outgoing_of_key hb.2]
  refine and_congr_right fun _ => ?_
  have harity : b.arity = b.outgoing.length := Nat.mod_eq_of_lt (hs.typed hb).length_lt
  simp [harity]

theorem searchLinks_arity_zero (hs : Standing cs s) (h0 : q.arity = 0) :
    ∃ r, searchLinks cs s q = some r ∧ r.Nodup ∧
      ((∀ l, l ∈ r ↔ Matches cs s q.toQuery (Asked cs s q) l) ↔ BareFound cs s q.toQuery) := by
  have hzero : (q.arity : Nat) = 0 := by rw [h0]; rfl
  unfold BareFound
  simp only [matches_of_arity_zero h0]
  by_cases hlink : cs.isA q.type LINK = true
  · have hcond : (cs.isA q.type LINK && q.arity == 0) = true := by simp [hlink, h0]
    refine ⟨s.filterByArity (setOfType cs s q.type q.subclass) 0, ?_,
      (nodup_setOfType hs.inv _ _).filter _, ?_⟩
    · rw [searchLinks, if_pos hcond, hzero]
    rw [if_pos hlink]
    have hmem : ∀ l, l ∈ s.filterByArity (setOfType cs s q.type q.subclass) 0 ↔
        ∃ t b, s.Has l t b ∧ typeMatches cs q.type q.subclass t = true ∧ b.outgoing = [] := by
      intro l
      constructor
      · intro hl
        obtain ⟨hm, c, hc, hmatch⟩ := (mem_setOfType hs.inv).mp (List.mem_of_mem_filter hl)
        obtain ⟨t, b, hb⟩ := hs.inv.has_of_mem hm
        rw [typeOf_eq, hb.2] at hc
        obtain rfl : t = c := Option.some.inj hc
        have hout := ((mem_filterByArity_zero hs.inv hm).mp hl).2
        rw [outgoing_of_key hb.2] at hout
        exact ⟨t, b, hb, hmatch, hout⟩
      · rintro ⟨t, b, hb, hmatch, hout⟩
        refine (mem_filterByArity_zero hs.inv hb.1).mpr ⟨(mem_setOfType hs.inv).mpr ⟨hb.1, t, ?_,
          hmatch⟩, by rw [outgoing_of_key hb.2, hout]⟩
        rw [typeOf_eq, hb.2]
        rfl
    constructor
    · intro hall h t n hn
      rw [← Bool.not_eq_true]
      intro hmatch
      obtain ⟨u, hu, -⟩ := (hall h).mp ((hmem h).mpr ⟨t, _, hn, hmatch, rfl⟩)
      cases (Prod.mk.inj (Option.some.inj (hn.2.symm.trans hu.2))).2
    · intro hall l
      rw [hmem]
      constructor
      · rintro ⟨t, b, hb, hmatch, hout⟩
        cases b with
        | node n =>
          rw [hall l t n hb] at hmatch
          cases hmatch
        | link o =>
          obtain rfl : o = [] := hout
          exact ⟨t, hb, hmatch⟩
      · rintro ⟨t, ht, hmatch⟩
        exact ⟨t, _, ht, hmatch, rfl⟩
  · have hcond : (cs.isA q.type LINK && q.arity == 0) = false := by simp [hlink]
    have hempty : ¬ ∃ i, handleSetAt cs s q i = some [] := by
      rintro ⟨i, -⟩
      exact no_position h0 i
    have hres : searched cs s q = [] := searched_eq_nil fun i => (no_position h0 i).elim
    refine ⟨[], ?_, List.nodup_nil, ?_⟩
    · rw [searchLinks_eq hcond, if_neg hempty, if_neg, hres]
      rw [hzero]
      exact fun h => Nat.not_lt_zero _ h.2
    · rw [if_neg hlink]
      simp only [List.not_mem_nil, false_iff, not_exists, not_and, Bool.not_eq_true]

end Search

/-! ## Queries with every position constrained -/

/-- The links that match, each once. -/
def ReturnsOnce (cs : ClassServer) (s : AtomTable TV) (q : HandleQuery) : Prop :=
  ∃ r, getHandleSetByHandles cs s q = some r ∧
    (∀ l, l ∈ r ↔ Matches cs s q.toQuery (Asked cs s q) l) ∧ r.Nodup

section Constrained
variable {cs : ClassServer} {s : AtomTable TV} {q : HandleQuery}

/-- With all positions constrained the search returns the matches. -/
theorem searchLinks_constrained (hs : Standing cs s) (hpos : q.arity ≠ 0)
    (hall : ∀ i, Constrained s q i) :
    ∃ r, searchLinks cs s q = some r ∧
      (∀ l, l ∈ r ↔ Matches cs s q.toQuery (Asked cs s q) l) ∧
      (r.Nodup ↔ ∀ l, Matches cs s q.toQuery (Asked cs s q) l → ∃ i, ¬ Twice cs s q i l) := by
  have hsome : ∃ i, Constrained s q i := by
    have : 0 < (q.arity : Nat) := Nat.pos_of_ne_zero fun h => hpos (Fin.ext h)
    exact ⟨⟨0, this⟩, hall _⟩
  have hcond : (cs.isA q.type LINK && q.arity == 0) = false := by simp [hpos]
  rw [searchLinks_eq hcond]
  by_cases hempty : ∃ i, handleSetAt cs s q i = some []
  · have hnone : ∀ l, ¬ Matches cs s q.toQuery (Asked cs s q) l := by
      obtain ⟨i, hi⟩ := hempty
      exact fun l hm => List.not_mem_nil ((mem_handleSetAt hs hi l).mpr (hm.candidate i))
    refine ⟨[], by rw [if_pos hempty], fun l => ?_, ?_⟩
    · simp [hnone]
    · simp [hnone]
  · have hfull : ¬ (newset cs s q).length < q.arity := by
      rw [length_newset_lt_iff]
      rintro ⟨i, hi⟩
      exact hi (hall i)
    refine ⟨searched cs s q, by rw [if_neg hempty, if_neg fun h => hfull h.2],
      mem_searched hs hsome, ?_⟩
    rw [nodup_searched_iff hs hsome]
    simp only [hall, true_and]

theorem Standing.returnsOnce_iff (hs : Standing cs s) (hsub : q.subclass = true)
    (hall : ∀ i, Constrained s q i) : ReturnsOnce cs s q ↔
      if q.arity = 0 then BareFound cs s q.toQuery
      else ∀ l, Matches cs s q.toQuery (Asked cs s q) l → ∃ i, ¬ Twice cs s q i l := by
  have hsearch : getHandleSetByHandles cs s q = searchLinks cs s q := by
    rw [getHandleSetByHandles, if_neg]
    simp [isSpecialCase, hsub]
  unfold ReturnsOnce
  rw [hsearch]
  by_cases h0 : q.arity = 0
  · rw [if_pos h0]
    obtain ⟨r, hr, hnd, hiff⟩ := searchLinks_arity_zero hs h0
    rw [← hiff]
    constructor
    · rintro ⟨r', hr', hmem, -⟩
      exact Option.some.inj (hr.symm.trans hr') ▸ hmem
    · exact fun hmem => ⟨r, hr, hmem, hnd⟩
  · rw [if_neg h0]
    obtain ⟨r, hr, hmem, hnd⟩ := searchLinks_constrained hs h0 hall
    rw [← hnd]
    constructor
    · rintro ⟨r', hr', -, hnd'⟩
      exact Option.some.inj (hr.symm.trans hr') ▸ hnd'
    · exact fun hnd' => ⟨r, hr, hmem, hnd'⟩

end Constrained

/-- A query that gives every position a handle or a type returns each match once, exactly if some
position of every match lists it once; with no positions, exactly if the type index suffices. -/
theorem returns_once_iff (cs : ClassServer) (ops : TruthOps TV) (s : AtomTable TV)
    (r : Reachable cs ops (Careful cs) s) (q : HandleQuery) (hsub : q.subclass = true)
    (hall : ∀ i, Constrained s q i) : ReturnsOnce cs s q ↔
      if q.arity = 0 then BareFound cs s q.toQuery
      else ∀ l, Matches cs s q.toQuery (Asked cs s q) l → ∃ i, ¬ Twice cs s q i l :=
  r.standing.returnsOnce_iff hsub hall

/-- The list links with the node of `oneNode` at every position. -/
def listsOfNode (arity : Fin 65536) (subclass : Bool) : HandleQuery where
  arity := arity
  types := none
  subclasses := none
  type := LIST_LINK
  subclass := subclass
  handles := some fun _ => 1

theorem reachable_withList {members : List Handle} (hm : ∀ x ∈ members, x = 1)
    (hlen : members.length < 65536) :
    Reachable ClassServer.script unitOps (Careful ClassServer.script) (oneNode.withList members) := by
  have hvalid : ∀ x ∈ members, oneNode.isValidHandle x = true := fun x hx => by
    rw [hm x hx]
    rfl
  refine .step (.addLink LIST_LINK members ())
    (.step (.addNode CONCEPT_NODE "n" ()) .empty ⟨⟨by decide +kernel, by decide⟩, trivial, trivial⟩
      apply_oneNode)
    ⟨⟨by decide +kernel, fun x hx => ?_⟩, hlen, trivial⟩ (apply_addLink rfl hvalid)
  rw [hm x hx]
  decide

theorem constrained_listsOfNode {s : AtomTable Unit} {arity : Fin 65536} {subclass : Bool}
    (h : s.isValidHandle 1 = true) (i : Fin arity) :
    Constrained s (listsOfNode arity subclass) i := by
  left
  simp [handleAt, listsOfNode, h]

theorem returns_once_of_two_atoms :
    ReturnsOnce ClassServer.script (oneNode.withList [1]) (listsOfNode 1 true) ↔
      if (listsOfNode 1 true).arity = 0 then
        BareFound ClassServer.script (oneNode.withList [1]) (listsOfNode 1 true).toQuery
      else ∀ l, Matches ClassServer.script (oneNode.withList [1]) (listsOfNode 1 true).toQuery
          (Asked ClassServer.script (oneNode.withList [1]) (listsOfNode 1 true)) l →
        ∃ i, ¬ Twice ClassServer.script (oneNode.withList [1]) (listsOfNode 1 true) i l :=
  returns_once_iff ClassServer.script unitOps _ (reachable_withList (by simp) (by simp))
    (listsOfNode 1 true) rfl (constrained_listsOfNode rfl)

/-- A link that names the node twice comes back twice. -/
theorem link_returned_twice :
    ¬ ∀ s : AtomTable Unit, Reachable ClassServer.script unitOps (Careful ClassServer.script) s →
      ∀ q : HandleQuery, q.subclass = true → (∀ i, Constrained s q i) →
        ReturnsOnce ClassServer.script s q := by
  intro hall
  have r : Reachable ClassServer.script unitOps (Careful ClassServer.script)
      (oneNode.withList [1, 1]) := reachable_withList (by simp) (by simp)
  have hvalid : (oneNode.withList [1, 1]).isValidHandle 1 = true := rfl
  have honce := hall _ r (listsOfNode 2 true) rfl (constrained_listsOfNode hvalid)
  rw [r.standing.returnsOnce_iff rfl (constrained_listsOfNode hvalid), if_neg (by decide)] at honce
  have hat : ∀ i, (oneNode.withList [1, 1]).handleAt (listsOfNode 2 true) i = some 1 := by
    intro i
    simp [handleAt, listsOfNode, hvalid]
  have htype : ∀ i, (listsOfNode 2 true).typeAt i = none := fun i => rfl
  have hmatch : Matches ClassServer.script (oneNode.withList [1, 1]) (listsOfNode 2 true).toQuery
      (Asked ClassServer.script (oneNode.withList [1, 1]) (listsOfNode 2 true)) 2 := by
    refine ⟨LIST_LINK, [1, 1], ⟨by decide, rfl⟩, by decide +kernel, rfl, fun i => ⟨1, ?_, ?_, ?_⟩⟩
    · have hi : i.val < ([1, 1] : List Handle).length := i.isLt
      have hall1 : ∀ x ∈ ([1, 1] : List Handle), x = 1 := by simp
      rw [List.getElem?_eq_getElem hi, hall1 _ (List.getElem_mem hi)]
    · intro h hh
      rw [hat, Option.some.injEq] at hh
      exact hh
    · intro t ht
      rw [htype] at ht
      cases ht
  obtain ⟨i, hi⟩ := honce 2 hmatch
  refine hi ⟨fun h hh => ?_, fun t hh => ?_⟩
  · rw [hat, Option.some.injEq] at hh
    subst hh
    decide
  · rw [hat] at hh
    cases hh

end AtomTable

end OpenCog
