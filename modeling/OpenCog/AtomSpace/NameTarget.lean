import OpenCog.AtomSpace.MultiTarget

/-! The lookup of links by the names and types of their members: what stands in the list of a
position, and what the intersection of the lists that are kept returns. -/
namespace OpenCog

variable {TV : Type}

/-- Without a value that is absent the traversal is a map. -/
theorem mapM_eq_some_map {α β : Type} {f : α → Option β} {g : α → β} (xs : List α)
    (h : ∀ x ∈ xs, f x = some (g x)) : xs.mapM f = some (xs.map g) := by
  induction xs with
  | nil => rfl
  | cons x xs ih =>
    rw [List.mapM_cons, h x List.mem_cons_self, ih fun y hy => h y (List.mem_cons_of_mem x hy)]
    rfl

theorem mapM_eq_none {α β : Type} {f : α → Option β} {xs : List α} {x : α} (hx : x ∈ xs)
    (h : f x = none) : xs.mapM f = none := by
  induction xs with
  | nil => cases hx
  | cons y xs ih =>
    rw [List.mapM_cons]
    rcases List.mem_cons.mp hx with rfl | hx
    · rw [h]
      rfl
    · rw [ih hx]
      cases f y with
      | none => rfl
      | some b => rfl

namespace AtomTable

/-! ## What is asked of a position -/

/-- A node of the name and an atom of the type, where they are given. -/
def AskedName (cs : ClassServer) (s : AtomTable TV) (q : NameQuery) (i : Fin q.arity) (x : Handle) :
    Prop :=
  (∀ name, q.nameAt i = some name → ∃ c, s.Has x c (.node (cStr name))) ∧
    ∀ t, q.typeAt i = some t → s.IsOf cs t (q.subAt i) x

/-- The empty name is asked for where a link stands, and a node without name is a member too. -/
def PassesUnnamed (cs : ClassServer) (s : AtomTable TV) (q : NameQuery) (i : Fin q.arity)
    (o : List Handle) (x : Handle) : Prop :=
  (∃ name, q.nameAt i = some name ∧ cStr name = "") ∧ (∃ c p, s.Has x c (.link p)) ∧
    ∀ t, q.typeAt i = some t → s.IsOf cs t (q.subAt i) x ∧
      ∃ y ∈ o, (∃ c, s.Has y c (.node "")) ∧ s.IsOf cs t (q.subAt i) y

/-- A stored link of the type and arity with such a member at the position. -/
def MemberWith (cs : ClassServer) (s : AtomTable TV) (q : NameQuery) (i : Fin q.arity)
    (ok : List Handle → Handle → Prop) (l : Handle) : Prop :=
  ∃ t o, s.Has l t (.link o) ∧ typeMatches cs q.type q.subclass t = true ∧ o.length = q.arity ∧
    ∃ x, o[i.val]? = some x ∧ ok o x

def Fits (cs : ClassServer) (s : AtomTable TV) (q : NameQuery) (i : Fin q.arity) (l : Handle) : Prop :=
  MemberWith cs s q i (fun _ => AskedName cs s q i) l

def Astray (cs : ClassServer) (s : AtomTable TV) (q : NameQuery) (i : Fin q.arity) (l : Handle) :
    Prop :=
  MemberWith cs s q i (PassesUnnamed cs s q i) l

/-- What the list of a position holds. -/
def NameCandidate (cs : ClassServer) (s : AtomTable TV) (q : NameQuery) (i : Fin q.arity)
    (l : Handle) : Prop :=
  Fits cs s q i l ∨ Astray cs s q i l

/-- Neither a name nor a type is given. -/
def Wildcard (q : NameQuery) (i : Fin q.arity) : Prop := q.nameAt i = none ∧ q.typeAt i = none

/-- The list of the position is intersected; beside a wildcard only if there is a link in it. -/
def Kept (cs : ClassServer) (s : AtomTable TV) (q : NameQuery) (i : Fin q.arity) : Prop :=
  ¬ Wildcard q i ∧ ((∃ j, Wildcard q j) → ∃ l, NameCandidate cs s q i l)

section Lists
variable {cs : ClassServer} {s : AtomTable TV} {q : NameQuery} {l : Handle}

theorem mem_setOfName (hs : Inv cs s) {name : String} {target t : TypeCode} {subclass : Bool} :
    l ∈ setOfName cs s name target t subclass ↔
      l ∈ s.atomSet ∧ s.IsOf cs t subclass l ∧
        ∃ h ∈ s.outgoing l, s.Has h target (.node (cStr name)) := by
  have hfound : ∀ h, (s.getHandleByName name target).filter s.isValidHandle = some h ↔
      s.Has h target (.node (cStr name)) := by
    intro h
    rw [Option.filter_eq_some_iff, getHandleByName, hs.nodes]
    exact ⟨And.left, fun hh => ⟨hh, hs.isValidHandle hh.1⟩⟩
  unfold setOfName
  cases hh : (s.getHandleByName name target).filter s.isValidHandle with
  | none =>
    simp only [List.not_mem_nil, false_iff, not_and, not_exists]
    intro _ _ h _ hhas
    rw [(hfound h).mpr hhas] at hh
    cases hh
  | some h =>
    have hhas := (hfound h).mp hh
    simp only
    constructor
    · intro hl
      have hin : l ∈ s.incoming h := by
        unfold filterByType at hl
        split at hl
        · exact hl
        · exact List.mem_of_mem_filter hl
      obtain ⟨hm, hout⟩ := (hs.mem_incoming hhas.1 l).mp hin
      exact ⟨hm, ((mem_filterByType hs hm).mp hl).2, h, hout, hhas⟩
    · rintro ⟨hm, hof, g, hg, hghas⟩
      obtain rfl := hs.unique hghas hhas
      exact (mem_filterByType hs hm).mpr ⟨(hs.mem_incoming hhas.1 l).mpr ⟨hm, hg⟩, hof⟩

/-- The filter by name keeps the nodes of that name, and links for the empty name. -/
theorem nameFits_iff (hs : Inv cs s) (hm : l ∈ s.atomSet) {name : String} {i arity : Nat} :
    nameFits cs s name i arity l = true ↔ ∃ x, s.memberAt l i arity = some x ∧
      ((∃ c, s.Has x c (.node (cStr name))) ∨ cStr name = "" ∧ ∃ c p, s.Has x c (.link p)) := by
  unfold nameFits
  cases hx : s.memberAt l i arity with
  | none => simp
  | some x =>
    obtain ⟨u, o, ho, -, hget⟩ := (memberAt_eq_some hs hm).mp hx
    have hstored := (hs.members ho x (List.mem_of_getElem? hget)).1
    obtain ⟨t, b, hb⟩ := hs.has_of_mem hstored
    obtain ⟨a, ha, rfl, rfl⟩ := exists_of_key hb.2
    have hkey : ∀ c d, s.Has x c d ↔ a.type = c ∧ a.body = d := by
      intro c d
      constructor
      · intro h
        exact Prod.mk.inj (Option.some.inj (hb.2.symm.trans h.2))
      · rintro ⟨rfl, rfl⟩
        exact hb
    have htyped := hs.typed hb
    simp only [Option.bind_some, ha, Option.any_some, Option.some.injEq, exists_eq_left', hkey]
    cases hbody : a.body with
    | node n =>
      rw [hbody] at htyped
      obtain ⟨hnode, hnul⟩ := htyped
      have hlink := cs.node_not_link _ hnode
      by_cases hname : cStr name = ""
      · simp [hnode, hname]
      · have hflip : cStr name = n ↔ n = cStr name := eq_comm
        simpa [hlink, hname, cStr_of_noNul hnul] using hflip
    | link p =>
      rw [hbody] at htyped
      obtain ⟨hlink, -⟩ := htyped
      have hnode := cs.link_not_node hlink
      by_cases hname : cStr name = ""
      · simp [hnode, hname]
      · simp [hlink, hname]

/-- A type matches when it is the one asked for or, with subclasses, one below it. -/
theorem typeMatches_iff_children {t c : TypeCode} {subclass : Bool} :
    typeMatches cs t subclass c = true ↔
      c = t ∨ subclass = true ∧ c ∈ childrenRecursive cs t := by
  simp only [typeMatches, childrenRecursive, List.mem_filter, List.mem_range, Bool.or_eq_true,
    Bool.and_eq_true, beq_iff_eq, bne_iff_ne]
  constructor
  · rintro (h | ⟨hsub, hisA⟩)
    · exact .inl h
    · by_cases e : c = t
      · exact .inl e
      · exact .inr ⟨hsub, cs.isA_lt c t hisA, hisA, e⟩
  · rintro (h | ⟨hsub, -, hisA, -⟩)
    · exact .inl h
    · exact .inr ⟨hsub, hisA⟩

theorem nameSetAt_eq_none_iff {i : Fin q.arity} :
    nameSetAt cs s q i = none ↔ q.nameAt i ≠ none ∧ q.typeAt i = none := by
  unfold nameSetAt
  cases q.nameAt i with
  | none =>
    cases q.typeAt i with
    | none => simp
    | some t => simp
  | some name =>
    cases q.typeAt i with
    | none => simp
    | some t => simp

theorem nameSetAt_eq_wildcard_iff {i : Fin q.arity} :
    nameSetAt cs s q i = some none ↔ Wildcard q i := by
  unfold nameSetAt Wildcard
  cases q.nameAt i with
  | none =>
    cases q.typeAt i with
    | none => simp
    | some t => simp
  | some name =>
    cases q.typeAt i with
    | none => simp
    | some t => simp

theorem isOf_iff_of_has {l : Handle} {c t : TypeCode} {b : Body} {subclass : Bool}
    (hl : s.Has l c b) : s.IsOf cs t subclass l ↔ typeMatches cs t subclass c = true := by
  simp [IsOf, typeOf_eq, hl.2]

/-- The links of the type with a node of the name and type among their members. -/
theorem mem_setOfNames (hs : Inv cs s) {i : Fin q.arity} {name : String} {t : TypeCode} :
    l ∈ setOfName cs s name t q.type q.subclass ++
        (if q.subAt i then
          (childrenRecursive cs t).flatMap fun c => setOfName cs s name c q.type q.subclass
        else []) ↔
      l ∈ s.atomSet ∧ s.IsOf cs q.type q.subclass l ∧
        ∃ y ∈ s.outgoing l, ∃ c, s.Has y c (.node (cStr name)) ∧
          typeMatches cs t (q.subAt i) c = true := by
  simp only [typeMatches_iff_children, List.mem_append]
  constructor
  · rintro (hl | hl)
    · obtain ⟨hm, hof, y, hy, hhas⟩ := (mem_setOfName hs).mp hl
      exact ⟨hm, hof, y, hy, t, hhas, .inl rfl⟩
    · split at hl
      · next hsub =>
        obtain ⟨c, hc, hl⟩ := List.mem_flatMap.mp hl
        obtain ⟨hm, hof, y, hy, hhas⟩ := (mem_setOfName hs).mp hl
        exact ⟨hm, hof, y, hy, c, hhas, .inr ⟨hsub, hc⟩⟩
      · cases hl
  · rintro ⟨hm, hof, y, hy, c, hhas, rfl | ⟨hsub, hc⟩⟩
    · exact .inl ((mem_setOfName hs).mpr ⟨hm, hof, y, hy, hhas⟩)
    · rw [if_pos hsub]
      exact .inr (List.mem_flatMap.mpr ⟨c, hc, (mem_setOfName hs).mpr ⟨hm, hof, y, hy, hhas⟩⟩)

theorem mem_typedSet (hs : Inv cs s) {i : Fin q.arity} {t : TypeCode} (hname : q.nameAt i = none)
    (htype : q.typeAt i = some t) :
    l ∈ filterByTypeAt cs s (setOfTarget cs s q.type t q.subclass (q.subAt i)) t (q.subAt i) i
      q.arity ↔ NameCandidate cs s q i l := by
  rw [filterByTypeAt, List.mem_filter, mem_setOfTarget hs]
  constructor
  · rintro ⟨⟨hm, hof, -⟩, hfit⟩
    obtain ⟨x, hx, hxof⟩ := (typeFits_iff hs hm).mp hfit
    obtain ⟨u, o, ho, hlen, hget⟩ := (memberAt_eq_some hs hm).mp hx
    refine .inl ⟨u, o, ho, (isOf_iff_of_has ho).mp hof, hlen, x, hget, ?_, ?_⟩
    · simp [hname]
    · simpa [htype] using hxof
  · rintro (⟨u, o, ho, hu, hlen, x, hget, -, hxof⟩ | ⟨-, -, -, -, -, -, -, ⟨name, hname', -⟩, -⟩)
    · have hx := hxof t htype
      refine ⟨⟨ho.1, (isOf_iff_of_has ho).mpr hu, x, ?_, hx⟩, ?_⟩
      · rw [outgoing_of_key ho.2]
        exact List.mem_of_getElem? hget
      · exact (typeFits_iff hs ho.1).mpr
          ⟨x, (memberAt_eq_some hs ho.1).mpr ⟨u, o, ho, hlen, hget⟩, hx⟩
    · rw [hname] at hname'
      cases hname'

theorem mem_namedSet (hs : Inv cs s) {i : Fin q.arity} {name : String} {t : TypeCode}
    (hname : q.nameAt i = some name) (htype : q.typeAt i = some t) :
    l ∈ filterByNameAt cs s (filterByTypeAt cs s (setOfName cs s name t q.type q.subclass ++
        (if q.subAt i then
          (childrenRecursive cs t).flatMap fun c => setOfName cs s name c q.type q.subclass
        else [])) t (q.subAt i) i q.arity) name i q.arity ↔ NameCandidate cs s q i l := by
  rw [filterByNameAt, List.mem_filter, filterByTypeAt, List.mem_filter, mem_setOfNames hs]
  constructor
  · rintro ⟨⟨⟨hm, hof, y, hy, c, hyhas, hc⟩, hfit⟩, hnamed⟩
    obtain ⟨x, hx, hxof⟩ := (typeFits_iff hs hm).mp hfit
    obtain ⟨u, o, ho, hlen, hget⟩ := (memberAt_eq_some hs hm).mp hx
    obtain ⟨x', hx', hkind⟩ := (nameFits_iff hs hm).mp hnamed
    obtain rfl := Option.some.inj (hx.symm.trans hx')
    rw [outgoing_of_key ho.2] at hy
    have hu := (isOf_iff_of_has ho).mp hof
    rcases hkind with hnode | ⟨hempty, hlink⟩
    · refine .inl ⟨u, o, ho, hu, hlen, x, hget, ?_, ?_⟩
      · simpa [hname] using hnode
      · simpa [htype] using hxof
    · refine .inr ⟨u, o, ho, hu, hlen, x, hget, ⟨name, hname, hempty⟩, hlink, fun t' ht' => ?_⟩
      obtain rfl := Option.some.inj (htype.symm.trans ht')
      exact ⟨hxof, y, hy, ⟨c, hempty ▸ hyhas⟩, (isOf_iff_of_has hyhas).mpr hc⟩
  · rintro (⟨u, o, ho, hu, hlen, x, hget, hnode, hxof⟩ |
      ⟨u, o, ho, hu, hlen, x, hget, ⟨name', hname', hempty⟩, hlink, hrest⟩)
    · obtain ⟨c, hc⟩ := hnode name hname
      have hx := hxof t htype
      have hmember := (memberAt_eq_some hs ho.1).mpr ⟨u, o, ho, hlen, hget⟩
      refine ⟨⟨⟨ho.1, (isOf_iff_of_has ho).mpr hu, x, ?_, c, hc, (isOf_iff_of_has hc).mp hx⟩, ?_⟩,
        ?_⟩
      · rw [outgoing_of_key ho.2]
        exact List.mem_of_getElem? hget
      · exact (typeFits_iff hs ho.1).mpr ⟨x, hmember, hx⟩
      · exact (nameFits_iff hs ho.1).mpr ⟨x, hmember, .inl ⟨c, hc⟩⟩
    · obtain rfl := Option.some.inj (hname.symm.trans hname')
      obtain ⟨hx, y, hy, ⟨c, hyhas⟩, hyof⟩ := hrest t htype
      have hmember := (memberAt_eq_some hs ho.1).mpr ⟨u, o, ho, hlen, hget⟩
      refine ⟨⟨⟨ho.1, (isOf_iff_of_has ho).mpr hu, y, ?_, c, hempty.symm ▸ hyhas,
        (isOf_iff_of_has hyhas).mp hyof⟩, ?_⟩, ?_⟩
      · rw [outgoing_of_key ho.2]
        exact hy
      · exact (typeFits_iff hs ho.1).mpr ⟨x, hmember, hx⟩
      · exact (nameFits_iff hs ho.1).mpr ⟨x, hmember, .inr ⟨hempty, hlink⟩⟩

/-- The list of a position holds its candidates. -/
theorem mem_nameSetAt (hs : Inv cs s) {i : Fin q.arity} {set : List Handle}
    (hset : nameSetAt cs s q i = some (some set)) : l ∈ set ↔ NameCandidate cs s q i l := by
  unfold nameSetAt at hset
  cases hname : q.nameAt i with
  | none =>
    cases htype : q.typeAt i with
    | none =>
      rw [hname, htype] at hset
      cases Option.some.inj hset
    | some t =>
      rw [hname, htype] at hset
      obtain rfl := Option.some.inj (Option.some.inj hset)
      exact mem_typedSet hs hname htype
  | some name =>
    cases htype : q.typeAt i with
    | none =>
      rw [hname, htype] at hset
      cases hset
    | some t =>
      rw [hname, htype] at hset
      obtain rfl := Option.some.inj (Option.some.inj hset)
      exact mem_namedSet hs hname htype

/-! ## The result -/

theorem getHandleSetByNames_throws {i : Fin q.arity} (hname : q.nameAt i ≠ none)
    (htype : q.typeAt i = none) : getHandleSetByNames cs s q = none := by
  unfold getHandleSetByNames
  rw [mapM_eq_none (List.mem_finRange i) (nameSetAt_eq_none_iff.mpr ⟨hname, htype⟩)]
  rfl

/-- A link is returned when the lists that are kept all have it. -/
theorem mem_getHandleSetByNames (hs : Inv cs s)
    (hnamed : ∀ i, q.nameAt i ≠ none → q.typeAt i ≠ none) :
    ∃ r, getHandleSetByNames cs s q = some r ∧
      ∀ l, l ∈ r ↔ (∃ i, Kept cs s q i) ∧ ∀ i, Kept cs s q i → NameCandidate cs s q i l := by
  obtain ⟨lists, hlists⟩ : ∃ lists : Fin q.arity → Option (List Handle),
      ∀ i, nameSetAt cs s q i = some (lists i) := by
    refine Classical.skolem.mp fun i => Option.ne_none_iff_exists'.mp fun h => ?_
    obtain ⟨hn, ht⟩ := nameSetAt_eq_none_iff.mp h
    exact hnamed i hn ht
  have hwild : 0 < ((List.finRange q.arity).map lists).count none ↔ ∃ j, Wildcard q j := by
    rw [List.count_pos_iff, List.mem_map]
    simp only [List.mem_finRange, true_and]
    exact exists_congr fun j => by
      rw [← @nameSetAt_eq_wildcard_iff TV cs s q j, hlists j, Option.some.injEq]
  set newset := if ((List.finRange q.arity).map lists).count none > 0
    then ((List.finRange q.arity).map lists).reduceOption.filter (· ≠ [])
    else ((List.finRange q.arity).map lists).reduceOption with hnew
  have hmem : ∀ set, set ∈ newset ↔
      ∃ i, lists i = some set ∧ ((∃ j, Wildcard q j) → set ≠ []) := by
    intro set
    have hall : set ∈ ((List.finRange q.arity).map lists).reduceOption ↔ ∃ i, lists i = some set := by
      simp [List.reduceOption_mem_iff]
    rw [hnew]
    split
    · next hpos =>
      have hex := hwild.mp hpos
      rw [List.mem_filter, hall]
      simp [hex]
    · next hpos =>
      have hex : ¬ ∃ j, Wildcard q j := fun h => hpos (hwild.mpr h)
      rw [hall]
      simp [hex]
  have hkept : ∀ i, Kept cs s q i ↔
      ∃ set, lists i = some set ∧ ((∃ j, Wildcard q j) → set ≠ []) := by
    intro i
    unfold Kept
    rw [← @nameSetAt_eq_wildcard_iff TV cs s q i, hlists i]
    cases hset : lists i with
    | none => simp
    | some set =>
      have hc := fun l => mem_nameSetAt (l := l) hs ((hlists i).trans (congrArg some hset))
      have hne : set ≠ [] ↔ ∃ l, l ∈ set := by simp [List.eq_nil_iff_forall_not_mem]
      simp only [← hc, hne, Option.some.injEq, reduceCtorEq, not_false_eq_true, true_and,
        exists_eq_left']
  refine ⟨intersection newset, ?_, fun l => ?_⟩
  · unfold getHandleSetByNames
    rw [mapM_eq_some_map (g := lists) _ fun i _ => hlists i]
    rfl
  · rw [mem_intersection]
    refine and_congr ?_ ?_
    · rw [ne_eq, List.eq_nil_iff_forall_not_mem, not_forall]
      simp only [not_not, hmem, hkept]
      exact exists_comm
    · simp only [hmem, hkept]
      constructor
      · rintro hall i ⟨set, hset, hne⟩
        exact (mem_nameSetAt hs ((hlists i).trans (congrArg some hset))).mp (hall set ⟨i, hset, hne⟩)
      · rintro hall set ⟨i, hset, hne⟩
        exact (mem_nameSetAt hs ((hlists i).trans (congrArg some hset))).mpr
          (hall i ⟨set, hset, hne⟩)

end Lists

end AtomTable

end OpenCog
