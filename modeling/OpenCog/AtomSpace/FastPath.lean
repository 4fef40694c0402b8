import OpenCog.AtomSpace.MultiTarget
import OpenCog.AtomSpace.NormalForm

/-! The shortcut of the lookup by handles against the search below it. The shortcut sorts the
handles of an unordered link and does not look at the types. -/
namespace OpenCog

variable {TV : Type}

/-- The handles the shortcut builds its link from. -/
def HandleQuery.members (q : HandleQuery) : List Handle := (q.handles.map List.ofFn).getD []

namespace AtomTable

section Shortcut
variable {cs : ClassServer} {s : AtomTable TV} {q : HandleQuery} {l : Handle}

/-- Where the shortcut is taken every position has its handle. -/
theorem special_members (h : isSpecialCase cs s q = true) :
    cs.isA q.type LINK = true ∧ q.subclass = false ∧ q.members.length = q.arity ∧
      ∀ i, q.members[i.val]? = s.handleAt q i := by
  simp only [isSpecialCase, Bool.and_eq_true, Bool.or_eq_true, Bool.not_eq_true', beq_iff_eq] at h
  obtain ⟨⟨⟨hlink, hgiven⟩, hall⟩, hsub⟩ := h
  refine ⟨hlink, hsub, ?_, fun i => ?_⟩
  · cases hh : q.handles with
    | some handles => simp [HandleQuery.members, hh]
    | none =>
      rw [hh, Option.isSome_none, Bool.false_eq_true, or_false] at hgiven
      have hzero : (q.arity : Nat) = 0 := by rw [hgiven]; rfl
      simp [HandleQuery.members, hh, hzero]
  · have hsome : (s.handleAt q i).isSome = true :=
      List.all_eq_true.mp hall i (List.mem_finRange i)
    obtain ⟨h, hh⟩ := Option.isSome_iff_exists.mp hsome
    obtain ⟨handles, hhandles, rfl⟩ := Option.map_eq_some_iff.mp (Option.filter_eq_some_iff.mp hh).1
    rw [hh, HandleQuery.members, hhandles]
    simp

/-- The shortcut finds the stored link with the sorted members. -/
theorem mem_findLink (hs : Inv cs s) (h : isSpecialCase cs s q = true) :
    l ∈ findLink cs s q ↔ s.Has l q.type (.link (Atom.setOutgoingSet cs q.type q.members)) := by
  have hlength : (Body.link (Atom.setOutgoingSet cs q.type q.members)).outgoing.length < 65536 := by
    rw [Body.outgoing, Atom.length_setOutgoingSet, (special_members h).2.2.1]
    exact q.arity.isLt
  have hequal : ∀ g ∈ s.atomSet, ((s.handleMap g).map fun b => q.type == b.type && b.body.sameAs
        (.link (Atom.setOutgoingSet cs q.type q.members))).getD false = true ↔
      s.Has g q.type (.link (Atom.setOutgoingSet cs q.type q.members)) := by
    intro g hg
    obtain ⟨t, b, hb⟩ := hs.has_of_mem hg
    obtain ⟨a, ha, rfl, rfl⟩ := exists_of_key hb.2
    simp only [ha, Option.map_some, Option.getD_some, Bool.and_eq_true, beq_iff_eq,
      sameAs_iff (hs.typed hb).length_lt hlength]
    constructor
    · rintro ⟨ht, hbody⟩
      refine ⟨hg, ?_⟩
      rw [hb.2, hbody, ht]
    · intro hhas
      obtain ⟨ht, hbody⟩ := Prod.mk.inj (Option.some.inj (hb.2.symm.trans hhas.2))
      exact ⟨ht.symm, hbody⟩
  unfold findLink
  simp only [Option.mem_toList, Option.filter_eq_some_iff]
  constructor
  · rintro ⟨hfind, -⟩
    have hsame := List.find?_some hfind
    exact (hequal l (List.mem_of_find?_eq_some hfind)).mp hsame
  · intro hhas
    refine ⟨?_, hs.isValidHandle hhas.1⟩
    cases hfind : s.atomSet.find? fun g => ((s.handleMap g).map fun b => q.type == b.type &&
        b.body.sameAs (.link (Atom.setOutgoingSet cs q.type q.members))).getD false with
    | none => exact absurd ((hequal l hhas.1).mpr hhas) (List.find?_eq_none.mp hfind l hhas.1)
    | some g =>
      have hsame := List.find?_some hfind
      have hg := (hequal g (List.mem_of_find?_eq_some hfind)).mp hsame
      exact hfind.trans (congrArg some (hs.unique hg hhas))

/-- The given handles have the types given with them. -/
def TypesFit (cs : ClassServer) (s : AtomTable TV) (q : HandleQuery) : Prop :=
  ∀ i t, q.typeAt i = some t → ∀ x, q.members[i.val]? = some x → s.IsOf cs t (q.subAt i) x

/-- With all handles given, what matches is the link with these members in this order. -/
theorem matches_special (h : isSpecialCase cs s q = true) :
    Matches cs s q.toQuery (Asked cs s q) l ↔
      s.Has l q.type (.link q.members) ∧ TypesFit cs s q := by
  obtain ⟨-, hsub, hlength, hmembers⟩ := special_members h
  constructor
  · rintro ⟨t, o, ho, htype, hlen, hall⟩
    have ht : t = q.type := by simpa [typeMatches, hsub] using htype
    have heq : o = q.members := by
      refine List.ext_getElem? fun n => ?_
      by_cases hn : n < q.arity
      · obtain ⟨x, hx, hhandle, -⟩ := hall ⟨n, hn⟩
        obtain ⟨y, hy⟩ : ∃ y, q.members[n]? = some y :=
          ⟨_, List.getElem?_eq_getElem (lt_of_lt_of_eq hn hlength.symm)⟩
        have hat := hmembers ⟨n, hn⟩
        rw [hy] at hat
        rw [hx, hy, hhandle y hat.symm]
      · rw [List.getElem?_eq_none (by omega), List.getElem?_eq_none (by omega)]
    subst ht heq
    refine ⟨ho, fun i u hu x hx => ?_⟩
    obtain ⟨y, hy, -, htypes⟩ := hall i
    obtain rfl := Option.some.inj (hx.symm.trans hy)
    exact htypes u hu
  · rintro ⟨ho, hfit⟩
    refine ⟨q.type, q.members, ho, by simp [typeMatches], hlength, fun i => ?_⟩
    have hi : i.val < q.members.length := lt_of_lt_of_eq i.isLt hlength.symm
    refine ⟨q.members[i.val], List.getElem?_eq_getElem hi, fun g hg => ?_, fun t ht => ?_⟩
    · rw [← hmembers i, List.getElem?_eq_getElem hi] at hg
      exact Option.some.inj hg
    · exact hfit i t ht _ (List.getElem?_eq_getElem hi)

/-- The search below the shortcut returns the matches. -/
theorem searchLinks_special (hs : Standing cs s) (h : isSpecialCase cs s q = true) :
    ∃ r, searchLinks cs s q = some r ∧
      ∀ l, l ∈ r ↔ Matches cs s q.toQuery (Asked cs s q) l := by
  obtain ⟨hlink, hsub, hlength, hmembers⟩ := special_members h
  by_cases h0 : q.arity = 0
  · obtain ⟨r, hr, -, hiff⟩ := searchLinks_arity_zero hs h0
    refine ⟨r, hr, hiff.mpr ?_⟩
    unfold BareFound
    rw [if_pos hlink]
    intro g t n hn
    have hne : t ≠ q.type := by
      rintro rfl
      have hnode := (hs.inv.typed hn).1
      rw [cs.link_not_node hlink] at hnode
      exact Bool.false_ne_true hnode
    simp [typeMatches, hsub, hne]
  · have hall : ∀ i, Constrained s q i := by
      intro i
      left
      rw [← hmembers i, List.getElem?_eq_getElem (lt_of_lt_of_eq i.isLt hlength.symm)]
      exact Option.some_ne_none _
    obtain ⟨r, hr, hiff, -⟩ := searchLinks_constrained hs h0 hall
    exact ⟨r, hr, hiff⟩

/-- No stored link has the members in any order its type allows; or they come in the order of
the stored link and have the types asked for. -/
def ShortcutExact (cs : ClassServer) (s : AtomTable TV) (q : HandleQuery) : Prop :=
  (∀ l o, s.Has l q.type (.link o) → ¬ SameMembers cs q.type o q.members) ∨
    (cs.isA q.type UNORDERED_LINK = true → q.members.Pairwise (· ≤ ·)) ∧ TypesFit cs s q

/-- Stored links have their members in normal form. -/
theorem Filed.normal (hf : Filed cs s) (hs : Inv cs s) {t : TypeCode} {o : List Handle}
    (ho : s.Has l t (.link o)) : Atom.setOutgoingSet cs t o = o :=
  (hf t o l (hs.links.mpr ho)).2.2

theorem findLink_matches_iff (hs : Inv cs s) (hf : Filed cs s) (h : isSpecialCase cs s q = true) :
    (∀ l, l ∈ findLink cs s q ↔ Matches cs s q.toQuery (Asked cs s q) l) ↔
      ShortcutExact cs s q := by
  simp only [mem_findLink hs h, matches_special h]
  unfold ShortcutExact
  rw [← setOutgoingSet_eq_self_iff]
  constructor
  · intro hagree
    by_cases hstored : ∃ l, s.Has l q.type (.link (Atom.setOutgoingSet cs q.type q.members))
    · obtain ⟨l, hl⟩ := hstored
      obtain ⟨hl', hfit⟩ := (hagree l).mp hl
      exact .inr ⟨hf.normal hs hl', hfit⟩
    · refine .inl fun l o ho hsame => hstored ⟨l, ?_⟩
      rw [← setOutgoingSet_eq_iff.mpr hsame, hf.normal hs ho]
      exact ho
  · rintro (hnone | ⟨hnormal, hfit⟩) l
    · constructor
      · intro hl
        exact absurd (setOutgoingSet_eq_iff.mp (Atom.setOutgoingSet_idem cs _ _)) (hnone l _ hl)
      · rintro ⟨hl, -⟩
        exact absurd (setOutgoingSet_eq_iff.mp rfl) (hnone l _ hl)
    · rw [hnormal]
      exact ⟨fun hl => ⟨hl, hfit⟩, And.left⟩

end Shortcut

/-- The shortcut returns the set that the search below it would. -/
def PathsAgree (cs : ClassServer) (s : AtomTable TV) (q : HandleQuery) : Prop :=
  ∃ r, searchLinks cs s q = some r ∧ ∀ l, l ∈ findLink cs s q ↔ l ∈ r

/-- Along every run the two paths agree exactly when no link of these members is stored, or the
members are given in its order and with their types. -/
theorem paths_agree_iff (cs : ClassServer) (ops : TruthOps TV) (s : AtomTable TV)
    (r : Reachable cs ops (Careful cs) s) (q : HandleQuery) (h : isSpecialCase cs s q = true) :
    PathsAgree cs s q ↔ ShortcutExact cs s q := by
  have hs := r.standing
  rw [← findLink_matches_iff hs.inv r.filed h]
  obtain ⟨set, hset, hmatch⟩ := searchLinks_special hs h
  constructor
  · rintro ⟨set', hset', hagree⟩ l
    obtain rfl := Option.some.inj (hset.symm.trans hset')
    rw [hagree, hmatch]
  · intro hagree
    exact ⟨set, hset, fun l => by rw [hagree, hmatch]⟩

/-! ## A list of one node -/

/-- The list of the node, asked for by its handle and type. -/
def listOfNode (t : TypeCode) : HandleQuery where
  arity := 1
  types := some fun _ => t
  subclasses := none
  type := LIST_LINK
  subclass := false
  handles := some fun _ => 1

theorem special_listOfNode (t : TypeCode) :
    isSpecialCase ClassServer.script (oneNode.withList [1]) (listOfNode t) = true := by
  have hlink : ClassServer.script.isA LIST_LINK LINK = true := by decide +kernel
  have hall : hasAllHandles (oneNode.withList [1]) (listOfNode t) = true :=
    List.all_eq_true.mpr fun i _ => rfl
  have hgiven : (listOfNode t).handles.isSome = true := rfl
  rw [isSpecialCase, hall, hgiven, Bool.or_true, Bool.and_true, Bool.and_true]
  simpa [listOfNode] using hlink

theorem reachable_oneNode : Reachable ClassServer.script unitOps (Careful ClassServer.script)
    (oneNode.withList [1]) :=
  reachable_withList (by simp) (by simp)

theorem paths_agree_of_node :
    PathsAgree ClassServer.script (oneNode.withList [1]) (listOfNode CONCEPT_NODE) := by
  refine (paths_agree_iff .script unitOps _ reachable_oneNode _
    (special_listOfNode CONCEPT_NODE)).mpr (.inr ⟨fun h => ?_, fun i t ht x hx => ?_⟩)
  · exact List.pairwise_singleton _ _
  · obtain rfl : CONCEPT_NODE = t := Option.some.inj ht
    have hi : i.val = 0 := Nat.lt_one_iff.mp i.isLt
    obtain rfl : 1 = x := by
      rw [hi] at hx
      exact Option.some.inj hx
    refine ⟨CONCEPT_NODE, by decide, ?_⟩
    simp [typeMatches]

/-- The shortcut returns a link whose member has another type than the one asked for. -/
theorem type_ignored_by_shortcut :
    ¬ ∀ s : AtomTable Unit, Reachable ClassServer.script unitOps (Careful ClassServer.script) s →
      ∀ q : HandleQuery, isSpecialCase ClassServer.script s q = true →
        PathsAgree ClassServer.script s q := by
  intro hall
  have hs := reachable_oneNode.standing
  have h := special_listOfNode PREDICATE_NODE
  obtain ⟨set, hset, hagree⟩ := hall _ reachable_oneNode (listOfNode PREDICATE_NODE) h
  obtain ⟨set', hset', hmatch⟩ := searchLinks_special hs h
  obtain rfl := Option.some.inj (hset.symm.trans hset')
  have hexact := (findLink_matches_iff hs.inv reachable_oneNode.filed h).mp fun l => by
    rw [hagree, hmatch]
  rcases hexact with hnone | ⟨-, hfit⟩
  · refine hnone 2 [1] ⟨by decide, rfl⟩ ?_
    exact setOutgoingSet_eq_iff.mp rfl
  · obtain ⟨c, hc, htype⟩ := hfit ⟨0, by decide⟩ PREDICATE_NODE rfl 1 rfl
    obtain rfl : CONCEPT_NODE = c := Option.some.inj hc
    exact absurd htype (by decide)

end AtomTable

end OpenCog
