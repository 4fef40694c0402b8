import OpenCog.AtomSpace.FastPath
import OpenCog.AtomSpace.NameTarget

/-! Queries that leave positions open: when the lists are not accessed past their end and the
links returned are those that match at every other position. -/
namespace OpenCog

variable {TV : Type}

namespace AtomTable

/-! ## By handles -/

/-- No access past the lists, and the links that match. -/
def FindsMatches (cs : ClassServer) (s : AtomTable TV) (q : HandleQuery) : Prop :=
  ∃ r, getHandleSetByHandles cs s q = some r ∧
    ∀ l, l ∈ r ↔ Matches cs s q.toQuery (Asked cs s q) l

def NoLinkOfArity (s : AtomTable TV) (arity : Nat) : Prop :=
  ∀ l t o, s.Has l t (.link o) → o.length ≠ arity

/-- Below the shortcut: all positions are constrained; or one of them has no candidate; or no
filter runs over the lists, and there is a list or nothing to find. -/
def SearchExact (cs : ClassServer) (s : AtomTable TV) (q : HandleQuery) : Prop :=
  (∀ i, Constrained s q i) ∨ (∃ i, Constrained s q i ∧ ∀ l, ¬ Candidate cs s q i l) ∨
    (q.type = ATOM ∧ q.subclass = true) ∧ ((∃ i, Constrained s q i) ∨ NoLinkOfArity s q.arity)

def HandlesAnswered (cs : ClassServer) (s : AtomTable TV) (q : HandleQuery) : Prop :=
  if isSpecialCase cs s q = true then ShortcutExact cs s q
  else if q.arity = 0 then BareFound cs s q.toQuery
  else SearchExact cs s q

section Handles
variable {cs : ClassServer} {s : AtomTable TV} {q : HandleQuery}

theorem handleSetAt_eq_nil_iff (hs : Standing cs s) {i : Fin q.arity} :
    handleSetAt cs s q i = some [] ↔ Constrained s q i ∧ ∀ l, ¬ Candidate cs s q i l := by
  rw [@constrained_iff TV cs s q i]
  constructor
  · intro hnil
    exact ⟨⟨[], hnil⟩, fun l hl => List.not_mem_nil ((mem_handleSetAt hs hnil l).mpr hl)⟩
  · rintro ⟨⟨set, hset⟩, hnone⟩
    rw [hset, List.eq_nil_iff_forall_not_mem.mpr fun l hl => hnone l ((mem_handleSetAt hs hset l).mp hl)]

/-- With no position constrained every stored link of the arity matches. -/
theorem matches_open_iff (hopen : ∀ i, ¬ Constrained s q i) {l : Handle} :
    Matches cs s q.toQuery (Asked cs s q) l ↔
      ∃ t o, s.Has l t (.link o) ∧ typeMatches cs q.type q.subclass t = true ∧
        o.length = q.arity := by
  constructor
  · rintro ⟨t, o, ho, htype, hlen, -⟩
    exact ⟨t, o, ho, htype, hlen⟩
  · rintro ⟨t, o, ho, htype, hlen⟩
    refine ⟨t, o, ho, htype, hlen, fun i => ?_⟩
    have hi : i.val < o.length := lt_of_lt_of_eq i.isLt hlen.symm
    have hcon := hopen i
    unfold Constrained at hcon
    push Not at hcon
    refine ⟨o[i.val], List.getElem?_eq_getElem hi, fun h hh => ?_, fun u hu => ?_⟩
    · rw [hcon.1] at hh
      cases hh
    · rw [hcon.2] at hu
      cases hu

theorem searchLinks_exact_iff (hs : Standing cs s) (hpos : q.arity ≠ 0) :
    (∃ r, searchLinks cs s q = some r ∧ ∀ l, l ∈ r ↔ Matches cs s q.toQuery (Asked cs s q) l) ↔
      SearchExact cs s q := by
  have hcond : (cs.isA q.type LINK && q.arity == 0) = false := by simp [hpos]
  have hfilters : (q.type ≠ ATOM ∨ q.subclass = false) ↔ ¬ (q.type = ATOM ∧ q.subclass = true) := by
    rw [not_and_or, Bool.not_eq_true]
  have hnil : (∃ i, handleSetAt cs s q i = some []) ↔
      ∃ i, Constrained s q i ∧ ∀ l, ¬ Candidate cs s q i l :=
    exists_congr fun i => handleSetAt_eq_nil_iff hs
  rw [searchLinks_eq hcond]
  unfold SearchExact
  by_cases hempty : ∃ i, Constrained s q i ∧ ∀ l, ¬ Candidate cs s q i l
  · rw [if_pos (hnil.mpr hempty)]
    refine iff_of_true ⟨[], rfl, fun l => ?_⟩ (.inr (.inl hempty))
    obtain ⟨i, -, hnone⟩ := hempty
    exact iff_of_false List.not_mem_nil fun hm => hnone l (hm.candidate i)
  rw [if_neg (mt hnil.mp hempty)]
  by_cases hall : ∀ i, Constrained s q i
  · have hsome : ∃ i, Constrained s q i :=
      ⟨⟨0, Nat.pos_of_ne_zero fun h => hpos (Fin.ext h)⟩, hall _⟩
    have hfull : ¬ (newset cs s q).length < q.arity := fun h => by
      obtain ⟨i, hi⟩ := length_newset_lt_iff.mp h
      exact hi (hall i)
    rw [if_neg fun h => hfull h.2]
    exact iff_of_true ⟨_, rfl, mem_searched hs hsome⟩ (.inl hall)
  have hleft : (newset cs s q).length < q.arity := length_newset_lt_iff.mpr (not_forall.mp hall)
  by_cases hatom : q.type = ATOM ∧ q.subclass = true
  · rw [if_neg fun h => hfilters.mp h.1 hatom]
    by_cases hsome : ∃ i, Constrained s q i
    · exact iff_of_true ⟨_, rfl, mem_searched hs hsome⟩ (.inr (.inr ⟨hatom, .inl hsome⟩))
    · have hopen : ∀ i, ¬ Constrained s q i := not_exists.mp hsome
      have htype : ∀ {l t o}, s.Has l t (.link o) → typeMatches cs q.type q.subclass t = true := by
        intro l t o ho
        simp [typeMatches, hatom.1, hatom.2, cs.link_isA_atom t (hs.inv.typed ho).1]
      have hmatches : (∀ l, l ∈ searched cs s q ↔ Matches cs s q.toQuery (Asked cs s q) l) ↔
          NoLinkOfArity s q.arity := by
        rw [searched_eq_nil hopen]
        simp only [List.not_mem_nil, false_iff, matches_open_iff hopen]
        constructor
        · intro hnone l t o ho hlen
          exact hnone l ⟨t, o, ho, htype ho, hlen⟩
        · rintro hnone l ⟨t, o, ho, -, hlen⟩
          exact hnone l t o ho hlen
      simp only [Option.some.injEq, exists_eq_left', hmatches, hall, hempty, hatom, hsome,
        false_or, and_self, true_and]
  · rw [if_pos ⟨hfilters.mpr hatom, hleft⟩]
    refine iff_of_false ?_ ?_
    · rintro ⟨r, hr, -⟩
      cases hr
    · rintro (h | h | h)
      · exact hall h
      · exact hempty h
      · exact hatom h.1

theorem findsMatches_iff (hs : Standing cs s) (hf : Filed cs s) :
    FindsMatches cs s q ↔ HandlesAnswered cs s q := by
  unfold FindsMatches HandlesAnswered getHandleSetByHandles
  by_cases hspecial : isSpecialCase cs s q = true
  · simp only [if_pos hspecial, Option.some.injEq, exists_eq_left']
    exact findLink_matches_iff hs.inv hf hspecial
  simp only [if_neg hspecial]
  by_cases h0 : q.arity = 0
  · rw [if_pos h0]
    obtain ⟨r, hr, -, hiff⟩ := searchLinks_arity_zero hs h0
    rw [← hiff, hr]
    simp only [Option.some.injEq, exists_eq_left']
  · rw [if_neg h0]
    exact searchLinks_exact_iff hs h0

end Handles

/-! ## By names -/

def FindsNamed (cs : ClassServer) (s : AtomTable TV) (q : NameQuery) : Prop :=
  ∃ r, getHandleSetByNames cs s q = some r ∧
    ∀ l, l ∈ r ↔ Matches cs s q.toQuery (AskedName cs s q) l

/-- Constrained, without a candidate, and forgotten for a wildcard elsewhere. -/
def Dropped (cs : ClassServer) (s : AtomTable TV) (q : NameQuery) (i : Fin q.arity) : Prop :=
  ¬ Wildcard q i ∧ (∃ j, Wildcard q j) ∧ ∀ l, ¬ NameCandidate cs s q i l

/-- When the lookup by names is right. -/
structure NamesAnswered (cs : ClassServer) (s : AtomTable TV) (q : NameQuery) : Prop where
  named : ∀ i, q.nameAt i ≠ none → q.typeAt i ≠ none
  /-- Where a position is dropped, no link is in the lists of all that are kept. -/
  dropped : (∃ i, Dropped cs s q i) →
    ∀ l, (∃ i, Kept cs s q i) → ∃ i, Kept cs s q i ∧ ¬ NameCandidate cs s q i l
  /-- Where none is dropped, no link gets through for the empty name. -/
  unnamed : (¬ ∃ i, Dropped cs s q i) → (∃ i, ¬ Wildcard q i) →
    ∀ l, (∀ i, ¬ Wildcard q i → NameCandidate cs s q i l) → ∀ i, ¬ Astray cs s q i l
  /-- Where nothing is asked for, there is nothing to find. -/
  nothing : (¬ ∃ i, ¬ Wildcard q i) → ∀ l t o, s.Has l t (.link o) →
    typeMatches cs q.type q.subclass t = true → o.length ≠ q.arity

section Names
variable {cs : ClassServer} {s : AtomTable TV} {q : NameQuery} {l : Handle}

/-- A match has its member at every position that is constrained. -/
theorem matches_iff_fits (hsome : ∃ i, ¬ Wildcard q i) :
    Matches cs s q.toQuery (AskedName cs s q) l ↔ ∀ i, ¬ Wildcard q i → Fits cs s q i l := by
  constructor
  · rintro ⟨t, o, ho, htype, hlen, hall⟩ i -
    exact ⟨t, o, ho, htype, hlen, hall i⟩
  · intro hall
    obtain ⟨j, hj⟩ := hsome
    obtain ⟨t, o, ho, htype, hlen, -⟩ := hall j hj
    refine ⟨t, o, ho, htype, hlen, fun i => ?_⟩
    by_cases hi : Wildcard q i
    · have hlt : i.val < o.length := lt_of_lt_of_eq i.isLt hlen.symm
      refine ⟨o[i.val], List.getElem?_eq_getElem hlt, fun name hname => ?_, fun u hu => ?_⟩
      · rw [hi.1] at hname
        cases hname
      · rw [hi.2] at hu
        cases hu
    · obtain ⟨u, p, hp, -, -, hmember⟩ := hall i hi
      obtain rfl := Body.link.inj (Prod.mk.inj (Option.some.inj (ho.2.symm.trans hp.2))).2
      exact hmember

/-- A member is not both a node and a link. -/
theorem not_fits_of_astray {i : Fin q.arity} (h : Astray cs s q i l) : ¬ Fits cs s q i l := by
  rintro ⟨t, o, ho, -, -, x, hx, hnode, -⟩
  obtain ⟨u, p, hp, -, -, y, hy, ⟨name, hname, -⟩, ⟨c, r, hlink⟩, -⟩ := h
  obtain rfl := Body.link.inj (Prod.mk.inj (Option.some.inj (ho.2.symm.trans hp.2))).2
  obtain rfl := Option.some.inj (hx.symm.trans hy)
  obtain ⟨d, hd⟩ := hnode name hname
  cases (Prod.mk.inj (Option.some.inj (hd.2.symm.trans hlink.2))).2

theorem kept_iff_of_not_dropped (h : ¬ ∃ i, Dropped cs s q i) (i : Fin q.arity) :
    Kept cs s q i ↔ ¬ Wildcard q i := by
  refine ⟨And.left, fun hi => ⟨hi, fun hj => ?_⟩⟩
  by_contra hnone
  exact h ⟨i, hi, hj, not_exists.mp hnone⟩

/-- Where a position is dropped nothing matches. -/
theorem no_match_of_dropped {i : Fin q.arity} (hi : Dropped cs s q i) (l : Handle) :
    ¬ Matches cs s q.toQuery (AskedName cs s q) l := fun hm =>
  hi.2.2 l (.inl ((matches_iff_fits ⟨i, hi.1⟩).mp hm i hi.1))

theorem matches_wild_iff (hwild : ¬ ∃ i, ¬ Wildcard q i) :
    Matches cs s q.toQuery (AskedName cs s q) l ↔ ∃ t o, s.Has l t (.link o) ∧
      typeMatches cs q.type q.subclass t = true ∧ o.length = q.arity := by
  constructor
  · rintro ⟨t, o, ho, htype, hlen, -⟩
    exact ⟨t, o, ho, htype, hlen⟩
  · rintro ⟨t, o, ho, htype, hlen⟩
    refine ⟨t, o, ho, htype, hlen, fun i => ?_⟩
    have hi : Wildcard q i := not_not.mp (not_exists.mp hwild i)
    have hlt : i.val < o.length := lt_of_lt_of_eq i.isLt hlen.symm
    refine ⟨o[i.val], List.getElem?_eq_getElem hlt, fun name hname => ?_, fun u hu => ?_⟩
    · rw [hi.1] at hname
      cases hname
    · rw [hi.2] at hu
      cases hu

/-- The lists that are kept against the matches. -/
theorem kept_matches_iff (hnamed : ∀ i, q.nameAt i ≠ none → q.typeAt i ≠ none) :
    (∀ l, ((∃ i, Kept cs s q i) ∧ ∀ i, Kept cs s q i → NameCandidate cs s q i l) ↔
      Matches cs s q.toQuery (AskedName cs s q) l) ↔ NamesAnswered cs s q := by
  by_cases hdropped : ∃ i, Dropped cs s q i
  · obtain ⟨j, hj⟩ := hdropped
    constructor
    · intro hall
      refine ⟨hnamed, fun _ l hkept => ?_, fun h => absurd ⟨j, hj⟩ h, fun h => absurd ⟨j, hj.1⟩ h⟩
      by_contra hno
      push Not at hno
      exact no_match_of_dropped hj l ((hall l).mp ⟨hkept, hno⟩)
    · intro hans l
      refine iff_of_false ?_ (no_match_of_dropped hj l)
      rintro ⟨hkept, hall⟩
      obtain ⟨i, hi, hno⟩ := hans.dropped ⟨j, hj⟩ l hkept
      exact hno (hall i hi)
  simp only [kept_iff_of_not_dropped hdropped]
  by_cases hsome : ∃ i, ¬ Wildcard q i
  · simp only [and_iff_right hsome, matches_iff_fits hsome]
    constructor
    · intro hall
      refine ⟨hnamed, fun h => absurd h hdropped, fun _ _ l hcand i hastray => ?_,
        fun h => absurd hsome h⟩
      by_cases hi : Wildcard q i
      · obtain ⟨-, -, -, -, -, -, -, ⟨name, hname, -⟩, -⟩ := hastray
        rw [hi.1] at hname
        cases hname
      · exact not_fits_of_astray hastray ((hall l).mp hcand i hi)
    · intro hans l
      constructor
      · intro hcand i hi
        exact (hcand i hi).resolve_right (hans.unnamed hdropped hsome l hcand i)
      · intro hfits i hi
        exact .inl (hfits i hi)
  · simp only [matches_wild_iff hsome]
    constructor
    · intro hall
      refine ⟨hnamed, fun h => absurd h hdropped, fun _ h => absurd h hsome,
        fun _ l t o ho htype hlen => ?_⟩
      exact hsome ((hall l).mpr ⟨t, o, ho, htype, hlen⟩).1
    · intro hans l
      refine iff_of_false (fun h => hsome h.1) ?_
      rintro ⟨t, o, ho, htype, hlen⟩
      exact hans.nothing hsome l t o ho htype hlen

theorem findsNamed_iff (hs : Inv cs s) : FindsNamed cs s q ↔ NamesAnswered cs s q := by
  by_cases hnamed : ∀ i, q.nameAt i ≠ none → q.typeAt i ≠ none
  · obtain ⟨r, hr, hmem⟩ := mem_getHandleSetByNames hs hnamed
    rw [← kept_matches_iff hnamed, FindsNamed, hr]
    simp only [Option.some.injEq, exists_eq_left', hmem]
  · refine iff_of_false ?_ fun h => hnamed h.named
    push Not at hnamed
    obtain ⟨i, hname, htype⟩ := hnamed
    rintro ⟨r, hr, -⟩
    rw [getHandleSetByNames_throws hname htype] at hr
    cases hr

end Names

/-- In every table of a run, by handles and by names, the lookup stays within its lists and returns
the matches exactly when the queries are answered. -/
theorem wildcards_answered_iff (cs : ClassServer) (ops : TruthOps TV) (s : AtomTable TV)
    (r : Reachable cs ops (Careful cs) s) :
    (∀ q, FindsMatches cs s q ↔ HandlesAnswered cs s q) ∧
      ∀ q, FindsNamed cs s q ↔ NamesAnswered cs s q :=
  ⟨fun _ => findsMatches_iff r.standing r.filed, fun _ => findsNamed_iff r.standing.inv⟩

theorem wildcards_answered_of_two_atoms :
    (∀ q, FindsMatches ClassServer.script (oneNode.withList [1]) q ↔
        HandlesAnswered ClassServer.script (oneNode.withList [1]) q) ∧
      ∀ q, FindsNamed ClassServer.script (oneNode.withList [1]) q ↔
        NamesAnswered ClassServer.script (oneNode.withList [1]) q :=
  wildcards_answered_iff .script unitOps _ reachable_oneNode

/-- Any list of one member. -/
def anyList : HandleQuery where
  arity := 1
  types := none
  subclasses := none
  type := LIST_LINK
  subclass := true
  handles := none

/-- With a wildcard the type filter runs past the end of the lists. -/
theorem lists_overrun_by_wildcard :
    ¬ ∀ s : AtomTable Unit, Reachable ClassServer.script unitOps (Careful ClassServer.script) s →
      (∀ q, FindsMatches ClassServer.script s q) ∧
        ∀ q : NameQuery, (∀ i, q.nameAt i ≠ none → q.typeAt i ≠ none) →
          FindsNamed ClassServer.script s q := by
  intro hall
  obtain ⟨r, hr, -⟩ := (hall _ reachable_oneNode).1 anyList
  have hopen : ∀ i, handleSetAt ClassServer.script (oneNode.withList [1]) anyList i = none :=
    fun i => rfl
  have hspecial : isSpecialCase ClassServer.script (oneNode.withList [1]) anyList = false := by
    simp [isSpecialCase, anyList]
  rw [getHandleSetByHandles, hspecial, if_neg Bool.false_ne_true,
    searchLinks_eq (by simp [anyList]), if_neg (by simp [hopen]), if_pos] at hr
  · cases hr
  · refine ⟨.inl (by decide), length_newset_lt_iff.mpr ⟨⟨0, by decide⟩, ?_⟩⟩
    simp [@constrained_iff Unit ClassServer.script, hopen]

end AtomTable

end OpenCog
